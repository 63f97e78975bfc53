import PixelPipeline.Proofs.Draw.Agreement
import PixelPipeline.Proofs.Draw.Locality
import PixelPipeline.Proofs.Image.Channels

/-!
# What a fragment may change

A fragment keeps to its own texels, and in them to the parts that its outcome may
change (`Confined`): a written fragment changes channels that the mask selects, the
depth when depth writes are on, and a stencil value that was tested; a discarded one
at most a stencil value that was tested, and nothing of it outside the write mask.

What a step keeps is said by a reading of texels that gives the same before and after
it (`Keeps`).  For the parts this is shown step by step, from what the formats keep
when they are written; the bits of the stencil value that the mask protects need in
addition that the value is still the one that was tested.
-/

namespace PixelPipeline

/-- Bits outside of the write mask are those of the old value. -/
theorem StencilOp.testBit_apply (op : StencilOp) (value reference : UInt8) {mask : UInt8} {k : Nat}
    (hmask : mask.toNat.testBit k = false) :
    (op.apply value reference mask).toNat.testBit k = value.toNat.testBit k := by
  have hnot : (~~~mask).toNat = 2 ^ 8 - (mask.toNat + 1) := by
    rw [UInt8.toNat_not, Nat.sub_sub, Nat.add_comm 1]
    rfl
  unfold StencilOp.apply
  rw [UInt8.toNat_or, UInt8.toNat_and, UInt8.toNat_and, Nat.testBit_or, Nat.testBit_and,
    Nat.testBit_and, hmask, Bool.and_false, Bool.or_false, hnot,
    Nat.testBit_two_pow_sub_succ mask.toNat_lt, hmask]
  by_cases hk : k < 8
  · simp only [hk, decide_true, Bool.not_false, Bool.and_true]
  · have hpow : 2 ^ 8 ≤ 2 ^ k := Nat.pow_le_pow_right (by decide) (by omega)
    rw [Nat.testBit_lt_two_pow (Nat.lt_of_lt_of_le value.toNat_lt hpow), Bool.false_and]

/-- The value of a success. -/
theorem toOption_eq_some {ε α : Type} {x : Except ε α} {a : α} :
    x.toOption = some a ↔ x = .ok a := by
  cases x with
  | error fault => simp [Except.toOption]
  | ok b => simp [Except.toOption]

/-! ## Readings that stay -/

namespace Texels

variable {α : Type} {read : Handle .image → Bytes → α} {m m' m'' : Texels}

/-- Every texel reads as before. -/
def Keeps (read : Handle .image → Bytes → α) (m m' : Texels) : Prop :=
  ∀ h t, (m' h t).map (read h) = (m h t).map (read h)

theorem Keeps.refl (m : Texels) : Keeps read m m := fun _ _ => rfl

theorem Keeps.trans (hfirst : Keeps read m m') (hrest : Keeps read m' m'') : Keeps read m m'' :=
  fun h t => (hrest h t).trans (hfirst h t)

/-- If a reading is kept, so is every part of it. -/
theorem Keeps.map {β : Type} (hkeeps : Keeps read m m') (part : α → β) :
    Keeps (fun h bytes => part (read h bytes)) m m' := by
  intro h t
  have heq := congrArg (Option.map part) (hkeeps h t)
  rwa [Option.map_map, Option.map_map] at heq

/-- A texel that is there was there before, and read the same. -/
theorem Keeps.exists_old (hkeeps : Keeps read m m') {h : Handle .image} {t : TexelIndex}
    {new : Bytes} (hnew : m' h t = some new) :
    ∃ old, m h t = some old ∧ read h old = read h new := by
  have heq := hkeeps h t
  rw [hnew, Option.map_some] at heq
  exact Option.map_eq_some_iff.mp heq.symm

/-- A texel that was there reads the same. -/
theorem Keeps.read_eq (hkeeps : Keeps read m m') {h : Handle .image} {t : TexelIndex}
    {old new : Bytes} (hold : m h t = some old) (hnew : m' h t = some new) :
    read h new = read h old := by
  have heq := hkeeps h t
  rw [hold, hnew] at heq
  exact Option.some.inj heq

end Texels

open Texels

namespace Scene

/-! ## What may change -/

/-- Outcomes after which a stencil value may have been updated: the test took part,
and the fragment reached it. -/
def UpdatesStencil (q : Scene) (outcome : FragmentOutcome) : Prop :=
  q.state.depthStencil.stencilTest = true ∧ q.stencil.isSome ∧
    outcome ∈ [.written, .discarded .stencilTest, .discarded .depthTest]

/-- The bytes of a texel differ in nothing but what a fragment with this outcome may
change. -/
structure Confined (q : Scene) (f : Fragment) (outcome : FragmentOutcome) (format : Format)
    (old new : Bytes) : Prop where
  channel (i : Fin 4) :
    outcome ≠ .written ∨ q.state.blend.colorMask.channels.get i = false →
      format.code? (.channel i) new = format.code? (.channel i) old
  depth :
    outcome ≠ .written ∨ q.state.depthStencil.depthWrite = false →
      format.code? .depth new = format.code? .depth old
  stencil : ¬ q.UpdatesStencil outcome → format.code? .stencil new = format.code? .stencil old
  /-- Bits that the write mask of the fragment's face protects. -/
  mask (k : Nat) :
    (q.face f).writeMask.toNat.testBit k = false →
      (format.code? .stencil new).map (·.testBit k) = (format.code? .stencil old).map (·.testBit k)

variable {α : Type} {q : Scene} {f : Fragment} {m m' : Texels} {format : Handle .image → Format}
  {p : Part}

/-- A texel that does not change is confined. -/
theorem Confined.refl (q : Scene) (f : Fragment) (outcome : FragmentOutcome) (format : Format)
    (bytes : Bytes) : q.Confined f outcome format bytes bytes where
  channel _ _ := rfl
  depth _ := rfl
  stencil _ := rfl
  mask _ _ := rfl

/-- A fragment that is turned away and updates no stencil value changes no byte. -/
theorem Confined.eq_of_discarded {outcome : FragmentOutcome} {format : Format} {old new : Bytes}
    (hconfined : q.Confined f outcome format old new) (hplain : format.isCompressed = false)
    (hlength : old.length = format.stride) (hlength' : new.length = format.stride)
    (hdiscarded : outcome ≠ .written) (hstencil : ¬ q.UpdatesStencil outcome) : new = old := by
  refine Format.eq_of_codes hplain hlength hlength' fun p => ?_
  cases p with
  | channel i => exact hconfined.channel i (.inl hdiscarded)
  | depth => exact hconfined.depth (.inl hdiscarded)
  | stencil => exact hconfined.stencil hstencil

/-! ## Steps -/

/-- What a change of bytes keeps, the step on texels keeps. -/
theorem revise_keeps {read : Handle .image → Bytes → α} {target : Option Surface}
    {change : Format → Bytes → Option Bytes} (hrevise : revise f target change m = some m')
    (hchange : ∀ s p old new, target = some s → s.spot? f.x f.y = some p → p.read m = some old →
      change p.format old = some new → read p.image new = read p.image old) :
    Keeps read m m' := by
  cases target with
  | none =>
    obtain rfl := Option.some.inj hrevise
    exact .refl m
  | some s =>
    obtain ⟨p, hspot, hrest⟩ := Option.bind_eq_some_iff.mp hrevise
    obtain ⟨old, hread, hrest⟩ := Option.bind_eq_some_iff.mp hrest
    obtain ⟨new, hnew, hrest⟩ := Option.bind_eq_some_iff.mp hrest
    obtain rfl := Option.some.inj hrest
    intro h t
    unfold Spot.write
    by_cases hsame : h = p.image ∧ t = p.texel
    · obtain ⟨rfl, rfl⟩ := hsame
      have hold : m p.image p.texel = some old := hread
      rw [if_pos ⟨rfl, rfl⟩, hold, Option.map_some, Option.map_some,
        hchange s p old new rfl hspot hread hnew]
    · rw [if_neg hsame]

/-- The spot of a target has the format of its image. -/
theorem spot_format (hformat : ∀ s ∈ q.surfaces, s.format = format s.image) {s : Surface}
    {p : Spot} (hmem : s ∈ q.surfaces) (hspot : s.spot? f.x f.y = some p) :
    p.format = format p.image := by
  obtain ⟨-, rfl⟩ := Surface.spot?_eq_some hspot
  exact hformat s hmem

section Steps

variable (hformat : ∀ s ∈ q.surfaces, s.format = format s.image)
include hformat

/-- Blending keeps all but the selected channels. -/
theorem blendColor_keeps {shaded : Color} (hblend : q.blendColor f shaded m = some m')
    (hp : ∀ i, p = .channel i → q.state.blend.colorMask.channels.get i = false) :
    Keeps (fun h => (format h).code? p) m m' := by
  refine revise_keeps hblend fun s spot old new htarget hspot _ hchange => ?_
  rw [← spot_format hformat (mem_surfaces_color htarget) hspot]
  obtain ⟨color, -, hencode⟩ := Option.bind_eq_some_iff.mp hchange
  exact Format.code?_encode_of_unselected (toOption_eq_some.mp hencode) hp

/-- Updating a stencil value keeps all other parts. -/
theorem updateStencil_keeps {tested : Option UInt8} {op : StencilOp}
    (hupdate : q.updateStencil f tested op m = some m') (hp : p ≠ .stencil ∨ tested = none) :
    Keeps (fun h => (format h).code? p) m m' := by
  unfold updateStencil at hupdate
  cases tested with
  | none =>
    obtain rfl := Option.some.inj hupdate
    exact .refl m
  | some value =>
    have hne : p ≠ .stencil := hp.resolve_right (by simp)
    refine revise_keeps hupdate fun s spot old new htarget hspot _ hchange => ?_
    rw [← spot_format hformat (mem_surfaces_stencil htarget) hspot]
    exact Format.code?_writeStencil (toOption_eq_some.mp hchange) hne

/-- Storing the depth keeps all other parts. -/
theorem storeDepth_keeps (hstore : q.storeDepth f m = some m')
    (hp : p ≠ .depth ∨ q.state.depthStencil.depthWrite = false) :
    Keeps (fun h => (format h).code? p) m m' := by
  unfold storeDepth at hstore
  by_cases hwrite : q.state.depthStencil.depthWrite = true
  · have hne : p ≠ .depth := hp.resolve_right (by simp [hwrite])
    rw [if_pos hwrite] at hstore
    refine revise_keeps hstore fun s spot old new htarget hspot _ hchange => ?_
    rw [← spot_format hformat (mem_surfaces_depth htarget) hspot]
    exact Format.code?_writeDepth (toOption_eq_some.mp hchange) hne
  · rw [if_neg hwrite] at hstore
    obtain rfl := Option.some.inj hstore
    exact .refl m

/-- Updating the stencil value that was tested keeps the bits outside of the write
mask, if that value is still there. -/
theorem updateStencil_keeps_mask {tested : Option UInt8} {op : StencilOp}
    (hupdate : q.updateStencil f tested op m = some m')
    (htested : ∀ value, tested = some value → ∀ s p old, q.stencil = some s →
      s.spot? f.x f.y = some p → p.read m = some old →
        p.format.code? .stencil old = some value.toNat)
    {k : Nat} (hmask : (q.face f).writeMask.toNat.testBit k = false) :
    Keeps (fun h bytes => ((format h).code? .stencil bytes).map (·.testBit k)) m m' := by
  unfold updateStencil at hupdate
  cases tested with
  | none =>
    obtain rfl := Option.some.inj hupdate
    exact .refl m
  | some value =>
    refine revise_keeps hupdate fun s spot old new htarget hspot hread hchange => ?_
    have hwrite := toOption_eq_some.mp hchange
    rw [← spot_format hformat (mem_surfaces_stencil htarget) hspot,
      htested value rfl s spot old htarget hspot hread, Format.code?_writeStencil_self hwrite,
      Option.map_some, Option.map_some, StencilOp.testBit_apply op value _ hmask]

end Steps

/-! ## Tested stencil values -/

/-- The stencil value that is tested is the one in the texel. -/
theorem code?_of_storedStencil {value : UInt8} (htested : q.storedStencil f m = some value)
    {s : Surface} {p : Spot} {old : Bytes} (htarget : q.stencil = some s)
    (hspot : s.spot? f.x f.y = some p) (hread : p.read m = some old) :
    p.format.code? .stencil old = some value.toNat := by
  obtain ⟨-, hstored⟩ := Stage.storedStencil_eq_some htested
  rw [htarget] at hstored
  refine Format.code?_of_readStencil? ?_
  simpa [stored, hspot, hread] using hstored

/-- A fragment that reached the stencil test without taking part in it has no stored value. -/
theorem storedStencil_eq_none {outcome : FragmentOutcome}
    (hreaches : outcome ∈ [.written, .discarded .stencilTest, .discarded .depthTest])
    (hnone : ¬ q.UpdatesStencil outcome) : q.storedStencil f m = none := by
  cases htested : q.storedStencil f m with
  | none => rfl
  | some value =>
    obtain ⟨henabled, hstored⟩ := Stage.storedStencil_eq_some htested
    refine (hnone ⟨henabled, ?_, hreaches⟩).elim
    cases htarget : q.stencil with
    | none =>
      rw [htarget] at hstored
      cases hstored
    | some s => rfl

/-- Only the tests update a stencil value when they turn a fragment away. -/
theorem reason_of_update {gate : Gate} {op : StencilOp} (hbarrier : q.barrier? f m = some gate)
    (hupdate : gate.update = some op) :
    gate.reason = .stencilTest ∨ gate.reason = .depthTest := by
  have hmem := List.mem_of_find?_eq_some hbarrier
  simp only [entrance, tests, List.cons_append, List.nil_append, List.mem_cons,
    List.not_mem_nil, or_false] at hmem
  obtain rfl | rfl | rfl | rfl | rfl | rfl := hmem
  · cases hupdate
  · cases hupdate
  · cases hupdate
  · cases hupdate
  · exact .inl rfl
  · exact .inr rfl

/-! ## Whole fragments -/

section Final

variable {shaded : Option Color} (hformat : ∀ s ∈ q.surfaces, s.format = format s.image)
include hformat

/-- What the steps keep that a fragment takes, the fragment keeps.  When the stencil
value is updated, it is still the one that was tested. -/
theorem final_keeps_of_steps {read : Handle .image → Bytes → α}
    (hfinal : q.final f m shaded = some m')
    (hblend : q.outcome f m shaded = .written → ∀ color blended,
      q.blendColor f color m = some blended → Keeps read m blended)
    (hupdate : q.outcome f m shaded ∈ [.written, .discarded .stencilTest, .discarded .depthTest] →
      ∀ op before after, Keeps (fun h => (format h).code? .stencil) m before →
        q.updateStencil f (q.storedStencil f m) op before = some after → Keeps read before after)
    (hstore : q.outcome f m shaded = .written → ∀ before after,
      q.storeDepth f before = some after → Keeps read before after) :
    Keeps read m m' := by
  unfold outcome at hblend hupdate hstore
  unfold final at hfinal
  cases hbarrier : q.barrier? f m with
  | some gate =>
    rw [hbarrier] at hupdate hfinal
    cases hop : gate.update with
    | none =>
      simp only [hop] at hfinal
      obtain rfl := Option.some.inj hfinal
      exact .refl m
    | some op =>
      simp only [hop] at hfinal
      refine hupdate ?_ op m m' (.refl m) hfinal
      obtain hreason | hreason := reason_of_update hbarrier hop <;> simp [hreason]
  | none =>
    rw [hbarrier] at hblend hupdate hstore hfinal
    cases shaded with
    | none =>
      obtain rfl := Option.some.inj hfinal
      exact .refl m
    | some color =>
      obtain ⟨blended, hblended, hrest⟩ := Option.bind_eq_some_iff.mp hfinal
      obtain ⟨passed, hpassed, hstored⟩ := Option.bind_eq_some_iff.mp hrest
      have hfirst := hblend rfl color blended hblended
      have hsecond := hupdate (List.mem_cons_self ..) _ blended passed
        (blendColor_keeps hformat hblended nofun) hpassed
      exact (hfirst.trans hsecond).trans (hstore rfl passed m' hstored)

/-- A part that the outcome does not change is kept. -/
theorem final_keeps (hfinal : q.final f m shaded = some m')
    (hchannel : ∀ i, p = .channel i →
      q.outcome f m shaded ≠ .written ∨ q.state.blend.colorMask.channels.get i = false)
    (hdepth : p = .depth →
      q.outcome f m shaded ≠ .written ∨ q.state.depthStencil.depthWrite = false)
    (hstencil : p = .stencil → ¬ q.UpdatesStencil (q.outcome f m shaded)) :
    Keeps (fun h => (format h).code? p) m m' := by
  refine final_keeps_of_steps hformat hfinal ?blend ?update ?store
  case blend =>
    intro hwritten color blended hblend
    exact blendColor_keeps hformat hblend fun i heq =>
      (hchannel i heq).resolve_left (not_not_intro hwritten)
  case update =>
    intro hreaches op before after _ hupdate
    refine updateStencil_keeps hformat hupdate ?_
    by_cases hp : p = .stencil
    · exact .inr (storedStencil_eq_none hreaches (hstencil hp))
    · exact .inl hp
  case store =>
    intro hwritten before after hstore
    refine storeDepth_keeps hformat hstore ?_
    by_cases hp : p = .depth
    · exact .inr ((hdepth hp).resolve_left (not_not_intro hwritten))
    · exact .inl hp

/-- The bits of the stencil value that the write mask protects are kept. -/
theorem final_keeps_mask (hfinal : q.final f m shaded = some m') {k : Nat}
    (hmask : (q.face f).writeMask.toNat.testBit k = false) :
    Keeps (fun h bytes => ((format h).code? .stencil bytes).map (·.testBit k)) m m' := by
  have hbit : ∀ {before after : Texels}, Keeps (fun h => (format h).code? .stencil) before after →
      Keeps (fun h bytes => ((format h).code? .stencil bytes).map (·.testBit k)) before after :=
    fun hkeeps => hkeeps.map (Option.map (·.testBit k))
  refine final_keeps_of_steps hformat hfinal ?blend ?update ?store
  case blend =>
    intro _ color blended hblend
    exact hbit (blendColor_keeps hformat hblend nofun)
  case update =>
    intro _ op before after hkeeps hupdate
    refine updateStencil_keeps_mask hformat hupdate ?_ hmask
    intro value hvalue s spot bytes htarget hspot hread
    obtain ⟨old, hold, hsame⟩ := hkeeps.exists_old hread
    rw [← spot_format hformat (mem_surfaces_stencil htarget) hspot] at hsame
    exact hsame.symm.trans (code?_of_storedStencil hvalue htarget hspot hold)
  case store =>
    intro _ before after hstore
    exact hbit (storeDepth_keeps hformat hstore (.inl nofun))

/-- **A fragment changes nothing but what its outcome may change.** -/
theorem final_confined (hfinal : q.final f m shaded = some m') {h : Handle .image}
    {t : TexelIndex} {old new : Bytes} (hold : m h t = some old) (hnew : m' h t = some new) :
    q.Confined f (q.outcome f m shaded) (format h) old new where
  channel i hkept := (final_keeps (p := .channel i) hformat hfinal
    (fun _ heq => Part.channel.inj heq ▸ hkept) nofun nofun).read_eq hold hnew
  depth hkept := (final_keeps (p := .depth) hformat hfinal nofun
    (fun _ => hkept) nofun).read_eq hold hnew
  stencil hkept := (final_keeps (p := .stencil) hformat hfinal nofun nofun
    (fun _ => hkept)).read_eq hold hnew
  mask _ hmask := (final_keeps_mask hformat hfinal hmask).read_eq hold hnew

end Final

end Scene

end PixelPipeline
