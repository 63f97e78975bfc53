import PixelPipeline.Proofs.Blend.Entry
import PixelPipeline.Proofs.Lowering.Acceptance
import PixelPipeline.Proofs.Lowering.Program

/-!
# Blend programs can be lowered

Whatever the state, its blend program finds storage: the entry uses one register
and at most seven slots, a helper at most one register more and five
temporaries, and no helper calls another.  Every branch leads to a later block.
-/

namespace PixelPipeline.Blend

open Ir Machine Storage

variable {s : PipelineState} {f : Frame} {m : Module} {expand : Expander} {st : Storage}
  {slots : List Nat}

/-! ## Helpers -/

/-- The first `n` parameters are arrays whose four lanes can be addressed. -/
def Vectors (f : Frame) (n : Nat) : Prop :=
  ∀ i, i < n → ∀ lane, lane < 4 → ∃ slot, f.slotOf (.param i) lane = .ok slot

/-- A routine that receives references only has an array for every parameter. -/
theorem vectors_above (routine : Routine) (st : Storage) (onReturn : Op Target) {n : Nat}
    (hparams : routine.params = List.replicate n .vec4Ptr) (hslots : slots.length = n) :
    Vectors (.above routine (slots.map .slot) onReturn st) n := by
  intro i hi lane hlane
  have hkind : routine.params[i]? = some .vec4Ptr := by
    rw [hparams, List.getElem?_replicate, if_pos hi]
  have hbinding : (slots.map Binding.slot)[i]? = some (.slot slots[i]) := by
    rw [List.getElem?_map, List.getElem?_eq_getElem]
    rfl
  refine ⟨slots[i], ?_⟩
  simp only [Frame.slotOf, Frame.array?, Frame.above, hkind, hbinding]
  exact if_pos hlane

/-- The value of a factor helper names its parameters only, and perhaps its
variable. -/
theorem scaledValue_named (vectors : Vectors f 5) (factor : BlendFactor) {lane : Nat}
    (hlane : lane < 4)
    (hvar : factor = .srcAlphaSaturate → ∃ r, f.registerOfVar saturateVar = .ok r) :
    (scaledValue factor lane).Named f ∧ (scaledValue factor lane).temps ≤ 5 := by
  have scaled := vectors 1 (by decide) lane hlane
  have source := vectors 2 (by decide) lane hlane
  have destination := vectors 3 (by decide) lane hlane
  have constant := vectors 4 (by decide) lane hlane
  have sourceAlpha := vectors 2 (by decide) 3 (by decide)
  have destinationAlpha := vectors 3 (by decide) 3 (by decide)
  have constantAlpha := vectors 4 (by decide) 3 (by decide)
  cases factor with
  | zero => exact ⟨trivial, by simp [scaledValue, Value.temps]⟩
  | one => exact ⟨scaled, by simp [scaledValue, multiplier?, Value.temps]⟩
  | srcColor => exact ⟨⟨scaled, source⟩, by simp [scaledValue, multiplier?, Value.temps]⟩
  | dstColor => exact ⟨⟨scaled, destination⟩, by simp [scaledValue, multiplier?, Value.temps]⟩
  | constantColor => exact ⟨⟨scaled, constant⟩, by simp [scaledValue, multiplier?, Value.temps]⟩
  | srcAlpha => exact ⟨⟨scaled, sourceAlpha⟩, by simp [scaledValue, multiplier?, Value.temps]⟩
  | dstAlpha => exact ⟨⟨scaled, destinationAlpha⟩, by simp [scaledValue, multiplier?, Value.temps]⟩
  | constantAlpha =>
      exact ⟨⟨scaled, constantAlpha⟩, by simp [scaledValue, multiplier?, Value.temps]⟩
  | oneMinusSrcColor => exact ⟨⟨scaled, trivial, source⟩, Nat.le_refl _⟩
  | oneMinusDstColor => exact ⟨⟨scaled, trivial, destination⟩, Nat.le_refl _⟩
  | oneMinusConstantColor => exact ⟨⟨scaled, trivial, constant⟩, Nat.le_refl _⟩
  | oneMinusSrcAlpha => exact ⟨⟨scaled, trivial, sourceAlpha⟩, Nat.le_refl _⟩
  | oneMinusDstAlpha => exact ⟨⟨scaled, trivial, destinationAlpha⟩, Nat.le_refl _⟩
  | oneMinusConstantAlpha => exact ⟨⟨scaled, trivial, constantAlpha⟩, Nat.le_refl _⟩
  | srcAlphaSaturate =>
      exact ⟨⟨scaled, hvar rfl⟩, by simp [scaledValue, multiplier?, Value.temps]⟩

/-- Stores into lanes name what the frame has. -/
theorem stores_plain (room : Nat) {result : ArrayRef} {value : Nat → Value} {lanes : List Nat}
    (hresult : ∀ l ∈ lanes, ∃ slot, f.slotOf result l = .ok slot)
    (hvalue : ∀ l ∈ lanes, (value l).Named f ∧ (value l).temps ≤ room) :
    ∀ stmt ∈ lanes.map fun l => Stmt.assign (.lane result l) (value l),
      ∃ dst v, stmt = .assign dst v ∧ dst.Named f ∧ v.Named f ∧ v.temps ≤ room := by
  intro stmt hmem
  obtain ⟨l, hl, rfl⟩ := List.mem_map.mp hmem
  exact ⟨_, _, rfl, hresult l hl, (hvalue l hl).1, (hvalue l hl).2⟩

/-- The blocks of a factor helper are plain. -/
theorem factor_plain {name : String} {factor : BlendFactor} {lanes : List Nat}
    (hlanes : ∀ l ∈ lanes, l < 4) (hslots : slots.length = 5) {k : Nat} {b : Block}
    (hk : (factorRoutine name factor lanes).blocks[k]? = some b) :
    b.Plain (.above (factorRoutine name factor lanes) (slots.map .slot) (.jump .exit) st) 5 k := by
  have hparams : (factorRoutine name factor lanes).params = List.replicate 5 .vec4Ptr := by
    simp only [factorRoutine]
    split <;> rfl
  have vectors := vectors_above _ st (.jump .exit) hparams hslots
  have result : ∀ l ∈ lanes, ∃ slot, Frame.slotOf (.above (factorRoutine name factor lanes)
      (slots.map .slot) (.jump .exit) st) FactorRoutine.result l = .ok slot := fun l hl =>
    vectors 0 (by decide) l (hlanes l hl)
  by_cases hsaturate : factor = .srcAlphaSaturate
  · subst hsaturate
    have hvar : ∃ r, Frame.registerOfVar (.above (factorRoutine name .srcAlphaSaturate lanes)
        (slots.map .slot) (.jump .exit) st) saturateVar = .ok r := ⟨st.registerTop, rfl⟩
    have alpha := vectors 2 (by decide) 3 (by decide)
    have room := vectors 3 (by decide) 3 (by decide)
    have stores := stores_plain 5 result fun l hl =>
      scaledValue_named vectors .srcAlphaSaturate (hlanes l hl) fun _ => hvar
    have later : ∀ {i j : Nat}, i < j → j < 4 → i < j ∧ j < (Frame.above
        (factorRoutine name .srcAlphaSaturate lanes) (slots.map .slot) (.jump .exit)
        st).routine.blocks.length := fun hij hj => ⟨hij, hj⟩
    rcases k with _ | _ | _ | _ | k
    · obtain rfl := Option.some.inj hk
      exact ⟨⟨_, rfl, ⟨alpha, ⟨trivial, room⟩, later (by decide) (by decide),
        later (by decide) (by decide)⟩, by decide⟩, by simp⟩
    · obtain rfl := Option.some.inj hk
      refine ⟨⟨_, rfl, later (by decide) (by decide), Nat.zero_le _⟩, fun stmt hmem => ?_⟩
      obtain rfl := List.mem_singleton.mp hmem
      exact ⟨_, _, rfl, hvar, alpha, by decide⟩
    · obtain rfl := Option.some.inj hk
      refine ⟨⟨_, rfl, later (by decide) (by decide), Nat.zero_le _⟩, fun stmt hmem => ?_⟩
      obtain rfl := List.mem_singleton.mp hmem
      exact ⟨_, _, rfl, hvar, ⟨trivial, room⟩, by decide⟩
    · obtain rfl := Option.some.inj hk
      exact ⟨⟨_, rfl, trivial, Nat.zero_le _⟩, stores⟩
    · cases hk
  · have hblocks : (factorRoutine name factor lanes).blocks
        = [⟨lanes.map fun l => .assign (.lane FactorRoutine.result l) (scaledValue factor l),
          some .ret⟩] := by
      simp only [factorRoutine, if_neg hsaturate]
    rw [hblocks] at hk
    obtain ⟨rfl, rfl⟩ : k = 0 ∧ _ = b := by
      cases k with
      | zero => exact ⟨rfl, by simpa using hk⟩
      | succ k => simp at hk
    exact ⟨⟨_, rfl, trivial, Nat.zero_le _⟩, stores_plain 5 result fun l hl =>
      scaledValue_named vectors factor (hlanes l hl) fun h => absurd h hsaturate⟩

/-- Choosing takes three blocks for each lane and one to return. -/
theorem length_chooseBlocks (op : CmpOp) (first : Nat) (lanes : List Nat) :
    (chooseBlocks op first lanes).length = 3 * lanes.length + 1 := by
  induction lanes generalizing first with
  | nil => rfl
  | cons l rest ih =>
      simp only [chooseBlocks, List.length_cons, ih]
      omega

/-- The blocks of a lane lead to the next three. -/
theorem chooseBlocks_plain (vectors : Vectors f 3) {op : CmpOp} {first : Nat} {lanes : List Nat}
    (hlanes : ∀ l ∈ lanes, l < 4)
    (hcount : first + (chooseBlocks op first lanes).length ≤ f.routine.blocks.length) {k : Nat}
    {b : Block} (hk : (chooseBlocks op first lanes)[k]? = some b) : b.Plain f 5 (first + k) := by
  induction lanes generalizing first k with
  | nil =>
      obtain ⟨rfl, rfl⟩ : k = 0 ∧ _ = b := by
        cases k with
        | zero => exact ⟨rfl, by simpa [chooseBlocks] using hk⟩
        | succ k => simp [chooseBlocks] at hk
      exact ⟨⟨_, rfl, trivial, Nat.zero_le _⟩, by simp⟩
  | cons l rest ih =>
      have hl := hlanes l List.mem_cons_self
      have result := vectors 0 (by decide) l hl
      have source := vectors 1 (by decide) l hl
      have destination := vectors 2 (by decide) l hl
      rw [length_chooseBlocks, List.length_cons] at hcount
      rcases k with _ | _ | _ | k
      · obtain rfl := Option.some.inj hk
        exact ⟨⟨_, rfl, ⟨source, destination, by omega, by omega⟩,
          by simp [Terminator.temps, Value.temps]⟩, by simp⟩
      · obtain rfl := Option.some.inj hk
        refine ⟨⟨_, rfl, ⟨by omega, by omega⟩, Nat.zero_le _⟩, fun stmt hmem => ?_⟩
        obtain rfl := List.mem_singleton.mp hmem
        exact ⟨_, _, rfl, result, source, by simp [Value.temps]⟩
      · obtain rfl := Option.some.inj hk
        refine ⟨⟨_, rfl, ⟨by omega, by omega⟩, Nat.zero_le _⟩, fun stmt hmem => ?_⟩
        obtain rfl := List.mem_singleton.mp hmem
        exact ⟨_, _, rfl, result, destination, by simp [Value.temps]⟩
      · have hrest : first + 3 + (chooseBlocks op (first + 3) rest).length
            ≤ f.routine.blocks.length := by
          rw [length_chooseBlocks]
          omega
        have := ih (fun l hl => hlanes l (List.mem_cons_of_mem _ hl)) hrest hk
        rwa [Nat.add_assoc, Nat.add_comm 3] at this

/-- The blocks of an equation helper are plain. -/
theorem equation_plain {name : String} {equation : BlendEquation} {lanes : List Nat}
    (hlanes : ∀ l ∈ lanes, l < 4) (hslots : slots.length = 3) {k : Nat} {b : Block}
    (hk : (equationRoutine name equation lanes).blocks[k]? = some b) :
    b.Plain (.above (equationRoutine name equation lanes) (slots.map .slot) (.jump .exit) st) 5
      k := by
  have vectors := vectors_above (equationRoutine name equation lanes) st (.jump .exit) rfl hslots
  have compute : ∀ {op : BinOp} {swapped : Bool}, EquationShape.of equation = .compute op swapped →
      b.Plain (.above (equationRoutine name equation lanes) (slots.map .slot) (.jump .exit) st) 5
        k := by
    intro op swapped hshape
    simp only [equationRoutine, hshape] at hk
    obtain ⟨rfl, rfl⟩ : k = 0 ∧ _ = b := by
      cases k with
      | zero => exact ⟨rfl, by simpa using hk⟩
      | succ k => simp at hk
    refine ⟨⟨_, rfl, trivial, Nat.zero_le _⟩, stores_plain 5 (fun l hl =>
      vectors 0 (by decide) l (hlanes l hl)) fun l hl => ?_⟩
    have source := vectors 1 (by decide) l (hlanes l hl)
    have destination := vectors 2 (by decide) l (hlanes l hl)
    cases swapped with
    | true => exact ⟨⟨destination, source⟩, by simp [Value.temps]⟩
    | false => exact ⟨⟨source, destination⟩, by simp [Value.temps]⟩
  have choose : ∀ {op : CmpOp}, EquationShape.of equation = .choose op →
      b.Plain (.above (equationRoutine name equation lanes) (slots.map .slot) (.jump .exit) st) 5
        k := by
    intro op hshape
    have hblocks : (equationRoutine name equation lanes).blocks = chooseBlocks op 0 lanes := by
      simp only [equationRoutine, hshape]
    rw [hblocks] at hk
    have hcount : 0 + (chooseBlocks op 0 lanes).length ≤ (Frame.above
        (equationRoutine name equation lanes) (slots.map .slot) (.jump .exit)
        st).routine.blocks.length := by
      rw [Nat.zero_add, Frame.above, hblocks]
    have := chooseBlocks_plain vectors hlanes hcount hk
    rwa [Nat.zero_add] at this
  cases equation with
  | add | subtract | reverseSubtract => exact compute rfl
  | min | max => exact choose rfl

/-- The block of a mask helper is plain. -/
theorem mask_plain {mask : ColorMask} (hslots : slots.length = 2) {k : Nat} {b : Block}
    (hk : (maskRoutine mask).blocks[k]? = some b) :
    b.Plain (.above (maskRoutine mask) (slots.map .slot) (.jump .exit) st) 5 k := by
  have vectors := vectors_above (maskRoutine mask) st (.jump .exit) rfl hslots
  obtain ⟨rfl, rfl⟩ : k = 0 ∧ _ = b := by
    cases k with
    | zero => exact ⟨rfl, by simpa [maskRoutine] using hk⟩
    | succ k => simp [maskRoutine] at hk
  refine ⟨⟨_, rfl, trivial, Nat.zero_le _⟩, fun stmt hmem => ?_⟩
  obtain ⟨lane, -, rfl⟩ := List.mem_map.mp hmem
  exact ⟨_, _, rfl, vectors 0 (by decide) lane lane.isLt, vectors 1 (by decide) lane lane.isLt,
    by simp [Value.temps]⟩

/-- How many arrays a helper receives. -/
def Helper.arity : Helper → Nat
  | .rgbFactor _ | .alphaFactor _ => 5
  | .rgbEquation _ | .alphaEquation _ => 3
  | .mask _ => 2

/-- A helper receives arrays of four lanes and owns at most one variable. -/
theorem helper_shape (h : Helper) : h.routine.params = List.replicate h.arity .vec4Ptr ∧
    h.routine.temps = 0 ∧ h.routine.vars ≤ 1 := by
  cases h with
  | rgbFactor factor | alphaFactor factor =>
      simp only [Helper.routine, Helper.arity, factorRoutine]
      split <;> exact ⟨rfl, rfl, by simp⟩
  | rgbEquation equation | alphaEquation equation | mask mask => exact ⟨rfl, rfl, Nat.zero_le 1⟩

/-- **Every helper is accepted** wherever one register and five temporaries are
left. -/
theorem helper_accepts (hrestores : expand.Restores) (h : Helper) (hslots : slots.length = h.arity)
    (hroom : st.registerTop + 6 ≤ maxRegisters) :
    ∃ placed t, (lowerRoutine m expand h.routine (slots.map .slot) (.jump .exit)).Yields st placed
      t ∧ PlacedCode.Leads (placed.length + 1) placed := by
  obtain ⟨-, htemps, hvars⟩ := helper_shape h
  refine lowerRoutine_accepts_plain 5 hrestores (.inl htemps) (by omega) fun k b hk => ?_
  cases h with
  | rgbFactor factor => exact factor_plain (by decide) hslots hk
  | alphaFactor factor => exact factor_plain (by decide) hslots hk
  | rgbEquation equation => exact equation_plain (by decide) hslots hk
  | alphaEquation equation => exact equation_plain (by decide) hslots hk
  | mask mask => exact mask_plain hslots hk

/-! ## The entry -/

/-- Where the entry's parameters live. -/
def Entry.bindings : List Binding := [.slot 0, .slot 1, .slot 2, .register 0, .slot 3]

/-- The storage when the entry's parameters are bound. -/
def Entry.storage (id : Nat) : Storage := ⟨1, 1, 1, 4, 4, [id]⟩

/-- The frame of the entry. -/
def entryFrame (s : PipelineState) (id : Nat) : Frame :=
  .above (entryRoutine s) Entry.bindings .ret (Entry.storage id)

/-- The arrays of a call have slots, as many as the helper receives. -/
theorem calls_named {c : HelperCall} (hmem : c ∈ calls s) (id : Nat) :
    c.args.length = c.helper.arity ∧
      ∃ slots,
        List.Forall₂ (fun a slot => (entryFrame s id).slotOf a 3 = .ok slot) c.args slots := by
  by_cases hactive : s.blendingActive = true
  · have temp : ∀ i, i < 3 → (entryFrame s id).slotOf (.temp i) 3 = .ok (4 + i) := by
      intro i hi
      have htemps : (entryFrame s id).temps[i]? = some (4 + i) := by
        have : (entryFrame s id).temps = List.range' 4 3 := by
          simp only [entryFrame, Frame.above, entryRoutine, if_pos hactive, Entry.storage]
        rw [this, List.getElem?_range' hi, Nat.one_mul]
      simp only [Frame.slotOf, Frame.array?, htemps]
      rfl
    have res := temp 0 (by decide)
    have org := temp 1 (by decide)
    have combined := temp 2 (by decide)
    rw [calls_eq hactive] at hmem
    simp only [List.mem_cons, List.not_mem_nil, or_false] at hmem
    obtain rfl | rfl | rfl | rfl | rfl | rfl | rfl := hmem
    · exact ⟨rfl, _, .cons res (.cons rfl (.cons rfl (.cons rfl (.cons rfl .nil))))⟩
    · exact ⟨rfl, _, .cons org (.cons rfl (.cons rfl (.cons rfl (.cons rfl .nil))))⟩
    · exact ⟨rfl, _, .cons res (.cons rfl (.cons rfl (.cons rfl (.cons rfl .nil))))⟩
    · exact ⟨rfl, _, .cons org (.cons rfl (.cons rfl (.cons rfl (.cons rfl .nil))))⟩
    · exact ⟨rfl, _, .cons combined (.cons res (.cons org .nil))⟩
    · exact ⟨rfl, _, .cons combined (.cons res (.cons org .nil))⟩
    · exact ⟨rfl, _, .cons rfl (.cons combined .nil)⟩
  · simp only [calls, if_neg hactive, List.mem_cons, List.not_mem_nil, or_false] at hmem
    subst hmem
    exact ⟨rfl, _, .cons rfl (.cons rfl .nil)⟩

/-- Every call of the entry is accepted. -/
theorem call_accepted {c : HelperCall} (hmem : c ∈ calls s) {id : Nat}
    (hid : (helpers s).length = id) {st : Storage} (hpath : st.path = [id])
    (htop : st.registerTop = 1) {exits : Prop} {count index : Nat} :
    Stmt.Accepted (programOf s) (some (expandRoutine (programOf s) 6)) (entryFrame s id) exits count
      index st (c.stmt (helpers s)) := by
  obtain ⟨harity, slots, named⟩ := calls_named hmem id
  have hlength := named.length_eq
  obtain ⟨hparams, -, -⟩ := helper_shape c.helper
  have hnotIn : (helpers s).idxOf c.helper ∉ st.path := by
    have hlt := List.idxOf_lt_length_of_mem (helper_mem hmem)
    rw [hpath, List.mem_singleton]
    omega
  have hroom : { st with path := (helpers s).idxOf c.helper :: st.path }.registerTop + 6
      ≤ maxRegisters := by
    simp only [htop]
    decide
  have hbody := helper_accepts (m := programOf s) (expandRoutine_restores (programOf s) 5) c.helper
    (hlength.symm.trans harity) hroom
  refine Stmt.Accepted.call (routine?_idxOf (helper_mem hmem)) hnotIn
    rfl (by simp [hparams, harity]) (by simp [hlength]) ?_ hbody
  intro i kind arg b hkind harg hb
  rw [hparams, List.getElem?_replicate] at hkind
  rw [List.getElem?_map, Option.map_eq_some_iff] at harg hb
  obtain ⟨array, harray, rfl⟩ := harg
  obtain ⟨slot, hslot, rfl⟩ := hb
  have hkind : kind = .vec4Ptr := by
    split at hkind
    · exact (Option.some.inj hkind).symm
    · cases hkind
  subst hkind
  obtain ⟨hi, rfl⟩ := List.getElem?_eq_some_iff.mp harray
  obtain ⟨hj, rfl⟩ := List.getElem?_eq_some_iff.mp hslot
  exact ⟨_, _, by decide, rfl, named.get hi hj, rfl⟩

/-- **The entry is accepted**: its code stays inside itself and ends in a
return. -/
theorem entry_accepts (s : PipelineState) :
    ∃ placed t, (expandRoutine (programOf s) (maxPath - 1) (entryRoutine s) Entry.bindings
        .ret).Yields (Entry.storage (helpers s).length) placed t ∧
      PlacedCode.Leads placed.length placed ∧ placed.getLast? = some .ret := by
  have hrestores := expandRoutine_restores (programOf s) 6
  have hslots : (entryRoutine s).temps = 0 ∨ 4 + (entryRoutine s).temps ≤ maxSlots := by
    simp only [entryRoutine]
    split <;> decide
  have each : ∀ (k : Nat) (b : Block), (entryRoutine s).blocks[k]? = some b →
      ∀ u, ((Entry.storage (helpers s).length).enter (entryRoutine s)).Restored u → ∃ code t,
        (lowerBlock (programOf s) (some (expandRoutine (programOf s) 6))
          (.above (entryRoutine s) Entry.bindings .ret (Entry.storage (helpers s).length)) k
            b).Yields
          u code t ∧ code ≠ [] ∧
        Fragment.Leads False (entryRoutine s).blocks.length k code.length code :=
    fun k b hk u hu => by
      obtain ⟨rfl, rfl⟩ : k = 0 ∧ _ = b := by
        cases k with
        | zero => exact ⟨rfl, by simpa [entryRoutine] using hk⟩
        | succ k => simp [entryRoutine] at hk
      have htop : u.registerTop = 1 := by
        rw [hu.sameRegisters, registerTop_enter]
        rfl
      refine lowerBlock_accepts hrestores rfl (show Terminator.Named _ _ .ret from trivial)
        (fun _ ht => (List.not_mem_nil ht).elim)
        (by rw [htop]; decide) (fun stmt hmem w hw => ?_) 0
      have hwTop : w.registerTop = 1 := hw.sameRegisters.trans htop
      have hwPath : w.path = [(helpers s).length] := by
        rw [hw.path, hu.path, path_enter]
        rfl
      obtain hmem | hmem := List.mem_append.mp hmem
      · obtain ⟨c, hc, rfl⟩ := List.mem_map.mp hmem
        refine call_accepted hc rfl ?_ ?_
        · exact hwPath
        · exact hwTop
      · split at hmem
        · obtain rfl := List.mem_singleton.mp hmem
          exact .assign ⟨1, rfl⟩ ⟨0, rfl⟩ (by simp only [dropTemps, hwTop]; decide)
        · cases hmem
  obtain ⟨placed, t, hplaced, leads⟩ := lowerRoutine_accepts hrestores hslots (.inl rfl) each
  refine ⟨placed, t, hplaced, fun i op hop d hd => ?_, ?_⟩
  · obtain ⟨hpos, hlt | ⟨hexits, -⟩⟩ := leads i op hop d hd
    · exact ⟨hpos, hlt⟩
    · exact hexits.elim
  · exact lowerRoutine_getLast? hrestores hplaced rfl rfl

/-- **Every state's blend program can be lowered**, to a program with the
parameters of a blend entry. -/
theorem lower_programOf (s : PipelineState) :
    ∃ p, lower (programOf s) = .ok p ∧ p.params = Entry.params.zip Entry.bindings := by
  obtain ⟨placed, t, hplaced, leads, hlast⟩ := entry_accepts s
  obtain ⟨resolved, hresolved⟩ := resolve_accepts leads hlast
  exact ⟨_, lower_ok.mpr ⟨(helpers s).length, entryRoutine s, Entry.bindings,
    ⟨1, 1, 1, 4, 4, []⟩, placed, t, resolved, rfl, routine?_entry, rfl, hplaced, hresolved, rfl⟩,
    rfl⟩

end PixelPipeline.Blend
