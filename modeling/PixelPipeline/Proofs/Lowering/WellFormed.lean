import Mathlib.Data.List.Nodup
import Mathlib.Data.List.Zip
import PixelPipeline.Proofs.Lowering.Operands
import PixelPipeline.Proofs.Lowering.Program
import PixelPipeline.Proofs.Machine.WellFormed

/-!
# Lowered programs are well formed

The entry's parameters are bound in order to slots and registers that were free,
so no two of them share one.  From there every name in the emitted code stands
for something that was handed out, and resolving lets jumps lead ahead only: what
is lowered is well formed, and so it returns whatever the machine holds.
-/

namespace PixelPipeline.Ir

open Machine Lower Storage

variable {s t : Storage}

/-! ## Where the entry's parameters are -/

/-- A parameter is where its kind belongs, in something that was taken between
two storages. -/
def TakenBetween (s t : Storage) (kind : ParamKind) : Binding → Prop
  | .slot slot => kind ≠ .scalar ∧ s.slotTop ≤ slot ∧ slot < t.slotTop
  | .register r => kind = .scalar ∧ s.registerTop ≤ r ∧ r < t.registerTop

/-- The tops lie below the peaks. -/
structure Storage.Peaked (s : Storage) : Prop where
  registers : s.registerTop ≤ s.registerPeak
  slots : s.slotTop ≤ s.slotPeak

/-- Parameters raise the tops. -/
theorem allocParams_tops {kinds : List ParamKind} {bindings : List Binding}
    (h : (kinds.mapM allocParam).Yields s bindings t) :
    s.slotTop ≤ t.slotTop ∧ s.registerTop ≤ t.registerTop := by
  induction kinds generalizing s bindings with
  | nil =>
      simp only [List.mapM_nil, yields_pure] at h
      obtain ⟨-, rfl⟩ := h
      exact ⟨Nat.le_refl _, Nat.le_refl _⟩
  | cons kind kinds ih =>
      obtain ⟨_, u, _, hb, hothers, -⟩ := allocParams_cons_yields.mp h
      have htops := ih hothers
      obtain ⟨-, -, -, rfl⟩ | ⟨-, -, -, rfl⟩ := allocParam_yields.mp hb <;>
        simp only [takeSlot, takeRegister] at htops <;> omega

/-- Parameters keep the peaks above the tops. -/
theorem allocParams_peaked {kinds : List ParamKind} {bindings : List Binding}
    (h : (kinds.mapM allocParam).Yields s bindings t) (peaked : s.Peaked) : t.Peaked := by
  induction kinds generalizing s bindings with
  | nil =>
      simp only [List.mapM_nil, yields_pure] at h
      obtain ⟨-, rfl⟩ := h
      exact peaked
  | cons kind kinds ih =>
      obtain ⟨_, u, _, hb, hothers, -⟩ := allocParams_cons_yields.mp h
      refine ih hothers ?_
      obtain ⟨-, -, -, rfl⟩ | ⟨-, -, -, rfl⟩ := allocParam_yields.mp hb
      · exact ⟨peaked.registers, Nat.le_max_right _ _⟩
      · exact ⟨Nat.le_max_right _ _, peaked.slots⟩

/-- Parameters are bound to what was free, each to something of its own. -/
theorem allocParams_distinct {kinds : List ParamKind} {bindings : List Binding}
    (h : (kinds.mapM allocParam).Yields s bindings t) :
    (∀ param ∈ kinds.zip bindings, TakenBetween s t param.1 param.2) ∧ bindings.Nodup := by
  induction kinds generalizing s bindings with
  | nil =>
      simp only [List.mapM_nil, yields_pure] at h
      obtain ⟨rfl, -⟩ := h
      exact ⟨fun _ hparam => absurd hparam List.not_mem_nil, .nil⟩
  | cons kind kinds ih =>
      obtain ⟨b, u, others, hb, hothers, rfl⟩ := allocParams_cons_yields.mp h
      obtain ⟨htaken, hnodup⟩ := ih hothers
      obtain ⟨hslots, hregisters⟩ := allocParams_tops hothers
      have hlength := allocParams_length hothers
      -- what the others take lies above what the first one takes
      have hother : ∀ other ∈ others, ∃ kind, TakenBetween u t kind other := by
        intro other hmem
        obtain ⟨i, hi, rfl⟩ := List.mem_iff_getElem.mp hmem
        have hi' : i < (kinds.zip others).length := by
          rw [List.length_zip]
          omega
        refine ⟨kinds[i], ?_⟩
        simpa using htaken _ (List.getElem_mem hi')
      rw [List.zip_cons_cons, List.forall_mem_cons, List.nodup_cons]
      obtain ⟨hkind, -, rfl, rfl⟩ | ⟨hkind, -, rfl, rfl⟩ := allocParam_yields.mp hb
      · simp only [takeSlot] at hslots hregisters
        refine ⟨⟨⟨hkind, Nat.le_refl _, hslots⟩, fun param hmem => ?_⟩, fun hmem => ?_, hnodup⟩
        · have := htaken param hmem
          obtain ⟨kind, b⟩ := param
          cases b with
          | slot slot => exact ⟨this.1, Nat.le_of_succ_le this.2.1, this.2.2⟩
          | register r => exact this
        · obtain ⟨_, -, habove, -⟩ := hother _ hmem
          exact absurd habove (Nat.not_succ_le_self _)
      · simp only [takeRegister] at hslots hregisters
        refine ⟨⟨⟨hkind, Nat.le_refl _, hregisters⟩, fun param hmem => ?_⟩, fun hmem => ?_, hnodup⟩
        · have := htaken param hmem
          obtain ⟨kind, b⟩ := param
          cases b with
          | slot slot => exact this
          | register r => exact ⟨this.1, Nat.le_of_succ_le this.2.1, this.2.2⟩
        · obtain ⟨_, -, habove, -⟩ := hother _ hmem
          exact absurd habove (Nat.not_succ_le_self _)

/-- How many lanes may be named in a slot: one if a single float is passed by
reference there, and four elsewhere. -/
def lanesOf (params : List (ParamKind × Binding)) (slot : Nat) : Nat :=
  if (.scalarPtr, .slot slot) ∈ params then 1 else 4

/-- No slot has more than four lanes. -/
theorem lanesOf_le (params : List (ParamKind × Binding)) (slot : Nat) :
    lanesOf params slot ≤ 4 := by
  unfold lanesOf
  split <;> omega

section

variable {kinds : List ParamKind} {bindings : List Binding}

/-- Slots that were not free have all lanes when no parameter is there. -/
theorem allocParams_lanesOf (h : (kinds.mapM allocParam).Yields s bindings t) {slot : Nat}
    (hslot : t.slotTop ≤ slot) : 4 ≤ lanesOf (kinds.zip bindings) slot := by
  unfold lanesOf
  split
  case isTrue hmem =>
    obtain ⟨-, -, hlt⟩ := (allocParams_distinct h).1 _ hmem
    exact absurd hslot (Nat.not_le_of_lt hlt)
  case isFalse => exact Nat.le_refl 4

/-- The parameters of the entry have the lanes that their kinds promise. -/
theorem allocParams_promised (h : (kinds.mapM allocParam).Yields s bindings t) (peaked : t.Peaked) :
    List.Forall₂ (Promised (lanesOf (kinds.zip bindings)) t) bindings kinds := by
  obtain ⟨htaken, hnodup⟩ := allocParams_distinct h
  have hlength := allocParams_length h
  refine List.forall₂_iff_zip.mpr ⟨hlength, fun {b kind} hzip => ?_⟩
  have hmem : (kind, b) ∈ kinds.zip bindings := by
    rw [← List.zip_swap]
    exact List.mem_map_of_mem hzip
  have hhere := htaken _ hmem
  cases b with
  | register r => exact Nat.lt_of_lt_of_le hhere.2.2 peaked.registers
  | slot slot =>
      refine ⟨Nat.lt_of_lt_of_le hhere.2.2 peaked.slots, ?_⟩
      unfold lanesOf
      split
      case isTrue hscalar =>
        -- the slot is of one parameter only
        have hsnd : ((kinds.zip bindings).map Prod.snd).Nodup := by
          rwa [List.map_snd_zip (Nat.le_of_eq hlength)]
        have hsame := List.inj_on_of_nodup_map hsnd hmem hscalar rfl
        obtain rfl : kind = .scalarPtr := congrArg Prod.fst hsame
        exact Nat.le_refl 1
      case isFalse => cases kind <;> simp [ParamKind.lanes]

end

/-! ## Finished programs -/

variable {m : Module} {p : Program}

/-- What is lowered is well formed. -/
theorem wellFormed_of_lower (h : lower m = .ok p) : p.WellFormed := by
  have hfits := lower_fits h
  obtain ⟨id, entry, params, u, code, storage, resolved, -, -, hparams, hcode, hresolve, rfl⟩ :=
    lower_ok.mp h
  have peaked : u.Peaked := allocParams_peaked hparams ⟨Nat.le_refl 0, Nat.le_refl 0⟩
  obtain ⟨htaken, hnodup⟩ := allocParams_distinct hparams
  have hlength := allocParams_length hparams
  have grows := (expandRoutine_restored hcode).toGrows
  have hregisters : u.registerTop ≤ storage.registerPeak :=
    Nat.le_trans peaked.registers grows.registerPeak
  have hslots : u.slotTop ≤ storage.slotPeak := Nat.le_trans peaked.slots grows.slotPeak
  have hpromised := (allocParams_promised hparams peaked).imp fun _ _ promised =>
    promised.mono (t := { u with path := [id] }) (Nat.le_refl _) (Nat.le_refl _)
  have hwithin : AllWithin (lanesOf (entry.params.zip params)) storage code :=
    expandRoutine_within (s := { u with path := [id] })
      (fun _ hslot => allocParams_lanesOf hparams hslot) (Nat.le_refl _) hpromised .ret hcode
  obtain ⟨-, hlast, -⟩ := resolve_get hresolve
  have hplaced : AllWithin (lanesOf (entry.params.zip params)) storage resolved := by
    intro op hop
    obtain ⟨i, hi⟩ := List.mem_iff_getElem?.mp hop
    obtain ⟨placed, hmem, rfl, -⟩ := resolve_getElem? hresolve hi
    exact (hwithin placed hmem).mapTargets _
  refine ⟨?_, fun i op hop => ?_, fun op hop => ?_, fun op hop cell hcell => ?_,
    fun op hop cell hcell => ?_, fun op hop cell hcell hscalar => ?_, hfits.1, hfits.2,
    fun param hmem => ?_, ?_⟩
  · simpa using hlast
  · obtain ⟨_, -, -, hahead⟩ := resolve_getElem? hresolve (i := i) (by simpa using hop)
    simpa using hahead
  · exact (hplaced op (by simpa using hop)).registers
  · exact ((hplaced op (by simpa using hop)).cells cell hcell).1
  · exact Nat.lt_of_lt_of_le ((hplaced op (by simpa using hop)).cells cell hcell).2 (lanesOf_le _ _)
  · have hlane := ((hplaced op (by simpa using hop)).cells cell hcell).2
    rw [lanesOf, if_pos hscalar] at hlane
    exact Nat.lt_one_iff.mp hlane
  · have hhere := htaken param hmem
    obtain ⟨kind, b⟩ := param
    cases b with
    | slot slot => exact ⟨hhere.1, Nat.lt_of_lt_of_le hhere.2.2 hslots⟩
    | register r => exact ⟨hhere.1, Nat.lt_of_lt_of_le hhere.2.2 hregisters⟩
  · rwa [List.map_snd_zip (Nat.le_of_eq hlength)]

/-- **Whatever is lowered is well formed and returns**: from any contents of the
machine, with every access checked, in at most one step for each operation.  The
parameters it is well formed for are those of the module's entry. -/
theorem lower_wellFormed (h : lower m = .ok p) : p.WellFormed ∧
    (∃ id entry, m.entry = some id ∧ m.routine? id = some entry ∧
      p.params.map Prod.fst = entry.params) ∧
    ∀ s, ∃ t, runFrom? p.code p.code.size 0 s = some (t, .returned) ∧
      p.run s = (t, .returned) :=
  ⟨wellFormed_of_lower h, lower_params h, (wellFormed_of_lower h).returns⟩

/-- A module whose entry passes an array to a routine that takes a single float
by reference, and has one of its own. -/
def scatter : Module where
  routines :=
    [⟨"put", [.scalarPtr, .scalar], 0, 0,
        [⟨[.assign (.lane (.param 0) 0) (.param 1)], some .ret⟩]⟩,
      ⟨"scatter", [.vec4Ptr, .scalarPtr, .scalar], 0, 0,
        [⟨[.call 0 [.array (.param 0), .value (.param 2)]], some (.jump 1)⟩,
          ⟨[.assign (.lane (.param 1) 0) (.load (.param 0) 3)], some .ret⟩]⟩]
  entry := some 1

/-- The array and the single float have slots of their own, and the value a register. -/
theorem lower_wellFormed_scatter : ∃ p, lower scatter = .ok p ∧ p.WellFormed ∧
    p.params = [(.vec4Ptr, .slot 0), (.scalarPtr, .slot 1), (.scalar, .register 0)] ∧
    ∀ s, ∃ t, runFrom? p.code p.code.size 0 s = some (t, .returned) ∧
      p.run s = (t, .returned) := by
  obtain ⟨p, h, hparams⟩ : ∃ p, lower scatter = .ok p ∧
      p.params = [(.vec4Ptr, .slot 0), (.scalarPtr, .slot 1), (.scalar, .register 0)] :=
    ⟨_, rfl, rfl⟩
  obtain ⟨hwell, -, hreturns⟩ := lower_wellFormed h
  exact ⟨p, h, hwell, hparams, hreturns⟩

end PixelPipeline.Ir
