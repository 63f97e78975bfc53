import Mathlib.Algebra.Order.BigOperators.Group.List
import Mathlib.Algebra.Order.Group.Nat
import Mathlib.Algebra.Ring.Nat
import PixelPipeline.Proofs.Lowering.Resolve
import PixelPipeline.Proofs.Lowering.Routines

/-!
# Lowered programs

The entry's parameters are bound in order, each reference to a slot and each
scalar to a register of its own.  `Entering` follows that binding and the one of
the reference run side by side; from there on the routines of the module do on
the machine what they do in the reference run.

* `Program.Holds` — the machine holds what the parameters start with, and
  anything elsewhere;
* `exists_holds` — every choice of inputs can be held;
* `lower_correct` — a lowered program leaves in every reference parameter what
  the module leaves there.
-/

namespace PixelPipeline.Ir.Reference

open Machine

/-- The machine holds in a parameter's place what it starts with. -/
inductive Input.Held (M : State) : Input → Binding → Prop
  | array {color : Color} {slot : Nat} (held : M.slot slot = color) :
      Held M (.array color) (.slot slot)
  | cell {value : Binary32} {slot : Nat} (held : M.lane slot 0 = value) :
      Held M (.cell value) (.slot slot)
  | scalar {value : Binary32} {register : Nat} (held : M.register register = value) :
      Held M (.scalar value) (.register register)

end PixelPipeline.Ir.Reference

namespace PixelPipeline.Machine

open Ir.Reference

/-- The machine holds the inputs of a program in its parameters. -/
def Program.Holds (p : Program) (inputs : List Input) (M : State) : Prop :=
  List.Forall₂ (Input.Held M) inputs (p.params.map Prod.snd)

/-- Whatever else the machine holds, it returns with each reference parameter
holding what its array holds in a final memory. -/
def Program.Leaves (p : Program) (inputs : List Input) (final : Memory) : Prop :=
  ∀ M, p.Holds inputs M → ∃ N, p.run M = (N, .returned) ∧
    ∀ (i : Nat) (kind : Ir.ParamKind) (binding : Binding),
      p.params[i]? = some (kind, binding) → kind ≠ .scalar → ∃ slot address,
        binding = .slot slot ∧ (Ir.Reference.bind inputs .empty).1[i]? = some (.array address) ∧
        ∀ lane, lane < kind.lanes → final.lanes address lane = some (N.lane slot lane)

end PixelPipeline.Machine

namespace PixelPipeline.Ir

open Machine Reference Lower Storage

/-! ## Binding the entry's parameters -/

variable {st st' : Storage}

/-- A reference gets the next slot, and a scalar the next register. -/
theorem allocParam_yields {kind : ParamKind} {b : Binding} :
    (allocParam kind).Yields st b st' ↔
      (kind ≠ .scalar ∧ st.slotTop < maxSlots ∧ b = .slot st.slotTop ∧ st' = st.takeSlot) ∨
      (kind = .scalar ∧ st.registerTop < maxRegisters ∧ b = .register st.registerTop ∧
        st' = st.takeRegister) := by
  cases kind <;>
    simp only [allocParam, yields_bind, yields_pure, allocSlot_yields, allocRegister_yields, ne_eq,
      reduceCtorEq, not_true_eq_false, not_false_eq_true, true_and, false_and, or_false, false_or]
  case vec4Ptr | scalarPtr =>
      constructor
      · rintro ⟨_, _, ⟨hfit, rfl, rfl⟩, rfl, rfl⟩
        exact ⟨hfit, rfl, rfl⟩
      · rintro ⟨hfit, rfl, rfl⟩
        exact ⟨_, _, ⟨hfit, rfl, rfl⟩, rfl, rfl⟩
  case scalar =>
      constructor
      · rintro ⟨_, _, ⟨hfit, rfl, rfl⟩, rfl, rfl⟩
        exact ⟨hfit, rfl, rfl⟩
      · rintro ⟨hfit, rfl, rfl⟩
        exact ⟨_, _, ⟨hfit, rfl, rfl⟩, rfl, rfl⟩

/-- The first parameter is bound before the others. -/
theorem allocParams_cons_yields {kind : ParamKind} {kinds : List ParamKind}
    {bindings : List Binding} :
    ((kind :: kinds).mapM allocParam).Yields st bindings st' ↔
      ∃ b u others, (allocParam kind).Yields st b u ∧ (kinds.mapM allocParam).Yields u others st' ∧
        bindings = b :: others := by
  simp only [List.mapM_cons, yields_bind, yields_pure]
  constructor
  · rintro ⟨b, u, hb, others, _, hothers, rfl, rfl⟩
    exact ⟨b, u, others, hb, hothers, rfl⟩
  · rintro ⟨b, u, others, hb, hothers, rfl⟩
    exact ⟨b, u, hb, others, _, hothers, rfl, rfl⟩

/-- Every parameter is bound. -/
theorem allocParams_length {kinds : List ParamKind} {bindings : List Binding}
    (h : (kinds.mapM allocParam).Yields st bindings st') : bindings.length = kinds.length := by
  induction kinds generalizing st bindings with
  | nil =>
      simp only [List.mapM_nil, yields_pure] at h
      rw [h.1]
      rfl
  | cons kind kinds ih =>
      obtain ⟨_, _, _, -, hothers, rfl⟩ := allocParams_cons_yields.mp h
      rw [List.length_cons, List.length_cons, ih hothers]

/-- The lowering and the reference run bind the same parameters, each in its own
way. -/
inductive Entering : List Input → Memory → Storage → List Binding → List Actual → Memory →
    Storage → Prop
  | nil (mem : Memory) (st : Storage) : Entering [] mem st [] [] mem st
  | reference {input : Input} {inputs : List Input} {mem final : Memory} {st last : Storage}
      {bindings : List Binding} {actuals : List Actual} (kind : input.kind ≠ .scalar)
      (fits : st.slotTop < maxSlots)
      (rest : Entering inputs (mem.push input.lanes) st.takeSlot bindings actuals final last) :
      Entering (input :: inputs) mem st (.slot st.slotTop :: bindings) (.array mem.size :: actuals)
        final last
  | scalar (value : Binary32) {inputs : List Input} {mem final : Memory} {st last : Storage}
      {bindings : List Binding} {actuals : List Actual} (fits : st.registerTop < maxRegisters)
      (rest : Entering inputs mem st.takeRegister bindings actuals final last) :
      Entering (.scalar value :: inputs) mem st (.register st.registerTop :: bindings)
        (.scalar value :: actuals) final last

/-- The lowering binds what the reference run binds. -/
theorem entering_of_yields (mem : Memory) {inputs : List Input} {bindings : List Binding}
    (h : ((inputs.map Input.kind).mapM allocParam).Yields st bindings st') :
    Entering inputs mem st bindings (bind inputs mem).1 (bind inputs mem).2 st' := by
  induction inputs generalizing st mem bindings with
  | nil =>
      simp only [List.map_nil, List.mapM_nil, yields_pure] at h
      obtain ⟨rfl, rfl⟩ := h
      exact .nil mem _
  | cons input inputs ih =>
      rw [List.map_cons] at h
      obtain ⟨b, u, others, hb, hothers, rfl⟩ := allocParams_cons_yields.mp h
      cases input with
      | array color =>
          obtain ⟨hkind, hfit, rfl, rfl⟩ | ⟨⟨⟩, -⟩ := allocParam_yields.mp hb
          exact .reference hkind hfit (ih _ hothers)
      | cell value =>
          obtain ⟨hkind, hfit, rfl, rfl⟩ | ⟨⟨⟩, -⟩ := allocParam_yields.mp hb
          exact .reference hkind hfit (ih _ hothers)
      | scalar value =>
          obtain ⟨hkind, -⟩ | ⟨-, hfit, rfl, rfl⟩ := allocParam_yields.mp hb
          · exact absurd rfl hkind
          · exact .scalar value hfit (ih _ hothers)

namespace Entering

variable {inputs : List Input} {mem final : Memory} {bindings : List Binding}
  {actuals : List Actual} {M : State}

/-- Arrays and slots are taken at the same moments. -/
theorem size (h : Entering inputs mem st bindings actuals final st')
    (hsize : mem.size = st.slotTop) : final.size = st'.slotTop ∧ mem.size ≤ final.size := by
  induction h with
  | nil => exact ⟨hsize, Nat.le_refl _⟩
  | reference _ _ _ ih =>
      obtain ⟨hfinal, hle⟩ := ih (by simp only [Memory.push, takeSlot]; omega)
      exact ⟨hfinal, Nat.le_of_succ_le hle⟩
  | scalar _ _ _ ih => exact ih hsize

/-- Binding parameters frees no register. -/
theorem registerTop_le (h : Entering inputs mem st bindings actuals final st') :
    st.registerTop ≤ st'.registerTop := by
  induction h with
  | nil => exact Nat.le_refl _
  | reference _ _ _ ih => exact ih
  | scalar _ _ _ ih => exact Nat.le_of_succ_le ih

/-- A machine that holds the inputs holds the arrays of the reference run and
knows what the parameters stand for. -/
theorem tracks (h : Entering inputs mem st bindings actuals final st')
    (held : List.Forall₂ (Input.Held M) inputs bindings) (hmatches : MemoryMatches mem M)
    (hsize : mem.size = st.slotTop) :
    Bound M st'.registerTop final.size bindings actuals ∧ MemoryMatches final M := by
  induction h with
  | nil => exact ⟨.nil, hmatches⟩
  | @reference input inputs mem final st last bindings actuals kind fits rest ih =>
      obtain ⟨head, tail⟩ := List.forall₂_cons.mp held
      have hsize' : (mem.push input.lanes).size = st.takeSlot.slotTop := by
        simp only [Memory.push, takeSlot]
        omega
      have pushed : MemoryMatches (mem.push input.lanes) M := by
        refine ⟨by simp only [Memory.push]; omega, fun a ha lane hlane v hv => ?_⟩
        simp only [Memory.push] at ha hv
        by_cases hnew : a = mem.size
        · rw [if_pos hnew] at hv
          rw [hnew, hsize]
          cases head with
          | array hheld =>
              rw [State.lane_eq M hlane]
              simp only [hheld]
              simpa [Input.lanes, hlane] using hv
          | @cell value slot hheld =>
              simp only [Input.lanes] at hv
              split at hv
              · rename_i hzero
                rw [hzero, hheld]
                exact Option.some.inj hv
              · cases hv
        · rw [if_neg hnew] at hv
          exact hmatches.lane_eq a (by omega) lane hlane v hv
      obtain ⟨bound, matchesFinal⟩ := ih tail pushed hsize'
      have hlt : mem.size < final.size := Nat.lt_of_succ_le (rest.size hsize').2
      refine ⟨.cons ?_ bound, matchesFinal⟩
      rw [← hsize]
      exact .slot hlt
  | @scalar value inputs mem final st last bindings actuals fits rest ih =>
      obtain ⟨head, tail⟩ := List.forall₂_cons.mp held
      obtain ⟨bound, matchesFinal⟩ := ih tail hmatches hsize
      refine ⟨.cons ?_ bound, matchesFinal⟩
      cases head with
      | scalar hheld =>
          rw [← hheld]
          exact .register (Nat.lt_of_succ_le rest.registerTop_le)

/-- The arrays that were there before are left alone. -/
theorem lanes_eq (h : Entering inputs mem st bindings actuals final st') {address : Nat}
    (ha : address < mem.size) : final.lanes address = mem.lanes address := by
  induction h with
  | nil => rfl
  | reference _ _ _ ih =>
      rw [ih (Nat.lt_succ_of_lt ha)]
      simp only [Memory.push]
      rw [if_neg (Nat.ne_of_lt ha)]
  | scalar _ _ _ ih => exact ih ha

/-- A reference parameter has its slot as its address, and its lanes start
assigned. -/
theorem addressed (h : Entering inputs mem st bindings actuals final st')
    (hsize : mem.size = st.slotTop) {i : Nat} {input : Input} (hi : inputs[i]? = some input)
    (hkind : input.kind ≠ .scalar) :
    ∃ slot, bindings[i]? = some (.slot slot) ∧ actuals[i]? = some (.array slot) ∧
      slot < final.size ∧ ∀ lane, lane < input.kind.lanes → (final.lanes slot lane).isSome := by
  induction h generalizing i with
  | nil => simp at hi
  | @reference head inputs mem final st last bindings actuals kind fits rest ih =>
      have hsize' : (mem.push head.lanes).size = st.takeSlot.slotTop := by
        simp only [Memory.push, takeSlot]
        omega
      cases i with
      | zero =>
          obtain rfl : head = input := by simpa using hi
          have hlt : mem.size < (mem.push head.lanes).size := Nat.lt_succ_self _
          refine ⟨st.slotTop, rfl, by rw [← hsize]; rfl, ?_, fun lane hlane => ?_⟩
          · rw [← hsize]
            exact Nat.lt_of_lt_of_le hlt (rest.size hsize').2
          · rw [← hsize, rest.lanes_eq hlt]
            simp only [Memory.push, if_true]
            cases head with
            | array color =>
                simp only [Input.kind, ParamKind.lanes] at hlane
                simp [Input.lanes, hlane]
            | cell value =>
                simp only [Input.kind, ParamKind.lanes] at hlane
                simp [Input.lanes, Nat.lt_one_iff.mp hlane]
            | scalar value => exact absurd rfl kind
      | succ i => simpa using ih hsize' (by simpa using hi)
  | @scalar value inputs mem final st last bindings actuals fits rest ih =>
      cases i with
      | zero =>
          obtain rfl : Input.scalar value = input := by simpa using hi
          exact absurd rfl hkind
      | succ i => simpa using ih hsize (by simpa using hi)

/-- Slots and registers of their own can hold any inputs. -/
theorem exists_held (h : Entering inputs mem st bindings actuals final st') (M : State) :
    ∃ N, List.Forall₂ (Input.Held N) inputs bindings ∧
      (∀ k, k < st.slotTop → N.slot k = M.slot k) ∧
      ∀ r, r < st.registerTop → N.register r = M.register r := by
  induction h generalizing M with
  | nil => exact ⟨M, .nil, fun _ _ => rfl, fun _ _ => rfl⟩
  | @reference input inputs mem final st last bindings actuals kind fits rest ih =>
      cases input with
      | array color =>
          obtain ⟨N, held, slots, registers⟩ := ih (M.setSlot st.slotTop color)
          refine ⟨N, .cons (.array ?_) held, fun k hk => ?_, registers⟩
          · rw [slots st.slotTop (Nat.lt_succ_self _), State.slot_setSlot_self M color fits]
          · rw [slots k (Nat.lt_succ_of_lt hk), State.slot_setSlot_ne M color (Nat.ne_of_lt hk)]
      | cell value =>
          obtain ⟨N, held, slots, registers⟩ := ih (M.setLane st.slotTop 0 value)
          refine ⟨N, .cons (.cell ?_) held, fun k hk => ?_, registers⟩
          · rw [State.lane, slots st.slotTop (Nat.lt_succ_self _)]
            exact State.lane_setLane_self M value fits (by decide)
          · rw [slots k (Nat.lt_succ_of_lt hk), State.setLane,
              State.slot_setSlot_ne M _ (Nat.ne_of_lt hk)]
      | scalar value => exact absurd rfl kind
  | @scalar value inputs mem final st last bindings actuals fits rest ih =>
      obtain ⟨N, held, slots, registers⟩ := ih (M.setRegister st.registerTop value)
      refine ⟨N, .cons (.scalar ?_) held, slots, fun r hr => ?_⟩
      · rw [registers st.registerTop (Nat.lt_succ_self _),
          State.register_setRegister_self M value fits]
      · rw [registers r (Nat.lt_succ_of_lt hr),
          State.register_setRegister_ne M value (Nat.ne_of_lt hr)]

end Entering

/-! ## The program of a module -/

/-- The entry binds its parameters and is expanded on what is left. -/
theorem lowerEntry_yields {m : Module} {id : Nat} {entry : Routine} {params : List Binding}
    {code : PlacedCode} :
    (lowerEntry m id entry).Yields st (params, code) st' ↔
      ∃ u, (entry.params.mapM allocParam).Yields st params u ∧
        (expandRoutine m (maxPath - 1) entry params .ret).Yields { u with path := [id] } code
          st' := by
  simp only [lowerEntry, yields_bind, yields_pure, yields_modify, Prod.mk.injEq]
  constructor
  · rintro ⟨_, u, hparams, _, _, rfl, _, _, hcode, ⟨rfl, rfl⟩, rfl⟩
    exact ⟨u, hparams, hcode⟩
  · rintro ⟨u, hparams, hcode⟩
    exact ⟨_, u, hparams, (), _, rfl, _, _, hcode, ⟨rfl, rfl⟩, rfl⟩

/-- A module is lowered by expanding its entry and resolving the code. -/
theorem lower_ok {m : Module} {p : Program} :
    lower m = .ok p ↔ ∃ id entry params u code storage resolved, m.entry = some id ∧
      m.routine? id = some entry ∧ (entry.params.mapM allocParam).Yields .empty params u ∧
      (expandRoutine m (maxPath - 1) entry params .ret).Yields { u with path := [id] } code
        storage ∧
      resolve code = .ok resolved ∧
      p = ⟨resolved.toArray, entry.params.zip params, storage.registerPeak, storage.slotPeak⟩ := by
  constructor
  · intro h
    unfold lower at h
    cases hid : m.entry with
    | none =>
        rw [hid] at h
        cases h
    | some id =>
        cases hentry : m.routine? id with
        | none =>
            simp only [hid, hentry] at h
            cases h
        | some entry =>
            simp only [hid, hentry] at h
            cases hrun : (lowerEntry m id entry).run .empty with
            | error e =>
                rw [hrun] at h
                cases h
            | ok found =>
                obtain ⟨⟨params, code⟩, storage⟩ := found
                rw [hrun] at h
                change (resolve code >>= _) = _ at h
                cases hresolve : resolve code with
                | error e =>
                    rw [hresolve] at h
                    cases h
                | ok resolved =>
                    rw [hresolve] at h
                    obtain ⟨u, hparams, hcode⟩ := lowerEntry_yields.mp hrun
                    exact ⟨id, entry, params, u, code, storage, resolved, rfl, hentry, hparams,
                      hcode, hresolve, (Except.ok.inj h).symm⟩
  · rintro ⟨id, entry, params, u, code, storage, resolved, hid, hentry, hparams, hcode, hresolve,
      rfl⟩
    have hrun : (lowerEntry m id entry).run .empty = .ok ((params, code), storage) :=
      lowerEntry_yields.mpr ⟨u, hparams, hcode⟩
    unfold lower
    simp only [hid, hentry, hrun]
    change (resolve code >>= _) = _
    rw [hresolve]
    rfl

/-- Parameters raise the peaks no further than the machine has. -/
theorem allocParams_peaks {kinds : List ParamKind} {bindings : List Binding}
    (h : (kinds.mapM allocParam).Yields st bindings st') :
    st'.registerPeak ≤ max st.registerPeak maxRegisters ∧
      st'.slotPeak ≤ max st.slotPeak maxSlots := by
  induction kinds generalizing st bindings with
  | nil =>
      simp only [List.mapM_nil, yields_pure] at h
      obtain ⟨-, rfl⟩ := h
      exact ⟨Nat.le_max_left _ _, Nat.le_max_left _ _⟩
  | cons kind kinds ih =>
      obtain ⟨_, u, _, hb, hothers, -⟩ := allocParams_cons_yields.mp h
      have := ih hothers
      obtain ⟨-, hfit, -, rfl⟩ | ⟨-, hfit, -, rfl⟩ := allocParam_yields.mp hb <;>
        simp only [takeSlot, takeRegister] at this <;> omega

/-- A finished program fits the machine. -/
theorem lower_fits {m : Module} {p : Program} (h : lower m = .ok p) :
    p.registers ≤ maxRegisters ∧ p.slots ≤ maxSlots := by
  obtain ⟨id, entry, params, u, code, storage, resolved, -, -, hparams, hcode, -, rfl⟩ :=
    lower_ok.mp h
  have peaks := allocParams_peaks hparams
  have grown := (expandRoutine_restored hcode).toGrows
  have registerBound := grown.registerBound
  have slotBound := grown.slotBound
  simp only [Storage.empty] at peaks registerBound slotBound ⊢
  omega

/-- A finished program tells where the parameters of the module's entry live, in order. -/
theorem lower_params {m : Module} {p : Program} (h : lower m = .ok p) :
    ∃ id entry, m.entry = some id ∧ m.routine? id = some entry ∧
      p.params.map Prod.fst = entry.params := by
  obtain ⟨id, entry, params, u, code, storage, resolved, hid, hentry, hparams, -, -, rfl⟩ :=
    lower_ok.mp h
  have hlength := allocParams_length hparams
  exact ⟨id, entry, hid, hentry, List.map_fst_zip (Nat.le_of_eq hlength.symm)⟩

/-- The bindings of a finished program are those of the entry's parameters. -/
theorem lower_entering {m : Module} {p : Program} (h : lower m = .ok p) {inputs : List Input}
    (hkinds : inputs.map Input.kind = p.params.map Prod.fst) :
    ∃ last, Entering inputs .empty .empty (p.params.map Prod.snd) (bind inputs .empty).1
      (bind inputs .empty).2 last := by
  obtain ⟨id, entry, params, u, code, storage, resolved, -, -, hparams, -, -, rfl⟩ := lower_ok.mp h
  have hlength := allocParams_length hparams
  rw [List.map_fst_zip (Nat.le_of_eq hlength.symm)] at hkinds
  rw [List.map_snd_zip (Nat.le_of_eq hlength)]
  rw [← hkinds] at hparams
  exact ⟨u, entering_of_yields .empty hparams⟩

/-- The fuel that suffices for a module that can be lowered. -/
def enough (m : Module) : Nat := maxPath + (m.routines.map fun r => r.blocks.length).sum

/-- The machine returns with what the reference run leaves in memory. -/
theorem lower_runs {m : Module} {p : Program} (h : lower m = .ok p) {inputs : List Input}
    (hkinds : inputs.map Input.kind = p.params.map Prod.fst) {M : State} (held : p.Holds inputs M)
    {fuel : Nat} (hfuel : enough m ≤ fuel) :
    Assured (run m fuel inputs) fun final => ∃ N, p.run M = (N, .returned) ∧
      MemoryMatches final N ∧ final.size = (bind inputs .empty).2.size := by
  obtain ⟨id, entry, params, u, code, storage, resolved, hid, hentry, hparams, hcode, hresolve,
    rfl⟩ := lower_ok.mp h
  obtain ⟨segment, forward, hcode_ne⟩ := resolve_ok hresolve
  have hlength := allocParams_length hparams
  rw [List.map_fst_zip (Nat.le_of_eq hlength.symm)] at hkinds
  rw [Program.Holds, List.map_snd_zip (Nat.le_of_eq hlength)] at held
  rw [← hkinds] at hparams
  have entering := entering_of_yields .empty hparams
  have hsize := (entering.size rfl).1
  obtain ⟨bound, hmatches⟩ := entering.tracks held ⟨Nat.zero_le _, fun _ ha => by cases ha⟩ rfl
  have hlongest : ∀ routine ∈ m.routines,
      routine.blocks.length ≤ (m.routines.map fun r => r.blocks.length).sum :=
    fun routine hmem => List.le_sum_of_mem (List.mem_map_of_mem hmem)
  have hentry_le := hlongest entry (List.mem_of_getElem? hentry)
  have hpositive : 0 < fuel := by
    simp only [enough, maxPath] at hfuel
    omega
  obtain ⟨fuel, rfl⟩ := Nat.exists_eq_add_one.mpr hpositive
  simp only [enough, maxPath] at hfuel
  have hblocks : entry.blocks ≠ [] := by
    intro hnil
    obtain ⟨-, -, fragments, _, hlower, rfl, -⟩ := lowerRoutine_yields.mp hcode
    rw [hnil] at hlower
    obtain ⟨rfl, -⟩ := lowerBlocks_nil_yields.mp hlower
    exact hcode_ne rfl
  have hrun : run m (fuel + 1) inputs
      = Reference.invoke m (fuel + 1) entry (bind inputs .empty).1 (bind inputs .empty).2 := by
    rw [run, hid, Option.bind_some, hentry]
  rw [hrun, Reference.invoke, if_neg hblocks]
  refine (lowerRoutine_runs forward (expandRoutine_simulates forward hlongest 6 (by omega))
    (expandRoutine_restores m 6) hcode hblocks (by omega) segment bound hmatches hsize).bind ?_
  rintro final ⟨fragments, q, N, rfl, path, hreturn, hfinal, hle, -⟩
  exact ⟨N, Program.run_of_path forward path hreturn, hfinal.shrink hle, rfl⟩

/-- **A lowered program does what its module does.**  If the reference run never
reads what is unassigned, it comes to an end, and from every machine state that
holds the inputs the program returns with the same contents in each reference
parameter of the entry. -/
theorem lower_correct {m : Module} {p : Program} (h : lower m = .ok p) (inputs : List Input)
    (hkinds : inputs.map Input.kind = p.params.map Prod.fst)
    (hassigned : ∀ fuel, run m fuel inputs ≠ .error .unassigned) :
    ∃ final, (∃ enough, ∀ fuel, enough ≤ fuel → run m fuel inputs = .ok final) ∧
      (∃ M, p.Holds inputs M) ∧ p.Leaves inputs final := by
  obtain ⟨last, entering⟩ := lower_entering h hkinds
  obtain ⟨M₀, held₀, -, -⟩ := entering.exists_held State.empty
  have hrun := lower_runs h hkinds held₀ (Nat.le_refl _)
  cases hfinal : run m (enough m) inputs with
  | error stuck =>
      rw [hfinal] at hrun
      rw [show stuck = .unassigned from hrun] at hfinal
      exact absurd hfinal (hassigned _)
  | ok final =>
      refine ⟨final, ⟨enough m, fun fuel hfuel => ?_⟩, ⟨M₀, held₀⟩, fun M held => ?_⟩
      · obtain hout | hsame := run_refined (m := m) hfuel inputs
        · rw [hfinal] at hout
          cases hout
        · rw [← hsame, hfinal]
      · have hrun := lower_runs h hkinds held (Nat.le_refl _)
        rw [hfinal] at hrun
        obtain ⟨N, hN, hmatches, hsize⟩ := hrun
        refine ⟨N, hN, fun i kind binding hi hkind => ?_⟩
        obtain ⟨input, hinput, rfl⟩ : ∃ input, inputs[i]? = some input ∧ input.kind = kind := by
          have hget : (inputs.map Input.kind)[i]? = some kind := by
            rw [hkinds, List.getElem?_map, hi]
            rfl
          rwa [List.getElem?_map, Option.map_eq_some_iff] at hget
        obtain ⟨slot, hbinding, hactual, hlt, hstart⟩ := entering.addressed rfl hinput hkind
        rw [List.getElem?_map, hi] at hbinding
        refine ⟨slot, slot, Option.some.inj hbinding, hactual, fun lane hlane => ?_⟩
        have hstill := (run_carries _ inputs final hfinal).assigned slot hlt lane
          (hstart lane hlane)
        obtain ⟨v, hv⟩ := Option.isSome_iff_exists.mp hstill
        have hlane4 : lane < 4 := by
          cases input <;> simp only [Input.kind, ParamKind.lanes] at hlane <;> omega
        rw [hv, hmatches.lane_eq slot (by omega) lane hlane4 v hv]

/-- A module whose entry has a scalar put into a temporary array and goes on in
a second block. -/
def relay : Module where
  routines :=
    [⟨"put", [.vec4Ptr, .scalar], 0, 0,
        [⟨[.assign (.lane (.param 0) 0) (.param 1)], some .ret⟩]⟩,
      ⟨"relay", [.vec4Ptr, .scalar], 0, 1,
        [⟨[.call 0 [.array (.temp 0), .value (.param 1)]], some (.jump 1)⟩,
          ⟨[.assign (.lane (.param 0) 0) (.load (.temp 0) 0)], some .ret⟩]⟩]
  entry := some 1

/-- What `relay` is run on. -/
def relayInputs : List Input := [.array Color.transparent, .scalar Binary32.one]

/-- The relay leaves on the machine what the reference run leaves. -/
theorem lower_correct_relay : ∃ p, lower relay = .ok p ∧
    ∃ final, (∃ enough, ∀ fuel, enough ≤ fuel → run relay fuel relayInputs = .ok final) ∧
      (∃ M, p.Holds relayInputs M) ∧ p.Leaves relayInputs final := by
  refine ⟨_, rfl, lower_correct rfl relayInputs rfl ?_⟩
  exact run_assigned (show run relay 4 relayInputs = .ok _ from rfl)

end PixelPipeline.Ir
