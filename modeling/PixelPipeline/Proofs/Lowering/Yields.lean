import PixelPipeline.Ir.Lowering

/-!
# What a successful emission says

`x.Yields s a t` says that the emission `x`, started on the storage `s`, succeeds
with the value `a` and the storage `t`.  The first part takes apart emissions
that are put together with `do`; the second says once for each allocation what
it hands out; the others do the same for names, values, statements, calls and
routines.  Later proofs take a successful lowering apart by these equivalences
and do not look into the monad again.
-/

namespace PixelPipeline.Ir

open Machine

/-- The emission succeeds with a value and leaves a storage. -/
def Lower.Yields {α : Type} (x : Lower α) (s : Storage) (a : α) (t : Storage) : Prop :=
  x s = .ok (a, t)

namespace Lower

variable {α β : Type} {s t : Storage} {a : α} {b : β}

@[simp] theorem yields_pure {a' : α} : (pure a' : Lower α).Yields s a t ↔ a = a' ∧ t = s := by
  change Except.ok (a', s) = Except.ok (a, t) ↔ _
  simp only [Except.ok.injEq, Prod.mk.injEq]
  constructor <;> rintro ⟨rfl, rfl⟩ <;> exact ⟨rfl, rfl⟩

@[simp] theorem yields_bind {x : Lower α} {f : α → Lower β} :
    (x >>= f).Yields s b t ↔ ∃ a u, x.Yields s a u ∧ (f a).Yields u b t := by
  change (x s >>= fun p => f p.1 p.2) = Except.ok (b, t) ↔ _
  cases h : x s with
  | error e =>
      simp only [Yields, h]
      constructor
      · intro h'
        cases h'
      · rintro ⟨a, u, h', _⟩
        cases h'
  | ok p =>
      obtain ⟨a, u⟩ := p
      simp only [Yields, h]
      constructor
      · intro h'
        exact ⟨a, u, rfl, h'⟩
      · rintro ⟨a', u', h', h''⟩
        obtain ⟨rfl, rfl⟩ : a = a' ∧ u = u' := by simpa using h'
        exact h''

@[simp] theorem yields_map {x : Lower α} {f : α → β} :
    (f <$> x).Yields s b t ↔ ∃ a, b = f a ∧ x.Yields s a t := by
  rw [← bind_pure_comp]
  simp only [yields_bind, yields_pure]
  constructor
  · rintro ⟨a, u, h, rfl, rfl⟩
    exact ⟨a, rfl, h⟩
  · rintro ⟨a, rfl, h⟩
    exact ⟨a, t, h, rfl, rfl⟩

@[simp] theorem yields_get {u : Storage} : (get : Lower Storage).Yields s u t ↔ u = s ∧ t = s := by
  change Except.ok (s, s) = Except.ok (u, t) ↔ _
  simp only [Except.ok.injEq, Prod.mk.injEq]
  constructor <;> rintro ⟨rfl, rfl⟩ <;> exact ⟨rfl, rfl⟩

theorem yields_get_bind {f : Storage → Lower β} :
    ((get : Lower Storage) >>= f).Yields s b t ↔ (f s).Yields s b t := by
  simp [and_assoc]

@[simp] theorem yields_set {u : Storage} {a : PUnit} :
    (set u : Lower PUnit).Yields s a t ↔ t = u := by
  change Except.ok (PUnit.unit, u) = Except.ok (a, t) ↔ _
  simp only [Except.ok.injEq, Prod.mk.injEq, true_and]
  exact eq_comm

@[simp] theorem yields_modify {f : Storage → Storage} {a : PUnit} :
    (modify f : Lower PUnit).Yields s a t ↔ t = f s := by
  change Except.ok (PUnit.unit, f s) = Except.ok (a, t) ↔ _
  simp only [Except.ok.injEq, Prod.mk.injEq, true_and]
  exact eq_comm

@[simp] theorem yields_throw {e : CompileFault} : ¬ (throw e : Lower α).Yields s a t := by
  intro h
  cases h

@[simp] theorem yields_lift {x : Except CompileFault α} :
    (liftM x : Lower α).Yields s a t ↔ x = .ok a ∧ t = s := by
  cases x with
  | error e =>
      constructor
      · intro h
        cases h
      · rintro ⟨h, _⟩
        cases h
  | ok a' =>
      change Except.ok (a', s) = Except.ok (a, t) ↔ _
      simp only [Except.ok.injEq, Prod.mk.injEq]
      constructor <;> rintro ⟨rfl, rfl⟩ <;> exact ⟨rfl, rfl⟩

end Lower

open Lower

variable {s t : Storage}

/-! ## Allocation -/

namespace Storage

/-- One more register in use until the routine's code ends. -/
def takeRegister (s : Storage) : Storage :=
  { s with
    registerTop := s.registerTop + 1
    tempTop := s.registerTop + 1
    registerPeak := max s.registerPeak (s.registerTop + 1) }

/-- One more register in use for the current statement. -/
def takeTemp (s : Storage) : Storage :=
  { s with
    tempTop := s.tempTop + 1
    registerPeak := max s.registerPeak (s.tempTop + 1) }

/-- One more slot in use until the routine's code ends. -/
def takeSlot (s : Storage) : Storage :=
  { s with slotTop := s.slotTop + 1, slotPeak := max s.slotPeak (s.slotTop + 1) }

/-- No register in use for the current statement. -/
def dropTemps (s : Storage) : Storage := { s with tempTop := s.registerTop }

end Storage

/-- A register is handed out if there is one, the next one. -/
theorem allocRegister_yields {r : Nat} :
    allocRegister.Yields s r t ↔ s.registerTop < maxRegisters ∧ r = s.registerTop ∧
      t = s.takeRegister := by
  by_cases h : s.registerTop < maxRegisters <;>
    simp [allocRegister, h, Storage.takeRegister, and_assoc]

/-- A temporary register is handed out if there is one, the next one. -/
theorem allocTemp_yields {r : Nat} :
    allocTemp.Yields s r t ↔ s.tempTop < maxRegisters ∧ r = s.tempTop ∧ t = s.takeTemp := by
  by_cases h : s.tempTop < maxRegisters <;> simp [allocTemp, h, Storage.takeTemp, and_assoc]

/-- A slot is handed out if there is one, the next one. -/
theorem allocSlot_yields {i : Nat} :
    allocSlot.Yields s i t ↔ s.slotTop < maxSlots ∧ i = s.slotTop ∧ t = s.takeSlot := by
  by_cases h : s.slotTop < maxSlots <;> simp [allocSlot, h, Storage.takeSlot, and_assoc]

/-- The temporaries are dropped. -/
theorem freeTemps_yields {a : Unit} : freeTemps.Yields s a t ↔ t = s.dropTemps := by
  simp [freeTemps, Storage.dropTemps]

/-- Many slots in a row. -/
def Storage.takeSlots : Nat → Storage → Storage
  | 0, s => s
  | n + 1, s => takeSlots n s.takeSlot

/-- Many registers in a row. -/
def Storage.takeRegisters : Nat → Storage → Storage
  | 0, s => s
  | n + 1, s => takeRegisters n s.takeRegister

/-- Slots are handed out in a row if there is room for all of them. -/
theorem allocSlots_yields {n : Nat} {slots : List Nat} :
    (allocMany allocSlot n).Yields s slots t ↔
      (n = 0 ∨ s.slotTop + n ≤ maxSlots) ∧ slots = List.range' s.slotTop n ∧
        t = s.takeSlots n := by
  induction n generalizing s slots t with
  | zero => simp [allocMany, Storage.takeSlots]
  | succ n ih =>
      simp only [allocMany, yields_bind, yields_pure, allocSlot_yields, ih]
      constructor
      · rintro ⟨_, _, ⟨hlt, rfl, rfl⟩, _, _, ⟨hn, rfl, rfl⟩, rfl, rfl⟩
        refine ⟨.inr ?_, rfl, rfl⟩
        simp only [Storage.takeSlot] at hn
        omega
      · rintro ⟨hn, rfl, rfl⟩
        refine ⟨_, _, ⟨by omega, rfl, rfl⟩, _, _, ⟨?_, rfl, rfl⟩, rfl, rfl⟩
        simp only [Storage.takeSlot]
        omega

/-- Registers are handed out in a row if there is room for all of them. -/
theorem allocRegisters_yields {n : Nat} {registers : List Nat} :
    (allocMany allocRegister n).Yields s registers t ↔
      (n = 0 ∨ s.registerTop + n ≤ maxRegisters) ∧ registers = List.range' s.registerTop n ∧
        t = s.takeRegisters n := by
  induction n generalizing s registers t with
  | zero => simp [allocMany, Storage.takeRegisters]
  | succ n ih =>
      simp only [allocMany, yields_bind, yields_pure, allocRegister_yields, ih]
      constructor
      · rintro ⟨_, _, ⟨hlt, rfl, rfl⟩, _, _, ⟨hn, rfl, rfl⟩, rfl, rfl⟩
        refine ⟨.inr ?_, rfl, rfl⟩
        simp only [Storage.takeRegister] at hn
        omega
      · rintro ⟨hn, rfl, rfl⟩
        refine ⟨_, _, ⟨by omega, rfl, rfl⟩, _, _, ⟨?_, rfl, rfl⟩, rfl, rfl⟩
        simp only [Storage.takeRegister]
        omega

/-! ## Names -/

namespace Frame

variable {f : Frame}

theorem array?_param_eq_ok {i slot lanes : Nat} :
    f.array? (.param i) = .ok (slot, lanes) ↔ ∃ kind, f.routine.params[i]? = some kind ∧
      f.params[i]? = some (.slot slot) ∧ kind.lanes = lanes := by
  unfold array?
  simp only
  split
  · rename_i kind place hkind hplace
    simp [hkind, hplace]
  · rename_i hnone
    simp only [reduceCtorEq, false_iff]
    intro hsome
    obtain ⟨kind, hkind, hplace, -⟩ := hsome
    exact hnone kind slot hkind hplace

theorem array?_temp_eq_ok {i slot lanes : Nat} :
    f.array? (.temp i) = .ok (slot, lanes) ↔ f.temps[i]? = some slot ∧ 4 = lanes := by
  cases htemp : f.temps[i]? with
  | none => simp [array?, htemp]
  | some place => simp [array?, htemp]

theorem slotOf_eq_ok {a : ArrayRef} {lane slot : Nat} :
    f.slotOf a lane = .ok slot ↔ ∃ lanes, f.array? a = .ok (slot, lanes) ∧ lane < lanes := by
  unfold slotOf
  cases harray : f.array? a with
  | error fault =>
    constructor
    · intro h
      cases h
    · rintro ⟨lanes, h, -⟩
      cases h
  | ok found =>
    obtain ⟨place, lanes⟩ := found
    change (if lane < lanes then Except.ok place else _) = Except.ok slot ↔ _
    by_cases hlane : lane < lanes
    · rw [if_pos hlane]
      constructor
      · intro h
        exact ⟨lanes, congrArg (fun slot => Except.ok (slot, lanes)) (Except.ok.inj h), hlane⟩
      · rintro ⟨_, h, -⟩
        exact congrArg Except.ok (Prod.mk.inj (Except.ok.inj h)).1
    · rw [if_neg hlane]
      constructor
      · intro h
        cases h
      · rintro ⟨_, h, hlt⟩
        obtain ⟨-, rfl⟩ := Prod.mk.inj (Except.ok.inj h)
        exact absurd hlt hlane

theorem registerOfVar_eq_ok {i r : Nat} : f.registerOfVar i = .ok r ↔ f.vars[i]? = some r := by
  unfold registerOfVar
  cases f.vars[i]? with
  | none => simp
  | some register => simp

theorem registerOfParam_eq_ok {i r : Nat} :
    f.registerOfParam i = .ok r ↔ f.params[i]? = some (.register r) := by
  unfold registerOfParam
  cases f.params[i]? with
  | none => simp
  | some b => cases b <;> simp

end Frame

/-! ## Values -/

variable {f : Frame} {code : Fragment} {r : Nat}

theorem lowerValue_const_yields {v : Binary32} :
    (lowerValue f (.const v)).Yields s (code, r) t ↔
      allocTemp.Yields s r t ∧ code = [.const r v] := by
  simp only [lowerValue, yields_bind, yields_pure, Prod.mk.injEq]
  constructor
  · rintro ⟨_, _, h, ⟨rfl, rfl⟩, rfl⟩
    exact ⟨h, rfl⟩
  · rintro ⟨h, rfl⟩
    exact ⟨_, _, h, ⟨rfl, rfl⟩, rfl⟩

theorem lowerValue_load_yields {a : ArrayRef} {lane : Nat} :
    (lowerValue f (.load a lane)).Yields s (code, r) t ↔
      ∃ slot, f.slotOf a lane = .ok slot ∧ allocTemp.Yields s r t ∧
        code = [.load r slot lane] := by
  simp only [lowerValue, yields_bind, yields_pure, yields_lift, Prod.mk.injEq]
  constructor
  · rintro ⟨slot, _, ⟨hslot, rfl⟩, _, _, h, ⟨rfl, rfl⟩, rfl⟩
    exact ⟨slot, hslot, h, rfl⟩
  · rintro ⟨slot, hslot, h, rfl⟩
    exact ⟨slot, _, ⟨hslot, rfl⟩, _, _, h, ⟨rfl, rfl⟩, rfl⟩

theorem lowerValue_param_yields {i : Nat} :
    (lowerValue f (.param i)).Yields s (code, r) t ↔
      f.registerOfParam i = .ok r ∧ code = [] ∧ t = s := by
  simp only [lowerValue, yields_bind, yields_pure, yields_lift, Prod.mk.injEq]
  constructor
  · rintro ⟨_, _, ⟨h, rfl⟩, ⟨rfl, rfl⟩, rfl⟩
    exact ⟨h, rfl, rfl⟩
  · rintro ⟨h, rfl, rfl⟩
    exact ⟨_, _, ⟨h, rfl⟩, ⟨rfl, rfl⟩, rfl⟩

theorem lowerValue_var_yields {i : Nat} :
    (lowerValue f (.var i)).Yields s (code, r) t ↔
      f.registerOfVar i = .ok r ∧ code = [] ∧ t = s := by
  simp only [lowerValue, yields_bind, yields_pure, yields_lift, Prod.mk.injEq]
  constructor
  · rintro ⟨_, _, ⟨h, rfl⟩, ⟨rfl, rfl⟩, rfl⟩
    exact ⟨h, rfl, rfl⟩
  · rintro ⟨h, rfl, rfl⟩
    exact ⟨_, _, ⟨h, rfl⟩, ⟨rfl, rfl⟩, rfl⟩

theorem lowerValue_binary_yields {op : BinOp} {lhs rhs : Value} :
    (lowerValue f (.binary op lhs rhs)).Yields s (code, r) t ↔
      ∃ lhsCode x u rhsCode y w, (lowerValue f lhs).Yields s (lhsCode, x) u ∧
        (lowerValue f rhs).Yields u (rhsCode, y) w ∧ allocTemp.Yields w r t ∧
        code = lhsCode ++ rhsCode ++ [.binary op r x y] := by
  simp only [lowerValue, yields_bind, yields_pure, Prod.exists, Prod.mk.injEq]
  constructor
  · rintro ⟨lhsCode, x, u, hlhs, rhsCode, y, w, hrhs, _, _, h, ⟨rfl, rfl⟩, rfl⟩
    exact ⟨lhsCode, x, u, rhsCode, y, w, hlhs, hrhs, h, rfl⟩
  · rintro ⟨lhsCode, x, u, rhsCode, y, w, hlhs, hrhs, h, rfl⟩
    exact ⟨lhsCode, x, u, hlhs, rhsCode, y, w, hrhs, _, _, h, ⟨rfl, rfl⟩, rfl⟩

/-! ## Statements -/

/-- Assigning to a lane stores the value. -/
theorem lowerAssign_lane_yields {a : ArrayRef} {lane : Nat} {value : Value} :
    (lowerAssign f (.lane a lane) value).Yields s code t ↔
      ∃ front src slot, (lowerValue f value).Yields s (front, src) t ∧
        f.slotOf a lane = .ok slot ∧ code = front ++ [.store slot lane src] := by
  simp only [lowerAssign, yields_bind, yields_pure, yields_lift, Prod.exists]
  constructor
  · rintro ⟨front, src, _, h, slot, _, ⟨hslot, rfl⟩, rfl, rfl⟩
    exact ⟨front, src, slot, h, hslot, rfl⟩
  · rintro ⟨front, src, slot, h, hslot, rfl⟩
    exact ⟨front, src, _, h, slot, _, ⟨hslot, rfl⟩, rfl, rfl⟩

/-- Assigning to a variable moves the value. -/
theorem lowerAssign_var_yields {i : Nat} {value : Value} :
    (lowerAssign f (.var i) value).Yields s code t ↔
      ∃ front src dst, (lowerValue f value).Yields s (front, src) t ∧
        f.registerOfVar i = .ok dst ∧ code = front ++ [.move dst src] := by
  simp only [lowerAssign, yields_bind, yields_pure, yields_lift, Prod.exists]
  constructor
  · rintro ⟨front, src, _, h, dst, _, ⟨hdst, rfl⟩, rfl, rfl⟩
    exact ⟨front, src, dst, h, hdst, rfl⟩
  · rintro ⟨front, src, dst, h, hdst, rfl⟩
    exact ⟨front, src, _, h, dst, _, ⟨hdst, rfl⟩, rfl, rfl⟩

/-- An argument is an array for a reference parameter, or a value for a scalar
parameter. -/
theorem lowerArg_yields {callee : Routine} {index : Nat} {kind : ParamKind} {arg : Arg}
    {binding : Binding} :
    (lowerArg f callee index kind arg).Yields s (code, binding) t ↔
      (∃ a slot, kind ≠ .scalar ∧ arg = .array a ∧ f.slotOf a (kind.lanes - 1) = .ok slot ∧
        code = [] ∧ binding = .slot slot ∧ t = s) ∨
      (∃ value front temp u register, kind = .scalar ∧ arg = .value value ∧
        (lowerValue f value).Yields s (front, temp) u ∧ allocRegister.Yields u register t ∧
        code = front ++ [.move register temp] ∧ binding = .register register) := by
  cases kind <;> cases arg <;>
    simp only [lowerArg, yields_bind, yields_pure, yields_lift, yields_throw, Prod.mk.injEq,
      Prod.exists, Arg.array.injEq, Arg.value.injEq, reduceCtorEq, ne_eq, not_true_eq_false,
      not_false_eq_true, true_and, false_and, exists_false, and_false, or_false, false_or]
  case vec4Ptr.array a | scalarPtr.array a =>
      constructor
      · rintro ⟨slot, _, ⟨h, rfl⟩, ⟨rfl, rfl⟩, rfl⟩
        exact ⟨a, slot, rfl, h, rfl, rfl, rfl⟩
      · rintro ⟨_, slot, rfl, h, rfl, rfl, rfl⟩
        exact ⟨slot, _, ⟨h, rfl⟩, ⟨rfl, rfl⟩, rfl⟩
  case scalar.value value =>
      constructor
      · rintro ⟨front, temp, u, h, register, _, hr, ⟨rfl, rfl⟩, rfl⟩
        exact ⟨value, front, temp, u, register, rfl, h, hr, rfl, rfl⟩
      · rintro ⟨_, front, temp, u, register, rfl, h, hr, rfl, rfl⟩
        exact ⟨front, temp, u, h, register, _, hr, ⟨rfl, rfl⟩, rfl⟩

theorem lowerArgs_nil_yields {callee : Routine} {index : Nat} {bindings : List Binding} :
    (lowerArgs f callee index []).Yields s (code, bindings) t ↔
      code = [] ∧ bindings = [] ∧ t = s := by
  simp only [lowerArgs, yields_pure, Prod.mk.injEq, and_assoc]

/-- The first argument is emitted before the others. -/
theorem lowerArgs_cons_yields {callee : Routine} {index : Nat} {kind : ParamKind} {arg : Arg}
    {rest : List (ParamKind × Arg)} {bindings : List Binding} :
    (lowerArgs f callee index ((kind, arg) :: rest)).Yields s (code, bindings) t ↔
      ∃ front binding u back others,
        (lowerArg f callee index kind arg).Yields s (front, binding) u ∧
        (lowerArgs f callee (index + 1) rest).Yields u (back, others) t ∧
        code = front ++ back ∧ bindings = binding :: others := by
  simp only [lowerArgs, yields_bind, yields_pure, Prod.exists, Prod.mk.injEq]
  constructor
  · rintro ⟨front, binding, u, h, back, others, _, hs, ⟨rfl, rfl⟩, rfl⟩
    exact ⟨front, binding, u, back, others, h, hs, rfl, rfl⟩
  · rintro ⟨front, binding, u, back, others, h, hs, rfl, rfl⟩
    exact ⟨front, binding, u, h, back, others, _, hs, ⟨rfl, rfl⟩, rfl⟩

/-- A call names a routine that is not under expansion and passes as many
arguments as that one has parameters. -/
theorem lowerCall_yields {m : Module} {expand : Expander} {id : Nat} {args : List Arg} :
    (lowerCall m expand f id args).Yields s code t ↔
      ∃ callee expandBody argCode bindings u body w,
        m.routine? id = some callee ∧ id ∉ s.path ∧ expand = some expandBody ∧
        callee.params.length = args.length ∧
        (lowerArgs f callee 0 (callee.params.zip args)).Yields s (argCode, bindings) u ∧
        (expandBody callee bindings (.jump .exit)).Yields { u with path := id :: u.path } body w ∧
        code = argCode ++ embed body ∧
        t = { w with path := s.path, registerTop := s.registerTop } := by
  unfold lowerCall
  cases hcallee : m.routine? id with
  | none => simp
  | some callee =>
      simp only [yields_get_bind]
      by_cases hpath : id ∈ s.path
      · simp [hpath]
      · cases expand with
        | none => simp
        | some expandBody =>
            by_cases hlen : callee.params.length = args.length
            · simp only [if_neg hpath, hlen, ne_eq, not_true_eq_false, if_false, yields_bind,
                yields_pure, yields_modify, Prod.exists]
              constructor
              · rintro ⟨argCode, bindings, u, hargs, _, _, rfl, body, w, hbody, _, _, rfl, rfl, rfl⟩
                exact ⟨callee, expandBody, argCode, bindings, u, body, w, rfl, hpath, rfl, hlen,
                  hargs, hbody, rfl, rfl⟩
              · rintro ⟨_, _, argCode, bindings, u, body, w, ⟨⟩, _, ⟨⟩, _, hargs, hbody, rfl,
                  rfl⟩
                exact ⟨argCode, bindings, u, hargs, (), _, rfl, body, w, hbody,
                  (), _, rfl, rfl, rfl⟩
            · simp [hpath, hlen]

theorem lowerStmts_nil_yields {m : Module} {expand : Expander} :
    (lowerStmts m expand f []).Yields s code t ↔ code = [] ∧ t = s := by
  simp only [lowerStmts, yields_pure]

/-- The first statement is emitted before the others, without older temporaries. -/
theorem lowerStmts_cons_yields {m : Module} {expand : Expander} {stmt : Stmt} {rest : List Stmt} :
    (lowerStmts m expand f (stmt :: rest)).Yields s code t ↔
      ∃ front u back, (lowerStmt m expand f stmt).Yields s.dropTemps front u ∧
        (lowerStmts m expand f rest).Yields u back t ∧ code = front ++ back := by
  simp only [lowerStmts, yields_bind, yields_pure, freeTemps_yields]
  constructor
  · rintro ⟨_, _, rfl, front, u, h, back, _, hs, rfl, rfl⟩
    exact ⟨front, u, back, h, hs, rfl⟩
  · rintro ⟨front, u, back, h, hs, rfl⟩
    exact ⟨(), _, rfl, front, u, h, back, _, hs, rfl, rfl⟩

/-! ## Blocks and routines -/

/-- A return is the operation that the frame returns by. -/
theorem lowerTerminator_ret_yields :
    (lowerTerminator f .ret).Yields s code t ↔ code = [f.onReturn] ∧ t = s := by
  simp only [lowerTerminator, yields_pure]

/-- A jump goes to its block. -/
theorem lowerTerminator_jump_yields {b : Nat} :
    (lowerTerminator f (.jump b)).Yields s code t ↔
      ∃ target, f.blockTarget b = .ok target ∧ code = [.jump target] ∧ t = s := by
  simp only [lowerTerminator, yields_bind, yields_pure, yields_lift]
  constructor
  · rintro ⟨target, _, ⟨h, rfl⟩, rfl, rfl⟩
    exact ⟨target, h, rfl, rfl⟩
  · rintro ⟨target, h, rfl, rfl⟩
    exact ⟨target, _, ⟨h, rfl⟩, rfl, rfl⟩

/-- A branch compares two values and goes to one of its blocks. -/
theorem lowerTerminator_branch_yields {op : CmpOp} {lhs rhs : Value} {thenBlock elseBlock : Nat} :
    (lowerTerminator f (.branch op lhs rhs thenBlock elseBlock)).Yields s code t ↔
      ∃ lhsCode x u rhsCode y onTrue onFalse, (lowerValue f lhs).Yields s (lhsCode, x) u ∧
        (lowerValue f rhs).Yields u (rhsCode, y) t ∧ f.blockTarget thenBlock = .ok onTrue ∧
        f.blockTarget elseBlock = .ok onFalse ∧
        code = lhsCode ++ rhsCode ++ [.branch op x y onTrue onFalse] := by
  simp only [lowerTerminator, yields_bind, yields_pure, yields_lift, Prod.exists]
  constructor
  · rintro ⟨lhsCode, x, u, hlhs, rhsCode, y, _, hrhs, onTrue, _, ⟨ht, rfl⟩, onFalse, _, ⟨he, rfl⟩,
      rfl, rfl⟩
    exact ⟨lhsCode, x, u, rhsCode, y, onTrue, onFalse, hlhs, hrhs, ht, he, rfl⟩
  · rintro ⟨lhsCode, x, u, rhsCode, y, onTrue, onFalse, hlhs, hrhs, ht, he, rfl⟩
    exact ⟨lhsCode, x, u, hlhs, rhsCode, y, _, hrhs, onTrue, _, ⟨ht, rfl⟩, onFalse, _, ⟨he, rfl⟩,
      rfl, rfl⟩

/-- A block is its statements and its end. -/
theorem lowerBlock_yields {m : Module} {expand : Expander} {index : Nat} {b : Block} :
    (lowerBlock m expand f index b).Yields s code t ↔
      ∃ front u terminator back, (lowerStmts m expand f b.stmts).Yields s front u ∧
        b.terminator = some terminator ∧
        (lowerTerminator f terminator).Yields u.dropTemps back t ∧ code = front ++ back := by
  unfold lowerBlock
  cases hb : b.terminator with
  | none => simp
  | some terminator =>
      simp only [yields_bind, yields_pure, freeTemps_yields]
      constructor
      · rintro ⟨front, u, h, _, _, rfl, back, _, hend, rfl, rfl⟩
        exact ⟨front, u, terminator, back, h, rfl, hend, rfl⟩
      · rintro ⟨front, u, _, back, h, ⟨⟩, hend, rfl⟩
        exact ⟨front, u, h, (), _, rfl, back, _, hend, rfl, rfl⟩

theorem lowerBlocks_nil_yields {m : Module} {expand : Expander} {index : Nat}
    {blocks : List Fragment} :
    (lowerBlocks m expand f index []).Yields s blocks t ↔ blocks = [] ∧ t = s := by
  simp only [lowerBlocks, yields_pure]

/-- The first block is emitted before the others. -/
theorem lowerBlocks_cons_yields {m : Module} {expand : Expander} {index : Nat} {b : Block}
    {rest : List Block} {blocks : List Fragment} :
    (lowerBlocks m expand f index (b :: rest)).Yields s blocks t ↔
      ∃ front u back, (lowerBlock m expand f index b).Yields s front u ∧
        (lowerBlocks m expand f (index + 1) rest).Yields u back t ∧ blocks = front :: back := by
  simp only [lowerBlocks, yields_bind, yields_pure]
  constructor
  · rintro ⟨front, u, h, back, _, hs, rfl, rfl⟩
    exact ⟨front, u, back, h, hs, rfl⟩
  · rintro ⟨front, u, back, h, hs, rfl⟩
    exact ⟨front, u, h, back, _, hs, rfl, rfl⟩

/-- There is a piece of code for each block. -/
theorem lowerBlocks_length {m : Module} {expand : Expander} {index : Nat} {blocks : List Block}
    {fragments : List Fragment}
    (h : (lowerBlocks m expand f index blocks).Yields s fragments t) :
    fragments.length = blocks.length := by
  induction blocks generalizing s fragments index with
  | nil =>
      obtain ⟨rfl, -⟩ := lowerBlocks_nil_yields.mp h
      rfl
  | cons b rest ih =>
      obtain ⟨_, _, _, -, hrest, rfl⟩ := lowerBlocks_cons_yields.mp h
      rw [List.length_cons, List.length_cons, ih hrest]

/-- The frame of a routine that is expanded on a storage: its temporaries and
variables lie directly above what is in use. -/
def Frame.above (r : Routine) (params : List Binding) (onReturn : Op Target) (s : Storage) :
    Frame :=
  ⟨r, params, List.range' s.slotTop r.temps, List.range' s.registerTop r.vars, onReturn⟩

/-- The storage that a routine's body is emitted on. -/
def Storage.enter (s : Storage) (r : Routine) : Storage :=
  (s.takeSlots r.temps).takeRegisters r.vars

/-- The storage when a routine's code ends: what it owned is free again. -/
def Storage.leave (s before : Storage) : Storage :=
  { s with
    registerTop := before.registerTop
    tempTop := before.registerTop
    slotTop := before.slotTop }

@[simp] theorem Storage.registerTop_takeSlots (n : Nat) :
    (s.takeSlots n).registerTop = s.registerTop := by
  induction n generalizing s with
  | zero => rfl
  | succ n ih => simp [takeSlots, ih, takeSlot]

/-- Slots that are taken raise the top. -/
@[simp] theorem Storage.slotTop_takeSlots (n : Nat) : (s.takeSlots n).slotTop = s.slotTop + n := by
  induction n generalizing s with
  | zero => rfl
  | succ n ih =>
      simp only [takeSlots, ih, takeSlot]
      omega

/-- A routine's code is its blocks, emitted on its own storage and put in place. -/
theorem lowerRoutine_yields {m : Module} {expand : Expander} {routine : Routine}
    {params : List Binding} {onReturn : Op Target} {placed : PlacedCode} :
    (lowerRoutine m expand routine params onReturn).Yields s placed t ↔
      (routine.temps = 0 ∨ s.slotTop + routine.temps ≤ maxSlots) ∧
      (routine.vars = 0 ∨ s.registerTop + routine.vars ≤ maxRegisters) ∧
      ∃ blocks u,
        (lowerBlocks m expand (.above routine params onReturn s) 0 routine.blocks).Yields
          (s.enter routine) blocks u ∧ placed = place blocks ∧ t = u.leave s := by
  unfold lowerRoutine
  rw [yields_get_bind]
  simp only [yields_bind, yields_pure, yields_modify, allocSlots_yields, allocRegisters_yields]
  constructor
  · rintro ⟨_, _, ⟨hslots, rfl, rfl⟩, _, _, ⟨hregisters, rfl, rfl⟩, blocks, u, h, _, _, rfl, rfl,
      rfl⟩
    simp only [Storage.registerTop_takeSlots] at hregisters h
    exact ⟨hslots, hregisters, blocks, u, h, rfl, rfl⟩
  · rintro ⟨hslots, hregisters, blocks, u, h, rfl, rfl⟩
    refine ⟨_, _, ⟨hslots, rfl, rfl⟩, _, _, ⟨?_, rfl, rfl⟩, blocks, u, ?_, (), _, rfl, rfl, rfl⟩
    · rwa [Storage.registerTop_takeSlots]
    · rw [Storage.registerTop_takeSlots]
      exact h

end PixelPipeline.Ir
