import PixelPipeline.Proofs.Lowering.Acceptable
import PixelPipeline.Proofs.Lowering.Program

/-!
# Declared names have storage

A frame binds the names of its routine when each parameter has a binding of its
kind and each variable and temporary array a place.  Then a name has storage
exactly when the routine declares it, so what the lowering asks of a frame is
what `Declared` asks of the routine.

Parameters and arguments are bound according to their kinds, and take as many
registers and slots as the kinds say.
-/

namespace PixelPipeline.Ir

open Machine Lower Storage

/-! ## Frames -/

/-- Parameters of the kind can have the binding. -/
def ParamKind.Takes (kind : ParamKind) : Binding → Prop
  | .slot _ => kind ≠ .scalar
  | .register _ => kind = .scalar

/-- Every name that the routine declares has storage. -/
structure Frame.Binds (f : Frame) : Prop where
  params : List.Forall₂ ParamKind.Takes f.routine.params f.params
  temps : f.temps.length = f.routine.temps
  vars : f.vars.length = f.routine.vars

variable {f : Frame}

/-- The frame of a routine with suitable parameters binds every name. -/
theorem Frame.binds_above {r : Routine} {params : List Binding}
    (htakes : List.Forall₂ ParamKind.Takes r.params params) (onReturn : Op Target) (s : Storage) :
    (Frame.above r params onReturn s).Binds :=
  ⟨htakes, List.length_range', List.length_range'⟩

namespace Frame.Binds

/-- A parameter and its binding, or neither. -/
theorem param (binds : f.Binds) (i : Nat) :
    (f.routine.params[i]? = none ∧ f.params[i]? = none) ∨
      ∃ kind b, f.routine.params[i]? = some kind ∧ f.params[i]? = some b ∧ kind.Takes b := by
  cases hkind : f.routine.params[i]? with
  | none =>
    have hlength := binds.params.length_eq
    rw [List.getElem?_eq_none_iff] at hkind
    exact .inl ⟨rfl, List.getElem?_eq_none (by omega)⟩
  | some kind =>
    obtain ⟨b, hb, htakes⟩ := forall₂_getElem? binds.params hkind
    exact .inr ⟨kind, b, rfl, hb, htakes⟩

/-- Exactly the declared arrays are found, with their lanes. -/
theorem array?_iff (binds : f.Binds) {a : ArrayRef} {lanes : Nat} :
    (∃ slot, f.array? a = .ok (slot, lanes)) ↔ f.routine.lanes? a = some lanes := by
  cases a with
  | param i =>
    simp only [Frame.array?_param_eq_ok, Routine.lanes?]
    rcases binds.param i with ⟨hkind, hb⟩ | ⟨kind, b, hkind, hb, htakes⟩
    · simp [hkind]
    · rw [hkind, hb]
      cases b with
      | slot slot => cases kind <;> simp [ParamKind.Takes, ParamKind.lanes] at htakes ⊢
      | register r =>
        obtain rfl : kind = .scalar := htakes
        simp
  | temp i =>
    simp only [Frame.array?_temp_eq_ok, Routine.lanes?, ← binds.temps]
    by_cases hi : i < f.temps.length
    · simp [hi]
    · simp [hi]

/-- Exactly the declared lanes are found. -/
theorem slotOf_iff (binds : f.Binds) {a : ArrayRef} {lane : Nat} :
    (∃ slot, f.slotOf a lane = .ok slot) ↔ f.routine.Addresses a lane := by
  constructor
  · rintro ⟨slot, hslot⟩
    obtain ⟨lanes, harray, hlane⟩ := slotOf_eq_ok.mp hslot
    exact ⟨lanes, binds.array?_iff.mp ⟨slot, harray⟩, hlane⟩
  · rintro ⟨lanes, hlanes, hlane⟩
    obtain ⟨slot, harray⟩ := binds.array?_iff.mpr hlanes
    exact ⟨slot, slotOf_eq_ok.mpr ⟨lanes, harray, hlane⟩⟩

/-- Exactly the scalar parameters have registers. -/
theorem registerOfParam_iff (binds : f.Binds) {i : Nat} :
    (∃ r, f.registerOfParam i = .ok r) ↔ f.routine.params[i]? = some .scalar := by
  simp only [Frame.registerOfParam_eq_ok]
  rcases binds.param i with ⟨hkind, hb⟩ | ⟨kind, b, hkind, hb, htakes⟩
  · simp [hkind, hb]
  · rw [hkind, hb]
    cases b with
    | slot slot => simpa [ParamKind.Takes] using htakes
    | register r => simpa [ParamKind.Takes] using htakes

/-- Exactly the declared variables have registers. -/
theorem registerOfVar_iff (binds : f.Binds) {i : Nat} :
    (∃ r, f.registerOfVar i = .ok r) ↔ i < f.routine.vars := by
  simp only [Frame.registerOfVar_eq_ok, ← binds.vars]
  constructor
  · intro h
    obtain ⟨r, hr⟩ := h
    exact (List.getElem?_eq_some_iff.mp hr).1
  · intro hi
    exact ⟨f.vars[i], List.getElem?_eq_getElem hi⟩

/-- The names of a value have storage exactly if they are declared. -/
theorem value_iff (binds : f.Binds) {v : Value} : v.Named f ↔ v.Declared f.routine := by
  induction v with
  | const _ => exact Iff.rfl
  | load a lane => exact binds.slotOf_iff
  | param i => exact binds.registerOfParam_iff
  | var i => exact binds.registerOfVar_iff
  | binary op lhs rhs ihl ihr => exact and_congr ihl ihr

/-- The target of an assignment has storage exactly if it is declared. -/
theorem place_iff (binds : f.Binds) {dst : Place} : dst.Named f ↔ dst.Declared f.routine := by
  cases dst with
  | lane a l => exact binds.slotOf_iff
  | var i => exact binds.registerOfVar_iff

/-- A terminator is named exactly if it is declared. -/
theorem terminator_iff (binds : f.Binds) {index : Nat} {terminator : Terminator} :
    terminator.Named f index ↔ terminator.Declared f.routine index := by
  cases terminator with
  | ret => exact Iff.rfl
  | jump next => exact Iff.rfl
  | branch op lhs rhs onTrue onFalse =>
    exact and_congr binds.value_iff (and_congr binds.value_iff Iff.rfl)

end Frame.Binds

/-! ## Values -/

variable {s t : Storage} {code : Fragment}

/-- A value that is lowered has storage for its names, and takes its
temporaries. -/
theorem lowerValue_leaves {v : Value} {r : Nat} (h : (lowerValue f v).Yields s (code, r) t) :
    v.Named f ∧ t.tempTop = s.tempTop + v.temps ∧
      (s.tempTop ≤ maxRegisters → t.tempTop ≤ maxRegisters) ∧ Straight code := by
  induction v generalizing s t code r with
  | const v =>
    obtain ⟨halloc, rfl⟩ := lowerValue_const_yields.mp h
    obtain ⟨hlt, rfl, rfl⟩ := allocTemp_yields.mp halloc
    exact ⟨trivial, rfl, fun _ => hlt, .one rfl⟩
  | load a lane =>
    obtain ⟨slot, hslot, halloc, rfl⟩ := lowerValue_load_yields.mp h
    obtain ⟨hlt, rfl, rfl⟩ := allocTemp_yields.mp halloc
    exact ⟨⟨slot, hslot⟩, rfl, fun _ => hlt, .one rfl⟩
  | param i =>
    obtain ⟨hr, rfl, rfl⟩ := lowerValue_param_yields.mp h
    exact ⟨⟨r, hr⟩, rfl, id, by simp [Straight]⟩
  | var i =>
    obtain ⟨hr, rfl, rfl⟩ := lowerValue_var_yields.mp h
    exact ⟨⟨r, hr⟩, rfl, id, by simp [Straight]⟩
  | binary op lhs rhs ihl ihr =>
    obtain ⟨lhsCode, x, u, rhsCode, y, w, hlhs, hrhs, halloc, rfl⟩ := lowerValue_binary_yields.mp h
    obtain ⟨hlt, rfl, rfl⟩ := allocTemp_yields.mp halloc
    obtain ⟨lhsNamed, hu, -, lhsStraight⟩ := ihl hlhs
    obtain ⟨rhsNamed, hw, -, rhsStraight⟩ := ihr hrhs
    refine ⟨⟨lhsNamed, rhsNamed⟩, ?_, fun _ => hlt,
      (lhsStraight.append rhsStraight).append (.one rfl)⟩
    simp only [takeTemp, Value.temps]
    omega

/-- **A value is accepted** exactly if its names have storage and its temporaries room. -/
theorem lowerValue_iff (hroom : s.tempTop ≤ maxRegisters) {v : Value} :
    (∃ code r t, (lowerValue f v).Yields s (code, r) t) ↔
      v.Named f ∧ s.tempTop + v.temps ≤ maxRegisters := by
  constructor
  · rintro ⟨code, r, t, h⟩
    obtain ⟨named, htop, hfits, -⟩ := lowerValue_leaves h
    exact ⟨named, htop ▸ hfits hroom⟩
  · rintro ⟨named, fits⟩
    obtain ⟨code, r, t, h, -, -⟩ := lowerValue_accepts s named fits
    exact ⟨code, r, t, h⟩

/-! ## Arguments -/

variable {callee : Routine} {index : Nat} {kind : ParamKind} {arg : Arg}

/-- The argument is of the kind and has storage. -/
def Arg.Named (f : Frame) (kind : ParamKind) : Arg → Prop
  | .array a => kind ≠ .scalar ∧ ∃ slot, f.slotOf a (kind.lanes - 1) = .ok slot
  | .value v => kind = .scalar ∧ v.Named f

/-- An argument has storage exactly if it suits the parameter. -/
theorem Frame.Binds.arg_iff (binds : f.Binds) : arg.Named f kind ↔ arg.Suits f.routine kind := by
  cases arg with
  | array a =>
    refine and_congr_right fun hkind => ?_
    -- a reference has a last lane
    have hlanes : 0 < kind.lanes := by
      cases kind with
      | vec4Ptr | scalarPtr => decide
      | scalar => exact absurd rfl hkind
    rw [binds.slotOf_iff]
    refine exists_congr fun lanes => and_congr_right fun _ => ?_
    omega
  | value v => exact and_congr_right fun _ => binds.value_iff

/-- What making an argument available does to the storage. -/
theorem lowerArg_leaves {b : Binding} (htemps : s.tempTop = s.registerTop)
    (h : (lowerArg f callee index kind arg).Yields s (code, b) t) :
    kind.Takes b ∧ t.registerTop = s.registerTop + arg.registers ∧
      arg.registers = [kind].count .scalar ∧ t.tempTop = t.registerTop ∧ Straight code := by
  rcases lowerArg_yields.mp h with ⟨a, slot, hkind, rfl, -, rfl, rfl, rfl⟩ |
    ⟨v, front, temp, u, r, rfl, rfl, hv, hr, rfl, rfl⟩
  · refine ⟨hkind, rfl, ?_, htemps, by simp [Straight]⟩
    simp [Arg.registers, hkind]
  · obtain ⟨-, -, rfl⟩ := allocRegister_yields.mp hr
    have restored := (lowerValue_restored hv).1
    refine ⟨rfl, ?_, rfl, rfl, (lowerValue_leaves hv).2.2.2.append (.one rfl)⟩
    simp only [takeRegister, restored.sameRegisters, Arg.registers]

/-- An argument leaves the registers inside the machine. -/
theorem lowerArg_room {b : Binding} (hroom : s.registerTop ≤ maxRegisters)
    (h : (lowerArg f callee index kind arg).Yields s (code, b) t) :
    t.registerTop ≤ maxRegisters := by
  rcases lowerArg_yields.mp h with ⟨a, slot, -, -, -, -, -, rfl⟩ | ⟨v, front, temp, u, r, -, -, -,
    hr, -, -⟩
  · exact hroom
  · obtain ⟨hlt, -, rfl⟩ := allocRegister_yields.mp hr
    exact hlt

/-- An argument is accepted exactly if it has storage and its register room. -/
theorem lowerArg_iff (htemps : s.tempTop = s.registerTop) (hroom : s.registerTop ≤ maxRegisters) :
    (∃ code b t, (lowerArg f callee index kind arg).Yields s (code, b) t) ↔
      arg.Named f kind ∧ s.registerTop + arg.demand ≤ maxRegisters := by
  constructor
  · rintro ⟨code, b, t, h⟩
    rcases lowerArg_yields.mp h with ⟨a, slot, hkind, rfl, hslot, -⟩ |
      ⟨v, front, temp, u, r, rfl, rfl, hv, hr, -, -⟩
    · exact ⟨⟨hkind, slot, hslot⟩, hroom⟩
    · obtain ⟨named, hfits⟩ := (lowerValue_iff (htemps ▸ hroom)).mp ⟨_, _, _, hv⟩
      obtain ⟨hlt, -, -⟩ := allocRegister_yields.mp hr
      rw [(lowerValue_restored hv).1.sameRegisters] at hlt
      refine ⟨⟨rfl, named⟩, ?_⟩
      simp only [Arg.demand]
      omega
  · rintro ⟨named, fits⟩
    cases arg with
    | array a =>
      obtain ⟨hkind, slot, hslot⟩ := named
      exact ⟨_, _, _, lowerArg_yields.mpr (.inl ⟨a, slot, hkind, rfl, hslot, rfl, rfl, rfl⟩)⟩
    | value v =>
      obtain ⟨hkind, named⟩ := named
      simp only [Arg.demand] at fits
      obtain ⟨front, temp, u, hv⟩ := (lowerValue_iff (htemps ▸ hroom)).mpr ⟨named, by omega⟩
      have hlt : u.registerTop < maxRegisters := by
        rw [(lowerValue_restored hv).1.sameRegisters]
        omega
      exact ⟨_, _, _, lowerArg_yields.mpr (.inr ⟨v, front, temp, u, _, hkind, rfl, hv,
        allocRegister_yields.mpr ⟨hlt, rfl, rfl⟩, rfl, rfl⟩)⟩

/-- Arguments take a register for each scalar. -/
theorem lowerArgs_leaves {kinds : List ParamKind} {args : List Arg} {bindings : List Binding}
    (hlength : kinds.length = args.length) (htemps : s.tempTop = s.registerTop)
    (h : (lowerArgs f callee index (kinds.zip args)).Yields s (code, bindings) t) :
    List.Forall₂ ParamKind.Takes kinds bindings ∧
      t.registerTop = s.registerTop + kinds.count .scalar ∧ Straight code := by
  induction args generalizing kinds bindings index s code with
  | nil =>
    obtain rfl := List.eq_nil_of_length_eq_zero hlength
    obtain ⟨rfl, rfl, rfl⟩ := lowerArgs_nil_yields.mp h
    exact ⟨.nil, rfl, by simp [Straight]⟩
  | cons arg rest ih =>
    obtain ⟨kind, kinds, rfl⟩ := List.exists_cons_of_length_eq_add_one hlength
    rw [List.zip_cons_cons] at h
    obtain ⟨front, b, u, back, others, harg, hrest, rfl, rfl⟩ := lowerArgs_cons_yields.mp h
    obtain ⟨htakes, hu, hkept, htemps', hfront⟩ := lowerArg_leaves htemps harg
    obtain ⟨hothers, ht, hback⟩ := ih (Nat.succ.inj hlength) htemps' hrest
    have hcount : (kind :: kinds).count .scalar = [kind].count .scalar + kinds.count .scalar := by
      rw [← List.count_append, List.singleton_append]
    exact ⟨.cons htakes hothers, by omega, hfront.append hback⟩

/-- Arguments leave the registers inside the machine. -/
theorem lowerArgs_room {kinds : List ParamKind} {args : List Arg} {bindings : List Binding}
    (hroom : s.registerTop ≤ maxRegisters)
    (h : (lowerArgs f callee index (kinds.zip args)).Yields s (code, bindings) t) :
    t.registerTop ≤ maxRegisters := by
  induction args generalizing kinds bindings index s code with
  | nil =>
    rw [List.zip_nil_right] at h
    obtain ⟨-, -, rfl⟩ := lowerArgs_nil_yields.mp h
    exact hroom
  | cons arg rest ih =>
    cases kinds with
    | nil =>
      rw [List.zip_nil_left] at h
      obtain ⟨-, -, rfl⟩ := lowerArgs_nil_yields.mp h
      exact hroom
    | cons kind kinds =>
      obtain ⟨_, _, _, _, _, harg, hrest, -, -⟩ := lowerArgs_cons_yields.mp h
      exact ih (lowerArg_room hroom harg) hrest

/-- Arguments are accepted exactly if they have storage and their registers room. -/
theorem lowerArgs_iff {kinds : List ParamKind} {args : List Arg}
    (hlength : kinds.length = args.length) (htemps : s.tempTop = s.registerTop)
    (hroom : s.registerTop ≤ maxRegisters) :
    (∃ code bindings t, (lowerArgs f callee index (kinds.zip args)).Yields s (code, bindings) t) ↔
      List.Forall₂ (Arg.Named f) kinds args ∧ s.registerTop + Arg.demands args ≤ maxRegisters := by
  induction args generalizing kinds index s with
  | nil =>
    obtain rfl := List.eq_nil_of_length_eq_zero hlength
    constructor
    · intro _
      exact ⟨.nil, hroom⟩
    · intro _
      exact ⟨_, _, _, lowerArgs_nil_yields.mpr ⟨rfl, rfl, rfl⟩⟩
  | cons arg rest ih =>
    obtain ⟨kind, kinds, rfl⟩ := List.exists_cons_of_length_eq_add_one hlength
    rw [List.zip_cons_cons, List.forall₂_cons, Arg.demands]
    constructor
    · rintro ⟨code, bindings, t, h⟩
      obtain ⟨front, b, u, back, others, harg, hrest, -, -⟩ := lowerArgs_cons_yields.mp h
      obtain ⟨named, fits⟩ := (lowerArg_iff htemps hroom).mp ⟨_, _, _, harg⟩
      obtain ⟨-, hu, -, htemps', -⟩ := lowerArg_leaves htemps harg
      have hroom' := lowerArg_room hroom harg
      obtain ⟨others, fitsRest⟩ := (ih (Nat.succ.inj hlength) htemps' hroom').mp ⟨_, _, _, hrest⟩
      exact ⟨⟨named, others⟩, by omega⟩
    · rintro ⟨⟨named, others⟩, fits⟩
      obtain ⟨front, b, u, harg⟩ := (lowerArg_iff htemps hroom).mpr ⟨named, by omega⟩
      obtain ⟨-, hu, -, htemps', -⟩ := lowerArg_leaves htemps harg
      have hroom' := lowerArg_room hroom harg
      obtain ⟨back, bindings, t, hrest⟩ :=
        (ih (Nat.succ.inj hlength) htemps' hroom').mpr ⟨others, by omega⟩
      exact ⟨_, _, _, lowerArgs_cons_yields.mpr ⟨front, b, u, back, bindings, harg, hrest, rfl,
        rfl⟩⟩

/-! ## Parameters of the entry -/

/-- The entry's parameters take a register for each scalar and a slot for each
reference. -/
theorem allocParams_leaves {kinds : List ParamKind} {bindings : List Binding}
    (h : (kinds.mapM allocParam).Yields s bindings t) :
    List.Forall₂ ParamKind.Takes kinds bindings ∧
      t.registerTop = s.registerTop + kinds.count .scalar ∧
      t.slotTop = s.slotTop + kinds.countP (· ≠ .scalar) ∧ t.path = s.path := by
  induction kinds generalizing s bindings with
  | nil =>
    simp only [List.mapM_nil, yields_pure] at h
    obtain ⟨rfl, rfl⟩ := h
    exact ⟨.nil, rfl, rfl, rfl⟩
  | cons kind kinds ih =>
    obtain ⟨b, u, others, hb, hothers, rfl⟩ := allocParams_cons_yields.mp h
    obtain ⟨htakes, hregisters, hslots, hpath⟩ := ih hothers
    rcases allocParam_yields.mp hb with ⟨hkind, -, rfl, rfl⟩ | ⟨rfl, -, rfl, rfl⟩
    · rw [List.count_cons_of_ne hkind, List.countP_cons_of_pos (by simpa using hkind)]
      simp only [takeSlot] at hregisters hslots
      exact ⟨.cons hkind htakes, hregisters, by omega, hpath⟩
    · rw [List.count_cons_self, List.countP_cons_of_neg (by simp)]
      simp only [takeRegister] at hregisters hslots
      exact ⟨.cons rfl htakes, by omega, hslots, hpath⟩

/-- Parameters leave registers and slots inside the machine. -/
theorem allocParams_room {kinds : List ParamKind} {bindings : List Binding}
    (h : (kinds.mapM allocParam).Yields s bindings t) (hregisters : s.registerTop ≤ maxRegisters)
    (hslots : s.slotTop ≤ maxSlots) : t.registerTop ≤ maxRegisters ∧ t.slotTop ≤ maxSlots := by
  induction kinds generalizing s bindings with
  | nil =>
    simp only [List.mapM_nil, yields_pure] at h
    exact h.2 ▸ ⟨hregisters, hslots⟩
  | cons kind kinds ih =>
    obtain ⟨b, u, others, hb, hothers, -⟩ := allocParams_cons_yields.mp h
    rcases allocParam_yields.mp hb with ⟨-, hlt, -, rfl⟩ | ⟨-, hlt, -, rfl⟩
    · exact ih hothers hregisters hlt
    · exact ih hothers hlt hslots

/-- Parameters are accepted if there is room for all of them. -/
theorem allocParams_accepts (kinds : List ParamKind)
    (hregisters : s.registerTop + kinds.count .scalar ≤ maxRegisters)
    (hslots : s.slotTop + kinds.countP (· ≠ .scalar) ≤ maxSlots) :
    ∃ bindings t, (kinds.mapM allocParam).Yields s bindings t := by
  induction kinds generalizing s with
  | nil =>
    refine ⟨[], s, ?_⟩
    simp only [List.mapM_nil, yields_pure, and_self]
  | cons kind kinds ih =>
    by_cases hkind : kind = .scalar
    · subst hkind
      rw [List.count_cons_self] at hregisters
      rw [List.countP_cons_of_neg (by simp)] at hslots
      have hb : (allocParam .scalar).Yields s (.register s.registerTop) s.takeRegister :=
        allocParam_yields.mpr (.inr ⟨rfl, by omega, rfl, rfl⟩)
      obtain ⟨others, t, hothers⟩ := @ih s.takeRegister (by simp only [takeRegister]; omega)
        (by simp only [takeRegister]; omega)
      exact ⟨_, t, allocParams_cons_yields.mpr ⟨_, _, others, hb, hothers, rfl⟩⟩
    · rw [List.count_cons_of_ne hkind] at hregisters
      rw [List.countP_cons_of_pos (by simpa using hkind)] at hslots
      have hb : (allocParam kind).Yields s (.slot s.slotTop) s.takeSlot :=
        allocParam_yields.mpr (.inl ⟨hkind, by omega, rfl, rfl⟩)
      obtain ⟨others, t, hothers⟩ := @ih s.takeSlot (by simp only [takeSlot]; omega)
        (by simp only [takeSlot]; omega)
      exact ⟨_, t, allocParams_cons_yields.mpr ⟨_, _, others, hb, hothers, rfl⟩⟩

end PixelPipeline.Ir
