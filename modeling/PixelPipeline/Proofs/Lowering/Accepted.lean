import PixelPipeline.Proofs.Lowering.Requirements

/-!
# What is acceptable is lowered

The other direction goes down the call tree, on how deep calls may still nest.
Acceptable names have storage and acceptable demands find room, so each block of
an instance is emitted as soon as its callees are; jumps to later blocks become
displacements that lead ahead, and a callee returns to what follows its code.
The last block of the entry has no later block to go to, so the program ends in
a return.

* `Module.Acceptable.expands` — every instance is expanded;
* `lower_accepts_iff` — a module is lowered if and only if it is acceptable.
-/

namespace PixelPipeline.Ir

open Machine Lower Storage

variable {m : Module} {path : List Nat} {r : Routine} {registers slots depth index : Nat}
  {f : Frame} {s t : Storage}

/-! ## One instance -/

/-- Every instance that may still nest `depth` calls is expanded, and leads
nowhere but ahead. -/
def Module.Expands (m : Module) (depth : Nat) : Prop :=
  ∀ ⦃s : Storage⦄ ⦃r : Routine⦄ ⦃params : List Binding⦄ ⦃onReturn : Op Target⦄ ⦃exits : Prop⦄,
    m.Instance s.path r s.registerTop s.slotTop → depth + s.path.length = maxPath →
    List.Forall₂ ParamKind.Takes r.params params → (∀ t ∈ onReturn.targets, t = .exit ∧ exits) →
    ∃ placed t, (expandRoutine m depth r params onReturn).Yields s placed t ∧
      ∀ (i : Nat) (op : Op Int), placed[i]? = some op → ∀ d ∈ op.targets,
        0 < d ∧ (i + d < placed.length ∨ exits ∧ i + d = placed.length)

/-- A call is accepted when its callees are expanded. -/
theorem Body.call_accepts (body : Body path r registers slots depth f s)
    (htemps : s.tempTop = s.registerTop) (callees : ∀ d, depth = d + 1 → m.Expands d)
    (inst : m.Instance path r registers slots) {b : Block} {id : Nat} {args : List Arg}
    (hblock : b ∈ r.blocks) (hcall : .call id args ∈ b.stmts)
    (hdeclared : Stmt.Declared m path r (.call id args))
    (hfits : registers + r.vars + Arg.demands args ≤ maxRegisters) (exits : Prop) (count : Nat) :
    Stmt.Accepted m (m.expander depth) f exits count index s (.call id args) := by
  obtain ⟨callee, hcallee, hpath, hnested, suits⟩ := hdeclared
  have hnesting := body.nesting
  obtain ⟨d, rfl⟩ : ∃ d, depth = d + 1 := ⟨depth - 1, by omega⟩
  have hbase := body.registerTop
  have hlength := suits.length_eq
  obtain ⟨argCode, bindings, u, hargs⟩ :=
    (lowerArgs_iff hlength htemps (by omega)).mpr ⟨body.arg_iff.mpr suits, by omega⟩
  obtain ⟨htakes, htop, straight⟩ := lowerArgs_leaves hlength htemps hargs
  have grows := lowerArgs_grows hargs
  have hupath : u.path = path := grows.path.trans body.path
  have hutop : u.registerTop = registers + r.vars + callee.scalars := by
    rw [htop, hbase]
    rfl
  have huslots : u.slotTop = slots + r.temps := grows.slotTop.trans body.slotTop
  refine .passing hcallee (body.path ▸ hpath) rfl hlength hargs straight ?_
  have called : m.Instance (id :: u.path) callee u.registerTop u.slotTop := by
    rw [hupath, hutop, huslots]
    exact .call inst hblock hcall hcallee
  have hroom : d + (id :: u.path).length = maxPath := by
    rw [List.length_cons, hupath]
    omega
  have hexit : ∀ target ∈ (Op.jump Target.exit).targets, target = .exit ∧ True :=
    fun target ht => ⟨List.mem_singleton.mp ht, trivial⟩
  have hcallees : m.Expands d := callees d rfl
  obtain ⟨placed, t, hplaced, leads⟩ :=
    @hcallees { u with path := id :: u.path } _ _ _ _ called hroom htakes hexit
  refine ⟨placed, t, hplaced, fun i op hop d hd => ?_⟩
  obtain ⟨hpos, hlt | ⟨-, heq⟩⟩ := leads i op hop d hd
  · exact ⟨hpos, by omega⟩
  · exact ⟨hpos, by omega⟩

/-- An acceptable block of an instance is accepted. -/
theorem Body.block_accepts (body : Body path r registers slots depth f s)
    (callees : ∀ d, depth = d + 1 → m.Expands d) (inst : m.Instance path r registers slots)
    {b : Block} (hblock : b ∈ r.blocks)
    (acceptable : b.Acceptable m path r (registers + r.vars) index) {exits : Prop}
    (hreturn : ∀ t ∈ f.onReturn.targets, t = .exit ∧ exits) :
    ∃ code t, (lowerBlock m (m.expander depth) f index b).Yields s code t ∧ code ≠ [] ∧
      Fragment.Leads exits r.blocks.length index code.length code := by
  obtain ⟨terminator, hterminator, hdeclared, hfits⟩ := acceptable.ends
  have hroutine := body.routine
  rw [← hroutine, ← body.binds.terminator_iff] at hdeclared
  rw [← body.registerTop] at hfits
  rw [← hroutine]
  refine lowerBlock_accepts (expander_restores m depth) hterminator hdeclared hreturn hfits ?_ index
  intro stmt hmem u hrestored
  have bodyStmt := (body.restored hrestored).restored (dropTemps_restored u)
  obtain ⟨hdeclared, hfits⟩ := acceptable.stmts stmt hmem
  cases stmt with
  | assign dst v =>
    obtain ⟨hdst, hv⟩ := hdeclared
    rw [← hroutine, ← body.binds.place_iff] at hdst
    rw [← hroutine, ← body.binds.value_iff] at hv
    have htop : u.dropTemps.tempTop = registers + r.vars := bodyStmt.registerTop
    exact .assign hdst hv (htop ▸ hfits)
  | call id args =>
    exact bodyStmt.call_accepts rfl callees inst hblock hmem hdeclared hfits exits _

/-- An acceptable instance is expanded when its callees are. -/
theorem Module.Acceptable.expands_of_callees (acceptable : m.Acceptable)
    (callees : ∀ d, depth = d + 1 → m.Expands d) : m.Expands depth := by
  intro s r params onReturn exits inst hdepth htakes hreturn
  have here := acceptable.instances _ _ _ _ inst
  have entered := Body.enter htakes hdepth onReturn
  rw [expandRoutine_eq]
  refine lowerRoutine_accepts (expander_restores m depth) (.inr here.temps) (.inr here.vars) ?_
  intro k b hb u hrestored
  exact (entered.restored hrestored).block_accepts callees inst (List.mem_of_getElem? hb)
    (here.blocks k b hb) hreturn

/-- **Every instance of an acceptable module is expanded.** -/
theorem Module.Acceptable.expands (acceptable : m.Acceptable) (depth : Nat) : m.Expands depth := by
  induction depth with
  | zero => exact acceptable.expands_of_callees fun d hd => absurd hd (Nat.succ_ne_zero d).symm
  | succ depth ih => exact acceptable.expands_of_callees fun d hd => Nat.succ.inj hd ▸ ih

/-! ## Programs -/

/-- The last block of an acceptable instance returns: no block comes later. -/
theorem Routine.Acceptable.last_ret (acceptable : r.Acceptable m path registers slots) {b : Block}
    (hlast : r.blocks.getLast? = some b) : b.terminator = some .ret := by
  have hpos : 0 < r.blocks.length := List.length_pos_of_mem (List.mem_of_getLast? hlast)
  rw [List.getLast?_eq_getElem?] at hlast
  obtain ⟨terminator, hterminator, hdeclared, -⟩ := (acceptable.blocks _ b hlast).ends
  have hnone : ∀ next, ¬ r.Later (r.blocks.length - 1) next := by
    rintro next ⟨hlater, hnext⟩
    omega
  cases terminator with
  | ret => exact hterminator
  | jump next => exact absurd hdeclared (hnone next)
  | branch op lhs rhs onTrue onFalse => exact absurd hdeclared.2.2.1 (hnone onTrue)

/-- **An acceptable module is accepted.** -/
theorem lower_of_acceptable (acceptable : m.Acceptable) : ∃ p, lower m = .ok p := by
  obtain ⟨id, entry, hid, hroutine, hblocks⟩ := acceptable.entry
  have inst : m.Instance [id] entry entry.scalars entry.references := .entry hid hroutine
  have here := acceptable.instances _ _ _ _ inst
  have hvars := here.vars
  have htemps := here.temps
  -- the entry's parameters come first
  have hscalars : Storage.empty.registerTop + entry.params.count .scalar ≤ maxRegisters := by
    change 0 + entry.scalars ≤ maxRegisters
    omega
  have hreferences : Storage.empty.slotTop + entry.params.countP (· ≠ .scalar) ≤ maxSlots := by
    change 0 + entry.references ≤ maxSlots
    omega
  obtain ⟨params, u, hparams⟩ := allocParams_accepts entry.params hscalars hreferences
  obtain ⟨htakes, htop, hslots, -⟩ := allocParams_leaves hparams
  have called : m.Instance [id] entry u.registerTop u.slotTop := by
    rw [htop, hslots]
    change m.Instance [id] entry (0 + entry.scalars) (0 + entry.references)
    rw [Nat.zero_add, Nat.zero_add]
    exact inst
  have hnever : ∀ target ∈ (Op.ret : Op Target).targets, target = .exit ∧ False :=
    fun target ht => absurd ht List.not_mem_nil
  obtain ⟨code, storage, hcode, leads⟩ :=
    @Module.Acceptable.expands m acceptable (maxPath - 1) { u with path := [id] } _ _ _ _ called rfl
      htakes hnever
  have hinside : PlacedCode.Leads code.length code := by
    intro i op hop d hd
    obtain ⟨hpos, hlt | ⟨hexits, -⟩⟩ := leads i op hop d hd
    · exact ⟨hpos, hlt⟩
    · exact hexits.elim
  have hfinal : code.getLast? = some .ret := by
    have hlast := List.getLast?_eq_some_getLast hblocks
    rw [expandRoutine_eq] at hcode
    exact lowerRoutine_getLast? (expander_restores m _) hcode hlast (here.last_ret hlast)
  obtain ⟨resolved, hresolved⟩ := resolve_accepts hinside hfinal
  exact ⟨_, lower_ok.mpr
    ⟨id, entry, params, u, code, storage, resolved, hid, hroutine, hparams, hcode, hresolved, rfl⟩⟩

/-- **A module is lowered if and only if it is acceptable.** -/
theorem lower_accepts_iff (m : Module) : (∃ p, lower m = .ok p) ↔ m.Acceptable := by
  constructor
  · intro hlowered
    obtain ⟨p, h⟩ := hlowered
    exact acceptable_of_lower h
  · exact lower_of_acceptable

end PixelPipeline.Ir
