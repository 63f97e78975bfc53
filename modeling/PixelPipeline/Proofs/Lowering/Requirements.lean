import PixelPipeline.Proofs.Lowering.Names

/-!
# What is lowered is acceptable

A module that is lowered has had every instance of its call tree expanded: the
body of a callee is emitted between the arguments of its call and what follows
them, on the storage that the call leaves to it, and its code stands unchanged
in the code of its caller.  So the displacements of the finished program are
those of every instance, and since all of them lead ahead, each block that an
instance names comes after the block that names it.

* `Module.Expanded` — an instance was expanded, and its code leads ahead;
* `Expanded.acceptable` — then it is acceptable;
* `Expanded.call` — and each of its callees was expanded.
-/

namespace PixelPipeline.Ir

open Machine Lower Storage

/-! ## Leading ahead -/

/-- Every displacement of placed code is positive. -/
def PlacedCode.Ahead (code : PlacedCode) : Prop := ∀ op ∈ code, ∀ d ∈ op.targets, 0 < d

/-- A target of the block with this number leads ahead. -/
def Target.Ahead (index : Nat) : Target → Prop
  | .within d => 0 < d
  | .block next => index < next
  | .exit => True

/-- Every target of a piece of the block's code leads ahead. -/
def Fragment.Ahead (index : Nat) (code : Fragment) : Prop :=
  ∀ op ∈ code, ∀ t ∈ op.targets, t.Ahead index

/-- If placed blocks lead ahead, each block leads to later ones. -/
theorem PlacedCode.Ahead.block {fragments : List Fragment}
    (hahead : PlacedCode.Ahead (place fragments)) {index : Nat} {code : Fragment}
    (hget : fragments[index]? = some code) : Fragment.Ahead index code := by
  intro op hop t ht
  obtain ⟨j, hj⟩ := List.mem_iff_getElem?.mp hop
  have hflat : fragments.flatten[blockStart fragments index + j]? = some op := by
    rw [flatten_eq_of_getElem? hget, blockStart, List.getElem?_append_right (Nat.le_add_right _ _),
      Nat.add_sub_cancel_left, List.getElem?_append_left (List.getElem?_eq_some_iff.mp hj).1]
    exact hj
  have hplaced : op.mapTargets (Target.displacement (blockStarts 0 fragments)
      fragments.flatten.length (blockStart fragments index + j)) ∈ place fragments := by
    apply List.mem_of_getElem?
    rw [place, List.getElem?_mapIdx, hflat]
    rfl
  have hpos := hahead _ hplaced (t.displacement (blockStarts 0 fragments) fragments.flatten.length
    (blockStart fragments index + j)) (by
      rw [Op.targets_mapTargets]
      exact List.mem_map_of_mem ht)
  cases t with
  | within d => exact hpos
  | block next =>
    -- an earlier block would start no later than this one
    by_contra hnot
    have hmono := blockStart_mono fragments (Nat.le_of_not_lt hnot)
    have hstart := blockStarts_getD 0 fragments next
    simp only [Nat.zero_add] at hstart
    simp only [Target.displacement, hstart] at hpos
    omega
  | exit => trivial

/-- Code that leads ahead inside a block leads ahead by itself. -/
theorem Fragment.Ahead.embedded {code : PlacedCode} {index : Nat}
    (hahead : Fragment.Ahead index (embed code)) : PlacedCode.Ahead code := by
  intro op hop d hd
  have hmem : op.mapTargets .within ∈ embed code := List.mem_map_of_mem hop
  exact hahead _ hmem (.within d) (by
    rw [Op.targets_mapTargets]
    exact List.mem_map_of_mem hd)

/-- A part of code that leads ahead leads ahead. -/
theorem Fragment.Ahead.of_subset {front code : Fragment} {index : Nat}
    (hahead : Fragment.Ahead index code) (hsubset : front ⊆ code) : Fragment.Ahead index front :=
  fun op hop => hahead op (hsubset hop)

/-! ## The body of an instance -/

/-- How callees are expanded when calls may nest `depth` deep. -/
def Module.expander (m : Module) : (depth : Nat) → Expander
  | 0 => none
  | depth + 1 => some (expandRoutine m depth)

variable {m : Module} {path : List Nat} {r : Routine} {registers slots depth index : Nat}
  {f : Frame} {s t : Storage} {code : Fragment}

/-- A routine is expanded with callees one level less deep. -/
theorem expandRoutine_eq (m : Module) (depth : Nat) :
    expandRoutine m depth = lowerRoutine m (m.expander depth) := by
  cases depth <;> rfl

/-- Expanding callees leaves nothing behind, at any depth. -/
theorem expander_restores (m : Module) (depth : Nat) : (m.expander depth).Restores := by
  cases depth with
  | zero =>
    intro body hbody
    cases hbody
  | succ depth => exact expandRoutine_restores m depth

/-- The frame and the storage on which the body of an instance is emitted, with
`depth` left for calls. -/
structure Body (path : List Nat) (r : Routine) (registers slots depth : Nat) (f : Frame)
    (s : Storage) : Prop where
  nesting : depth + path.length = maxPath
  path : s.path = path
  registerTop : s.registerTop = registers + r.vars
  slotTop : s.slotTop = slots + r.temps
  routine : f.routine = r
  binds : f.Binds

/-- The body goes on after a statement as before it. -/
theorem Body.restored (body : Body path r registers slots depth f s) (hrestored : s.Restored t) :
    Body path r registers slots depth f t where
  nesting := body.nesting
  path := hrestored.path.trans body.path
  registerTop := hrestored.sameRegisters.trans body.registerTop
  slotTop := hrestored.slotTop.trans body.slotTop
  routine := body.routine
  binds := body.binds

/-- A routine whose parameters are bound has a body. -/
theorem Body.enter {params : List Binding} (htakes : List.Forall₂ ParamKind.Takes r.params params)
    (hdepth : depth + s.path.length = maxPath) (onReturn : Op Target) :
    Body s.path r s.registerTop s.slotTop depth (.above r params onReturn s) (s.enter r) where
  nesting := hdepth
  path := s.path_enter r
  registerTop := s.registerTop_enter r
  slotTop := s.slotTop_enter r
  routine := rfl
  binds := Frame.binds_above htakes onReturn s

/-! ## Statements and blocks -/

/-- Each statement is emitted on the storage of the body, without temporaries. -/
theorem lowerStmts_get {expand : Expander} (hrestores : expand.Restores) {stmts : List Stmt}
    (h : (lowerStmts m expand f stmts).Yields s code t) {stmt : Stmt} (hmem : stmt ∈ stmts) :
    ∃ front u w, (lowerStmt m expand f stmt).Yields u front w ∧ s.Restored u ∧
      u.tempTop = u.registerTop ∧ front ⊆ code := by
  induction stmts generalizing s code with
  | nil => cases hmem
  | cons head rest ih =>
    obtain ⟨front, u, back, hhead, hrest, rfl⟩ := lowerStmts_cons_yields.mp h
    rcases List.mem_cons.mp hmem with rfl | hlater
    · exact ⟨front, s.dropTemps, u, hhead, dropTemps_restored s, rfl, List.subset_append_left _ _⟩
    · obtain ⟨piece, v, w, hstmt, hrestored, htemps, hsubset⟩ := ih hrest hlater
      have hfirst := (dropTemps_restored s).trans (lowerStmt_restored hrestores hhead)
      exact ⟨piece, v, w, hstmt, hfirst.trans hrestored, htemps,
        List.subset_append_of_subset_right _ hsubset⟩

/-- An assignment that is accepted has storage for its names and room for its temporaries. -/
theorem lowerAssign_requires {dst : Place} {v : Value} (hroom : s.tempTop ≤ maxRegisters)
    (h : (lowerAssign f dst v).Yields s code t) :
    dst.Named f ∧ v.Named f ∧ s.tempTop + v.temps ≤ maxRegisters := by
  cases dst with
  | lane a l =>
    obtain ⟨_, _, slot, hv, hslot, -⟩ := lowerAssign_lane_yields.mp h
    exact ⟨⟨slot, hslot⟩, (lowerValue_iff hroom).mp ⟨_, _, _, hv⟩⟩
  | var i =>
    obtain ⟨_, _, r, hv, hr, -⟩ := lowerAssign_var_yields.mp h
    exact ⟨⟨r, hr⟩, (lowerValue_iff hroom).mp ⟨_, _, _, hv⟩⟩

/-- In a body arguments have storage exactly if they suit. -/
theorem Body.arg_iff (body : Body path r registers slots depth f s) {kinds : List ParamKind}
    {args : List Arg} :
    List.Forall₂ (Arg.Named f) kinds args ↔ List.Forall₂ (Arg.Suits r) kinds args := by
  have hsame : Arg.Named f = Arg.Suits r := by
    funext kind arg
    exact propext (body.routine ▸ body.binds.arg_iff)
  rw [hsame]

/-- A statement that is emitted is declared and finds room. -/
theorem Body.stmt_requires (body : Body path r registers slots depth f s)
    (hroom : registers + r.vars ≤ maxRegisters) (htemps : s.tempTop = s.registerTop) {stmt : Stmt}
    (h : (lowerStmt m (m.expander depth) f stmt).Yields s code t) :
    stmt.Declared m path r ∧ registers + r.vars + stmt.demand ≤ maxRegisters := by
  have hbase := body.registerTop
  cases stmt with
  | assign dst v =>
    obtain ⟨hdst, hv, fits⟩ := lowerAssign_requires (by omega) h
    rw [body.binds.place_iff, body.routine] at hdst
    rw [body.binds.value_iff, body.routine] at hv
    refine ⟨⟨hdst, hv⟩, ?_⟩
    simp only [Stmt.demand]
    omega
  | call id args =>
    obtain ⟨callee, _, _, _, _, _, _, hcallee, hpath, hexpand, hlength, hargs, -⟩ :=
      lowerCall_yields.mp h
    obtain ⟨named, fits⟩ := (lowerArgs_iff hlength htemps (by omega)).mp ⟨_, _, _, hargs⟩
    rw [body.path] at hpath
    rw [body.arg_iff] at named
    have hdepth := body.nesting
    have hnested : path.length < maxPath := by
      cases depth with
      | zero => cases hexpand
      | succ depth => omega
    refine ⟨⟨callee, hcallee, hpath, hnested, named⟩, ?_⟩
    simp only [Stmt.demand]
    omega

/-- A target that leads ahead is a later block. -/
theorem blockTarget_ahead {next : Nat} {target : Target} (htarget : f.blockTarget next = .ok target)
    (hahead : target.Ahead index) : index < next ∧ next < f.routine.blocks.length := by
  obtain ⟨hnext, rfl⟩ := blockTarget_ok htarget
  exact ⟨hahead, hnext⟩

/-- The end of a block that is emitted and leads ahead is declared and finds
room. -/
theorem lowerTerminator_requires {terminator : Terminator} (hroom : s.tempTop ≤ maxRegisters)
    (hahead : Fragment.Ahead index code) (h : (lowerTerminator f terminator).Yields s code t) :
    terminator.Named f index ∧ s.tempTop + terminator.temps ≤ maxRegisters := by
  cases terminator with
  | ret => exact ⟨trivial, hroom⟩
  | jump next =>
    obtain ⟨target, htarget, rfl, -⟩ := lowerTerminator_jump_yields.mp h
    have hlater := hahead _ (List.mem_singleton_self _) target (List.mem_singleton_self _)
    exact ⟨blockTarget_ahead htarget hlater, hroom⟩
  | branch op lhs rhs onTrue onFalse =>
    obtain ⟨lhsCode, x, u, rhsCode, y, target, target', hlhs, hrhs, ht, he, rfl⟩ :=
      lowerTerminator_branch_yields.mp h
    obtain ⟨lhsNamed, hu, hfits, -⟩ := lowerValue_leaves hlhs
    obtain ⟨rhsNamed, hw⟩ := (lowerValue_iff (hfits hroom)).mp ⟨_, _, _, hrhs⟩
    have hbranch := hahead _ (List.mem_append_right _ (List.mem_singleton_self _))
    refine ⟨⟨lhsNamed, rhsNamed, blockTarget_ahead ht (hbranch target ?_),
      blockTarget_ahead he (hbranch target' ?_)⟩, ?_⟩
    · simp [Op.targets]
    · simp [Op.targets]
    · simp only [Terminator.temps]
      omega

/-- A block that is accepted and leads ahead is acceptable. -/
theorem Body.block_requires (body : Body path r registers slots depth f s)
    (hroom : registers + r.vars ≤ maxRegisters) {b : Block} (hahead : Fragment.Ahead index code)
    (h : (lowerBlock m (m.expander depth) f index b).Yields s code t) :
    b.Acceptable m path r (registers + r.vars) index := by
  have hrestores := expander_restores m depth
  obtain ⟨front, u, terminator, back, hstmts, hterminator, hend, rfl⟩ := lowerBlock_yields.mp h
  constructor
  · intro stmt hmem
    obtain ⟨piece, v, w, hstmt, hrestored, htemps, -⟩ := lowerStmts_get hrestores hstmts hmem
    exact (body.restored hrestored).stmt_requires hroom htemps hstmt
  · have bodyEnd := (body.restored (lowerStmts_restored hrestores hstmts)).restored
      (dropTemps_restored u)
    have htop : u.dropTemps.tempTop = registers + r.vars := bodyEnd.registerTop
    obtain ⟨named, fits⟩ := lowerTerminator_requires (htop ▸ hroom)
      (hahead.of_subset (List.subset_append_right _ _)) hend
    rw [body.binds.terminator_iff, body.routine] at named
    exact ⟨terminator, hterminator, named, htop ▸ fits⟩

/-! ## Instances -/

/-- The instance was expanded, and its code leads ahead. -/
inductive Module.Expanded (m : Module) :
    (path : List Nat) → Routine → (registers slots : Nat) → Prop
  | intro {depth : Nat} {s t : Storage} {r : Routine} {params : List Binding}
      {onReturn : Op Target} {placed : PlacedCode}
      (hyields : (expandRoutine m depth r params onReturn).Yields s placed t)
      (hahead : PlacedCode.Ahead placed) (htakes : List.Forall₂ ParamKind.Takes r.params params)
      (hdepth : depth + s.path.length = maxPath) (hregisters : s.registerTop ≤ maxRegisters)
      (hslots : s.slotTop ≤ maxSlots) :
      Expanded m s.path r s.registerTop s.slotTop

/-- An instance that was expanded found room, and its blocks were emitted on the
storage of its body. -/
theorem Module.Expanded.body (expanded : m.Expanded path r registers slots) :
    registers + r.vars ≤ maxRegisters ∧ slots + r.temps ≤ maxSlots ∧
      ∃ depth f, ∀ (index : Nat) (b : Block), r.blocks[index]? = some b →
        ∃ s code t, (lowerBlock m (m.expander depth) f index b).Yields s code t ∧
          Body path r registers slots depth f s ∧ Fragment.Ahead index code := by
  obtain ⟨hyields, hahead, htakes, hdepth, hregisters, hslots⟩ := expanded
  rename_i depth s t params onReturn placed
  rw [expandRoutine_eq] at hyields
  obtain ⟨htemps, hvars, fragments, u, hblocks, rfl, -⟩ := lowerRoutine_yields.mp hyields
  refine ⟨by omega, by omega, depth, .above r params onReturn s, fun index b hb => ?_⟩
  obtain ⟨code, v, w, hget, hrestored, hblock⟩ :=
    lowerBlocks_get (expander_restores m depth) hblocks hb
  rw [Nat.zero_add] at hblock
  exact ⟨v, code, w, hblock, (Body.enter htakes hdepth onReturn).restored hrestored,
    hahead.block hget⟩

/-- **An instance that was expanded is acceptable.** -/
theorem Module.Expanded.acceptable (expanded : m.Expanded path r registers slots) :
    r.Acceptable m path registers slots := by
  obtain ⟨hvars, htemps, depth, f, hblocks⟩ := expanded.body
  refine ⟨hvars, htemps, fun index b hb => ?_⟩
  obtain ⟨s, code, t, hblock, body, hahead⟩ := hblocks index b hb
  exact body.block_requires hvars hahead hblock

/-- **The callees of an instance that was expanded were expanded.** -/
theorem Module.Expanded.call (expanded : m.Expanded path r registers slots) {b : Block} {id : Nat}
    {args : List Arg} {callee : Routine} (hblock : b ∈ r.blocks) (hcall : .call id args ∈ b.stmts)
    (hcallee : m.routine? id = some callee) :
    m.Expanded (id :: path) callee (registers + r.vars + callee.scalars) (slots + r.temps) := by
  obtain ⟨hvars, htemps, depth, f, hblocks⟩ := expanded.body
  obtain ⟨index, hb⟩ := List.mem_iff_getElem?.mp hblock
  obtain ⟨s, code, t, hblock, body, hahead⟩ := hblocks index b hb
  obtain ⟨front, _, _, _, hstmts, -, -, rfl⟩ := lowerBlock_yields.mp hblock
  obtain ⟨piece, v, w, hstmt, hrestored, hdropped, hsubset⟩ :=
    lowerStmts_get (expander_restores m depth) hstmts hcall
  have bodyCall := body.restored hrestored
  obtain ⟨_, expandBody, argCode, bindings, u, placed, _, hfound, -, hexpand, hlength, hargs, hbody,
    rfl, -⟩ := lowerCall_yields.mp hstmt
  obtain rfl := Option.some.inj (hcallee.symm.trans hfound)
  have hbase := bodyCall.registerTop
  have hpath := bodyCall.path
  have hslots := bodyCall.slotTop
  have hdepth := bodyCall.nesting
  obtain ⟨htakes, htop, -⟩ := lowerArgs_leaves hlength hdropped hargs
  have hroom := lowerArgs_room (by omega) hargs
  have grows := lowerArgs_grows hargs
  cases depth with
  | zero => cases hexpand
  | succ depth =>
    obtain rfl := Option.some.inj hexpand
    have hplaced : PlacedCode.Ahead placed := by
      have hembedded : Fragment.Ahead index (embed placed) :=
        hahead.of_subset fun op hop => List.mem_append_left _
          (hsubset (List.mem_append_right _ hop))
      exact hembedded.embedded
    have hcalled := Module.Expanded.intro hbody hplaced htakes (by
      simp only [grows.path, hpath, List.length_cons]
      omega) hroom (by
      simp only [grows.slotTop]
      omega)
    simp only [grows.path, hpath, htop, hbase, grows.slotTop, hslots] at hcalled
    exact hcalled

/-- Every instance of a tree is expanded if the entry is. -/
theorem Module.Instance.expanded
    (hentry : ∀ id r, m.entry = some id → m.routine? id = some r →
      m.Expanded [id] r r.scalars r.references)
    (inst : m.Instance path r registers slots) : m.Expanded path r registers slots := by
  induction inst with
  | entry hid hroutine => exact hentry _ _ hid hroutine
  | call caller hblock hcall hcallee ih => exact ih.call hblock hcall hcallee

/-- **A module that is lowered is acceptable.** -/
theorem acceptable_of_lower {p : Program} (h : lower m = .ok p) : m.Acceptable := by
  obtain ⟨id, entry, params, u, code, storage, resolved, hid, hroutine, hparams, hcode, hresolve,
    -⟩ := lower_ok.mp h
  obtain ⟨htakes, hregisters, hslots, -⟩ := allocParams_leaves hparams
  obtain ⟨-, -, hnonempty⟩ := resolve_ok hresolve
  have hblocks : entry.blocks ≠ [] := by
    intro hnone
    rw [expandRoutine_eq] at hcode
    obtain ⟨-, -, fragments, v, hfragments, rfl, -⟩ := lowerRoutine_yields.mp hcode
    rw [hnone] at hfragments
    obtain ⟨rfl, -⟩ := lowerBlocks_nil_yields.mp hfragments
    exact hnonempty rfl
  have hahead : PlacedCode.Ahead code := by
    intro op hop d hd
    obtain ⟨i, hi⟩ := List.mem_iff_getElem?.mp hop
    obtain ⟨-, -, hget⟩ := resolve_get hresolve
    obtain ⟨hlt, -⟩ := (hget i op hi).2 (aimBy i d) (by
      rw [Op.targets_mapTargets]
      exact List.mem_map_of_mem hd)
    unfold aimBy at hlt
    omega
  refine ⟨⟨id, entry, hid, hroutine, hblocks⟩, fun path r registers slots inst => ?_⟩
  refine (inst.expanded fun id' r' hid' hroutine' => ?_).acceptable
  obtain rfl := Option.some.inj (hid.symm.trans hid')
  obtain rfl := Option.some.inj (hroutine.symm.trans hroutine')
  obtain ⟨hroom, hroom'⟩ := allocParams_room hparams (Nat.zero_le _) (Nat.zero_le _)
  have hexpanded := Module.Expanded.intro hcode hahead htakes rfl hroom hroom'
  simp only [hregisters, hslots, Storage.empty, Nat.zero_add] at hexpanded
  exact hexpanded

end PixelPipeline.Ir
