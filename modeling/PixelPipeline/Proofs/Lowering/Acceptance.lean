import PixelPipeline.Proofs.Lowering.Resolve
import PixelPipeline.Proofs.Lowering.Storage

/-!
# What can be lowered

The lowering refuses a module for what it names, for what it uses up, and for
where it jumps.  This module says for values, statements, terminators and
routines what suffices to be accepted:

* every name has storage, and the temporaries of a statement find room above the
  registers in use;
* a call names a routine that is not under expansion, its arrays have the lanes
  that the callee may address, and the callee's body is accepted;
* a terminator leads to later blocks only.

Jumps are judged when the code is resolved.  `Fragment.Leads` follows them until
then: a displacement leads forward and stays inside the statement or stops right
behind it, and a block that is named comes later.
-/

namespace PixelPipeline.Ir

open Machine Lower Storage

/-! ## Names and room -/

/-- Every name in a value has storage. -/
def Value.Named (f : Frame) : Value → Prop
  | .const _ => True
  | .load a lane => ∃ slot, f.slotOf a lane = .ok slot
  | .param i => ∃ r, f.registerOfParam i = .ok r
  | .var i => ∃ r, f.registerOfVar i = .ok r
  | .binary _ lhs rhs => lhs.Named f ∧ rhs.Named f

/-- How many temporaries a value uses. -/
def Value.temps : Value → Nat
  | .const _ | .load _ _ => 1
  | .param _ | .var _ => 0
  | .binary _ lhs rhs => lhs.temps + rhs.temps + 1

/-- The target of an assignment has storage. -/
def Place.Named (f : Frame) : Place → Prop
  | .lane a l => ∃ slot, f.slotOf a l = .ok slot
  | .var i => ∃ r, f.registerOfVar i = .ok r

variable {f : Frame} {st : Storage}

/-- No operation has a target. -/
def Straight (code : Fragment) : Prop := ∀ op ∈ code, op.targets = []

/-- Straight code behind straight code is straight. -/
theorem Straight.append {front back : Fragment} (h : Straight front) (k : Straight back) :
    Straight (front ++ back) := by
  intro op hop
  obtain hop | hop := List.mem_append.mp hop
  · exact h op hop
  · exact k op hop

/-- An operation without targets is straight code. -/
theorem Straight.one {op : Op Target} (h : op.targets = []) : Straight [op] := by
  intro op' hop
  obtain rfl := List.mem_singleton.mp hop
  exact h

/-- A value whose names have storage and that finds room is accepted. -/
theorem lowerValue_accepts (st : Storage) {v : Value} (named : v.Named f)
    (fits : st.tempTop + v.temps ≤ maxRegisters) :
    ∃ code r t, (lowerValue f v).Yields st (code, r) t ∧ t.tempTop = st.tempTop + v.temps ∧
      Straight code := by
  induction v generalizing st with
  | const v =>
      exact ⟨_, _, _, lowerValue_const_yields.mpr ⟨allocTemp_yields.mpr ⟨fits, rfl, rfl⟩, rfl⟩, rfl,
        .one rfl⟩
  | load a lane =>
      obtain ⟨slot, hslot⟩ := named
      exact ⟨_, _, _, lowerValue_load_yields.mpr
        ⟨slot, hslot, allocTemp_yields.mpr ⟨fits, rfl, rfl⟩, rfl⟩, rfl, .one rfl⟩
  | param i =>
      obtain ⟨r, hr⟩ := named
      exact ⟨_, r, st, lowerValue_param_yields.mpr ⟨hr, rfl, rfl⟩, rfl, by simp [Straight]⟩
  | var i =>
      obtain ⟨r, hr⟩ := named
      exact ⟨_, r, st, lowerValue_var_yields.mpr ⟨hr, rfl, rfl⟩, rfl, by simp [Straight]⟩
  | binary op lhs rhs ihl ihr =>
      simp only [Value.temps] at fits
      obtain ⟨lhsCode, x, u, hl, hu, lhsStraight⟩ := ihl st named.1 (by omega)
      obtain ⟨rhsCode, y, w, hr, hw, rhsStraight⟩ := ihr u named.2 (by omega)
      have hroom : w.tempTop < maxRegisters := by omega
      refine ⟨_, _, _, lowerValue_binary_yields.mpr ⟨lhsCode, x, u, rhsCode, y, w, hl, hr,
        allocTemp_yields.mpr ⟨hroom, rfl, rfl⟩, rfl⟩, ?_, ?_⟩
      · simp only [takeTemp, Value.temps]
        omega
      · exact (lhsStraight.append rhsStraight).append (.one rfl)

/-- An assignment is accepted if its names have storage and its temporaries room. -/
theorem lowerAssign_accepts {dst : Place} {v : Value} (hdst : dst.Named f) (named : v.Named f)
    (fits : st.tempTop + v.temps ≤ maxRegisters) :
    ∃ code t, (lowerAssign f dst v).Yields st code t ∧ Straight code := by
  obtain ⟨code, r, t, hv, -, straight⟩ := lowerValue_accepts st named fits
  cases dst with
  | lane a lane =>
      obtain ⟨slot, hslot⟩ := hdst
      exact ⟨_, t, lowerAssign_lane_yields.mpr ⟨code, r, slot, hv, hslot, rfl⟩,
        straight.append (.one rfl)⟩
  | var i =>
      obtain ⟨register, hregister⟩ := hdst
      exact ⟨_, t, lowerAssign_var_yields.mpr ⟨code, r, register, hv, hregister, rfl⟩,
        straight.append (.one rfl)⟩

/-! ## Where code leads -/

/-- Where a target of a block's code may lead: by a displacement to a later
position below `limit`, to a later block, or, if the routine leaves that way, to
the exit. -/
def Target.Leads (exits : Prop) (count index limit source : Nat) : Target → Prop
  | .within d => 0 < d ∧ source + d < limit
  | .block next => index < next ∧ next < count
  | .exit => exits

/-- Every target of a piece of a block's code leads where it may. -/
def Fragment.Leads (exits : Prop) (count index limit : Nat) (code : Fragment) : Prop :=
  ∀ (i : Nat) (op : Op Target), code[i]? = some op → ∀ t ∈ op.targets,
    t.Leads exits count index limit i

/-- Every displacement of placed code leads to a later position below `limit`. -/
def PlacedCode.Leads (limit : Nat) (code : PlacedCode) : Prop :=
  ∀ (i : Nat) (op : Op Int), code[i]? = some op → ∀ d ∈ op.targets, 0 < d ∧ i + d < limit

section

variable {exits : Prop} {count index : Nat}

/-- Straight code leads nowhere else. -/
theorem Fragment.Leads.straight {code : Fragment} (h : Straight code) (limit : Nat) :
    Fragment.Leads exits count index limit code := by
  intro i op hop t ht
  rw [h op (List.mem_of_getElem? hop)] at ht
  cases ht

/-- Code leads where it may if both halves do, the first one not past the second. -/
theorem Fragment.Leads.append {front back : Fragment} {limit : Nat}
    (hfront : Fragment.Leads exits count index (front.length + 1) front)
    (hback : Fragment.Leads exits count index limit back) (hlimit : 0 < limit) :
    Fragment.Leads exits count index (front.length + limit) (front ++ back) := by
  intro i op hop t ht
  by_cases hi : i < front.length
  · rw [List.getElem?_append_left hi] at hop
    have := hfront i op hop t ht
    cases t with
    | within d =>
        obtain ⟨hd, hlt⟩ := this
        exact ⟨hd, by omega⟩
    | block next => exact this
    | exit => exact this
  · have hi : front.length ≤ i := Nat.le_of_not_lt hi
    rw [List.getElem?_append_right hi] at hop
    have := hback (i - front.length) op hop t ht
    cases t with
    | within d =>
        obtain ⟨hd, hlt⟩ := this
        exact ⟨hd, by omega⟩
    | block next => exact this
    | exit => exact this

/-- Placed code leads where it may inside a block. -/
theorem Fragment.Leads.embed {code : PlacedCode} {limit : Nat} (h : PlacedCode.Leads limit code) :
    Fragment.Leads exits count index limit (embed code) := by
  intro i op hop t ht
  rw [Ir.embed, List.getElem?_map, Option.map_eq_some_iff] at hop
  obtain ⟨op, hop, rfl⟩ := hop
  rw [Op.targets_mapTargets, List.mem_map] at ht
  obtain ⟨d, hd, rfl⟩ := ht
  exact h i op hop d hd

/-! ## Statements -/

variable {m : Module} {expand : Expander}

/-- A statement of a block is accepted on a storage and its code leads nowhere
but forward. -/
def Stmt.Accepted (m : Module) (expand : Expander) (f : Frame) (exits : Prop) (count index : Nat)
    (st : Storage) (stmt : Stmt) : Prop :=
  ∃ code t, (lowerStmt m expand f stmt).Yields st code t ∧
    Fragment.Leads exits count index (code.length + 1) code

/-- An assignment is a statement that is accepted. -/
theorem Stmt.Accepted.assign {dst : Place} {v : Value} (hdst : dst.Named f) (named : v.Named f)
    (fits : st.tempTop + v.temps ≤ maxRegisters) :
    Stmt.Accepted m expand f exits count index st (.assign dst v) := by
  obtain ⟨code, t, h, straight⟩ := lowerAssign_accepts hdst named fits
  exact ⟨code, t, h, .straight straight _⟩

/-- Arrays that can be passed have the lanes that the callee may address. -/
def Arg.Passes (f : Frame) (kind : ParamKind) (arg : Arg) (b : Binding) : Prop :=
  ∃ a slot, kind ≠ .scalar ∧ arg = .array a ∧ f.slotOf a (kind.lanes - 1) = .ok slot ∧
    b = .slot slot

/-- Arguments that can be passed are accepted, and emit nothing. -/
theorem lowerArgs_accepts {callee : Routine} {args : List Arg} {kinds : List ParamKind}
    {bindings : List Binding} (hlen : kinds.length = args.length)
    (hbindings : bindings.length = args.length)
    (passes : ∀ (i : Nat) (kind : ParamKind) (arg : Arg) (b : Binding), kinds[i]? = some kind →
      args[i]? = some arg → bindings[i]? = some b → arg.Passes f kind b) (first : Nat) :
    (lowerArgs f callee first (kinds.zip args)).Yields st ([], bindings) st := by
  induction args generalizing kinds bindings first with
  | nil =>
      rw [List.zip_nil_right]
      exact lowerArgs_nil_yields.mpr ⟨rfl, List.eq_nil_of_length_eq_zero hbindings, rfl⟩
  | cons arg rest ih =>
      obtain ⟨kind, kinds, rfl⟩ := List.exists_cons_of_length_eq_add_one hlen
      obtain ⟨b, others, rfl⟩ := List.exists_cons_of_length_eq_add_one hbindings
      obtain ⟨a, slot, hkind, rfl, hslot, rfl⟩ := passes 0 kind arg b rfl rfl rfl
      rw [List.zip_cons_cons]
      refine lowerArgs_cons_yields.mpr ⟨[], .slot slot, st, [], others, ?_, ?_, rfl, rfl⟩
      · exact lowerArg_yields.mpr (.inl ⟨a, slot, hkind, rfl, hslot, rfl, rfl, rfl⟩)
      · exact ih (by simpa using hlen) (by simpa using hbindings)
          (fun i kind arg b hk ha hb => passes (i + 1) kind arg b hk ha hb) (first + 1)

/-- A call is accepted whose arguments are made available by code that does not
jump, when the callee's body is. -/
theorem Stmt.Accepted.passing {id : Nat} {callee : Routine} {args : List Arg} {argCode : Fragment}
    {bindings : List Binding} {u : Storage}
    {body : Routine → List Binding → Op Target → Lower PlacedCode}
    (hcallee : m.routine? id = some callee) (hpath : id ∉ st.path) (hexpand : expand = some body)
    (hlen : callee.params.length = args.length)
    (hargs : (lowerArgs f callee 0 (callee.params.zip args)).Yields st (argCode, bindings) u)
    (straight : Straight argCode)
    (hbody : ∃ placed t, (body callee bindings (.jump .exit)).Yields
      { u with path := id :: u.path } placed t ∧ PlacedCode.Leads (placed.length + 1) placed) :
    Stmt.Accepted m expand f exits count index st (.call id args) := by
  obtain ⟨placed, t, hplaced, leads⟩ := hbody
  refine ⟨_, _, lowerCall_yields.mpr ⟨callee, body, argCode, bindings, u, placed, t, hcallee, hpath,
    hexpand, hlen, hargs, hplaced, rfl, rfl⟩, ?_⟩
  rw [List.length_append, length_embed, Nat.add_assoc]
  exact (Fragment.Leads.straight straight _).append (.embed leads) (Nat.succ_pos _)

/-- A call that passes arrays is accepted when the callee's body is. -/
theorem Stmt.Accepted.call {id : Nat} {callee : Routine} {args : List Arg}
    {bindings : List Binding}
    {body : Routine → List Binding → Op Target → Lower PlacedCode}
    (hcallee : m.routine? id = some callee) (hpath : id ∉ st.path) (hexpand : expand = some body)
    (hlen : callee.params.length = args.length) (hbindings : bindings.length = args.length)
    (passes : ∀ (i : Nat) (kind : ParamKind) (arg : Arg) (b : Binding),
      callee.params[i]? = some kind → args[i]? = some arg → bindings[i]? = some b →
      arg.Passes f kind b)
    (hbody : ∃ placed t, (body callee bindings (.jump .exit)).Yields
      { st with path := id :: st.path } placed t ∧ PlacedCode.Leads (placed.length + 1) placed) :
    Stmt.Accepted m expand f exits count index st (.call id args) := by
  have hargs : (lowerArgs f callee 0 (callee.params.zip args)).Yields st ([], bindings) st :=
    lowerArgs_accepts hlen hbindings passes 0
  exact .passing hcallee hpath hexpand hlen hargs (by simp [Straight]) hbody

/-- Statements are accepted one by one, each on what the storage of the block
has become. -/
theorem lowerStmts_accepts (hrestores : expand.Restores) {stmts : List Stmt}
    (h : ∀ stmt ∈ stmts, ∀ u, st.Restored u →
      stmt.Accepted m expand f exits count index u.dropTemps) :
    ∃ code t, (lowerStmts m expand f stmts).Yields st code t ∧
      Fragment.Leads exits count index (code.length + 1) code := by
  induction stmts generalizing st with
  | nil =>
      refine ⟨[], st, lowerStmts_nil_yields.mpr ⟨rfl, rfl⟩, fun i op hop => ?_⟩
      simp at hop
  | cons stmt rest ih =>
      obtain ⟨front, u, hstmt, hfront⟩ := h stmt List.mem_cons_self st (.refl st)
      have restored := (dropTemps_restored st).trans (lowerStmt_restored hrestores hstmt)
      obtain ⟨back, t, hrest, hback⟩ := @ih u fun stmt hmem w hw =>
        h stmt (List.mem_cons_of_mem _ hmem) w (restored.trans hw)
      refine ⟨front ++ back, t, lowerStmts_cons_yields.mpr ⟨front, u, back, hstmt, hrest, rfl⟩, ?_⟩
      rw [List.length_append, Nat.add_assoc]
      exact hfront.append hback (Nat.succ_pos _)

/-! ## Blocks -/

/-- Every name in a terminator has storage, and it leads to later blocks. -/
def Terminator.Named (f : Frame) (index : Nat) : Terminator → Prop
  | .ret => True
  | .jump next => index < next ∧ next < f.routine.blocks.length
  | .branch _ lhs rhs onTrue onFalse =>
    lhs.Named f ∧ rhs.Named f ∧ (index < onTrue ∧ onTrue < f.routine.blocks.length) ∧
      index < onFalse ∧ onFalse < f.routine.blocks.length

/-- How many temporaries a terminator uses. -/
def Terminator.temps : Terminator → Nat
  | .ret | .jump _ => 0
  | .branch _ lhs rhs _ _ => lhs.temps + rhs.temps

/-- A terminator that leads ahead is accepted if its names have storage and its temporaries room. -/
theorem lowerTerminator_accepts (st : Storage) {terminator : Terminator}
    (named : terminator.Named f index)
    (fits : st.tempTop + terminator.temps ≤ maxRegisters)
    (hreturn : ∀ t ∈ f.onReturn.targets, t = .exit ∧ exits) :
    ∃ code t, (lowerTerminator f terminator).Yields st code t ∧ code ≠ [] ∧
      ∀ limit, Fragment.Leads exits f.routine.blocks.length index limit code := by
  cases terminator with
  | ret =>
      refine ⟨_, st, lowerTerminator_ret_yields.mpr ⟨rfl, rfl⟩, by simp, ?_⟩
      intro limit i op hop t ht
      obtain rfl := List.mem_singleton.mp (List.mem_of_getElem? hop)
      obtain ⟨rfl, hexits⟩ := hreturn t ht
      exact hexits
  | jump next =>
      obtain ⟨hlt, hnext⟩ := named
      refine ⟨_, st, lowerTerminator_jump_yields.mpr ⟨.block next, if_pos hnext, rfl, rfl⟩, by simp,
        ?_⟩
      intro limit i op hop t ht
      obtain rfl := List.mem_singleton.mp (List.mem_of_getElem? hop)
      obtain rfl := List.mem_singleton.mp ht
      exact ⟨hlt, hnext⟩
  | branch op lhs rhs onTrue onFalse =>
      obtain ⟨hlhs, hrhs, ht, he⟩ := named
      simp only [Terminator.temps] at fits
      obtain ⟨lhsCode, x, u, hl, hu, lhsStraight⟩ := lowerValue_accepts st hlhs (by omega)
      obtain ⟨rhsCode, y, w, hr, hw, rhsStraight⟩ := lowerValue_accepts u hrhs (by omega)
      refine ⟨_, w, lowerTerminator_branch_yields.mpr ⟨lhsCode, x, u, rhsCode, y, .block onTrue,
        .block onFalse, hl, hr, if_pos ht.2, if_pos he.2, rfl⟩, by simp, ?_⟩
      intro limit i op' hop t hmem
      obtain hop | hop := List.mem_append.mp (List.mem_of_getElem? hop)
      · rw [lhsStraight.append rhsStraight op' hop] at hmem
        cases hmem
      · obtain rfl := List.mem_singleton.mp hop
        simp only [Op.targets, List.mem_cons, List.not_mem_nil, or_false] at hmem
        obtain rfl | rfl := hmem
        · exact ht
        · exact he

/-- A block is accepted whose statements and terminator are. -/
theorem lowerBlock_accepts (hrestores : expand.Restores) {b : Block} {terminator : Terminator}
    (hterminator : b.terminator = some terminator) (named : terminator.Named f index)
    (hreturn : ∀ t ∈ f.onReturn.targets, t = .exit ∧ exits)
    (fits : st.registerTop + terminator.temps ≤ maxRegisters)
    (hstmts : ∀ stmt ∈ b.stmts, ∀ u, st.Restored u →
      stmt.Accepted m expand f exits f.routine.blocks.length index u.dropTemps) (number : Nat) :
    ∃ code t, (lowerBlock m expand f number b).Yields st code t ∧ code ≠ [] ∧
      Fragment.Leads exits f.routine.blocks.length index code.length code := by
  obtain ⟨front, u, hfront, leadsFront⟩ := lowerStmts_accepts hrestores hstmts
  have restored := lowerStmts_restored hrestores hfront
  obtain ⟨back, t, hback, hne, leadsBack⟩ := lowerTerminator_accepts u.dropTemps named
    (by simpa only [dropTemps, restored.sameRegisters] using fits) hreturn
  refine ⟨front ++ back, t, lowerBlock_yields.mpr ⟨front, u, terminator, back, hfront, hterminator,
    hback, rfl⟩, by simp [hne], ?_⟩
  rw [List.length_append]
  exact leadsFront.append (leadsBack _) (List.length_pos_iff.mpr hne)

/-- Blocks are accepted one by one. -/
theorem lowerBlocks_accepts (hrestores : expand.Restores) {blocks : List Block} {first : Nat}
    (h : ∀ (k : Nat) (b : Block), blocks[k]? = some b → ∀ u, st.Restored u →
      ∃ code t, (lowerBlock m expand f (first + k) b).Yields u code t ∧ code ≠ [] ∧
        Fragment.Leads exits count (first + k) code.length code) :
    ∃ fragments t, (lowerBlocks m expand f first blocks).Yields st fragments t ∧
      fragments.length = blocks.length ∧ ∀ (k : Nat) (code : Fragment), fragments[k]? = some code →
        code ≠ [] ∧ Fragment.Leads exits count (first + k) code.length code := by
  induction blocks generalizing st first with
  | nil => exact ⟨[], st, lowerBlocks_nil_yields.mpr ⟨rfl, rfl⟩, rfl,
    fun k code hk => by simp at hk⟩
  | cons b rest ih =>
      obtain ⟨front, u, hfront, hne, leads⟩ := h 0 b rfl st (.refl st)
      have restored := lowerBlock_restored hrestores hfront
      obtain ⟨fragments, t, hrest, hlength, hget⟩ := @ih u (first + 1)
        fun k b hk w hw => by
          have := h (k + 1) b hk w (restored.trans hw)
          rwa [← Nat.add_assoc, Nat.add_right_comm] at this
      refine ⟨front :: fragments, t, lowerBlocks_cons_yields.mpr ⟨front, u, fragments, hfront,
        hrest,
        rfl⟩, by simp [hlength], fun k code hk => ?_⟩
      cases k with
      | zero =>
          obtain rfl : front = code := by simpa using hk
          exact ⟨hne, leads⟩
      | succ k =>
          have := hget k code (by simpa using hk)
          rwa [Nat.add_right_comm] at this

/-! ## Placed code and routines -/

/-- Every operation of blocks that lie one behind the other is an operation of
one of them. -/
theorem flatten_getElem? {fragments : List Fragment} {i : Nat} {op : Op Target}
    (h : fragments.flatten[i]? = some op) :
    ∃ (k j : Nat) (code : Fragment), fragments[k]? = some code ∧ code[j]? = some op ∧
      i = blockStart fragments k + j := by
  induction fragments generalizing i with
  | nil => simp at h
  | cons front rest ih =>
      rw [List.flatten_cons] at h
      by_cases hi : i < front.length
      · rw [List.getElem?_append_left hi] at h
        exact ⟨0, i, front, rfl, h, by simp [blockStart]⟩
      · have hi : front.length ≤ i := Nat.le_of_not_lt hi
        rw [List.getElem?_append_right hi] at h
        obtain ⟨k, j, code, hk, hj, hij⟩ := ih h
        refine ⟨k + 1, j, code, by simpa using hk, hj, ?_⟩
        simp only [blockStart, List.take_succ_cons, List.flatten_cons, List.length_append] at *
        omega

/-- A block starts where the one before it ends. -/
theorem blockStart_succ {fragments : List Fragment} {k : Nat} {code : Fragment}
    (h : fragments[k]? = some code) :
    blockStart fragments (k + 1) = blockStart fragments k + code.length := by
  obtain ⟨hk, rfl⟩ := List.getElem?_eq_some_iff.mp h
  rw [blockStart, blockStart, List.take_succ_eq_append_getElem hk, List.flatten_append,
    List.length_append]
  simp

/-- A block starts no later than the code ends. -/
theorem blockStart_le (fragments : List Fragment) (k : Nat) :
    blockStart fragments k ≤ fragments.flatten.length := by
  calc blockStart fragments k ≤ blockStart fragments (k + fragments.length) :=
        blockStart_mono fragments (Nat.le_add_right _ _)
    _ = fragments.flatten.length := by
        rw [blockStart, List.take_of_length_le (Nat.le_add_left _ _)]

/-- Placed blocks lead forward: inside the routine, or to right behind it where
the routine leaves by its exit. -/
theorem place_leads {fragments : List Fragment}
    (h : ∀ (k : Nat) (code : Fragment), fragments[k]? = some code →
      code ≠ [] ∧ Fragment.Leads exits fragments.length k code.length code) {i : Nat} {op : Op Int}
    (hop : (place fragments)[i]? = some op) {d : Int} (hd : d ∈ op.targets) :
    0 < d ∧ (i + d < (place fragments).length ∨ exits ∧ i + d = (place fragments).length) := by
  rw [length_place]
  rw [place, List.getElem?_mapIdx, Option.map_eq_some_iff] at hop
  obtain ⟨op, hop, rfl⟩ := hop
  have hi : i < fragments.flatten.length := (List.getElem?_eq_some_iff.mp hop).1
  obtain ⟨k, j, code, hk, hj, hij⟩ := flatten_getElem? hop
  rw [Op.targets_mapTargets, List.mem_map] at hd
  obtain ⟨t, ht, rfl⟩ := hd
  obtain ⟨-, leads⟩ := h k code hk
  have leads := leads j op hj t ht
  have hend := blockStart_succ hk
  have hle := blockStart_le fragments (k + 1)
  have hjlt : j < code.length := (List.getElem?_eq_some_iff.mp hj).1
  cases t with
  | within d =>
      obtain ⟨hd, hlt⟩ := leads
      exact ⟨hd, .inl (by simp only [Target.displacement]; omega)⟩
  | block next =>
      obtain ⟨hlater, hnext⟩ := leads
      have hget := List.getElem?_eq_getElem hnext
      have hpos := List.length_pos_iff.mpr (h next _ hget).1
      have hstart := blockStarts_getD 0 fragments next
      have hmono := blockStart_mono fragments (Nat.succ_le_of_lt hlater)
      have hnextEnd := blockStart_succ hget
      have hnextLe := blockStart_le fragments (next + 1)
      simp only [Nat.zero_add] at hstart
      simp only [Target.displacement, hstart]
      simp only [Nat.succ_eq_add_one] at hmono
      exact ⟨by omega, .inl (by omega)⟩
  | exit =>
      simp only [Target.displacement]
      exact ⟨by omega, .inr ⟨leads, by omega⟩⟩

/-- A routine is accepted that finds room for what it owns and whose blocks are
accepted on its own storage. -/
theorem lowerRoutine_accepts (hrestores : expand.Restores) {routine : Routine}
    {params : List Binding} {onReturn : Op Target}
    (hslots : routine.temps = 0 ∨ st.slotTop + routine.temps ≤ maxSlots)
    (hregisters : routine.vars = 0 ∨ st.registerTop + routine.vars ≤ maxRegisters)
    (h : ∀ (k : Nat) (b : Block), routine.blocks[k]? = some b →
      ∀ u, (st.enter routine).Restored u → ∃ code t,
        (lowerBlock m expand (.above routine params onReturn st) k b).Yields u code t ∧ code ≠ [] ∧
        Fragment.Leads exits routine.blocks.length k code.length code) :
    ∃ placed t, (lowerRoutine m expand routine params onReturn).Yields st placed t ∧
      (∀ (i : Nat) (op : Op Int), placed[i]? = some op → ∀ d ∈ op.targets,
        0 < d ∧ (i + d < placed.length ∨ exits ∧ i + d = placed.length)) := by
  have each : ∀ (k : Nat) (b : Block), routine.blocks[k]? = some b →
      ∀ u, (st.enter routine).Restored u → ∃ code t,
        (lowerBlock m expand (.above routine params onReturn st) (0 + k) b).Yields u code t ∧
        code ≠ [] ∧ Fragment.Leads exits routine.blocks.length (0 + k) code.length code :=
    fun k b hk u hu => by
      rw [Nat.zero_add]
      exact h k b hk u hu
  obtain ⟨fragments, u, hfragments, hlength, hget⟩ := lowerBlocks_accepts hrestores each
  refine ⟨place fragments, _, lowerRoutine_yields.mpr ⟨hslots, hregisters, fragments, u, hfragments,
    rfl, rfl⟩, fun i op hop d hd => place_leads (fun k code hk => ?_) hop hd⟩
  have := hget k code hk
  rwa [Nat.zero_add, ← hlength] at this

/-- Placed code ends as the last block does. -/
theorem getLast?_place {fragments : List Fragment} {front : Fragment}
    (h : fragments.getLast? = some (front ++ [.ret])) :
    (place fragments).getLast? = some (.ret : Op Int) := by
  obtain ⟨others, rfl⟩ := List.getLast?_eq_some_iff.mp h
  have hflat : (others ++ [front ++ [Op.ret]]).flatten = (others.flatten ++ front) ++ [Op.ret] := by
    simp
  rw [place, List.getLast?_mapIdx, hflat, List.getLast?_concat]
  rfl

/-- A routine that ends the program ends in a return if its last block does. -/
theorem lowerRoutine_getLast? (hrestores : expand.Restores) {routine : Routine}
    {params : List Binding} {placed : PlacedCode} {t : Storage}
    (h : (lowerRoutine m expand routine params .ret).Yields st placed t) {b : Block}
    (hlast : routine.blocks.getLast? = some b) (hret : b.terminator = some .ret) :
    placed.getLast? = some (.ret : Op Int) := by
  obtain ⟨-, -, fragments, u, hblocks, rfl, -⟩ := lowerRoutine_yields.mp h
  have hlength := lowerBlocks_length hblocks
  rw [List.getLast?_eq_getElem?] at hlast
  obtain ⟨code, v, w, hget, -, hblock⟩ := lowerBlocks_get hrestores hblocks hlast
  obtain ⟨front, x, terminator, back, -, hterminator, hend, rfl⟩ := lowerBlock_yields.mp hblock
  obtain rfl := Option.some.inj (hret.symm.trans hterminator)
  obtain ⟨rfl, -⟩ := lowerTerminator_ret_yields.mp hend
  apply getLast?_place
  rw [List.getLast?_eq_getElem?, hlength]
  exact hget

/-- A block of assignments whose names have storage and whose temporaries find
room. -/
def Block.Plain (f : Frame) (room index : Nat) (b : Block) : Prop :=
  (∃ terminator, b.terminator = some terminator ∧ terminator.Named f index ∧
    terminator.temps ≤ room) ∧
  ∀ stmt ∈ b.stmts, ∃ dst v, stmt = .assign dst v ∧ dst.Named f ∧ v.Named f ∧ v.temps ≤ room

/-- A routine without calls that returns by its exit. -/
theorem lowerRoutine_accepts_plain (room : Nat) (hrestores : expand.Restores) {routine : Routine}
    {params : List Binding}
    (hslots : routine.temps = 0 ∨ st.slotTop + routine.temps ≤ maxSlots)
    (hroom : st.registerTop + routine.vars + room ≤ maxRegisters)
    (h : ∀ (k : Nat) (b : Block), routine.blocks[k]? = some b →
      b.Plain (.above routine params (.jump .exit) st) room k) :
    ∃ placed t, (lowerRoutine m expand routine params (.jump .exit)).Yields st placed t ∧
      PlacedCode.Leads (placed.length + 1) placed := by
  have each : ∀ (k : Nat) (b : Block), routine.blocks[k]? = some b →
      ∀ u, (st.enter routine).Restored u → ∃ code t,
        (lowerBlock m expand (.above routine params (.jump .exit) st) k b).Yields u code t ∧
        code ≠ [] ∧ Fragment.Leads True routine.blocks.length k code.length code :=
    fun k b hk u hu => by
      obtain ⟨⟨terminator, hterminator, named, hfits⟩, hstmts⟩ := h k b hk
      have htop : u.registerTop = st.registerTop + routine.vars := by
        rw [hu.sameRegisters, registerTop_enter]
      refine lowerBlock_accepts hrestores hterminator named ?_ (by omega) ?_ k
      · intro target ht
        obtain rfl := List.mem_singleton.mp ht
        exact ⟨rfl, trivial⟩
      · intro stmt hmem w hw
        obtain ⟨dst, v, rfl, hdst, hv, hfits⟩ := hstmts stmt hmem
        have := hw.sameRegisters
        exact .assign hdst hv (by simp only [dropTemps]; omega)
  obtain ⟨placed, t, hplaced, leads⟩ := lowerRoutine_accepts hrestores hslots (by omega) each
  refine ⟨placed, t, hplaced, fun i op hop d hd => ?_⟩
  obtain ⟨hpos, hlt | ⟨-, heq⟩⟩ := leads i op hop d hd
  · exact ⟨hpos, by omega⟩
  · exact ⟨hpos, by omega⟩

/-! ## Resolving -/

/-- An operation whose targets all lead forward can be resolved. -/
theorem traverseTargets_accepts (source : Nat) {length : Nat} {op : Op Int}
    (h : ∀ d ∈ op.targets, 0 < d ∧ source + d < length) :
    ∃ resolved, op.traverseTargets (resolveTarget length source) = .ok resolved := by
  have target : ∀ d ∈ op.targets, ∃ t, resolveTarget length source d = .ok t := by
    intro d hd
    obtain ⟨hpos, hlt⟩ := h d hd
    refine ⟨((source : Int) + d).toNat, ?_⟩
    simp only [resolveTarget]
    rw [if_neg (by omega), if_neg (by omega)]
  cases op with
  | jump d =>
      obtain ⟨t, ht⟩ := target d (by simp [Op.targets])
      exact ⟨.jump t, by rw [Op.traverseTargets, ht]; rfl⟩
  | branch op lhs rhs d e =>
      obtain ⟨t, ht⟩ := target d (by simp [Op.targets])
      obtain ⟨t', ht'⟩ := target e (by simp [Op.targets])
      exact ⟨.branch op lhs rhs t t', by rw [Op.traverseTargets, ht, ht']; rfl⟩
  | const | load | store | move | binary | ret => exact ⟨_, rfl⟩

/-- Code whose displacements lead ahead and inside is resolved. -/
theorem resolveFrom_accepts {length source : Nat} {code : PlacedCode}
    (h : ∀ (i : Nat) (op : Op Int), code[i]? = some op → ∀ d ∈ op.targets,
      0 < d ∧ (source + i : Nat) + d < length) :
    ∃ resolved, resolveFrom length source code = .ok resolved := by
  induction code generalizing source with
  | nil => exact ⟨[], rfl⟩
  | cons op rest ih =>
      obtain ⟨front, hfront⟩ := traverseTargets_accepts source (h 0 op rfl)
      obtain ⟨back, hback⟩ := @ih (source + 1) fun i op hop d hd => by
        have := h (i + 1) op hop d hd
        omega
      exact ⟨front :: back, by rw [resolveFrom, hfront, hback]; rfl⟩

/-- Code that leads forward, stays inside itself and ends in a return can be
resolved. -/
theorem resolve_accepts {code : PlacedCode} (leads : PlacedCode.Leads code.length code)
    (hlast : code.getLast? = some .ret) : ∃ resolved, resolve code = .ok resolved := by
  have inside : ∀ (i : Nat) (op : Op Int), code[i]? = some op → ∀ d ∈ op.targets,
      0 < d ∧ (0 + i : Nat) + d < code.length := fun i op hop d hd => by
    have := leads i op hop d hd
    omega
  obtain ⟨resolved, hresolved⟩ := resolveFrom_accepts inside
  obtain ⟨hlength, hget⟩ := resolveFrom_ok hresolved
  rw [List.getLast?_eq_getElem?] at hlast
  obtain ⟨op, hop, htraverse⟩ := hget _ _ hlast
  obtain rfl := Except.ok.inj htraverse
  have hfinal : resolved.getLast?.any Op.isRet = true := by
    rw [List.getLast?_eq_getElem?, hlength, hop]
    rfl
  refine ⟨resolved, ?_⟩
  unfold resolve
  rw [hresolved]
  exact if_pos hfinal

end

end PixelPipeline.Ir
