import PixelPipeline.Blend.Emission
import PixelPipeline.Blend.Evaluate
import PixelPipeline.Proofs.Ir.Runs

/-!
# What the helpers of a blend program compute

Run as they are written, the helpers of a blend program fill some lanes of their
first array and leave everything else alone: a factor helper with the scaled
lanes, an equation helper with the combined lanes, the mask with the lanes of
its second array.  The other arrays may coincide among themselves, as they do in
a blend program, where the source is scaled by a factor of the source.

* `Memory.Fills` — what a helper does to memory;
* `execAll_stores` — statements that store lane by lane;
* `invoke_factor`, `invoke_equation`, `invoke_mask` — the helpers.
-/

namespace PixelPipeline.Ir.Reference

namespace Memory

/-- An array holds a colour. -/
def Has (mem : Memory) (address : Nat) (color : Color) : Prop :=
  ∀ lane : Fin 4, mem.lanes address lane = some (color.get lane)

/-- The given lanes of one array are assigned, and nothing else has changed. -/
structure Fills (mem : Memory) (address : Nat) (lanes : List Nat) (x : Fin 4 → Binary32)
    (final : Memory) : Prop where
  size : final.size = mem.size
  filled : ∀ lane : Fin 4, lane.val ∈ lanes → final.lanes address lane = some (x lane)
  kept : ∀ other, other < mem.size → ∀ lane : Fin 4, other ≠ address ∨ lane.val ∉ lanes →
    final.lanes other lane = mem.lanes other lane

/-- Nothing has changed outside one array. -/
structure Spares (mem : Memory) (address : Nat) (final : Memory) : Prop where
  size : final.size = mem.size
  kept : ∀ other, other < mem.size → other ≠ address → ∀ lane : Fin 4,
    final.lanes other lane = mem.lanes other lane

variable {mem middle final : Memory} {address other : Nat} {lanes : List Nat}
  {x : Fin 4 → Binary32} {color : Color}

theorem Spares.refl (mem : Memory) (address : Nat) : mem.Spares address mem :=
  ⟨rfl, fun _ _ _ _ => rfl⟩

theorem Spares.trans (h : mem.Spares address middle) (k : middle.Spares address final) :
    mem.Spares address final :=
  ⟨k.size.trans h.size, fun other hlt hne lane =>
    (k.kept other (h.size ▸ hlt) hne lane).trans (h.kept other hlt hne lane)⟩

/-- A write spares every other array. -/
theorem Spares.write (lane : Nat) (v : Binary32) : mem.Spares address (mem.write address lane v) :=
  ⟨rfl, fun _ _ hne _ => if_neg fun heq => hne heq.1⟩

/-- An array that is spared holds what it held. -/
theorem Spares.has (h : mem.Spares address final) (hlt : other < mem.size) (hne : other ≠ address)
    (has : mem.Has other color) : final.Has other color := by
  intro lane
  rw [h.kept other hlt hne lane]
  exact has lane

/-- An array other than the one that is written holds a colour. -/
structure Reads (mem : Memory) (written other : Nat) (color : Color) : Prop where
  lt : other < mem.size
  ne : other ≠ written
  has : mem.Has other color

/-- Another array reads as before. -/
theorem Reads.spares (h : mem.Reads address other color) (k : mem.Spares address final) :
    final.Reads address other color :=
  ⟨k.size ▸ h.lt, h.ne, k.has h.lt h.ne h.has⟩

/-- Filling an array spares every other one. -/
theorem Fills.spares (h : mem.Fills address lanes x final) : mem.Spares address final :=
  ⟨h.size, fun other hlt hne lane => h.kept other hlt lane (.inl hne)⟩

theorem Fills.nil (mem : Memory) (address : Nat) (x : Fin 4 → Binary32) :
    mem.Fills address [] x mem :=
  ⟨rfl, fun _ hmem => (by cases hmem), fun _ _ _ _ => rfl⟩

/-- A store, then further stores to the same array. -/
theorem Fills.cons (haddress : address < mem.size) (lane : Fin 4)
    (h : (mem.write address lane (x lane)).Fills address lanes x final) :
    mem.Fills address (lane.val :: lanes) x final where
  size := h.size
  filled l hl := by
    by_cases hmem : l.val ∈ lanes
    · exact h.filled l hmem
    · have hsame : l = lane := Fin.ext (by simpa [hmem] using hl)
      rw [hsame] at hmem ⊢
      rw [h.kept address haddress lane (.inr hmem)]
      exact if_pos ⟨rfl, rfl⟩
  kept other hlt l hl := by
    rw [h.kept other hlt l
      (hl.imp_right fun hmem hrest => hmem (List.mem_cons_of_mem _ hrest))]
    refine if_neg fun heq => ?_
    obtain hne | hmem := hl
    · exact hne heq.1
    · exact hmem (by simp [heq.2])

/-- An array is what it was when memory grows behind it. -/
theorem Has.extend (h : mem.Has other color) (hlt : other < mem.size) (count : Nat) :
    (mem.extend count).Has other color := by
  intro lane
  simp only [Memory.extend]
  rw [if_neg (Nat.not_le_of_lt hlt)]
  exact h lane

/-- An array reads as before when nothing is added. -/
theorem Reads.extend (h : mem.Reads address other color) :
    (mem.extend 0).Reads address other color :=
  ⟨h.lt, h.ne, h.has.extend h.lt 0⟩

/-- What a routine without temporary arrays fills, its caller finds filled. -/
theorem Fills.call (h : (mem.extend 0).Fills address lanes x final) :
    mem.Fills address lanes x (final.shrink mem.size) where
  size := rfl
  filled := h.filled
  kept other hlt lane hl := by
    have := h.kept other hlt lane hl
    simp only [Memory.extend] at this
    rwa [if_neg (Nat.not_le_of_lt hlt)] at this

end Memory

/-! ## Stores -/

variable {m : Module} {inv : Invoke} {a : Activation} {s : Store}

/-- Loading a lane gives the lane of the colour. -/
theorem eval_load {array : ArrayRef} {address : Nat} {color : Color}
    (haddress : a.address array = .ok address) (has : s.memory.Has address color) (lane : Fin 4) :
    a.eval s (.load array lane) = .ok (color.get lane) := by
  rw [Activation.eval, haddress]
  change assigned (s.memory.lanes address lane) = _
  rw [has lane]
  rfl

/-- A variable gives what was assigned to it. -/
theorem eval_var {i : Nat} {v : Binary32} (hi : i < a.routine.vars) (h : s.vars i = some v) :
    a.eval s (.var i) = .ok v := by
  rw [Activation.eval, Activation.var, if_pos hi, h]
  rfl

/-- An operator takes the values of its operands. -/
theorem eval_binary {op : BinOp} {lhs rhs : Value} {x y : Binary32} (hx : a.eval s lhs = .ok x)
    (hy : a.eval s rhs = .ok y) : a.eval s (.binary op lhs rhs) = .ok (op.eval x y) := by
  rw [Activation.eval, hx, hy]
  rfl

/-- A complement is one minus the value. -/
theorem eval_complement {v : Value} {x : Binary32} (hx : a.eval s v = .ok x) :
    a.eval s (Blend.complement v) = .ok (Binary32.one - x) :=
  eval_binary rfl hx

/-- A branch goes where the comparison says. -/
theorem leave_branch (op : CmpOp) {lhs rhs : Value} {x y : Binary32} (hx : a.eval s lhs = .ok x)
    (hy : a.eval s rhs = .ok y) (onTrue onFalse : Nat) :
    leave a s (.branch op lhs rhs onTrue onFalse)
      = .ok (some (if op.eval x y then onTrue else onFalse)) := by
  rw [leave, hx, hy]
  rfl

/-- Assigning to a variable sets it. -/
theorem execAll_assignVar {i : Nat} {v : Value} {x : Binary32} (hi : i < a.routine.vars)
    (hx : a.eval s v = .ok x) : execAll m inv a s [.assign (.var i) v] = .ok (s.setVar i x) := by
  rw [execAll, exec, hx]
  change (a.assign s x (.var i) >>= _) = _
  rw [Activation.assign, if_pos hi]
  rfl

/-- Assigning to a lane writes it. -/
theorem exec_assignLane (array : ArrayRef) (lane : Nat) {address : Nat} {v : Value} {x : Binary32}
    (haddress : a.address array = .ok address) (hx : a.eval s v = .ok x) :
    exec m inv a s (.assign (.lane array lane) v)
      = .ok { s with memory := s.memory.write address lane x } := by
  rw [exec, hx]
  change (do
    let address ← a.address array
    Except.ok { s with memory := s.memory.write address lane x }) = _
  rw [haddress]
  rfl

/-- Statements that store lane by lane fill the lanes, if what they store does
not depend on the array they store to. -/
theorem execAll_stores (m : Module) (inv : Invoke) {result : ArrayRef} {address : Nat}
    (hresult : a.address result = .ok address) (value : Nat → Value) {x : Fin 4 → Binary32}
    {lanes : List Nat} (hlanes : ∀ l ∈ lanes, l < 4)
    (haddress : address < s.memory.size)
    (hvalue : ∀ lane : Fin 4, lane.val ∈ lanes → ∀ mem, s.memory.Spares address mem →
      a.eval { s with memory := mem } (value lane) = .ok (x lane)) :
    ∃ final, execAll m inv a s (lanes.map fun l => .assign (.lane result l) (value l))
        = .ok { s with memory := final } ∧ s.memory.Fills address lanes x final := by
  induction lanes generalizing s with
  | nil => exact ⟨s.memory, rfl, .nil _ _ _⟩
  | cons l rest ih =>
      let lane : Fin 4 := ⟨l, hlanes l List.mem_cons_self⟩
      have heval := hvalue lane List.mem_cons_self s.memory (.refl _ _)
      obtain ⟨final, hfinal, fills⟩ := ih
        (s := { s with memory := s.memory.write address l (x lane) })
        (fun l hl => hlanes l (List.mem_cons_of_mem _ hl)) haddress fun k hk mem hmem =>
          hvalue k (List.mem_cons_of_mem _ hk) mem ((Memory.Spares.write l (x lane)).trans hmem)
      refine ⟨final, ?_, Memory.Fills.cons haddress lane fills⟩
      rw [List.map_cons, execAll, exec_assignLane result l hresult heval]
      exact hfinal

/-- A routine of stores fills the lanes it stores. -/
theorem invoke_stores {routine : Routine} {actuals : List Actual} {mem : Memory}
    (result : ArrayRef) (value : Nat → Value) {address : Nat} {x : Fin 4 → Binary32}
    {lanes : List Nat} (htemps : routine.temps = 0)
    (hblocks : routine.blocks =
      [⟨lanes.map fun l => .assign (.lane result l) (value l), some .ret⟩])
    (hresult : Activation.address ⟨routine, actuals, mem.size⟩ result = .ok address)
    (hlanes : ∀ l ∈ lanes, l < 4) (haddress : address < mem.size)
    (hvalue : ∀ lane : Fin 4, lane.val ∈ lanes → ∀ mem', (mem.extend 0).Spares address mem' →
      Activation.eval ⟨routine, actuals, mem.size⟩ ⟨fun _ => none, mem'⟩ (value lane)
        = .ok (x lane)) (fuel : Nat) :
    ∃ final, invoke m (fuel + 2) routine actuals mem = .ok final ∧
      mem.Fills address lanes x final := by
  obtain ⟨final, hfinal, fills⟩ := execAll_stores m (invoke m (fuel + 1)) hresult value
    (s := ⟨fun _ => none, mem.extend 0⟩) hlanes haddress hvalue
  refine ⟨final.shrink mem.size, ?_, fills.call⟩
  rw [invoke, if_neg (by simp [hblocks]), execFrom]
  simp only [hblocks, htemps, List.getElem?_cons_zero]
  rw [hfinal]
  rfl

/-! ## Factors -/

section

open Blend

variable {factor : BlendFactor} {sc dc kc vc : Color} {r v p q k : Nat}

/-- The value that a factor helper stores is the scaled lane. -/
theorem eval_scaledValue {routine : Routine} {base : Nat} {s : Store}
    (hv : s.memory.Has v vc) (hp : s.memory.Has p sc) (hq : s.memory.Has q dc)
    (hk : s.memory.Has k kc)
    (hvar : factor = .srcAlphaSaturate →
      0 < routine.vars ∧ s.vars saturateVar = some (saturateFactor sc dc)) (lane : Fin 4) :
    Activation.eval ⟨routine, [.array r, .array v, .array p, .array q, .array k], base⟩ s
        (scaledValue factor lane) = .ok (factor.scale (vc.get lane) sc dc kc lane) := by
  have load : ∀ {i b : Nat} {color : Color} (l : Fin 4),
      [Actual.array r, .array v, .array p, .array q, .array k][i]? = some (.array b) →
      s.memory.Has b color →
      Activation.eval ⟨routine, [.array r, .array v, .array p, .array q, .array k], base⟩ s
        (.load (.param i) l) = .ok (color.get l) := fun l hb has =>
    eval_load (by simp only [Activation.address, hb]) has l
  have loadV := load lane (i := 1) rfl hv
  have loadP := load lane (i := 2) rfl hp
  have loadQ := load lane (i := 3) rfl hq
  have loadK := load lane (i := 4) rfl hk
  have alphaP := load 3 (i := 2) rfl hp
  have alphaQ := load 3 (i := 3) rfl hq
  have alphaK := load 3 (i := 4) rfl hk
  cases factor with
  | zero => rfl
  | one => exact loadV
  | srcColor => exact eval_binary loadV loadP
  | oneMinusSrcColor => exact eval_binary loadV (eval_complement loadP)
  | dstColor => exact eval_binary loadV loadQ
  | oneMinusDstColor => exact eval_binary loadV (eval_complement loadQ)
  | srcAlpha => exact eval_binary loadV alphaP
  | oneMinusSrcAlpha => exact eval_binary loadV (eval_complement alphaP)
  | dstAlpha => exact eval_binary loadV alphaQ
  | oneMinusDstAlpha => exact eval_binary loadV (eval_complement alphaQ)
  | constantColor => exact eval_binary loadV loadK
  | oneMinusConstantColor => exact eval_binary loadV (eval_complement loadK)
  | constantAlpha => exact eval_binary loadV alphaK
  | oneMinusConstantAlpha => exact eval_binary loadV (eval_complement alphaK)
  | srcAlphaSaturate =>
      obtain ⟨hvars, hassigned⟩ := hvar rfl
      exact eval_binary loadV (eval_var hvars hassigned)

/-- The saturating helper chooses its factor before it scales. -/
theorem invoke_saturate (name : String) {lanes : List Nat} (hlanes : ∀ l ∈ lanes, l < 4)
    {mem : Memory} (hr : r < mem.size) (hv : mem.Reads r v vc) (hp : mem.Reads r p sc)
    (hq : mem.Reads r q dc) (hk : mem.Reads r k kc) (fuel : Nat) :
    ∃ final, invoke m (fuel + 5) (factorRoutine name .srcAlphaSaturate lanes)
        [.array r, .array v, .array p, .array q, .array k] mem = .ok final ∧
      mem.Fills r lanes (fun i => BlendFactor.srcAlphaSaturate.scale (vc.get i) sc dc kc i)
        final := by
  let stores := lanes.map fun l =>
    Stmt.assign (.lane FactorRoutine.result l) (scaledValue .srcAlphaSaturate l)
  let routine : Routine := ⟨name, FactorRoutine.params, 1, 0, saturateBlocks stores⟩
  let a : Activation := ⟨routine, [.array r, .array v, .array p, .array q, .array k], mem.size⟩
  let start : Store := ⟨fun _ => none, mem.extend 0⟩
  let chosen : Store := start.setVar saturateVar (saturateFactor sc dc)
  have alpha : a.eval start (.load FactorRoutine.source 3) = .ok sc.alpha :=
    eval_load rfl hp.extend.has 3
  have room : a.eval start (complement (.load FactorRoutine.destination 3))
      = .ok (Binary32.one - dc.alpha) := eval_complement (eval_load rfl hq.extend.has 3)
  -- either side of the choice ends in the last block with the factor assigned
  have choose : ∀ (inv : Invoke) (fuel : Nat), execFrom m inv a (fuel + 3) 0 start
      = execFrom m inv a (fuel + 1) 3 chosen := by
    intro inv fuel
    have branch := leave_branch .le alpha room 1 2
    by_cases hle : CmpOp.le.eval sc.alpha (Binary32.one - dc.alpha) = true
    · have hfactor : saturateFactor sc dc = sc.alpha := if_pos hle
      rw [if_pos hle] at branch
      rw [execFrom_next 0 rfl rfl branch,
        execFrom_next 1 rfl (execAll_assignVar Nat.one_pos alpha) rfl, ← hfactor]
    · have hfactor : saturateFactor sc dc = Binary32.one - dc.alpha := if_neg hle
      rw [if_neg hle] at branch
      rw [execFrom_next 0 rfl rfl branch,
        execFrom_next 2 rfl (execAll_assignVar Nat.one_pos room) rfl, ← hfactor]
  have result : a.address FactorRoutine.result = .ok r := rfl
  obtain ⟨final, hfinal, fills⟩ := execAll_stores m (invoke m (fuel + 4)) result
    (scaledValue .srcAlphaSaturate) (s := chosen)
    (x := fun i => BlendFactor.srcAlphaSaturate.scale (vc.get i) sc dc kc i) hlanes hr
    fun lane _ mem' spares =>
      eval_scaledValue (hv.extend.spares spares).has (hp.extend.spares spares).has
        (hq.extend.spares spares).has (hk.extend.spares spares).has
        (fun _ => ⟨Nat.one_pos, rfl⟩) lane
  refine ⟨final.shrink mem.size, ?_, fills.call⟩
  have hroutine : factorRoutine name .srcAlphaSaturate lanes = routine := rfl
  have hrun : execFrom m (invoke m (fuel + 4)) a (fuel + 4) 0 start = .ok final := by
    rw [choose _ (fuel + 1)]
    exact execFrom_return 3 rfl hfinal
  rw [hroutine, invoke, if_neg (by simp [routine, saturateBlocks]), hrun]
  rfl

/-- **A factor helper fills its lanes with the scaled value.** -/
theorem invoke_factor (name : String) (factor : BlendFactor) {lanes : List Nat}
    (hlanes : ∀ l ∈ lanes, l < 4) {mem : Memory} (hr : r < mem.size) (hv : mem.Reads r v vc)
    (hp : mem.Reads r p sc) (hq : mem.Reads r q dc) (hk : mem.Reads r k kc) (fuel : Nat) :
    ∃ final, invoke m (fuel + 5) (factorRoutine name factor lanes)
        [.array r, .array v, .array p, .array q, .array k] mem = .ok final ∧
      mem.Fills r lanes (fun i => factor.scale (vc.get i) sc dc kc i) final := by
  by_cases hsaturate : factor = .srcAlphaSaturate
  · subst hsaturate
    exact invoke_saturate name hlanes hr hv hp hq hk fuel
  · refine invoke_stores FactorRoutine.result (scaledValue factor) ?_ ?_ rfl hlanes hr
      (fun lane _ mem' spares => ?_) (fuel + 3)
    · simp only [factorRoutine, if_neg hsaturate]
    · simp only [factorRoutine, if_neg hsaturate]
    · exact eval_scaledValue (hv.extend.spares spares).has (hp.extend.spares spares).has
        (hq.extend.spares spares).has (hk.extend.spares spares).has
        (fun h => absurd h hsaturate) lane

/-! ## Equations -/

/-- The first value where the comparison holds, the second elsewhere. -/
def choose (op : CmpOp) (x y : Binary32) : Binary32 := if op.eval x y then x else y

/-- The three blocks of a lane: choose, and either store. -/
theorem execFrom_chooseLane {op : CmpOp} {l first : Nat} {rest : List Nat} {x y : Binary32}
    (hblocks : ∀ (i : Nat) (b : Block), (chooseBlocks op first (l :: rest))[i]? = some b →
      a.routine.blocks[first + i]? = some b)
    (hresult : a.address EquationRoutine.result = .ok r)
    (hx : a.eval s (.load EquationRoutine.source l) = .ok x)
    (hy : a.eval s (.load EquationRoutine.destination l) = .ok y) (fuel : Nat) :
    execFrom m inv a (fuel + 2) first s
      = execFrom m inv a fuel (first + 3)
          { s with memory := s.memory.write r l (choose op x y) } := by
  have branch := leave_branch op hx hy (first + 1) (first + 2)
  rw [execFrom_next first (hblocks 0 _ rfl) rfl branch]
  by_cases hop : op.eval x y = true
  · rw [if_pos hop, choose, if_pos hop]
    refine execFrom_next (first + 1) (hblocks 1 _ rfl) ?_ rfl
    rw [execAll, exec_assignLane _ l hresult hx]
    rfl
  · rw [if_neg hop, choose, if_neg hop]
    refine execFrom_next (first + 2) (hblocks 2 _ rfl) ?_ rfl
    rw [execAll, exec_assignLane _ l hresult hy]
    rfl

/-- Choosing lane by lane. -/
theorem execFrom_choose (m : Module) (inv : Invoke) {op : CmpOp} {lanes : List Nat}
    (hlanes : ∀ l ∈ lanes, l < 4) (first : Nat)
    (hblocks : ∀ (i : Nat) (b : Block), (chooseBlocks op first lanes)[i]? = some b →
      a.routine.blocks[first + i]? = some b)
    (hresult : a.address EquationRoutine.result = .ok r)
    (hsource : a.address EquationRoutine.source = .ok p)
    (hdestination : a.address EquationRoutine.destination = .ok q) (hr : r < s.memory.size)
    (hp : s.memory.Reads r p sc) (hq : s.memory.Reads r q dc) {fuel : Nat}
    (hfuel : 2 * lanes.length + 1 ≤ fuel) :
    ∃ final, execFrom m inv a fuel first s = .ok final ∧
      s.memory.Fills r lanes (fun i => choose op (sc.get i) (dc.get i)) final := by
  induction lanes generalizing first s fuel with
  | nil =>
      obtain ⟨fuel, rfl⟩ : ∃ n, fuel = n + 1 := ⟨fuel - 1, by omega⟩
      exact ⟨s.memory, execFrom_return first (hblocks 0 _ rfl) rfl, .nil _ _ _⟩
  | cons l rest ih =>
      rw [List.length_cons] at hfuel
      obtain ⟨fuel, rfl⟩ : ∃ n, fuel = n + 2 := ⟨fuel - 2, by omega⟩
      let lane : Fin 4 := ⟨l, hlanes l List.mem_cons_self⟩
      rw [execFrom_chooseLane hblocks hresult (eval_load hsource hp.has lane)
        (eval_load hdestination hq.has lane) fuel]
      have later : ∀ (i : Nat) (b : Block), (chooseBlocks op (first + 3) rest)[i]? = some b →
          a.routine.blocks[first + 3 + i]? = some b := fun i b hb => by
        have := hblocks (i + 3) b hb
        rwa [Nat.add_comm i, ← Nat.add_assoc] at this
      refine (ih (fun l hl => hlanes l (List.mem_cons_of_mem _ hl)) (first + 3) later ?_ ?_ ?_
        (by omega)).imp fun final h => ⟨h.1, .cons hr lane h.2⟩
      · exact hr
      · exact hp.spares (.write l _)
      · exact hq.spares (.write l _)

/-- **A routine that chooses lane by lane** fills the result with what is chosen. -/
theorem invoke_choose (op : CmpOp) {routine : Routine} {lanes : List Nat}
    (hblocks : routine.blocks = chooseBlocks op 0 lanes) (htemps : routine.temps = 0)
    (hlanes : ∀ l ∈ lanes, l < 4) {mem : Memory} (hr : r < mem.size) (hp : mem.Reads r p sc)
    (hq : mem.Reads r q dc) {fuel : Nat} (hfuel : 2 * lanes.length + 1 ≤ fuel) :
    ∃ final, invoke m (fuel + 1) routine [.array r, .array p, .array q] mem = .ok final ∧
      mem.Fills r lanes (fun i => choose op (sc.get i) (dc.get i)) final := by
  obtain ⟨final, hfinal, fills⟩ := execFrom_choose m (invoke m fuel)
    (a := ⟨routine, [.array r, .array p, .array q], mem.size⟩) (s := ⟨fun _ => none, mem.extend 0⟩)
    hlanes 0 (fun i b hb => by rw [Nat.zero_add, hblocks]; exact hb) rfl rfl rfl hr hp.extend
    hq.extend hfuel
  refine ⟨final.shrink mem.size, ?_, fills.call⟩
  have hne : routine.blocks ≠ [] := by
    rw [hblocks]
    cases lanes <;> simp [chooseBlocks]
  rw [invoke, if_neg hne, htemps, hfinal]
  rfl

/-- **An equation helper fills its lanes with the combined value.** -/
theorem invoke_equation (name : String) (equation : BlendEquation) {lanes : List Nat}
    (hlanes : ∀ l ∈ lanes, l < 4) {mem : Memory} (hr : r < mem.size) (hp : mem.Reads r p sc)
    (hq : mem.Reads r q dc) {fuel : Nat} (hfuel : 2 * lanes.length + 2 ≤ fuel) :
    ∃ final, invoke m fuel (equationRoutine name equation lanes) [.array r, .array p, .array q] mem
        = .ok final ∧ mem.Fills r lanes (fun i => equation.combine (sc.get i) (dc.get i))
          final := by
  obtain ⟨fuel, rfl⟩ : ∃ n, fuel = n + 2 := ⟨fuel - 2, by omega⟩
  have loadP : ∀ (lane : Fin 4) {routine : Routine} {mem' : Memory},
      (mem.extend 0).Spares r mem' →
      Activation.eval ⟨routine, [.array r, .array p, .array q], mem.size⟩ ⟨fun _ => none, mem'⟩
        (.load EquationRoutine.source lane) = .ok (sc.get lane) := fun lane _ _ spares =>
    eval_load rfl (hp.extend.spares spares).has lane
  have loadQ : ∀ (lane : Fin 4) {routine : Routine} {mem' : Memory},
      (mem.extend 0).Spares r mem' →
      Activation.eval ⟨routine, [.array r, .array p, .array q], mem.size⟩ ⟨fun _ => none, mem'⟩
        (.load EquationRoutine.destination lane) = .ok (dc.get lane) := fun lane _ _ spares =>
    eval_load rfl (hq.extend.spares spares).has lane
  cases equation with
  | add =>
      exact invoke_stores EquationRoutine.result _ rfl rfl rfl hlanes hr
        (fun lane _ mem' spares => eval_binary (loadP lane spares) (loadQ lane spares)) fuel
  | subtract =>
      exact invoke_stores EquationRoutine.result _ rfl rfl rfl hlanes hr
        (fun lane _ mem' spares => eval_binary (loadP lane spares) (loadQ lane spares)) fuel
  | reverseSubtract =>
      exact invoke_stores EquationRoutine.result _ rfl rfl rfl hlanes hr
        (fun lane _ mem' spares => eval_binary (loadQ lane spares) (loadP lane spares)) fuel
  | min => exact invoke_choose .le rfl rfl hlanes hr hp hq (by omega)
  | max => exact invoke_choose .ge rfl rfl hlanes hr hp hq (by omega)

/-! ## The mask -/

/-- **The mask copies its lanes.** -/
theorem invoke_mask (mask : ColorMask) {mem : Memory} (hr : r < mem.size) (hp : mem.Reads r p sc)
    (fuel : Nat) :
    ∃ final, invoke m (fuel + 2) (maskRoutine mask) [.array r, .array p] mem = .ok final ∧
      mem.Fills r (((List.finRange 4).filter mask.has).map Fin.val) sc.get final := by
  refine invoke_stores (.param 0) (fun l => .load (.param 1) l) rfl ?_ rfl ?_ hr
    (fun lane _ mem' spares => eval_load rfl (hp.extend.spares spares).has lane) fuel
  · simp [maskRoutine]
  · simp

end

end PixelPipeline.Ir.Reference
