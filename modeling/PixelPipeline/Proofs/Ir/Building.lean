import Mathlib.Data.List.Induction
import PixelPipeline.Ir.Builder

/-!
# What a builder builds

What the steps of a builder wrote can be told from the steps alone: each finds a current
block, the one switched to last, and what it writes goes there.  From this the routine can be
put down at once, block by block (`History.routine`).

A step is a misuse if it writes where no open block is, or asks for a temporary array too
many.  As long as there was none, the builder is in the state that the history describes
(`History.run_of_sound`); from the first one on it has a fault, whatever follows
(`History.isSome_fault_run`).  So only the steps decide whether a routine can be finished.

* `History.finish_history` — a build succeeds exactly after steps without misuse that closed every
  block, and adds exactly the routine that was written; otherwise the module stays.
-/

namespace PixelPipeline.Ir

/-! ## Steps and what they wrote -/

namespace BuildStep

/-- The block that is current after a step. -/
def next (current : Nat) : BuildStep → Nat
  | .switchTo block => block
  | _ => current

/-- What a step writes into the current block. -/
def written? : BuildStep → Option (Stmt ⊕ Terminator)
  | .push stmt => some (.inl stmt)
  | .close terminator => some (.inr terminator)
  | _ => none

/-- Whether a step declares a scalar variable. -/
def isVar : BuildStep → Bool
  | .addVar => true
  | _ => false

/-- Whether a step declares a temporary array. -/
def isTemp : BuildStep → Bool
  | .addTemp => true
  | _ => false

/-- Whether a step adds a block. -/
def isBlock : BuildStep → Bool
  | .addBlock => true
  | _ => false

end BuildStep

/-- The steps a builder was driven by, the first one first. -/
abbrev History : Type := List BuildStep

namespace History

variable {h : History} {s : BuildStep}

/-- The block that is current after the steps. -/
def current (h : History) : Nat := h.foldl BuildStep.next 0

/-- How many scalar variables were declared. -/
def vars (h : History) : Nat := h.countP BuildStep.isVar

/-- How many temporary arrays were requested. -/
def temps (h : History) : Nat := h.countP BuildStep.isTemp

/-- How many blocks there are: one from the start, and those that were added. -/
def blockCount (h : History) : Nat := h.countP BuildStep.isBlock + 1

/-- What was written while the block was current. -/
def writtenFrom (block : Nat) : (current : Nat) → History → List (Stmt ⊕ Terminator)
  | _, [] => []
  | current, s :: rest =>
    (if current = block then s.written?.toList else []) ++ writtenFrom block (s.next current) rest

/-- The statements that were appended while the block was current, in order. -/
def stmtsOf (h : History) (block : Nat) : List Stmt :=
  (writtenFrom block 0 h).filterMap Sum.getLeft?

/-- The terminators that were appended while the block was current. -/
def endsOf (h : History) (block : Nat) : List Terminator :=
  (writtenFrom block 0 h).filterMap Sum.getRight?

/-- The current block exists and is open. -/
def Ready (h : History) : Prop := h.current < h.blockCount ∧ (h.endsOf h.current).isEmpty

instance (h : History) : Decidable h.Ready := inferInstanceAs (Decidable (_ ∧ _))

/-- Everything that was written found the current block existing and open. -/
def Orderly (h : History) : Prop :=
  ∀ n, (hn : n < h.length) → h[n].written?.isSome → Ready (h.take n)

instance (h : History) : Decidable h.Orderly :=
  inferInstanceAs (Decidable (∀ n, (_ : n < h.length) → _))

/-- Every block, the first one too, has an end. -/
def Closed (h : History) : Prop := ∀ block < h.blockCount, ¬ (h.endsOf block).isEmpty

instance (h : History) : Decidable h.Closed :=
  inferInstanceAs (Decidable (∀ block < h.blockCount, _))

/-- No step was a misuse. -/
def Sound (h : History) : Prop := h.Orderly ∧ h.temps ≤ maxTemps

instance (h : History) : Decidable h.Sound := inferInstanceAs (Decidable (_ ∧ _))

/-- What the steps made of a block. -/
def blockOf (h : History) (block : Nat) : Block := ⟨h.stmtsOf block, (h.endsOf block).head?⟩

/-- What the steps made of a routine. -/
def routine (h : History) (name : String) (params : List ParamKind) : Routine :=
  ⟨name, params, h.vars, h.temps, (List.range h.blockCount).map h.blockOf⟩

/-- The state of a builder after steps without misuse. -/
def builder (h : History) (name : String) (params : List ParamKind) : Builder :=
  ⟨h.routine name params, h.current, none⟩

/-! ## One more step -/

/-- The last step may switch the block. -/
@[simp] theorem current_concat (h : History) (s : BuildStep) :
    current (h ++ [s]) = s.next h.current := by
  unfold current
  rw [List.foldl_append]
  rfl

/-- The last step may declare a variable. -/
@[simp] theorem vars_concat (h : History) (s : BuildStep) :
    vars (h ++ [s]) = h.vars + if s.isVar then 1 else 0 := by
  unfold vars
  rw [List.countP_append, List.countP_singleton]

/-- The last step may request a temporary array. -/
@[simp] theorem temps_concat (h : History) (s : BuildStep) :
    temps (h ++ [s]) = h.temps + if s.isTemp then 1 else 0 := by
  unfold temps
  rw [List.countP_append, List.countP_singleton]

/-- The last step may add a block. -/
@[simp] theorem blockCount_concat (h : History) (s : BuildStep) :
    blockCount (h ++ [s]) = h.blockCount + if s.isBlock then 1 else 0 := by
  unfold blockCount
  rw [List.countP_append, List.countP_singleton]
  omega

/-- What the last step writes goes into the block that was current before it. -/
theorem writtenFrom_concat (block current : Nat) (h : History) (s : BuildStep) :
    writtenFrom block current (h ++ [s]) = writtenFrom block current h
      ++ if h.foldl BuildStep.next current = block then s.written?.toList else [] := by
  induction h generalizing current with
  | nil => exact List.append_nil _
  | cons first rest ih =>
    rw [List.cons_append, writtenFrom, writtenFrom, ih, List.append_assoc]
    rfl

/-- A statement of the last step is the last one of the current block. -/
theorem stmtsOf_concat (h : History) (s : BuildStep) (block : Nat) :
    stmtsOf (h ++ [s]) block = h.stmtsOf block
      ++ if h.current = block then s.written?.toList.filterMap Sum.getLeft? else [] := by
  unfold stmtsOf current
  rw [writtenFrom_concat, List.filterMap_append]
  split <;> rfl

/-- An end of the last step is the last one of the current block. -/
theorem endsOf_concat (h : History) (s : BuildStep) (block : Nat) :
    endsOf (h ++ [s]) block = h.endsOf block
      ++ if h.current = block then s.written?.toList.filterMap Sum.getRight? else [] := by
  unfold endsOf current
  rw [writtenFrom_concat, List.filterMap_append]
  split <;> rfl

/-- Steps are orderly if those before the last are, and what that writes finds an open block. -/
theorem orderly_concat : Orderly (h ++ [s]) ↔ h.Orderly ∧ (s.written?.isSome → h.Ready) := by
  unfold Orderly
  constructor
  · intro horderly
    constructor
    · intro n hn hwritten
      have hbefore := horderly n (by simp; omega)
      rw [List.getElem_append_left hn, List.take_append_of_le_length (by omega)] at hbefore
      exact hbefore hwritten
    · intro hwritten
      have hlast := horderly h.length (by simp)
      rw [List.getElem_concat_length rfl, List.take_left] at hlast
      exact hlast hwritten
  · rintro ⟨horderly, hlast⟩ n hn hwritten
    by_cases hbefore : n < h.length
    · rw [List.getElem_append_left hbefore] at hwritten
      rw [List.take_append_of_le_length (by omega)]
      exact horderly n hbefore hwritten
    · obtain rfl : n = h.length := by
        rw [List.length_append, List.length_singleton] at hn
        omega
      rw [List.getElem_concat_length rfl] at hwritten
      rw [List.take_left]
      exact hlast hwritten

/-- The step is no misuse after the history. -/
structure Admits (h : History) (s : BuildStep) : Prop where
  ready : s.written?.isSome → h.Ready
  room : s.isTemp → h.temps < maxTemps

/-- Steps are no misuse if those before the last are none, and that is none after them. -/
theorem sound_concat : Sound (h ++ [s]) ↔ h.Sound ∧ h.Admits s := by
  unfold Sound
  rw [orderly_concat, temps_concat]
  constructor
  · rintro ⟨⟨horderly, hready⟩, htemps⟩
    refine ⟨⟨horderly, by omega⟩, hready, fun htemp => ?_⟩
    rw [if_pos htemp] at htemps
    omega
  · rintro ⟨⟨horderly, htemps⟩, hready, hroom⟩
    refine ⟨⟨horderly, hready⟩, ?_⟩
    by_cases htemp : s.isTemp = true
    · have hless := hroom htemp
      rw [if_pos htemp]
      omega
    · rw [if_neg htemp]
      exact htemps

/-! ## The builder follows the history -/

section Following

variable {name : String} {params : List ParamKind} {b : Builder}

/-- A block of the routine is what the steps made of it. -/
theorem getElem?_blocks (h : History) (name : String) (params : List ParamKind) (i : Nat) :
    (h.routine name params).blocks[i]? = if i < h.blockCount then some (h.blockOf i) else none := by
  unfold routine
  rw [List.getElem?_map]
  by_cases hi : i < h.blockCount
  · rw [if_pos hi, List.getElem?_range hi]
    rfl
  · rw [if_neg hi, List.getElem?_eq_none (by rw [List.length_range]; omega)]
    rfl

/-- The current block, as the builder finds it. -/
theorem current_builder (h : History) (name : String) (params : List ParamKind) :
    (h.builder name params).routine.blocks[(h.builder name params).current]?
      = if h.current < h.blockCount then some (h.blockOf h.current) else none :=
  getElem?_blocks ..

/-- Writing changes the current block and no other. -/
theorem setCurrent_builder (hwritten : s.written?.isSome) (name : String)
    (params : List ParamKind) :
    (h.builder name params).setCurrent (blockOf (h ++ [s]) h.current)
      = builder (h ++ [s]) name params := by
  have hcounts : vars (h ++ [s]) = h.vars ∧ temps (h ++ [s]) = h.temps ∧
      blockCount (h ++ [s]) = h.blockCount ∧ current (h ++ [s]) = h.current := by
    rw [vars_concat, temps_concat, blockCount_concat, current_concat]
    cases s <;> first | exact ⟨rfl, rfl, rfl, rfl⟩ | cases hwritten
  obtain ⟨hvars, htemps, hblocks, hcurrent⟩ := hcounts
  have hset : (h.routine name params).blocks.set h.current (blockOf (h ++ [s]) h.current)
      = (routine (h ++ [s]) name params).blocks := by
    apply List.ext_getElem?
    intro i
    rw [List.getElem?_set, getElem?_blocks, getElem?_blocks, hblocks]
    by_cases hi : h.current = i
    · subst hi
      simp [routine]
    · rw [if_neg hi, blockOf, blockOf, stmtsOf_concat, endsOf_concat, if_neg hi, if_neg hi,
        List.append_nil, List.append_nil]
  unfold Builder.setCurrent builder
  simp only [hset, hcurrent]
  unfold routine
  rw [hvars, htemps]

/-- Nothing was written to blocks that do not exist. -/
theorem writtenFrom_of_le (horderly : h.Orderly) {block : Nat} (hle : h.blockCount ≤ block) :
    writtenFrom block 0 h = [] := by
  induction h using List.reverseRecOn with
  | nil => rfl
  | append_singleton h s ih =>
    obtain ⟨hbefore, hready⟩ := orderly_concat.mp horderly
    rw [blockCount_concat] at hle
    rw [writtenFrom_concat, ih hbefore (by omega), List.nil_append]
    by_cases hcurrent : History.current h = block
    · have hnone : s.written? = none := by
        cases hwritten : s.written? with
        | none => rfl
        | some w =>
          have hlt := (hready (by rw [hwritten]; rfl)).1
          omega
      rw [hnone]
      exact ite_self _
    · exact if_neg hcurrent

/-- A step that writes nothing leaves the blocks. -/
theorem blockOf_concat (hnone : s.written? = none) (h : History) :
    blockOf (h ++ [s]) = h.blockOf := by
  funext block
  unfold blockOf
  rw [stmtsOf_concat, endsOf_concat, hnone]
  simp

/-- A block that is open has no end. -/
theorem blockOf_of_open {block : Nat} (hopen : (h.endsOf block).isEmpty) :
    h.blockOf block = ⟨h.stmtsOf block, none⟩ := by
  unfold blockOf
  rw [List.isEmpty_iff.mp hopen]
  rfl

/-- **A step that is no misuse** does to the builder what it does to the history. -/
theorem apply_builder (hsound : h.Sound) (hadmits : h.Admits s) (name : String)
    (params : List ParamKind) :
    (h.builder name params).apply s = builder (h ++ [s]) name params := by
  cases s with
  | addVar =>
    simp only [builder, routine, current_concat, vars_concat, temps_concat, blockCount_concat,
      blockOf_concat (s := .addVar) rfl]
    rfl
  | addTemp =>
    have hroom : (h.builder name params).routine.temps < maxTemps := hadmits.room rfl
    simp only [Builder.apply, Builder.addTemp, if_pos hroom]
    simp only [builder, routine, current_concat, vars_concat, temps_concat, blockCount_concat,
      blockOf_concat (s := .addTemp) rfl]
    rfl
  | addBlock =>
    have hempty : h.blockOf h.blockCount = default := by
      unfold blockOf stmtsOf endsOf
      rw [writtenFrom_of_le hsound.1 (Nat.le_refl _)]
      rfl
    simp only [builder, routine, current_concat, vars_concat, temps_concat, blockCount_concat,
      blockOf_concat (s := .addBlock) rfl]
    simp only [BuildStep.isBlock, if_true, List.range_succ, List.map_append, List.map_singleton,
      hempty]
    rfl
  | switchTo block =>
    simp only [builder, routine, current_concat, vars_concat, temps_concat, blockCount_concat,
      blockOf_concat (s := .switchTo block) rfl]
    rfl
  | push stmt =>
    obtain ⟨hlt, hopen⟩ := hadmits.ready rfl
    have hnew : blockOf (h ++ [.push stmt]) h.current = ⟨h.stmtsOf h.current ++ [stmt], none⟩ := by
      unfold blockOf
      rw [stmtsOf_concat, endsOf_concat, List.isEmpty_iff.mp hopen, if_pos rfl, if_pos rfl]
      rfl
    rw [← setCurrent_builder rfl, hnew]
    unfold Builder.apply Builder.push
    rw [current_builder, if_pos hlt, blockOf_of_open hopen]
  | close terminator =>
    obtain ⟨hlt, hopen⟩ := hadmits.ready rfl
    have hnew : blockOf (h ++ [.close terminator]) h.current
        = ⟨h.stmtsOf h.current, some terminator⟩ := by
      unfold blockOf
      rw [stmtsOf_concat, endsOf_concat, List.isEmpty_iff.mp hopen, if_pos rfl, if_pos rfl]
      simp [BuildStep.written?]
    rw [← setCurrent_builder rfl, hnew]
    unfold Builder.apply Builder.close
    rw [current_builder, if_pos hlt, blockOf_of_open hopen]

/-- A fault stays. -/
theorem fault_misuse (b : Builder) (fault : CompileFault) : (b.misuse fault).fault.isSome := by
  unfold Builder.misuse
  cases b.fault <;> rfl

/-- **A misuse** leaves a fault. -/
theorem isSome_fault_of_not_admits (hmisuse : ¬ h.Admits s) (name : String)
    (params : List ParamKind) : ((h.builder name params).apply s).fault.isSome := by
  have hclosed : ∀ {w : Stmt ⊕ Terminator}, s.written? = some w → h.current < h.blockCount →
      ∃ stmts terminator, h.blockOf h.current = ⟨stmts, some terminator⟩ := by
    intro w hwritten hlt
    cases hends : h.endsOf h.current with
    | nil =>
      refine (hmisuse ⟨fun _ => ⟨hlt, hends ▸ rfl⟩, fun htemp => ?_⟩).elim
      cases s <;> first | (cases htemp; done) | cases hwritten
    | cons terminator rest => exact ⟨_, terminator, by rw [blockOf, hends]; rfl⟩
  cases s with
  | addTemp =>
    have hfull : ¬ (h.builder name params).routine.temps < maxTemps := fun hroom =>
      hmisuse ⟨nofun, fun _ => hroom⟩
    unfold Builder.apply Builder.addTemp
    simp only [if_neg hfull]
    exact fault_misuse _ _
  | push stmt =>
    unfold Builder.apply Builder.push
    rw [current_builder]
    by_cases hlt : h.current < h.blockCount
    · obtain ⟨stmts, terminator, hblock⟩ := hclosed rfl hlt
      rw [if_pos hlt, hblock]
      exact fault_misuse _ _
    · rw [if_neg hlt]
      exact fault_misuse _ _
  | close terminator =>
    unfold Builder.apply Builder.close
    rw [current_builder]
    by_cases hlt : h.current < h.blockCount
    · obtain ⟨stmts, terminator, hblock⟩ := hclosed rfl hlt
      rw [if_pos hlt, hblock]
      exact fault_misuse _ _
    · rw [if_neg hlt]
      exact fault_misuse _ _
  | addVar => exact (hmisuse ⟨nofun, nofun⟩).elim
  | addBlock => exact (hmisuse ⟨nofun, nofun⟩).elim
  | switchTo block => exact (hmisuse ⟨nofun, nofun⟩).elim

/-- A fault stays, whatever follows. -/
theorem isSome_fault_apply (hfault : b.fault.isSome) (s : BuildStep) :
    (b.apply s).fault.isSome := by
  cases s with
  | addVar => exact hfault
  | addTemp =>
    unfold Builder.apply Builder.addTemp
    dsimp only
    split
    · exact hfault
    · exact fault_misuse _ _
  | addBlock => exact hfault
  | switchTo block => exact hfault
  | push stmt =>
    unfold Builder.apply Builder.push
    dsimp only
    split
    · exact fault_misuse _ _
    · exact hfault
    · exact fault_misuse _ _
  | close terminator =>
    unfold Builder.apply Builder.close
    dsimp only
    split
    · exact fault_misuse _ _
    · exact hfault
    · exact fault_misuse _ _

/-- The last step comes after the others. -/
theorem run_concat (b : Builder) (h : History) (s : BuildStep) :
    b.run (h ++ [s]) = (b.run h).apply s := by
  unfold Builder.run
  rw [List.foldl_append]
  rfl

/-- **As long as there was no misuse** the builder is in the state that its history
describes. -/
theorem run_of_sound (hsound : h.Sound) (name : String) (params : List ParamKind) :
    (Builder.start name params).run h = h.builder name params := by
  induction h using List.reverseRecOn with
  | nil => rfl
  | append_singleton before s ih =>
    obtain ⟨hbefore, hadmits⟩ := sound_concat.mp hsound
    rw [run_concat, ih hbefore]
    exact apply_builder hbefore hadmits name params

/-- **From the first misuse on** the builder has a fault. -/
theorem isSome_fault_run (hmisuse : ¬ h.Sound) (name : String) (params : List ParamKind) :
    ((Builder.start name params).run h).fault.isSome := by
  induction h using List.reverseRecOn with
  | nil =>
    refine (hmisuse ⟨?_, Nat.zero_le _⟩).elim
    intro n hn
    cases hn
  | append_singleton before s ih =>
    rw [run_concat]
    by_cases hbefore : Sound before
    · have hrefused : ¬ Admits before s := fun hadmits =>
        hmisuse (sound_concat.mpr ⟨hbefore, hadmits⟩)
      rw [run_of_sound hbefore]
      exact isSome_fault_of_not_admits hrefused name params
    · exact isSome_fault_apply (ih hbefore) s

end Following

/-! ## The ends of the blocks -/

/-- No block was ended twice. -/
theorem length_endsOf_le (horderly : h.Orderly) (block : Nat) :
    (h.endsOf block).length ≤ 1 := by
  induction h using List.reverseRecOn with
  | nil => exact Nat.zero_le 1
  | append_singleton before s ih =>
    obtain ⟨hbefore, hready⟩ := orderly_concat.mp horderly
    rw [endsOf_concat]
    by_cases hcurrent : History.current before = block
    · rw [if_pos hcurrent]
      cases hwritten : s.written? with
      | none =>
        rw [Option.toList_none, List.filterMap_nil, List.append_nil]
        exact ih hbefore
      | some w =>
        -- what is written finds the block open, so what it may bring is the first end
        have hopen := (hready (by rw [hwritten]; rfl)).2
        rw [hcurrent, List.isEmpty_iff] at hopen
        rw [hopen, List.nil_append, Option.toList_some]
        exact List.length_filterMap_le Sum.getRight? [w]
    · rw [if_neg hcurrent, List.append_nil]
      exact ih hbefore

/-- A closed block has a single end. -/
theorem exists_endsOf (horderly : h.Orderly) (hclosed : h.Closed) {block : Nat}
    (hlt : block < h.blockCount) : ∃ terminator, h.endsOf block = [terminator] := by
  have hsome := hclosed block hlt
  have hone := length_endsOf_le horderly block
  cases hends : h.endsOf block with
  | nil => exact (hsome (by rw [hends]; rfl)).elim
  | cons terminator rest =>
    rw [hends, List.length_cons] at hone
    have hrest : rest = [] := List.eq_nil_of_length_eq_zero (by omega)
    exact ⟨terminator, by rw [hrest]⟩

/-- A block is open exactly as long as it has no end. -/
theorem openBlock?_builder (h : History) (name : String) (params : List ParamKind) :
    (h.builder name params).openBlock? = none ↔ h.Closed := by
  unfold Builder.openBlock? builder routine Closed
  rw [List.findIdx?_eq_none_iff]
  simp [blockOf]

end History

/-! ## Finishing -/

/-- Finishing in place: the module keeps what was added to it before a fault. -/
def Builder.finishInPlace (b : Builder) : ExceptT CompileFault (StateM Module) Nat := do
  if let some fault := b.fault then throw fault
  if let some block := b.openBlock? then throw (.openBlock b.routine.name block)
  let m ← getThe Module
  set { m with routines := m.routines ++ [b.routine] }
  return m.routines.length

/-- **Finishing in place comes to the same**: a fault leaves the module as it was. -/
theorem Builder.run_finishInPlace (b : Builder) (m : Module) :
    b.finishInPlace.run.run m =
      match b.finish m with
      | .ok (after, id) => (.ok id, after)
      | .error fault => (.error fault, m) := by
  unfold Builder.finishInPlace Builder.finish
  cases b.fault with
  | some fault => rfl
  | none =>
    cases b.openBlock? with
    | some block => rfl
    | none => rfl

namespace History

/-- **What a builder builds**, over all its runs: finishing succeeds exactly if all that was
written found the current block existing and open, no temporary array was requested beyond
the limit, and every block has an end.  Then the module has one routine more, under the number
of those before it, and each block of the routine holds the statements that were appended
while it was current, and its single end.  Otherwise the module is as it was. -/
theorem finish_history (h : History) (name : String) (params : List ParamKind) (m : Module) :
    if h.Orderly ∧ h.temps ≤ maxTemps ∧ h.Closed then
      ((Builder.start name params).run h).finishInPlace.run.run m
        = (.ok m.routines.length, { m with routines := m.routines ++ [h.routine name params] }) ∧
      (h.routine name params).blocks.length = h.blockCount ∧
      ∀ block < h.blockCount, ∃ terminator, h.endsOf block = [terminator] ∧
        (h.routine name params).blocks[block]? = some ⟨h.stmtsOf block, some terminator⟩
    else
      ∃ fault, ((Builder.start name params).run h).finishInPlace.run.run m = (.error fault, m) := by
  rw [Builder.run_finishInPlace]
  by_cases hsound : h.Sound
  · rw [run_of_sound hsound, Builder.finish]
    split
    · next hok =>
      obtain ⟨horderly, -, hclosed⟩ := hok
      refine ⟨?_, ?_, ?_⟩
      · rw [(openBlock?_builder h name params).mpr hclosed]
        rfl
      · rw [routine, List.length_map, List.length_range]
      · intro block hlt
        obtain ⟨terminator, hends⟩ := exists_endsOf horderly hclosed hlt
        refine ⟨terminator, hends, ?_⟩
        rw [getElem?_blocks, if_pos hlt, blockOf, hends]
        rfl
    · next hfailed =>
      have hopen : (h.builder name params).openBlock? ≠ none := fun hnone =>
        hfailed ⟨hsound.1, hsound.2, (openBlock?_builder h name params).mp hnone⟩
      obtain ⟨block, hblock⟩ := Option.ne_none_iff_exists'.mp hopen
      rw [hblock]
      exact ⟨_, rfl⟩
  · have hfailed : ¬ (h.Orderly ∧ h.temps ≤ maxTemps ∧ h.Closed) := fun hok =>
      hsound ⟨hok.1, hok.2.1⟩
    obtain ⟨fault, hfault⟩ := Option.isSome_iff_exists.mp (isSome_fault_run hsound name params)
    rw [if_neg hfailed, Builder.finish, hfault]
    exact ⟨fault, rfl⟩

-- two blocks; without the switch the first one would be ended twice
example : let h : History := [.addBlock, .close (.jump 1), .switchTo 1, .close .ret]
    h.Orderly ∧ h.Closed ∧ ¬ Orderly (h.eraseIdx 2) := by decide

end History

end PixelPipeline.Ir
