import PixelPipeline.Proofs.Ir.Reference

/-!
# Single blocks, more fuel, and what stays assigned

Facts about reference runs that do not depend on the module.

More fuel changes a run only if it had run out: `x.Refined y` says that `y` is
what `x` becomes with more fuel, and it is kept by everything the interpreter is
put together from.  So a run has one answer.

What was assigned in an array stays assigned while the array is in use, since
calls only push further arrays and pop them again.

* `execFrom_next`, `execFrom_return` — a block is left, or the routine is;
* `run_refined` — a run with more fuel has the same answer;
* `invoke_carries` — a call leaves every array assigned where it was.
-/

namespace PixelPipeline.Ir.Reference

/-! ## Single blocks -/

section

variable {m : Module} {inv : Invoke} {a : Activation} {s s' : Store} {fuel index : Nat}
  {stmts : List Stmt} {terminator : Terminator}

/-- Execution of a block with an end runs its statements and leaves through the end. -/
theorem execFrom_block (h : a.routine.blocks[index]? = some ⟨stmts, some terminator⟩) :
    execFrom m inv a (fuel + 1) index s = (do
      let s ← execAll m inv a s stmts
      match ← leave a s terminator with
      | none => return s.memory
      | some next => execFrom m inv a fuel next s) := by
  rw [execFrom]
  generalize a.routine.blocks[index]? = block at h
  subst h
  rfl

/-- A block that leads to another. -/
theorem execFrom_next (index : Nat) (h : a.routine.blocks[index]? = some ⟨stmts, some terminator⟩)
    (hstmts : execAll m inv a s stmts = .ok s') {next : Nat}
    (hleave : leave a s' terminator = .ok (some next)) :
    execFrom m inv a (fuel + 1) index s = execFrom m inv a fuel next s' := by
  rw [execFrom_block h, hstmts]
  change (leave a s' terminator >>= _) = _
  rw [hleave]
  rfl

/-- A block that ends the routine. -/
theorem execFrom_return (index : Nat) (h : a.routine.blocks[index]? = some ⟨stmts, some .ret⟩)
    (hstmts : execAll m inv a s stmts = .ok s') :
    execFrom m inv a (fuel + 1) index s = .ok s'.memory := by
  rw [execFrom_block h, hstmts]
  rfl

end

/-! ## More fuel -/

/-- The second is the first, unless the first ran out of fuel. -/
def Refined {α : Type} (x y : Except Stuck α) : Prop := x = .error .outOfFuel ∨ x = y

namespace Refined

variable {α β : Type} {x y : Except Stuck α} {f g : α → Except Stuck β}

theorem refl (x : Except Stuck α) : Refined x x := .inr rfl

/-- Refined computations with refined continuations are refined. -/
theorem bind (h : Refined x y) (k : ∀ a, Refined (f a) (g a)) : Refined (x >>= f) (y >>= g) := by
  obtain rfl | rfl := h
  · exact .inl rfl
  · cases x with
    | ok a => exact k a
    | error stuck => exact .inr rfl

end Refined

variable {m : Module} {inv inv' : Invoke} {a : Activation}

/-- If calls are refined, so are statements. -/
theorem exec_refined (h : ∀ r actuals mem, Refined (inv r actuals mem) (inv' r actuals mem))
    (s : Store) (stmt : Stmt) : Refined (exec m inv a s stmt) (exec m inv' a s stmt) := by
  cases stmt with
  | assign dst value => exact .refl _
  | call id args =>
      simp only [exec]
      cases m.routine? id with
      | none => exact .refl _
      | some callee => exact .bind (.refl _) fun actuals => .bind (h _ _ _) fun _ => .refl _

/-- If calls are refined, so are lists of statements. -/
theorem execAll_refined (h : ∀ r actuals mem, Refined (inv r actuals mem) (inv' r actuals mem))
    (s : Store) (stmts : List Stmt) :
    Refined (execAll m inv a s stmts) (execAll m inv' a s stmts) := by
  induction stmts generalizing s with
  | nil => exact .refl _
  | cons stmt rest ih => exact .bind (exec_refined h s stmt) ih

/-- More fuel refines the execution of blocks. -/
theorem execFrom_refined (h : ∀ r actuals mem, Refined (inv r actuals mem) (inv' r actuals mem))
    {fuel more : Nat} (hle : fuel ≤ more) (block : Nat) (s : Store) :
    Refined (execFrom m inv a fuel block s) (execFrom m inv' a more block s) := by
  induction fuel generalizing more block s with
  | zero => exact .inl rfl
  | succ fuel ih =>
      obtain ⟨more, rfl⟩ : ∃ n, more = n + 1 := ⟨more - 1, by omega⟩
      simp only [execFrom]
      split
      · refine .bind (execAll_refined h s _) fun s => .bind (.refl _) fun next => ?_
        cases next with
        | none => exact .refl _
        | some next => exact ih (by omega) next s
      · exact .refl _

/-- **More fuel** refines a call: what had a result keeps it. -/
theorem invoke_refined {fuel more : Nat} (hle : fuel ≤ more) (r : Routine)
    (actuals : List Actual) (mem : Memory) :
    Refined (invoke m fuel r actuals mem) (invoke m more r actuals mem) := by
  induction fuel generalizing more r actuals mem with
  | zero => exact .inl rfl
  | succ fuel ih =>
      obtain ⟨more, rfl⟩ : ∃ n, more = n + 1 := ⟨more - 1, by omega⟩
      simp only [invoke]
      split
      · exact .refl _
      · exact .bind (execFrom_refined (ih (by omega)) (by omega) _ _) fun _ => .refl _

/-- **More fuel does not change an answer.** -/
theorem run_refined {fuel more : Nat} (hle : fuel ≤ more) (inputs : List Input) :
    Refined (run m fuel inputs) (run m more inputs) := by
  simp only [run]
  split
  · exact .refl _
  · exact invoke_refined hle _ _ _

/-- A run that answers with some fuel never reads anything unassigned. -/
theorem run_assigned {fuel : Nat} {inputs : List Input} {final : Memory}
    (h : run m fuel inputs = .ok final) (other : Nat) :
    run m other inputs ≠ .error .unassigned := by
  intro hother
  obtain hle | hle := Nat.le_total fuel other
  · obtain hout | hsame := run_refined (m := m) hle inputs
    · rw [h] at hout
      cases hout
    · rw [h, hother] at hsame
      cases hsame
  · obtain hout | hsame := run_refined (m := m) hle inputs
    · rw [hother] at hout
      cases hout
    · rw [h, hother] at hsame
      cases hsame

/-! ## What stays assigned -/

/-- Every array of the first memory is in use in the second and assigned where
it was. -/
structure Memory.Carries (mem final : Memory) : Prop where
  size_le : mem.size ≤ final.size
  assigned : ∀ address, address < mem.size → ∀ lane, (mem.lanes address lane).isSome →
    (final.lanes address lane).isSome

namespace Memory.Carries

variable {mem middle final : Memory}

theorem refl (mem : Memory) : mem.Carries mem := ⟨Nat.le_refl _, fun _ _ _ h => h⟩

theorem trans (h : mem.Carries middle) (k : middle.Carries final) : mem.Carries final :=
  ⟨Nat.le_trans h.size_le k.size_le, fun address ha lane hl =>
    k.assigned address (Nat.lt_of_lt_of_le ha h.size_le) lane (h.assigned address ha lane hl)⟩

/-- A write carries memory on. -/
theorem write (address lane : Nat) (v : Binary32) : mem.Carries (mem.write address lane v) := by
  refine ⟨Nat.le_refl _, fun a _ l hl => ?_⟩
  simp only [Memory.write]
  split
  · rfl
  · exact hl

/-- Memory that grows is carried on. -/
theorem extend (count : Nat) : mem.Carries (mem.extend count) := by
  refine ⟨Nat.le_add_right _ _, fun a ha l hl => ?_⟩
  simp only [Memory.extend]
  rw [if_neg (Nat.not_le_of_lt ha)]
  exact hl

/-- What was carried on and cut to its old size is carried on. -/
theorem shrink (h : mem.Carries final) : mem.Carries (final.shrink mem.size) :=
  ⟨Nat.le_refl _, h.assigned⟩

end Memory.Carries

/-- A condition on the result, if there is one. -/
def Yields {α : Type} (x : Except Stuck α) (P : α → Prop) : Prop := ∀ r, x = .ok r → P r

namespace Yields

variable {α β : Type} {x : Except Stuck α} {f : α → Except Stuck β} {P : α → Prop} {Q : β → Prop}

/-- A result has a property if the first part's does and the rest keeps it. -/
theorem bind (h : Yields x P) (k : ∀ r, P r → Yields (f r) Q) : Yields (x >>= f) Q := by
  intro final hfinal
  cases x with
  | ok r => exact k r (h r rfl) final hfinal
  | error stuck => cases hfinal

/-- An answer has its property. -/
theorem ok {r : α} (h : P r) : Yields (.ok r) P := by
  rintro _ ⟨⟩
  exact h

/-- An error has nothing to show. -/
theorem error {stuck : Stuck} : Yields (.error stuck) P := by
  rintro _ ⟨⟩

/-- Every result has the property that always holds. -/
theorem any : Yields x fun _ => True := fun _ _ => trivial

end Yields

/-- Assigning carries memory on. -/
theorem assign_carries (s : Store) (v : Binary32) (dst : Place) :
    Yields (a.assign s v dst) fun s' => s.memory.Carries s'.memory := by
  cases dst with
  | lane array lane => exact .bind .any fun address _ => .ok (.write address lane v)
  | var i =>
      simp only [Activation.assign]
      split
      · exact .ok (.refl _)
      · exact .error

/-- A statement carries memory on, if calls do. -/
theorem exec_carries (h : ∀ r actuals mem, Yields (inv r actuals mem) mem.Carries) (s : Store)
    (stmt : Stmt) : Yields (exec m inv a s stmt) fun s' => s.memory.Carries s'.memory := by
  cases stmt with
  | assign dst value => exact .bind .any fun v _ => assign_carries s v dst
  | call id args =>
      simp only [exec]
      split
      · exact .error
      · exact .bind .any fun actuals _ =>
          .bind (h _ actuals s.memory) fun final hfinal => .ok hfinal

/-- A list of statements carries memory on, if calls do. -/
theorem execAll_carries (h : ∀ r actuals mem, Yields (inv r actuals mem) mem.Carries) (s : Store)
    (stmts : List Stmt) :
    Yields (execAll m inv a s stmts) fun s' => s.memory.Carries s'.memory := by
  induction stmts generalizing s with
  | nil => exact .ok (.refl _)
  | cons stmt rest ih =>
      refine .bind (exec_carries h s stmt) fun s₁ h₁ => ?_
      intro s₂ hs₂
      exact h₁.trans (ih s₁ s₂ hs₂)

/-- Blocks carry memory on, if calls do. -/
theorem execFrom_carries (h : ∀ r actuals mem, Yields (inv r actuals mem) mem.Carries)
    (fuel block : Nat) (s : Store) :
    Yields (execFrom m inv a fuel block s) s.memory.Carries := by
  induction fuel generalizing block s with
  | zero => exact .error
  | succ fuel ih =>
      simp only [execFrom]
      split
      · refine .bind (execAll_carries h s _) fun s₁ h₁ => .bind .any fun next _ => ?_
        cases next with
        | none => exact .ok h₁
        | some next =>
            intro final hfinal
            exact h₁.trans (ih next s₁ final hfinal)
      · exact .error

/-- **A call leaves every array assigned where it was.** -/
theorem invoke_carries (fuel : Nat) (r : Routine) (actuals : List Actual) (mem : Memory) :
    Yields (invoke m fuel r actuals mem) mem.Carries := by
  induction fuel generalizing r actuals mem with
  | zero => exact .error
  | succ fuel ih =>
      simp only [invoke]
      split
      · exact .ok (.refl _)
      · refine .bind (execFrom_carries ih fuel 0 _) fun final hfinal => .ok ?_
        exact ((Memory.Carries.extend r.temps).trans hfinal).shrink

/-- **A run carries memory on** from its inputs. -/
theorem run_carries (fuel : Nat) (inputs : List Input) :
    Yields (run m fuel inputs) (bind inputs .empty).2.Carries := by
  simp only [run]
  split
  · exact .error
  · exact invoke_carries _ _ _ _

end PixelPipeline.Ir.Reference
