import PixelPipeline.Proofs.Lowering.Placement
import PixelPipeline.Proofs.Lowering.Yields
import PixelPipeline.Proofs.Machine.Operands

/-!
# Finished programs

Resolving adds the position of each operation to its displacements and refuses
what does not lead forward.  So a finished program is the placed code with every
target aimed, its jumps go forward, and it is not empty.
-/

namespace PixelPipeline.Ir

open Machine

/-- A resolved target is where the displacement leads, ahead and inside the code. -/
theorem resolveTarget_ok {length source target : Nat} {displacement : Int}
    (h : resolveTarget length source displacement = .ok target) :
    target = aimBy source displacement ∧ source < target ∧ target < length := by
  simp only [resolveTarget] at h
  split at h
  · cases h
  · split at h
    · cases h
    · obtain rfl := Except.ok.inj h
      refine ⟨rfl, ?_, ?_⟩ <;> omega

/-- A resolved operation has its targets aimed, ahead of it and inside the
code. -/
theorem traverseTargets_ok {length source : Nat} {op : Op Int} {resolved : Op Nat}
    (h : op.traverseTargets (resolveTarget length source) = .ok resolved) :
    resolved = op.mapTargets (aimBy source) ∧
      ∀ target ∈ resolved.targets, source < target ∧ target < length := by
  cases op with
  | jump d =>
      cases hd : resolveTarget length source d with
      | error e =>
          simp only [Op.traverseTargets, hd] at h
          cases h
      | ok onward =>
          simp only [Op.traverseTargets, hd] at h
          obtain rfl := Except.ok.inj h
          obtain ⟨rfl, hahead⟩ := resolveTarget_ok hd
          refine ⟨rfl, fun target htarget => ?_⟩
          obtain rfl := List.mem_singleton.mp htarget
          exact hahead
  | branch op lhs rhs d e =>
      cases hd : resolveTarget length source d with
      | error _ =>
          simp only [Op.traverseTargets, hd] at h
          cases h
      | ok onTrue =>
          cases he : resolveTarget length source e with
          | error _ =>
              simp only [Op.traverseTargets, hd, he] at h
              cases h
          | ok onFalse =>
              simp only [Op.traverseTargets, hd, he] at h
              obtain rfl := Except.ok.inj h
              obtain ⟨rfl, hahead⟩ := resolveTarget_ok hd
              obtain ⟨rfl, hother⟩ := resolveTarget_ok he
              refine ⟨rfl, fun target htarget => ?_⟩
              simp only [Op.targets, List.mem_cons, List.not_mem_nil, or_false] at htarget
              obtain rfl | rfl := htarget
              · exact hahead
              · exact hother
  | const | load | store | move | binary | ret =>
      obtain rfl := Except.ok.inj h
      exact ⟨rfl, fun target htarget => absurd htarget List.not_mem_nil⟩

/-- Each operation is resolved at its position. -/
theorem resolveFrom_ok {length source : Nat} {code : PlacedCode} {resolved : List (Op Nat)}
    (h : resolveFrom length source code = .ok resolved) :
    resolved.length = code.length ∧ ∀ (i : Nat) (op : Op Int), code[i]? = some op →
      ∃ op', resolved[i]? = some op' ∧
        op.traverseTargets (resolveTarget length (source + i)) = .ok op' := by
  induction code generalizing source resolved with
  | nil =>
      obtain rfl := Except.ok.inj h
      exact ⟨rfl, fun i op hop => by simp at hop⟩
  | cons head rest ih =>
      rw [resolveFrom] at h
      cases hhead : head.traverseTargets (resolveTarget length source) with
      | error e =>
          rw [hhead] at h
          cases h
      | ok op' =>
          cases hrest : resolveFrom length (source + 1) rest with
          | error e =>
              rw [hhead, hrest] at h
              cases h
          | ok restResolved =>
              rw [hhead, hrest] at h
              obtain rfl := Except.ok.inj h
              obtain ⟨hlength, hget⟩ := ih hrest
              refine ⟨by simp [hlength], fun i op hop => ?_⟩
              cases i with
              | zero =>
                  obtain rfl : head = op := by simpa using hop
                  exact ⟨op', rfl, hhead⟩
              | succ i =>
                  obtain ⟨op'', hop'', htraverse⟩ := hget i op (by simpa using hop)
                  refine ⟨op'', by simpa using hop'', ?_⟩
                  rwa [Nat.add_assoc, Nat.add_comm 1] at htraverse

/-- Finished code ends in a return, and each of its operations is a placed one
with its targets aimed, ahead of it and inside the code. -/
theorem resolve_get {code : PlacedCode} {resolved : List (Op Nat)}
    (h : resolve code = .ok resolved) :
    resolved.length = code.length ∧ resolved.getLast? = some .ret ∧
      ∀ (i : Nat) (op : Op Int), code[i]? = some op →
        resolved[i]? = some (op.mapTargets (aimBy i)) ∧
          ∀ target ∈ (op.mapTargets (aimBy i)).targets, i < target ∧ target < resolved.length := by
  unfold resolve at h
  cases hfrom : resolveFrom code.length 0 code with
  | error e =>
      rw [hfrom] at h
      cases h
  | ok found =>
      rw [hfrom] at h
      change (if found.getLast?.any Op.isRet = true then Except.ok found else _) = _ at h
      split at h
      · rename_i hlast
        obtain rfl := Except.ok.inj h
        obtain ⟨hlength, hget⟩ := resolveFrom_ok hfrom
        refine ⟨hlength, ?_, fun i op hop => ?_⟩
        · obtain ⟨op, hop, hret⟩ := (Option.any_eq_true _ _).mp hlast
          cases op with
          | ret => exact hop
          | const | load | store | move | binary | jump | branch => cases hret
        · obtain ⟨op', hop', htraverse⟩ := hget i op hop
          obtain ⟨rfl, hahead⟩ := traverseTargets_ok htraverse
          rw [Nat.zero_add] at hop' hahead
          rw [hlength]
          exact ⟨hop', hahead⟩
      · cases h

/-- The operations of finished code are the placed ones. -/
theorem resolve_getElem? {code : PlacedCode} {resolved : List (Op Nat)}
    (h : resolve code = .ok resolved) {i : Nat} {op : Op Nat} (hop : resolved[i]? = some op) :
    ∃ placed ∈ code, op = placed.mapTargets (aimBy i) ∧
      ∀ target ∈ op.targets, i < target ∧ target < resolved.length := by
  obtain ⟨hlength, -, hget⟩ := resolve_get h
  have hi : i < code.length := by
    rw [← hlength]
    exact (List.getElem?_eq_some_iff.mp hop).1
  obtain ⟨hsame, hahead⟩ := hget i _ (List.getElem?_eq_getElem hi)
  obtain rfl := Option.some.inj (hop.symm.trans hsame)
  exact ⟨_, List.getElem_mem hi, rfl, hahead⟩

/-- **A finished program is its placed code, goes forward, and has something to
run.** -/
theorem resolve_ok {code : PlacedCode} {resolved : List (Op Nat)}
    (h : resolve code = .ok resolved) :
    Segment resolved.toArray aimBy 0 code ∧ Forward resolved.toArray ∧ code ≠ [] := by
  obtain ⟨hlength, hlast, hget⟩ := resolve_get h
  refine ⟨fun i op hop => ?_, fun pc target s t op hop hexec => ?_, ?_⟩
  · simpa using (hget i op hop).1
  · obtain ⟨_, -, -, hahead⟩ := resolve_getElem? h (i := pc) (by simpa using hop)
    exact (hahead target (Op.exec_goto hexec)).1
  · rintro rfl
    obtain rfl := List.eq_nil_of_length_eq_zero hlength
    cases hlast

end PixelPipeline.Ir
