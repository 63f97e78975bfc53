import PixelPipeline.Machine.Run

/-!
# Paths of the machine

A path is a run without a bound on its steps, from one position and state to
another.  Code whose jumps go forward never repeats a position, so the bound
that a program sets itself is no restriction: `Program.run_of_path` turns a path
that meets a return into the answer of the program.

A segment is code at a position, with its targets not yet resolved; `aim` says
where a target at a position leads.

* `Path.trans` — paths compose;
* `Path.runFrom` — a run along a path takes at most one step per position;
* `segment_append`, `segment_map`, `segment_mapIdx` — segments follow the way
  code is put together.
-/

namespace PixelPipeline.Machine

/-- A run from one position and state to another. -/
inductive Path (code : Array (Op Nat)) : Nat → State → Nat → State → Prop
  | here (pc : Nat) (s : State) : Path code pc s pc s
  | next {pc q : Nat} {s t u : State} {op : Op Nat}
      (fetch : code[pc]? = some op) (exec : op.exec s = (t, .next))
      (rest : Path code (pc + 1) t q u) : Path code pc s q u
  | goto {pc target q : Nat} {s t u : State} {op : Op Nat}
      (fetch : code[pc]? = some op) (exec : op.exec s = (t, .goto target))
      (rest : Path code target t q u) : Path code pc s q u

/-- Every jump leads to a later position. -/
def Forward (code : Array (Op Nat)) : Prop :=
  ∀ ⦃pc target : Nat⦄ ⦃s t : State⦄ ⦃op : Op Nat⦄,
    code[pc]? = some op → op.exec s = (t, .goto target) → pc < target

namespace Path

variable {code : Array (Op Nat)} {p q r : Nat} {s t u : State}

/-- Paths compose. -/
theorem trans (h : Path code p s q t) (k : Path code q t r u) : Path code p s r u := by
  induction h with
  | here => exact k
  | next fetch exec _ ih => exact .next fetch exec (ih k)
  | goto fetch exec _ ih => exact .goto fetch exec (ih k)

/-- One operation that goes on to the next. -/
theorem one {op : Op Nat} (fetch : code[p]? = some op) (exec : op.exec s = (t, .next)) :
    Path code p s (p + 1) t :=
  .next fetch exec (.here _ _)

/-- One jump. -/
theorem jump {op : Op Nat} (fetch : code[p]? = some op) (exec : op.exec s = (t, .goto q)) :
    Path code p s q t :=
  .goto fetch exec (.here _ _)

/-- Forward code is left behind as it runs. -/
theorem le (forward : Forward code) (h : Path code p s q t) : p ≤ q := by
  induction h with
  | here => exact Nat.le_refl _
  | next _ _ _ ih => exact Nat.le_of_succ_le ih
  | goto fetch exec _ ih => exact Nat.le_trans (Nat.le_of_lt (forward fetch exec)) ih

/-- A path through forward code takes at most one step for each position
between its ends. -/
theorem runFrom (forward : Forward code) (h : Path code p s q t) :
    ∃ steps, p + steps ≤ q ∧
      ∀ fuel, runFrom code (steps + fuel) p s = runFrom code fuel q t := by
  induction h with
  | here => exact ⟨0, Nat.le_refl _, fun fuel => by rw [Nat.zero_add]⟩
  | next fetch exec _ ih =>
      obtain ⟨steps, hle, hrun⟩ := ih
      refine ⟨steps + 1, by omega, fun fuel => ?_⟩
      rw [Nat.add_right_comm, Machine.runFrom, fetch]
      simpa only [exec] using hrun fuel
  | goto fetch exec _ ih =>
      obtain ⟨steps, hle, hrun⟩ := ih
      have hlt := forward fetch exec
      refine ⟨steps + 1, by omega, fun fuel => ?_⟩
      rw [Nat.add_right_comm, Machine.runFrom, fetch]
      simpa only [exec] using hrun fuel

end Path

/-- A program whose path meets a return answers with the state there. -/
theorem Program.run_of_path {p : Program} (forward : Forward p.code) {s t : State} {q : Nat}
    (h : Path p.code 0 s q t) (fetch : p.code[q]? = some .ret) : p.run s = (t, .returned) := by
  obtain ⟨steps, hle, hrun⟩ := h.runFrom forward
  have hq : q < p.code.size := by
    obtain ⟨hq, _⟩ := Array.getElem?_eq_some_iff.mp fetch
    exact hq
  have hfuel : p.code.size + 1 = steps + ((p.code.size - steps) + 1) := by omega
  rw [Program.run, hfuel, hrun, Machine.runFrom, fetch]
  rfl

/-! ## Segments -/

namespace Op

variable {ρ σ τ : Type}

/-- Targets that are renamed twice are renamed at once. -/
@[simp] theorem mapTargets_mapTargets (g : σ → τ) (f : ρ → σ) (op : Op ρ) :
    (op.mapTargets f).mapTargets g = op.mapTargets (g ∘ f) := by
  cases op <;> rfl

end Op

/-- `ops` stands at a position of the code, once each target is replaced by
where it leads. -/
def Segment {τ : Type} (code : Array (Op Nat)) (aim : Nat → τ → Nat) (pos : Nat)
    (ops : List (Op τ)) : Prop :=
  ∀ i op, ops[i]? = some op → code[pos + i]? = some (op.mapTargets (aim (pos + i)))

variable {σ τ : Type} {code : Array (Op Nat)} {aim : Nat → τ → Nat} {pos : Nat}

/-- No code lies anywhere. -/
@[simp] theorem segment_nil : Segment code aim pos [] := by
  intro i op h
  simp at h

/-- Code lies in a program if its halves lie one behind the other. -/
theorem segment_append {front back : List (Op τ)} :
    Segment code aim pos (front ++ back) ↔
      Segment code aim pos front ∧ Segment code aim (pos + front.length) back := by
  constructor
  · intro h
    constructor
    · intro i op hop
      have hi : i < front.length := (List.getElem?_eq_some_iff.mp hop).1
      exact h i op (by rw [List.getElem?_append_left hi]; exact hop)
    · intro i op hop
      have := h (front.length + i) op (by
        rw [List.getElem?_append_right (Nat.le_add_right _ _), Nat.add_sub_cancel_left]
        exact hop)
      rwa [← Nat.add_assoc] at this
  · rintro ⟨hfront, hback⟩ i op hop
    by_cases hi : i < front.length
    · exact hfront i op (by rwa [List.getElem?_append_left hi] at hop)
    · have hi : front.length ≤ i := Nat.le_of_not_lt hi
      rw [List.getElem?_append_right hi] at hop
      have := hback (i - front.length) op hop
      rwa [Nat.add_assoc, Nat.add_sub_cancel' hi] at this

/-- One operation lies where the program has it. -/
theorem segment_singleton {op : Op τ} :
    Segment code aim pos [op] ↔ code[pos]? = some (op.mapTargets (aim pos)) := by
  constructor
  · intro h
    exact h 0 op rfl
  · intro h i op' hop
    cases i with
    | zero =>
        obtain rfl : op = op' := by simpa using hop
        exact h
    | succ i => simp at hop

/-- Code whose targets were replaced on the spot. -/
theorem segment_map {f : σ → τ} {ops : List (Op σ)} :
    Segment code aim pos (ops.map (Op.mapTargets f)) ↔
      Segment code (fun p t => aim p (f t)) pos ops := by
  constructor
  · intro h i op hop
    have := h i (op.mapTargets f) (by rw [List.getElem?_map, hop]; rfl)
    rwa [Op.mapTargets_mapTargets] at this
  · intro h i op hop
    rw [List.getElem?_map, Option.map_eq_some_iff] at hop
    obtain ⟨op, hop, rfl⟩ := hop
    rw [Op.mapTargets_mapTargets]
    exact h i op hop

/-- Code whose targets were replaced according to their position. -/
theorem segment_mapIdx {f : Nat → σ → τ} {ops : List (Op σ)} :
    Segment code aim pos (ops.mapIdx fun i => Op.mapTargets (f i)) ↔
      Segment code (fun p t => aim p (f (p - pos) t)) pos ops := by
  constructor
  · intro h i op hop
    have := h i (op.mapTargets (f i)) (by rw [List.getElem?_mapIdx, hop]; rfl)
    rw [Op.mapTargets_mapTargets] at this
    simp only [Nat.add_sub_cancel_left]
    exact this
  · intro h i op hop
    rw [List.getElem?_mapIdx, Option.map_eq_some_iff] at hop
    obtain ⟨op, hop, rfl⟩ := hop
    have := h i op hop
    simp only [Nat.add_sub_cancel_left] at this
    rw [Op.mapTargets_mapTargets]
    exact this

end PixelPipeline.Machine
