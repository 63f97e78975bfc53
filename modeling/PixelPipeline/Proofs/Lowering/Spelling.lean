import Mathlib.Data.List.Forall2
import PixelPipeline.Proofs.Lowering.Labels
import PixelPipeline.Proofs.Lowering.Placement

/-!
# Code with labels and code with displacements

Appended code spells a fragment (`Spells`) if the operations are the same one by one, and where the
code has a label, the fragment has what the label stands for (`Names`): a block or the exit of the
routine that is being expanded, or the displacement to where the label is bound.

Binding one more label never changes what is spelled (`Spells.mono`), so appended code is settled
once its own labels are.  When the labels of a routine's blocks are bound to where the blocks start,
and that of its exit right behind them, its code spells the placed routine (`Spells.place`).

What a step of the assembly appends (`Assembly.Grows`) has its labels bound inside it or right
behind it; `Assembly.Adds` says which fragment it spells.
-/

namespace PixelPipeline.Machine.Op

variable {σ τ : Type}

/-- The operations differ in their targets only, and these are related. -/
inductive Alike (R : σ → τ → Prop) : Op σ → Op τ → Prop
  | const {dst : Nat} {v : Binary32} : Alike R (.const dst v) (.const dst v)
  | load {dst slot lane : Nat} : Alike R (.load dst slot lane) (.load dst slot lane)
  | store {slot lane src : Nat} : Alike R (.store slot lane src) (.store slot lane src)
  | move {dst src : Nat} : Alike R (.move dst src) (.move dst src)
  | binary {op : Ir.BinOp} {dst lhs rhs : Nat} :
    Alike R (.binary op dst lhs rhs) (.binary op dst lhs rhs)
  | jump {t : σ} {t' : τ} (ht : R t t') : Alike R (.jump t) (.jump t')
  | branch {op : Ir.CmpOp} {lhs rhs : Nat} {t e : σ} {t' e' : τ} (ht : R t t') (he : R e e') :
    Alike R (.branch op lhs rhs t e) (.branch op lhs rhs t' e')
  | ret : Alike R .ret .ret

/-- Renaming targets to themselves changes nothing. -/
@[simp] theorem mapTargets_id (op : Op σ) : op.mapTargets id = op := by
  cases op <;> rfl

variable {ρ : Type} {R : σ → τ → Prop} {S : σ → ρ → Prop} {op : Op σ} {op' : Op τ}

/-- Renamed operations are alike if the renamed targets are related. -/
theorem Alike.mapTargets {g : τ → ρ} (h : op.Alike R op') (hg : ∀ t t', R t t' → S t (g t')) :
    op.Alike S (op'.mapTargets g) := by
  cases h with
  | const => exact .const
  | load => exact .load
  | store => exact .store
  | move => exact .move
  | binary => exact .binary
  | jump ht => exact .jump (hg _ _ ht)
  | branch ht he => exact .branch (hg _ _ ht) (hg _ _ he)
  | ret => exact .ret

/-- Operations that are alike are so under any weaker relation. -/
theorem Alike.imp {S : σ → τ → Prop} (h : op.Alike R op') (himp : ∀ t t', R t t' → S t t') :
    op.Alike S op' := by
  have hmapped : op.Alike S (op'.mapTargets id) := h.mapTargets himp
  rwa [mapTargets_id] at hmapped

/-- What is alike after renaming is alike before, with the renaming in the relation. -/
theorem Alike.of_mapTargets {w : ρ → τ} {op' : Op ρ} (h : op.Alike R (op'.mapTargets w)) :
    op.Alike (fun t t' => R t (w t')) op' := by
  cases op' with
  | const => cases h; exact .const
  | load => cases h; exact .load
  | store => cases h; exact .store
  | move => cases h; exact .move
  | binary => cases h; exact .binary
  | jump =>
      cases h with
      | jump ht => exact .jump ht
  | branch =>
      cases h with
      | branch ht he => exact .branch ht he
  | ret => cases h; exact .ret

/-- If related targets are looked up to the same, so are the operations. -/
theorem Alike.traverseTargets {ε : Type} {f : σ → Except ε ρ} {g : τ → Except ε ρ}
    (h : op.Alike R op') (hfg : ∀ t t', R t t' → f t = g t') :
    op.traverseTargets f = op'.traverseTargets g := by
  cases h with
  | jump ht => rw [Op.traverseTargets, Op.traverseTargets, hfg _ _ ht]
  | branch ht he => rw [Op.traverseTargets, Op.traverseTargets, hfg _ _ ht, hfg _ _ he]
  | const | load | store | move | binary | ret => rfl

end PixelPipeline.Machine.Op

namespace PixelPipeline.Ir

open Machine

/-! ## Tables of labels -/

/-- Labels that are bound stay bound. -/
def Extends (table more : List (Option Nat)) : Prop :=
  ∀ (label offset : Nat), table[label]? = some (some offset) → more[label]? = some (some offset)

namespace Extends

variable {table more : List (Option Nat)}

theorem refl (table : List (Option Nat)) : Extends table table := fun _ _ h => h

/-- A table is extended by more labels. -/
theorem append (table more : List (Option Nat)) : Extends table (table ++ more) :=
  fun label _ hbound => by
    obtain ⟨hlt, -⟩ := List.getElem?_eq_some_iff.mp hbound
    rwa [List.getElem?_append_left hlt]

/-- Extending goes on behind other labels. -/
theorem behind (front : List (Option Nat)) (h : Extends table more) :
    Extends (front ++ table) (front ++ more) := by
  intro label offset hbound
  by_cases hlt : label < front.length
  · rwa [List.getElem?_append_left hlt] at hbound ⊢
  · rw [List.getElem?_append_right (Nat.le_of_not_lt hlt)] at hbound ⊢
    exact h _ _ hbound

/-- Labels that were not bound may be bound to anything. -/
theorem of_unbound (bound : List (Option Nat)) (h : Extends table more) :
    Extends (List.replicate bound.length none ++ table) (bound ++ more) := by
  intro label offset hbound
  by_cases hlt : label < bound.length
  · rw [List.getElem?_append_left (by rwa [List.length_replicate]),
      List.getElem?_replicate_of_lt hlt] at hbound
    cases Option.some.inj hbound
  · have hle := Nat.le_of_not_lt hlt
    rw [List.getElem?_append_right (by rwa [List.length_replicate]),
      List.length_replicate] at hbound
    rw [List.getElem?_append_right hle]
    exact h _ _ hbound

end Extends

/-! ## Code with labels and code with targets -/

/-- A label stands for a target of the operation at a position. -/
inductive Names (table : List (Option Nat)) (x : Exits) (position : Nat) : Nat → Target → Prop
  /-- The label is bound to where the displacement leads. -/
  | within {label offset : Nat} {displacement : Int} (hbound : table[label]? = some (some offset))
    (hoffset : (offset : Int) = position + displacement) :
    Names table x position label (.within displacement)
  | block {label i : Nat} (h : x.blocks[i]? = some label) : Names table x position label (.block i)
  | exit {label : Nat} (h : x.continuation = some label) : Names table x position label .exit

/-- The code from a position on is the fragment, with labels for its targets. -/
inductive Spells (table : List (Option Nat)) (x : Exits) :
    Nat → List (Op Nat) → Fragment → Prop
  | nil {position : Nat} : Spells table x position [] []
  | cons {position : Nat} {op : Op Nat} {op' : Op Target} {code : List (Op Nat)}
    {fragment : Fragment} (hop : op.Alike (Names table x position) op')
    (hrest : Spells table x (position + 1) code fragment) :
    Spells table x position (op :: code) (op' :: fragment)

variable {table more : List (Option Nat)} {x : Exits} {position : Nat} {code : List (Op Nat)}
  {fragment : Fragment}

theorem Names.mono {label : Nat} {t : Target} (hextends : Extends table more)
    (h : Names table x position label t) : Names more x position label t := by
  cases h with
  | within hbound hoffset => exact .within (hextends _ _ hbound) hoffset
  | block h => exact .block h
  | exit h => exact .exit h

namespace Spells

/-- Code has as many operations as the fragment it spells. -/
theorem length_eq (h : Spells table x position code fragment) : code.length = fragment.length := by
  induction h with
  | nil => rfl
  | cons _ _ ih => rw [List.length_cons, List.length_cons, ih]

/-- The operations are the same but for their targets. -/
theorem alike (h : Spells table x position code fragment) :
    List.Forall₂ (Op.Alike fun _ _ => True) code fragment := by
  induction h with
  | nil => exact .nil
  | cons hop _ ih => exact .cons (hop.imp fun _ _ _ => trivial) ih

theorem mono (hextends : Extends table more) (h : Spells table x position code fragment) :
    Spells more x position code fragment := by
  induction h with
  | nil => exact .nil
  | cons hop _ ih => exact .cons (hop.imp fun _ _ => Names.mono hextends) ih

/-- Code behind code spells the fragments one behind the other. -/
theorem append {back : List (Op Nat)} {fragment' : Fragment}
    (hfront : Spells table x position code fragment)
    (hback : Spells table x (position + code.length) back fragment') :
    Spells table x position (code ++ back) (fragment ++ fragment') := by
  induction hfront with
  | nil => exact hback
  | @cons position op op' code fragment hop _ ih =>
      rw [List.length_cons, Nat.add_comm code.length, ← Nat.add_assoc] at hback
      exact .cons hop (ih hback)

end Spells

/-! ## Placed code -/

/-- Names become displacements, one operation after the other. -/
theorem Spells.embed_mapIdx {y : Exits} (h : Spells table x position code fragment)
    {g : Nat → Target → Int} (hg : ∀ i label t, Names table x (position + i) label t →
      Names more y (position + i) label (.within (g i t))) :
    Spells more y position code (embed (fragment.mapIdx fun i => Op.mapTargets (g i))) := by
  induction h generalizing g with
  | nil => exact .nil
  | @cons position op op' code fragment hop _ ih =>
      rw [List.mapIdx_cons, embed, List.map_cons, Op.mapTargets_mapTargets]
      refine .cons (hop.mapTargets fun label t hnames => hg 0 label t hnames) (ih ?_)
      intro i label t hnames
      have hshift : position + 1 + i = position + (i + 1) := by omega
      rw [hshift] at hnames ⊢
      exact hg (i + 1) label t hnames

/-- Code that jumps to the blocks of a routine by labels is the placed code of the routine. -/
theorem Spells.place {fragments : List Fragment} {y : Exits}
    (h : Spells table x position code fragments.flatten) (hextends : Extends table more)
    (hblock : ∀ i label, x.blocks[i]? = some label →
      table[label]? = some (some (position + blockStart fragments i)))
    (hexit : ∀ label, x.continuation = some label →
      more[label]? = some (some (position + fragments.flatten.length))) :
    Spells more y position code (embed (Ir.place fragments)) := by
  refine h.embed_mapIdx fun i label t hnames => ?_
  cases hnames with
  | within hbound hoffset => exact .within (hextends _ _ hbound) hoffset
  | @block j hlabel =>
      have hstart := blockStarts_getD 0 fragments j
      rw [Nat.zero_add, Nat.zero_add] at hstart
      refine .within (hextends _ _ (hblock j label hlabel)) ?_
      simp only [Target.displacement]
      rw [hstart]
      omega
  | exit hlabel =>
      refine .within (hexit label hlabel) ?_
      simp only [Target.displacement]
      omega

/-- Placing blocks replaces targets only. -/
theorem alike_mapIdx (h : List.Forall₂ (Op.Alike fun _ _ => True) code fragment)
    (g : Nat → Target → Int) : List.Forall₂ (Op.Alike fun _ _ => True) code
      (fragment.mapIdx fun i => Op.mapTargets (g i)) := by
  induction h generalizing g with
  | nil => exact .nil
  | cons hop _ ih =>
      rw [List.mapIdx_cons]
      exact .cons (hop.mapTargets fun _ _ _ => trivial) (ih fun i => g (i + 1))

/-! ## Assemblies -/

namespace Assembly

/-- Code was appended, and labels were created that are bound inside it or right behind it. -/
structure Grows (a b : Assembly) (code : List (Op Nat)) (offsets : List Nat) : Prop where
  code : b.code = a.code ++ code
  labels : b.labels = a.labels ++ offsets.map some
  bounds : ∀ offset ∈ offsets, a.code.length ≤ offset ∧ offset ≤ b.code.length

/-- What was appended spells the fragment, and the storage is as given. -/
def Adds (x : Exits) (a : Assembly) (fragment : Fragment) (s : Storage) (b : Assembly) : Prop :=
  b.storage = s ∧ ∃ code offsets, a.Grows b code offsets ∧
    Spells b.labels x a.code.length code fragment

variable {a b c : Assembly} {back : List (Op Nat)} {offsets offsets' : List Nat}
  {fragment' : Fragment} {s t : Storage}

theorem Grows.trans (h : a.Grows b code offsets) (k : b.Grows c back offsets') :
    a.Grows c (code ++ back) (offsets ++ offsets') where
  code := by rw [k.code, h.code, List.append_assoc]
  labels := by rw [k.labels, h.labels, List.map_append, List.append_assoc]
  bounds := by
    have hfront := congrArg List.length h.code
    have hback := congrArg List.length k.code
    rw [List.length_append] at hfront hback
    intro offset hoffset
    obtain hoffset | hoffset := List.mem_append.mp hoffset
    · have := h.bounds offset hoffset
      omega
    · have := k.bounds offset hoffset
      omega

namespace Adds

theorem refl (x : Exits) (a : Assembly) : Adds x a [] a.storage a := by
  refine ⟨rfl, [], [], ⟨?_, ?_, ?_⟩, .nil⟩
  · rw [List.append_nil]
  · rw [List.map_nil, List.append_nil]
  · exact fun _ h => absurd h List.not_mem_nil

theorem trans (h : Adds x a fragment s b) (k : Adds x b fragment' t c) :
    Adds x a (fragment ++ fragment') t c := by
  obtain ⟨-, code, offsets, grows, hspells⟩ := h
  obtain ⟨hstorage, back, offsets', grows', hspells'⟩ := k
  refine ⟨hstorage, code ++ back, offsets ++ offsets', grows.trans grows', ?_⟩
  rw [grows.code, List.length_append] at hspells'
  rw [grows'.labels] at hspells' ⊢
  exact (hspells.mono (.append _ _)).append hspells'

/-- Another storage. -/
theorem storage (s : Storage) (h : Adds x a fragment t b) :
    Adds x a fragment s { b with storage := s } := by
  obtain ⟨-, code, offsets, ⟨hcode, hlabels, hbounds⟩, hspells⟩ := h
  exact ⟨rfl, code, offsets, ⟨hcode, hlabels, hbounds⟩, hspells⟩

/-- One operation. -/
theorem emit {op : Op Nat} {op' : Op Target}
    (hop : op.Alike (Names b.labels x b.code.length) op') (h : Adds x a fragment s b) :
    Adds x a (fragment ++ [op']) s { b with code := b.code ++ [op] } := by
  refine h.trans ⟨h.1, [op], [], ⟨rfl, ?_, ?_⟩, .cons hop .nil⟩
  · rw [List.map_nil, List.append_nil]
  · exact fun _ h => absurd h List.not_mem_nil

end Adds

end Assembly

end PixelPipeline.Ir
