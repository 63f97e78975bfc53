import PixelPipeline.Proofs.Lowering.Spelling
import PixelPipeline.Proofs.Lowering.Storage

/-!
# Labels and displacements

Lowering with labels takes the same steps as lowering to displacements.  They hand out the same
storage and refuse the same modules, and what one appends spells the code that the other returns.
Each function of one is related to its counterpart by `Agree`, under which the steps of two
computations can be taken together (`Agree.seq`).

A routine's code is not settled before the label behind it is bound (`Assembly.Expands`).  The call
binds it (`Assembly.Expands.bind_continuation`), and the entry has none.  `expandRoutine_agrees`
goes by induction on the nesting of calls.
-/

namespace PixelPipeline.Ir

open Machine Assembly

/-! ## Outcomes -/

/-- Both computations fail for the same reason, or succeed with related results. -/
inductive Agree {α β : Type} (R : α → Assembly → β → Storage → Prop) :
    Except CompileFault (α × Assembly) → Except CompileFault (β × Storage) → Prop
  | error (e : CompileFault) : Agree R (.error e) (.error e)
  | ok {v : α} {a : Assembly} {w : β} {s : Storage} (h : R v a w s) :
    Agree R (.ok (v, a)) (.ok (w, s))

namespace Agree

variable {α β γ δ : Type} {R : α → Assembly → β → Storage → Prop}
  {S : γ → Assembly → δ → Storage → Prop}

/-- Computations that agree go on to agree. -/
theorem seq {a : Assembly} {s : Storage} {p : Labelled α} {q : Lower β} {k : α → Labelled γ}
    {l : β → Lower δ} (h : Agree R (p a) (q s))
    (hk : ∀ v b w t, R v b w t → Agree S (k v b) (l w t)) :
    Agree S ((p >>= k) a) ((q >>= l) s) := by
  change Agree S (p a >>= fun r => k r.1 r.2) (q s >>= fun r => l r.1 r.2)
  generalize p a = x at h ⊢
  generalize q s = y at h ⊢
  cases h with
  | error e => exact .error e
  | ok h => exact hk _ _ _ _ h

/-- The last step on the left. -/
theorem last {a : Assembly} {s : Storage} {p : Labelled α} {q : Lower β} {l : β → Lower δ}
    {S : α → Assembly → δ → Storage → Prop} (h : Agree R (p a) (q s))
    (hl : ∀ v b w t, R v b w t → Agree S (.ok (v, b)) (l w t)) :
    Agree S (p a) ((q >>= l) s) := by
  change Agree S (p a) (q s >>= fun r => l r.1 r.2)
  generalize p a = x at h ⊢
  generalize q s = y at h ⊢
  cases h with
  | error e => exact .error e
  | ok h => exact hl _ _ _ _ h

/-- What is known of the result on the right may be added. -/
theorem imp {R' : α → Assembly → β → Storage → Prop} {p : Except CompileFault (α × Assembly)}
    {q : Except CompileFault (β × Storage)} (h : Agree R p q)
    (himp : ∀ v b w t, q = .ok (w, t) → R v b w t → R' v b w t) : Agree R' p q := by
  cases h with
  | error e => exact .error e
  | ok h => exact .ok (himp _ _ _ _ rfl h)

/-- Where one computation succeeds the other does. -/
theorem exists_ok {p : Except CompileFault (α × Assembly)} {q : Except CompileFault (β × Storage)}
    (h : Agree R p q) {v : α} {a : Assembly} (hp : p = .ok (v, a)) :
    ∃ w s, q = .ok (w, s) ∧ R v a w s := by
  cases h with
  | error e => cases hp
  | ok h =>
      obtain ⟨rfl, rfl⟩ := Prod.mk.inj (Except.ok.inj hp)
      exact ⟨_, _, rfl, h⟩

/-- Both look at their states. -/
theorem get {a : Assembly} {k : Assembly → Labelled γ} {l : Storage → Lower δ}
    (h : Agree S (k a a) (l a.storage a.storage)) :
    Agree S ((get >>= k) a) ((get >>= l) a.storage) := h

/-- Storage is handed out in the same way. -/
theorem ofLower (x : Lower α) (a : Assembly) :
    Agree (fun v b w s => v = w ∧ b = { a with storage := s })
      (Labelled.ofLower x a) (x a.storage) := by
  unfold Labelled.ofLower
  cases x a.storage with
  | error e => exact .error e
  | ok r => exact .ok ⟨rfl, rfl⟩

/-- Names are looked up in the same way. -/
theorem lift (x : Except CompileFault α) (a : Assembly) (s : Storage) :
    Agree (fun v b w t => v = w ∧ b = a ∧ t = s)
      ((liftM x : Labelled α) a) ((liftM x : Lower α) s) := by
  cases x with
  | error e => exact .error e
  | ok v => exact .ok ⟨rfl, rfl, rfl⟩

end Agree

/-! ## Values and arguments -/

variable {f : Frame} {a : Assembly}

/-- A value is emitted alike. -/
theorem value_agrees (x : Exits) (v : Value) (a : Assembly) :
    Agree (fun r b w s => r = w.2 ∧ Adds x a w.1 s b)
      (Labelled.value f v a) (lowerValue f v a.storage) := by
  induction v generalizing a with
  | const v =>
      unfold Labelled.value lowerValue
      refine (Agree.ofLower allocTemp a).seq fun dst _ _ s h => ?_
      obtain ⟨rfl, rfl⟩ := h
      exact .ok ⟨rfl, ((Adds.refl x a).storage s).emit .const⟩
  | load array lane =>
      unfold Labelled.value lowerValue
      refine (Agree.lift (f.slotOf array lane) a a.storage).seq fun slot _ _ _ h => ?_
      obtain ⟨rfl, rfl, rfl⟩ := h
      refine (Agree.ofLower allocTemp _).seq fun dst _ _ s h => ?_
      obtain ⟨rfl, rfl⟩ := h
      exact .ok ⟨rfl, ((Adds.refl x _).storage s).emit .load⟩
  | param i =>
      unfold Labelled.value lowerValue
      cases f.registerOfParam i with
      | error e => exact .error e
      | ok r => exact .ok ⟨rfl, .refl x a⟩
  | var i =>
      unfold Labelled.value lowerValue
      cases f.registerOfVar i with
      | error e => exact .error e
      | ok r => exact .ok ⟨rfl, .refl x a⟩
  | binary op l r ihl ihr =>
      unfold Labelled.value lowerValue
      refine (ihl a).seq fun lhs b w s h => ?_
      obtain ⟨_, _⟩ := w
      obtain ⟨rfl, hleft⟩ := h
      obtain rfl := hleft.1
      refine (ihr b).seq fun rhs c w s h => ?_
      obtain ⟨_, _⟩ := w
      obtain ⟨rfl, hright⟩ := h
      obtain rfl := hright.1
      refine (Agree.ofLower allocTemp c).seq fun dst d _ s h => ?_
      obtain ⟨rfl, rfl⟩ := h
      exact .ok ⟨rfl, ((hleft.trans hright).storage s).emit .binary⟩

/-- An assignment is emitted alike. -/
theorem assign_agrees (x : Exits) (dst : Place) (v : Value) (a : Assembly) :
    Agree (fun _ b code s => Adds x a code s b)
      (Labelled.assign f dst v a) (lowerAssign f dst v a.storage) := by
  unfold Labelled.assign lowerAssign
  refine (value_agrees x v a).seq fun src b w s h => ?_
  obtain ⟨_, _⟩ := w
  obtain ⟨rfl, hvalue⟩ := h
  obtain rfl := hvalue.1
  cases dst with
  | lane array lane =>
      refine (Agree.lift (f.slotOf array lane) b b.storage).seq fun slot _ _ _ h => ?_
      obtain ⟨rfl, rfl, rfl⟩ := h
      exact .ok (hvalue.emit .store)
  | var i =>
      refine (Agree.lift (f.registerOfVar i) b b.storage).seq fun slot _ _ _ h => ?_
      obtain ⟨rfl, rfl, rfl⟩ := h
      exact .ok (hvalue.emit .move)

/-- An argument is emitted alike. -/
theorem argument_agrees (x : Exits) (callee : Routine) (index : Nat) (kind : ParamKind) (arg : Arg)
    (a : Assembly) :
    Agree (fun binding b w s => binding = w.2 ∧ Adds x a w.1 s b)
      (Labelled.argument f callee index kind arg a)
      (lowerArg f callee index kind arg a.storage) := by
  have hreference : ∀ array, Agree (fun binding b w s => binding = w.2 ∧ Adds x a w.1 s b)
      ((do
        let slot ← f.slotOf array (kind.lanes - 1)
        return .slot slot : Labelled Binding) a)
      ((do return ([], .slot (← f.slotOf array (kind.lanes - 1))) : Lower (Fragment × Binding))
        a.storage) := by
    intro array
    refine (Agree.lift (f.slotOf array (kind.lanes - 1)) a a.storage).seq fun slot _ _ _ h => ?_
    obtain ⟨rfl, rfl, rfl⟩ := h
    exact .ok ⟨rfl, .refl x _⟩
  cases arg with
  | array array =>
      cases kind with
      | vec4Ptr => exact hreference array
      | scalarPtr => exact hreference array
      | scalar => exact .error _
  | value v =>
      cases kind with
      | vec4Ptr => exact .error _
      | scalarPtr => exact .error _
      | scalar =>
          unfold Labelled.argument lowerArg
          refine (value_agrees x v a).seq fun temp b w s h => ?_
          obtain ⟨_, _⟩ := w
          obtain ⟨rfl, hvalue⟩ := h
          obtain rfl := hvalue.1
          refine (Agree.ofLower allocRegister b).seq fun register d _ s h => ?_
          obtain ⟨rfl, rfl⟩ := h
          exact .ok ⟨rfl, (hvalue.storage s).emit .move⟩

/-- Arguments are emitted alike. -/
theorem arguments_agree (x : Exits) (callee : Routine) (index : Nat)
    (args : List (ParamKind × Arg)) (a : Assembly) :
    Agree (fun bindings b w s => bindings = w.2 ∧ Adds x a w.1 s b)
      (Labelled.arguments f callee index args a) (lowerArgs f callee index args a.storage) := by
  induction args generalizing index a with
  | nil => exact .ok ⟨rfl, .refl x a⟩
  | cons arg rest ih =>
      obtain ⟨kind, arg⟩ := arg
      unfold Labelled.arguments lowerArgs
      refine (argument_agrees x callee index kind arg a).seq fun binding b w s h => ?_
      obtain ⟨_, _⟩ := w
      obtain ⟨rfl, hfirst⟩ := h
      obtain rfl := hfirst.1
      refine (ih (index + 1) b).seq fun bindings c w s h => ?_
      obtain ⟨_, _⟩ := w
      obtain ⟨rfl, hrest⟩ := h
      exact .ok ⟨rfl, hfirst.trans hrest⟩

/-- A block is a target in both, or missing in both. -/
theorem block_agrees (x : Exits) (hblocks : x.blocks.length = f.routine.blocks.length) (i : Nat) :
    (∃ e, x.block f i = .error e ∧ f.blockTarget i = .error e) ∨
      ∃ label, x.block f i = .ok label ∧ f.blockTarget i = .ok (.block i) ∧
        x.blocks[i]? = some label := by
  unfold Exits.block Frame.blockTarget
  by_cases hi : i < f.routine.blocks.length
  · have hget := List.getElem?_eq_getElem (l := x.blocks) (i := i) (by omega)
    rw [hget, if_pos hi]
    exact .inr ⟨_, rfl, rfl, rfl⟩
  · have hget := List.getElem?_eq_none (l := x.blocks) (i := i) (by omega)
    rw [hget, if_neg hi]
    exact .inl ⟨_, rfl, rfl⟩

/-- A terminator is emitted alike. -/
theorem terminator_agrees (x : Exits) (hblocks : x.blocks.length = f.routine.blocks.length)
    (hreturn : f.onReturn = returnBy x.continuation) (t : Terminator) (a : Assembly) :
    Agree (fun _ b code s => Adds x a code s b)
      (Labelled.terminator f x t a) (lowerTerminator f t a.storage) := by
  have hblock : ∀ i b s, Agree (fun label c target t => x.blocks[i]? = some label ∧
      target = .block i ∧ c = b ∧ t = s) ((liftM (x.block f i) : Labelled Nat) b)
      ((liftM (f.blockTarget i) : Lower Target) s) := by
    intro i b s
    obtain ⟨e, hlabel, htarget⟩ | ⟨label, hlabel, htarget, hget⟩ := block_agrees x hblocks i
    · rw [hlabel, htarget]
      exact .error e
    · rw [hlabel, htarget]
      exact .ok ⟨hget, rfl, rfl, rfl⟩
  unfold Labelled.terminator lowerTerminator
  cases t with
  | ret =>
      simp only
      rw [hreturn]
      cases hcontinuation : x.continuation with
      | none => exact .ok ((Adds.refl x a).emit .ret)
      | some label => exact .ok ((Adds.refl x a).emit (.jump (.exit hcontinuation)))
  | jump b =>
      refine (hblock b a a.storage).seq fun label _ _ _ h => ?_
      obtain ⟨hlabel, rfl, rfl, rfl⟩ := h
      exact .ok ((Adds.refl x _).emit (.jump (.block hlabel)))
  | branch op l r onTrue onFalse =>
      refine (value_agrees x l a).seq fun lhs b w s h => ?_
      obtain ⟨_, _⟩ := w
      obtain ⟨rfl, hleft⟩ := h
      obtain rfl := hleft.1
      refine (value_agrees x r b).seq fun rhs c w s h => ?_
      obtain ⟨_, _⟩ := w
      obtain ⟨rfl, hright⟩ := h
      obtain rfl := hright.1
      refine (hblock onTrue c c.storage).seq fun label _ _ _ h => ?_
      obtain ⟨hlabel, rfl, rfl, rfl⟩ := h
      refine (hblock onFalse _ _).seq fun label' _ _ _ h => ?_
      obtain ⟨hlabel', rfl, rfl, rfl⟩ := h
      exact .ok ((hleft.trans hright).emit (.branch (.block hlabel) (.block hlabel')))

/-! ## Calls -/

/-- What was appended is the placed code of a routine but for the targets, and these are as placed
once the label behind it is bound. -/
def Assembly.Expands (a : Assembly) (continuation : Option Nat) (placed : PlacedCode)
    (s : Storage) (b : Assembly) : Prop :=
  b.storage = s ∧ ∃ code offsets, a.Grows b code offsets ∧
    List.Forall₂ (Op.Alike fun _ _ => True) code placed ∧ ∀ x table, Extends b.labels table →
      (∀ label, continuation = some label → table[label]? = some (some b.code.length)) →
      Spells table x a.code.length code (embed placed)

/-- **Binding the continuation completes the code of a callee**: its exits lead behind it. -/
theorem Assembly.Expands.bind_continuation {a b : Assembly} {placed : PlacedCode} {s t : Storage}
    (h : Expands { a with storage := s, labels := a.labels ++ [none] } (some a.labels.length)
      placed t b) (x : Exits) (u : Storage) :
    Adds x a (embed placed) u
      { b with storage := u, labels := b.labels.set a.labels.length (some b.code.length) } := by
  obtain ⟨-, code, offsets, ⟨hcode, hlabels, hbounds⟩, -, hspells⟩ := h
  have hset : b.labels.set a.labels.length (some b.code.length)
      = a.labels ++ (b.code.length :: offsets).map some := by
    rw [hlabels, List.append_assoc, List.set_append_right _ _ (Nat.le_refl _), Nat.sub_self]
    rfl
  have hextends : Extends b.labels (a.labels ++ (b.code.length :: offsets).map some) := by
    rw [hlabels, List.append_assoc]
    exact .behind _ (.of_unbound [some b.code.length] (.refl _))
  have hlength := congrArg List.length hcode
  rw [List.length_append] at hlength
  rw [hset]
  refine ⟨rfl, code, b.code.length :: offsets, ⟨hcode, rfl, fun offset hoffset => ?_⟩,
    hspells x _ hextends fun label hlabel => ?_⟩
  · obtain rfl | hoffset := List.mem_cons.mp hoffset
    · exact ⟨by simp only at hlength; omega, Nat.le_refl _⟩
    · exact hbounds offset hoffset
  · obtain rfl := Option.some.inj hlabel
    rw [List.getElem?_append_right (Nat.le_refl _), Nat.sub_self]
    rfl

/-- Callees are expanded in the same way. -/
inductive LabelledExpander.Follows : LabelledExpander → Expander → Prop
  | none : Follows none none
  | some {p : Routine → List Binding → Option Nat → Labelled Unit}
    {q : Routine → List Binding → Op Target → Lower PlacedCode}
    (h : ∀ callee bindings continuation a,
      Agree (fun _ b placed s => a.Expands continuation placed s b)
        (p callee bindings continuation a) (q callee bindings (returnBy continuation) a.storage)) :
    Follows (some p) (some q)

variable {m : Module} {e : LabelledExpander} {expand : Expander}

/-- What follows a modification starts from the modified storage. -/
theorem modify_bind {α : Type} {g : Storage → Storage} {l : Unit → Lower α} {s : Storage} :
    ((modify g : Lower Unit) >>= l) s = l () (g s) := rfl

/-- A call is emitted alike, if callees are. -/
theorem call_agrees (follows : e.Follows expand) (restores : expand.Restores) (x : Exits) (id : Nat)
    (args : List Arg) (a : Assembly) :
    Agree (fun _ b code s => Adds x a code s b)
      (Labelled.call m e f id args a) (lowerCall m expand f id args a.storage) := by
  unfold Labelled.call lowerCall
  cases m.routine? id with
  | none => exact .error _
  | some callee =>
      refine .get ?_
      by_cases hpath : id ∈ a.storage.path
      · simp only [if_pos hpath]
        exact .error _
      simp only [if_neg hpath]
      cases follows with
      | none => exact .error _
      | @some p q hbody =>
          by_cases hlength : callee.params.length = args.length
          · simp only [hlength, ne_eq, not_true_eq_false, if_false]
            have hargs := (arguments_agree (f := f) x callee 0 (callee.params.zip args) a).imp
              fun _ _ _ _ hyields h => And.intro h (lowerArgs_grows hyields).path
            refine hargs.seq fun bindings b w s h => ?_
            obtain ⟨argCode, _⟩ := w
            obtain ⟨⟨rfl, hadds⟩, hargsPath⟩ := h
            obtain rfl := hadds.1
            -- the callee is expanded with the label for what follows it
            have hcallee := (hbody callee bindings (some b.labels.length)
                ⟨{ b.storage with path := id :: b.storage.path }, b.code, b.labels ++ [none]⟩).imp
              fun _ _ _ _ hyields h => And.intro h (restores rfl hyields).path
            simp only [Labelled.newLabel_bind, Labelled.modifyStorage_bind, modify_bind]
            refine hcallee.seq fun _ c placed s h => ?_
            obtain ⟨hexpands, hcalleePath⟩ := h
            obtain rfl := hexpands.1
            have hpathTail : c.storage.path.tail = a.storage.path := by
              rw [hcalleePath]
              exact hargsPath
            change Agree _
              (.ok ((), ⟨{ c.storage with
                path := c.storage.path.tail, registerTop := a.storage.registerTop }, c.code,
                c.labels.set b.labels.length (some c.code.length)⟩))
              (.ok (argCode ++ embed placed,
                { c.storage with path := a.storage.path, registerTop := a.storage.registerTop }))
            rw [hpathTail]
            exact .ok (hadds.trans (hexpands.bind_continuation x _))
          · simp only [hlength, ne_eq, not_false_eq_true, if_true]
            exact .error _

/-! ## Blocks -/

/-- A statement is emitted alike, if callees are. -/
theorem stmt_agrees (follows : e.Follows expand) (restores : expand.Restores) (x : Exits)
    (stmt : Stmt) (a : Assembly) :
    Agree (fun _ b code s => Adds x a code s b)
      (Labelled.stmt m e f stmt a) (lowerStmt m expand f stmt a.storage) := by
  cases stmt with
  | assign dst v => exact assign_agrees x dst v a
  | call id args => exact call_agrees follows restores x id args a

/-- Statements are emitted alike, if callees are. -/
theorem stmts_agree (follows : e.Follows expand) (restores : expand.Restores) (x : Exits)
    (stmts : List Stmt) (a : Assembly) :
    Agree (fun _ b code s => Adds x a code s b)
      (Labelled.stmts m e f stmts a) (lowerStmts m expand f stmts a.storage) := by
  induction stmts generalizing a with
  | nil => exact .ok (.refl x a)
  | cons stmt rest ih =>
      unfold Labelled.stmts lowerStmts
      refine (Agree.ofLower freeTemps a).seq fun _ _ _ s h => ?_
      obtain ⟨-, rfl⟩ := h
      have hfree := (Adds.refl x a).storage s
      refine (stmt_agrees follows restores x stmt _).seq fun _ b code s h => ?_
      obtain rfl := h.1
      refine (ih b).last fun _ c back s hrest => ?_
      exact .ok ((hfree.trans h).trans hrest)

/-- A block is emitted alike, if callees are. -/
theorem lowerBlock_agrees (follows : e.Follows expand) (restores : expand.Restores) {x : Exits}
    (hblocks : x.blocks.length = f.routine.blocks.length)
    (hreturn : f.onReturn = returnBy x.continuation) (index : Nat) (block : Block) (a : Assembly) :
    Agree (fun _ b code s => Adds x a code s b)
      (Labelled.block m e f x index block a) (lowerBlock m expand f index block a.storage) := by
  unfold Labelled.block lowerBlock
  refine (stmts_agree follows restores x block.stmts a).seq fun _ b front s hfront => ?_
  obtain rfl := hfront.1
  refine (Agree.ofLower freeTemps b).seq fun _ _ _ s h => ?_
  obtain ⟨-, rfl⟩ := h
  cases block.terminator with
  | none => exact .error _
  | some t =>
      refine (terminator_agrees x hblocks hreturn t _).last fun _ c back _ hback => ?_
      exact .ok ((hfront.storage s).trans hback)

/-- Every block has a start. -/
theorem length_blockStarts (start : Nat) (blocks : List Fragment) :
    (blockStarts start blocks).length = blocks.length := by
  induction blocks generalizing start with
  | nil => rfl
  | cons b rest ih => rw [blockStarts, List.length_cons, List.length_cons, ih]

/-- Blocks start inside the code that they are. -/
theorem blockStarts_bounds {start : Nat} {blocks : List Fragment} :
    ∀ offset ∈ blockStarts start blocks,
      start ≤ offset ∧ offset ≤ start + blocks.flatten.length := by
  induction blocks generalizing start with
  | nil => exact fun _ h => absurd h List.not_mem_nil
  | cons b rest ih =>
      intro offset hoffset
      rw [List.flatten_cons, List.length_append]
      obtain rfl | hoffset := List.mem_cons.mp hoffset
      · omega
      · have := ih offset hoffset
        omega

/-- Blocks were appended.  Their labels, which follow a part of the table, are bound to where they
start, and the labels created inside them follow others that were bound. -/
def Assembly.AddsBlocks (x : Exits) (front : List (Option Nat)) (inner : List Nat) (a : Assembly)
    (fragments : List Fragment) (s : Storage) (b : Assembly) : Prop :=
  b.storage = s ∧ ∃ code offsets, b.code = a.code ++ code ∧
    b.labels = front ++ ((blockStarts a.code.length fragments).map some
      ++ (inner ++ offsets).map some) ∧
    (∀ offset ∈ offsets, a.code.length ≤ offset ∧ offset ≤ b.code.length) ∧
    Spells b.labels x a.code.length code fragments.flatten

/-- One more block in front, whose label is bound when it begins. -/
theorem Assembly.AddsBlocks.cons {x : Exits} {front : List (Option Nat)}
    {inner offsets : List Nat} {a b c : Assembly} {t : Storage} {code : List (Op Nat)}
    {fragment : Fragment} {fragments : List Fragment}
    (grows : Grows ⟨t, a.code, front ++ [some a.code.length]
      ++ (List.replicate fragments.length none ++ inner.map some)⟩ b code offsets)
    (hspells : Spells b.labels x a.code.length code fragment) {s : Storage}
    (h : b.AddsBlocks x (front ++ [some a.code.length]) (inner ++ offsets) fragments s c) :
    a.AddsBlocks x front inner (fragment :: fragments) s c := by
  obtain ⟨hcode, hlabels, hbounds⟩ := grows
  simp only at hcode hlabels hbounds
  obtain ⟨hstorage, back, offsets', hcode', hlabels', hbounds', hspells'⟩ := h
  have hstart : b.code.length = a.code.length + code.length := by rw [hcode, List.length_append]
  have hend : c.code.length = b.code.length + back.length := by rw [hcode', List.length_append]
  have hextends : Extends b.labels c.labels := by
    have hfront : b.labels = front ++ [some a.code.length]
        ++ (List.replicate ((blockStarts b.code.length fragments).map some).length none
          ++ (inner ++ offsets).map some) := by
      rw [hlabels, List.length_map, length_blockStarts, List.map_append]
      simp only [List.append_assoc]
    have hback : (inner ++ offsets ++ offsets').map some
        = (inner ++ offsets).map some ++ offsets'.map some := List.map_append
    rw [hfront, hlabels', hback]
    exact .behind _ (.of_unbound _ (.append _ _))
  refine ⟨hstorage, code ++ back, offsets ++ offsets', ?_, ?_, ?_, ?_⟩
  · rw [hcode', hcode, List.append_assoc]
  · rw [hlabels', hstart, hspells.length_eq, List.append_assoc, List.append_assoc]
    rfl
  · intro offset hoffset
    obtain hoffset | hoffset := List.mem_append.mp hoffset
    · have := hbounds offset hoffset
      omega
    · have := hbounds' offset hoffset
      omega
  · rw [hstart] at hspells'
    exact (hspells.mono hextends).append hspells'

/-- The blocks still to come have their labels behind `front`, which ends with those of the blocks
before them; `inner` is where the labels created inside those are bound. -/
theorem blocks_agree (follows : e.Follows expand) (restores : expand.Restores) {x : Exits}
    (hblocks : x.blocks.length = f.routine.blocks.length)
    (hreturn : f.onReturn = returnBy x.continuation) {front : List (Option Nat)}
    {inner : List Nat} (index : Nat) {blocks : List Block} {a : Assembly}
    (hlabels : a.labels = front ++ (List.replicate blocks.length none ++ inner.map some)) :
    Agree (fun _ b fragments s => a.AddsBlocks x front inner fragments s b)
      (Labelled.blocks m e f x index ((List.range' front.length blocks.length).zip blocks) a)
      (lowerBlocks m expand f index blocks a.storage) := by
  induction blocks generalizing front inner index a with
  | nil =>
      refine .ok ⟨rfl, [], [], (List.append_nil _).symm, ?_, fun _ h => absurd h List.not_mem_nil,
        .nil⟩
      rw [List.append_nil]
      exact hlabels
  | cons block rest ih =>
      rw [List.length_cons, List.replicate_succ, List.cons_append] at hlabels
      rw [List.length_cons, List.range'_succ, List.zip_cons_cons]
      unfold Labelled.blocks lowerBlocks
      simp only [Labelled.bindLabel_bind]
      have hbound : a.labels.set front.length (some a.code.length)
          = front ++ [some a.code.length]
            ++ (List.replicate rest.length none ++ inner.map some) := by
        rw [hlabels, List.set_append_right _ _ (Nat.le_refl _), Nat.sub_self, List.set_cons_zero,
          List.append_assoc]
        rfl
      rw [hbound]
      refine (lowerBlock_agrees follows restores hblocks hreturn index block _).seq
        fun _ b fragment s h => ?_
      obtain ⟨rfl, code, offsets, grows, hspells⟩ := h
      have hlabels' : b.labels = front ++ [some a.code.length]
          ++ (List.replicate rest.length none ++ (inner ++ offsets).map some) := by
        simp only [grows.labels, List.map_append, List.append_assoc]
      have hrest := (ih (index + 1) hlabels').imp fun _ _ _ _ hyields h =>
        And.intro h (lowerBlocks_length hyields)
      rw [List.length_append, List.length_singleton] at hrest
      refine hrest.last fun _ c fragments s h => ?_
      obtain ⟨hadds, hcount⟩ := h
      rw [← hcount] at grows
      exact .ok (.cons grows hspells hadds)

/-! ## Routines -/

/-- The label of a block is bound to where the block starts. -/
theorem getElem?_blockStarts {table labels : List (Option Nat)} {offsets : List Nat} {start n : Nat}
    {fragments : List Fragment} (hcount : fragments.length = n)
    (htable : table = labels ++ ((blockStarts start fragments).map some ++ offsets.map some))
    {i label : Nat} (hlabel : (List.range' labels.length n)[i]? = some label) :
    table[label]? = some (some (start + blockStart fragments i)) := by
  obtain ⟨hi, rfl⟩ := List.getElem?_eq_some_iff.mp hlabel
  rw [List.length_range'] at hi
  have hlt : i < (blockStarts start fragments).length := by rwa [length_blockStarts, hcount]
  have hstart := blockStarts_getD start fragments i
  rw [List.getElem?_eq_getElem hlt, Option.getD_some] at hstart
  have hmapped : i < ((blockStarts start fragments).map some).length := by rwa [List.length_map]
  rw [htable, List.getElem_range', Nat.one_mul, List.getElem?_append_right (Nat.le_add_right _ _),
    Nat.add_sub_cancel_left, List.getElem?_append_left hmapped, List.getElem?_map,
    List.getElem?_eq_getElem hlt, hstart]
  rfl

/-- A routine is emitted alike, if callees are. -/
theorem routine_agrees (follows : e.Follows expand) (restores : expand.Restores) (r : Routine)
    (params : List Binding) (continuation : Option Nat) (a : Assembly) :
    Agree (fun _ b placed s => a.Expands continuation placed s b)
      (Labelled.routine m e r params continuation a)
      (lowerRoutine m expand r params (returnBy continuation) a.storage) := by
  unfold Labelled.routine lowerRoutine
  refine .get ?_
  refine (Agree.ofLower (allocMany allocSlot r.temps) a).seq fun temps _ _ s h => ?_
  obtain ⟨rfl, rfl⟩ := h
  refine (Agree.ofLower (allocMany allocRegister r.vars) _).seq fun vars _ _ s h => ?_
  obtain ⟨rfl, rfl⟩ := h
  rw [Labelled.newLabels_bind]
  have hlabels : a.labels ++ List.replicate r.blocks.length none
      = a.labels ++ (List.replicate r.blocks.length none ++ ([] : List Nat).map some) := by
    rw [List.map_nil, List.append_nil]
  have hblocks := blocks_agree (m := m) (f := ⟨r, params, temps, vars, returnBy continuation⟩)
    (x := ⟨List.range' a.labels.length r.blocks.length, continuation⟩) follows restores
    List.length_range' rfl 0
    (a := ⟨s, a.code, a.labels ++ List.replicate r.blocks.length none⟩) hlabels
  have hrest := hblocks.imp fun _ _ _ _ hyields h => And.intro h (lowerBlocks_length hyields)
  refine hrest.seq fun _ b fragments s h => ?_
  obtain ⟨⟨rfl, code, offsets, hcode, htable, hbounds, hspells⟩, hcount⟩ := h
  have hend := congrArg List.length hcode
  rw [List.length_append] at hend
  refine .ok ⟨rfl, code, blockStarts a.code.length fragments ++ offsets, ⟨hcode, ?_, ?_⟩,
    alike_mapIdx hspells.alike _, fun y table hextends hexit => hspells.place hextends ?_ ?_⟩
  · rw [List.map_append]
    exact htable
  · intro offset hoffset
    obtain hoffset | hoffset := List.mem_append.mp hoffset
    · have := blockStarts_bounds offset hoffset
      rw [← hspells.length_eq] at this
      simp only at hend this ⊢
      omega
    · exact hbounds offset hoffset
  · exact fun i label hlabel => getElem?_blockStarts hcount htable hlabel
  · intro label hlabel
    rw [← hspells.length_eq, ← List.length_append, ← hcode]
    exact hexit label hlabel

/-- **Every expansion agrees**: the code between labels is the placed code. -/
theorem expandRoutine_agrees (m : Module) (depth : Nat) (r : Routine) (params : List Binding)
    (continuation : Option Nat) (a : Assembly) :
    Agree (fun _ b placed s => a.Expands continuation placed s b)
      (Labelled.expandRoutine m depth r params continuation a)
      (expandRoutine m depth r params (returnBy continuation) a.storage) := by
  induction depth generalizing r params continuation a with
  | zero =>
      refine routine_agrees .none ?_ r params continuation a
      intro body hbody
      cases hbody
  | succ depth ih =>
      exact routine_agrees (.some ih) (expandRoutine_restores m depth) r params continuation a

end PixelPipeline.Ir
