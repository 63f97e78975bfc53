import PixelPipeline.Blend.Cache
import PixelPipeline.Proofs.Arena.Laws

/-!
# The order of use

The neighbours that entries record spell out one list of handles: `Linked`.
Taking a handle out of the list and putting it at the end change the recorded
neighbours of at most three entries, and nothing else (`Relinked`); afterwards
the neighbours spell out the list that results.
-/

namespace PixelPipeline.UnitCache

variable {γ : Type} {c c' c'' : UnitCache γ} {order before after : List UnitHandle}
  {h k : UnitHandle}

/-- The neighbours recorded under a handle. -/
def links (c : UnitCache γ) (h : UnitHandle) : Option (Option UnitHandle × Option UnitHandle) :=
  (c.entries.get? h).map fun e => (e.prev, e.next)

/-- What is cached under a handle: fingerprint, state and unit. -/
def content (c : UnitCache γ) (h : UnitHandle) : Option (UInt32 × PipelineState × BlendUnit) :=
  (c.entries.get? h).map fun e => (e.hash, e.state, e.unit)

/-- There is something cached under the handles that are held. -/
theorem isSome_content (c : UnitCache γ) (h : UnitHandle) : (c.content h).isSome = c.holds h :=
  Option.isSome_map

/-! ## What relinking keeps -/

/-- The caches differ in the order of use only. -/
structure Relinked (c c' : UnitCache γ) : Prop where
  compiler : c'.compiler = c.compiler
  buckets : c'.buckets = c.buckets
  capacity : c'.capacity = c.capacity
  stats : c'.stats = c.stats
  content : ∀ h, c'.content h = c.content h
  sound : c.entries.Sound → c'.entries.Sound
  issued : ∀ h, c.entries.Issued h → c'.entries.Issued h
  shape : c'.entries.shape = c.entries.shape

theorem Relinked.refl (c : UnitCache γ) : c.Relinked c :=
  ⟨rfl, rfl, rfl, rfl, fun _ => rfl, id, fun _ => id, rfl⟩

theorem Relinked.trans (hfirst : c.Relinked c') (hsecond : c'.Relinked c'') : c.Relinked c'' where
  compiler := hsecond.compiler.trans hfirst.compiler
  buckets := hsecond.buckets.trans hfirst.buckets
  capacity := hsecond.capacity.trans hfirst.capacity
  stats := hsecond.stats.trans hfirst.stats
  content h := (hsecond.content h).trans (hfirst.content h)
  sound hsound := hsecond.sound (hfirst.sound hsound)
  issued h hissued := hsecond.issued h (hfirst.issued h hissued)
  shape := hsecond.shape.trans hfirst.shape

/-- Relinking leaves the handles that are held. -/
theorem Relinked.holds (hrelinked : c.Relinked c') (h : UnitHandle) : c'.holds h = c.holds h := by
  rw [← isSome_content, ← isSome_content, hrelinked.content]

/-- A change that keeps fingerprint, state and unit relinks. -/
theorem relinked_modifyEntry (c : UnitCache γ) (h : UnitHandle) {f : CacheEntry → CacheEntry}
    (hf : ∀ e, (f e).hash = e.hash ∧ (f e).state = e.state ∧ (f e).unit = e.unit) :
    c.Relinked (c.modifyEntry h f) where
  compiler := rfl
  buckets := rfl
  capacity := rfl
  stats := rfl
  content k := by
    unfold UnitCache.content modifyEntry
    rw [Arena.get?_modify]
    by_cases hk : k = h
    · subst hk
      rw [if_pos rfl]
      cases c.entries.get? k with
      | none => rfl
      | some e =>
        obtain ⟨hhash, hstate, hunit⟩ := hf e
        simp [hhash, hstate, hunit]
    · rw [if_neg hk]
  sound hsound := hsound.modify h f
  issued k hissued := hissued.modify h f
  shape := c.entries.shape_modify h f

/-- Recording a next neighbour relinks. -/
theorem relinked_linkForward (c : UnitCache γ) (prev next : Option UnitHandle) :
    c.Relinked (c.linkForward prev next) := by
  unfold linkForward
  cases prev.filter c.holds with
  | none => exact ⟨rfl, rfl, rfl, rfl, fun _ => rfl, id, fun _ => id, rfl⟩
  | some p => exact c.relinked_modifyEntry p fun _ => ⟨rfl, rfl, rfl⟩

/-- Recording a previous neighbour relinks. -/
theorem relinked_linkBackward (c : UnitCache γ) (prev next : Option UnitHandle) :
    c.Relinked (c.linkBackward prev next) := by
  unfold linkBackward
  cases next.filter c.holds with
  | none => exact ⟨rfl, rfl, rfl, rfl, fun _ => rfl, id, fun _ => id, rfl⟩
  | some n => exact c.relinked_modifyEntry n fun _ => ⟨rfl, rfl, rfl⟩

/-- Taking a handle out of the list relinks. -/
theorem relinked_unlink (c : UnitCache γ) (h : UnitHandle) : c.Relinked (c.unlink h) := by
  unfold unlink
  cases c.entries.get? h with
  | none => exact .refl c
  | some e =>
    have hmodify := c.relinked_modifyEntry h (f := fun e => { e with prev := none, next := none })
      fun _ => ⟨rfl, rfl, rfl⟩
    exact (hmodify.trans (relinked_linkForward ..)).trans (relinked_linkBackward ..)

/-- Putting a handle at the end relinks. -/
theorem relinked_pushBack (c : UnitCache γ) (h : UnitHandle) : c.Relinked (c.pushBack h) := by
  unfold pushBack
  have hmodify := c.relinked_modifyEntry h (f := fun e => { e with prev := c.tail, next := none })
    fun _ => ⟨rfl, rfl, rfl⟩
  have hlinked := hmodify.trans (relinked_linkForward _ c.tail (some h))
  exact ⟨hlinked.compiler, hlinked.buckets, hlinked.capacity, hlinked.stats, hlinked.content,
    hlinked.sound, hlinked.issued, hlinked.shape⟩

/-- Moving a handle to the end relinks. -/
theorem relinked_touch (c : UnitCache γ) (h : UnitHandle) : c.Relinked (c.touch h) := by
  unfold touch
  by_cases htail : c.tail = some h
  · rw [if_pos htail]
    exact .refl c
  · rw [if_neg htail]
    exact (c.relinked_unlink h).trans (relinked_pushBack ..)

/-! ## What linking does -/

/-- A change of an entry shows in its own neighbours only. -/
theorem links_modifyEntry (c : UnitCache γ) (h : UnitHandle) (f : CacheEntry → CacheEntry)
    (k : UnitHandle) :
    (c.modifyEntry h f).links k
      = if k = h then (c.entries.get? k).map fun e => ((f e).prev, (f e).next) else c.links k := by
  unfold links modifyEntry
  rw [Arena.get?_modify]
  by_cases hk : k = h
  · subst hk
    rw [if_pos rfl, if_pos rfl, Option.map_map]
    rfl
  · rw [if_neg hk, if_neg hk]

variable {prev next : Option UnitHandle}

/-- A neighbour that is held is not skipped. -/
theorem filter_holds (hlive : ∀ p, prev = some p → c.holds p = true) :
    prev.filter c.holds = prev := by
  cases prev with
  | none => rfl
  | some p => exact Option.filter_some_pos (hlive p rfl)

/-- Linking forward sets the next neighbour of the handle before. -/
theorem links_linkForward (hlive : ∀ p, prev = some p → c.holds p = true) (k : UnitHandle) :
    (c.linkForward prev next).links k
      = if prev = some k then (c.links k).map fun l => (l.1, next) else c.links k := by
  unfold linkForward
  rw [filter_holds hlive]
  cases prev with
  | none => rfl
  | some p =>
    simp only [links_modifyEntry, Option.some.injEq, eq_comm (a := k)]
    unfold links
    rw [Option.map_map]
    rfl

/-- With no handle before, linking forward sets the head. -/
theorem head_linkForward (hlive : ∀ p, prev = some p → c.holds p = true) :
    (c.linkForward prev next).head = if prev = none then next else c.head := by
  unfold linkForward
  rw [filter_holds hlive]
  cases prev with
  | none => rfl
  | some p => rfl

/-- Linking forward leaves the tail. -/
theorem tail_linkForward : (c.linkForward prev next).tail = c.tail := by
  unfold linkForward
  cases prev.filter c.holds with
  | none => rfl
  | some p => rfl

/-- Linking backward sets the previous neighbour of the handle after. -/
theorem links_linkBackward (hlive : ∀ n, next = some n → c.holds n = true) (k : UnitHandle) :
    (c.linkBackward prev next).links k
      = if next = some k then (c.links k).map fun l => (prev, l.2) else c.links k := by
  unfold linkBackward
  rw [filter_holds hlive]
  cases next with
  | none => rfl
  | some n =>
    simp only [links_modifyEntry, Option.some.injEq, eq_comm (a := k)]
    unfold links
    rw [Option.map_map]
    rfl

/-- With no handle after, linking backward sets the tail. -/
theorem tail_linkBackward (hlive : ∀ n, next = some n → c.holds n = true) :
    (c.linkBackward prev next).tail = if next = none then prev else c.tail := by
  unfold linkBackward
  rw [filter_holds hlive]
  cases next with
  | none => rfl
  | some n => rfl

/-- Linking backward leaves the head. -/
theorem head_linkBackward : (c.linkBackward prev next).head = c.head := by
  unfold linkBackward
  cases next.filter c.holds with
  | none => rfl
  | some n => rfl

/-! ## The list that the neighbours spell out -/

/-- The neighbours spell out a list without repetitions, from the least to the
most recently used. -/
structure Linked (c : UnitCache γ) (order : List UnitHandle) : Prop where
  nodup : order.Nodup
  head : c.head = order.head?
  tail : c.tail = order.getLast?
  links : ∀ before h after, order = before ++ h :: after →
    c.links h = some (before.getLast?, after.head?)

/-- A handle with neighbours is held. -/
theorem holds_of_links {l : Option UnitHandle × Option UnitHandle} (hlinks : c.links h = some l) :
    c.holds h = true := by
  unfold UnitCache.links at hlinks
  unfold holds
  obtain ⟨e, hget, -⟩ := Option.map_eq_some_iff.mp hlinks
  rw [hget]
  rfl

/-- The handles of the list are held. -/
theorem Linked.holds (hlinked : c.Linked order) (hmem : h ∈ order) : c.holds h = true := by
  obtain ⟨before, after, hsplit⟩ := List.append_of_mem hmem
  exact holds_of_links (hlinked.links before h after hsplit)

/-- The entry without neighbours; the first step of taking it out. -/
def detach (c : UnitCache γ) (h : UnitHandle) : UnitCache γ :=
  c.modifyEntry h fun e => { e with prev := none, next := none }

/-- Detaching an entry relinks. -/
theorem relinked_detach (c : UnitCache γ) (h : UnitHandle) : c.Relinked (c.detach h) :=
  c.relinked_modifyEntry h fun _ => ⟨rfl, rfl, rfl⟩

/-- A member of two joined lists stands in the first or in the second. -/
theorem append_eq_append_cons {b a : List UnitHandle} (hsplit : before ++ after = b ++ k :: a) :
    (∃ m, before = b ++ k :: m ∧ a = m ++ after) ∨ ∃ m, b = before ++ m ∧ after = m ++ k :: a := by
  rcases List.append_eq_append_iff.mp hsplit with ⟨m, hb, hafter⟩ | ⟨m, hbefore, ha⟩
  · exact .inr ⟨m, hb, hafter⟩
  · cases m with
    | nil => exact .inr ⟨[], by simpa using hbefore.symm, ha.symm⟩
    | cons x rest =>
      have heq := List.cons.inj ha
      exact .inl ⟨rest, by rw [heq.1]; exact hbefore, heq.2⟩

/-- In a list without repetitions, a member that others follow is not the
last. -/
theorem getLast?_ne_some {x : UnitHandle} {rest : List UnitHandle}
    (hnodup : (before ++ k :: x :: rest).Nodup) :
    (before ++ k :: x :: rest).getLast? ≠ some k := by
  intro hlast
  have hmem : k ∈ x :: rest := by
    rw [List.getLast?_append, List.getLast?_cons_cons] at hlast
    exact List.mem_of_getLast? (by simpa using hlast)
  exact (List.nodup_cons.mp hnodup.of_append_right).1 hmem

section

variable (hlinked : c.Linked (before ++ h :: after))
include hlinked

/-- A handle of the list is there once. -/
theorem Linked.not_mem_rest : h ∉ before ++ after := by
  have hperm : (before ++ h :: after).Perm (h :: (before ++ after)) := List.perm_middle
  exact (List.nodup_cons.mp (hperm.nodup_iff.mp hlinked.nodup)).1

/-- Taking a handle out detaches it and links what was before it with what was after it. -/
theorem Linked.unlink_eq :
    c.unlink h = ((c.detach h).linkForward before.getLast? after.head?).linkBackward
      before.getLast? after.head? := by
  have hlinks := hlinked.links before h after rfl
  unfold UnitCache.links at hlinks
  obtain ⟨e, hget, heq⟩ := Option.map_eq_some_iff.mp hlinks
  have hprev : e.prev = before.getLast? := congrArg Prod.fst heq
  have hnext : e.next = after.head? := congrArg Prod.snd heq
  unfold unlink
  rw [hget]
  simp only [hprev, hnext]
  rfl

/-- The handle before is held when the entry is detached. -/
theorem Linked.holds_before (p : UnitHandle) (hp : before.getLast? = some p) :
    (c.detach h).holds p = true := by
  rw [(c.relinked_detach h).holds]
  exact hlinked.holds (List.mem_append_left _ (List.mem_of_getLast? hp))

/-- The handle after is held when the handle before was linked. -/
theorem Linked.holds_after (n : UnitHandle) (hn : after.head? = some n) :
    ((c.detach h).linkForward before.getLast? after.head?).holds n = true := by
  rw [(relinked_linkForward ..).holds, (c.relinked_detach h).holds]
  exact hlinked.holds (List.mem_append_right _ (List.mem_cons_of_mem _ (List.mem_of_head? hn)))

/-- Taking a handle out changes the neighbours next to it and no others. -/
theorem Linked.links_unlink (hk : k ≠ h) :
    (c.unlink h).links k
      = if before.getLast? = some k then (c.links k).map fun l => (l.1, after.head?)
        else if after.head? = some k then (c.links k).map fun l => (before.getLast?, l.2)
        else c.links k := by
  have hdetach : (c.detach h).links k = c.links k := by
    unfold detach
    rw [links_modifyEntry, if_neg hk]
  rw [hlinked.unlink_eq, links_linkBackward hlinked.holds_after,
    links_linkForward hlinked.holds_before, hdetach]
  by_cases hlast : before.getLast? = some k
  · have hfirst : after.head? ≠ some k := by
      intro hfirst
      have hmem := List.mem_of_getLast? hlast
      have hmem' := List.mem_of_head? hfirst
      exact List.disjoint_of_nodup_append hlinked.nodup hmem (List.mem_cons_of_mem _ hmem')
    rw [if_pos hlast, if_neg hfirst, if_pos hlast]
  · rw [if_neg hlast, if_neg hlast]

/-- The head is the first of what is left. -/
theorem Linked.head_unlink : (c.unlink h).head = (before ++ after).head? := by
  have hhead : (c.detach h).head = (before ++ h :: after).head? := hlinked.head
  rw [hlinked.unlink_eq, head_linkBackward, head_linkForward hlinked.holds_before, hhead]
  cases before with
  | nil => rfl
  | cons b rest => simp

/-- The tail is the last of what is left. -/
theorem Linked.tail_unlink : (c.unlink h).tail = (before ++ after).getLast? := by
  have htail : (c.detach h).tail = (before ++ h :: after).getLast? := hlinked.tail
  rw [hlinked.unlink_eq, tail_linkBackward hlinked.holds_after, tail_linkForward, htail]
  cases after with
  | nil => simp
  | cons b rest => simp [List.getLast?_append, List.getLast?_cons_cons]

/-- Taking a handle out of the list. -/
theorem Linked.unlink : (c.unlink h).Linked (before ++ after) := by
  have hnodup := hlinked.nodup
  have hnodup' : (before ++ after).Nodup :=
    ((List.sublist_cons_self h after).append_left before).nodup hnodup
  refine ⟨hnodup', hlinked.head_unlink, hlinked.tail_unlink, fun b k a hsplit => ?_⟩
  have hk : k ≠ h := by
    intro heq
    apply hlinked.not_mem_rest
    rw [hsplit, heq]
    simp
  rw [hlinked.links_unlink hk]
  rcases append_eq_append_cons hsplit with ⟨m, hbefore, ha⟩ | ⟨m, hb, hafter⟩
  · have hlinks := hlinked.links b k (m ++ h :: after) (by rw [hbefore]; simp)
    have hfirst : after.head? ≠ some k := by
      intro hfirst
      have hmem : k ∈ before := by simp [hbefore]
      exact List.disjoint_of_nodup_append hnodup' hmem (List.mem_of_head? hfirst)
    rw [if_neg hfirst, hlinks, ha]
    cases m with
    | nil => simp [hbefore]
    | cons x rest =>
      have hlast : before.getLast? ≠ some k := by
        have hnodupBefore : before.Nodup := hnodup'.of_append_left
        rw [hbefore] at hnodupBefore ⊢
        exact getLast?_ne_some hnodupBefore
      rw [if_neg hlast]
      simp
  · have hlinks := hlinked.links (before ++ h :: m) k a (by rw [hafter]; simp)
    have hlast : before.getLast? ≠ some k := by
      intro hlast
      have hmem : k ∈ after := by simp [hafter]
      exact List.disjoint_of_nodup_append hnodup' (List.mem_of_getLast? hlast) hmem
    rw [if_neg hlast, hlinks, hb]
    cases m with
    | nil => simp [hafter]
    | cons x rest =>
      have hfirst : after.head? ≠ some k := by
        intro hfirst
        have hnodupAfter : after.Nodup := hnodup'.of_append_right
        rw [hafter, List.cons_append, List.head?_cons, Option.some.injEq] at hfirst
        rw [hafter, hfirst] at hnodupAfter
        simp at hnodupAfter
      rw [if_neg hfirst]
      simp [List.getLast?_append, List.getLast?_cons_cons]

end

/-- Putting a handle at the end of the list. -/
theorem Linked.pushBack (hlinked : c.Linked order) (hnew : h ∉ order) (hlive : c.holds h = true) :
    (c.pushBack h).Linked (order ++ [h]) := by
  let placed := c.modifyEntry h fun e => { e with prev := c.tail, next := none }
  have hrelinked : c.Relinked placed := c.relinked_modifyEntry h fun _ => ⟨rfl, rfl, rfl⟩
  have hlast : ∀ p, c.tail = some p → placed.holds p = true := by
    intro p hp
    rw [hlinked.tail] at hp
    rw [hrelinked.holds]
    exact hlinked.holds (List.mem_of_getLast? hp)
  have hlinks : ∀ k, (c.pushBack h).links k = (placed.linkForward c.tail (some h)).links k :=
    fun _ => rfl
  have hhead : placed.head = order.head? := hlinked.head
  refine ⟨List.nodup_append.mpr ⟨hlinked.nodup, List.nodup_singleton h, ?_⟩, ?_, ?_, ?_⟩
  · intro k hk j hj heq
    rw [List.mem_singleton.mp hj] at heq
    exact hnew (heq ▸ hk)
  · change (placed.linkForward c.tail (some h)).head = _
    rw [head_linkForward hlast, hhead, hlinked.tail]
    cases order with
    | nil => rfl
    | cons x rest => simp
  · simp [UnitCache.pushBack]
  · intro b k a hsplit
    rw [hlinks, links_linkForward hlast, hlinked.tail]
    rcases append_eq_append_cons hsplit with ⟨m, horder, ha⟩ | ⟨m, hb, hafter⟩
    · have hk : k ≠ h := by
        intro heq
        exact hnew (by rw [horder, heq]; simp)
      have hold := hlinked.links b k m horder
      have hplaced : placed.links k = c.links k := by
        rw [links_modifyEntry, if_neg hk]
      rw [hplaced, hold, ha]
      cases m with
      | nil => simp [horder]
      | cons x rest =>
        have htail : order.getLast? ≠ some k := by
          have hnodup := hlinked.nodup
          rw [horder] at hnodup ⊢
          exact getLast?_ne_some hnodup
        rw [if_neg htail]
        simp
    · obtain ⟨rfl, hk, rfl⟩ : m = [] ∧ h = k ∧ a = [] := by
        cases m with
        | nil => simpa using hafter
        | cons x rest => simp at hafter
      subst hk
      have htail : order.getLast? ≠ some h := fun htail => hnew (List.mem_of_getLast? htail)
      have hplaced : placed.links h = some (c.tail, none) := by
        rw [links_modifyEntry, if_pos rfl]
        obtain ⟨e, hget⟩ := Option.isSome_iff_exists.mp hlive
        rw [hget]
        rfl
      rw [if_neg htail, hplaced, hlinked.tail, hb]
      simp

/-- Marking a handle as the most recently used. -/
theorem Linked.touch (hlinked : c.Linked (before ++ h :: after)) :
    (c.touch h).Linked (before ++ after ++ [h]) := by
  unfold UnitCache.touch
  by_cases htail : c.tail = some h
  · rw [if_pos htail]
    rw [hlinked.tail] at htail
    cases after with
    | nil => simpa using hlinked
    | cons x rest => exact (getLast?_ne_some hlinked.nodup htail).elim
  · rw [if_neg htail]
    have hlive : (c.unlink h).holds h = true := by
      rw [(c.relinked_unlink h).holds]
      exact hlinked.holds (by simp)
    exact hlinked.unlink.pushBack hlinked.not_mem_rest hlive

/-! ## Walking the list -/

/-- Walking from a handle of the list gives the rest of it, with enough fuel. -/
theorem Linked.chainFrom (hlinked : c.Linked order) (hsplit : order = before ++ after)
    {fuel : Nat} (hfuel : after.length < fuel) : c.chainFrom fuel after.head? = after := by
  induction after generalizing before fuel with
  | nil =>
    cases fuel with
    | zero => exact (Nat.not_lt_zero _ hfuel).elim
    | succ fuel => rfl
  | cons k rest ih =>
    cases fuel with
    | zero => exact (Nat.not_lt_zero _ hfuel).elim
    | succ fuel =>
      have hlinks := hlinked.links before k rest hsplit
      unfold UnitCache.links at hlinks
      obtain ⟨e, hget, heq⟩ := Option.map_eq_some_iff.mp hlinks
      have hnext : (c.entries.get? k).bind CacheEntry.next = rest.head? := by
        rw [hget]
        exact congrArg Prod.snd heq
      rw [List.head?_cons, UnitCache.chainFrom, hnext]
      congr 1
      have hshift : order = (before ++ [k]) ++ rest := by
        rw [hsplit, List.append_assoc]
        rfl
      exact ih hshift (Nat.lt_of_succ_lt_succ hfuel)

/-- Following the list from its start enumerates it. -/
theorem Linked.recency (hlinked : c.Linked order) (hsize : c.size = order.length) :
    c.recency = order := by
  unfold UnitCache.recency
  rw [hlinked.head, hsize]
  have hsplit : order = [] ++ order := rfl
  exact hlinked.chainFrom hsplit (Nat.lt_succ_self _)

end PixelPipeline.UnitCache
