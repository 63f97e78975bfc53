import PixelPipeline.Proofs.Blend.CacheRuns

/-!
# The integrity of the cache

A cache keeps every entry three times: in the arena, in a bucket, and as a
member of a doubly linked list.  `Intact` says of the cache alone, without the
list that it stands for, how the three agree:

* following `next` from the head meets every entry once and stops at the tail,
  and `prev` leads the same way back;
* every entry is in the bucket of its fingerprint, once, and nothing else is in
  any bucket;
* no state is cached twice, fingerprints are those of the states, and there are
  no more entries than the capacity allows.

A cache that represents a list is intact (`Represents.intact`), and no call
changes the capacity or the number of buckets (`dimensions_call`).  Hence every
run of calls leaves the cache intact (`runCalls_intact`).
-/

namespace PixelPipeline.UnitCache

variable {γ : Type} {c : UnitCache γ} {l : Lru γ} {order before after : List UnitHandle}
  {h k : UnitHandle} {digest : PipelineState → UInt32}

/-- The handle after a handle in the order of use. -/
def next? (c : UnitCache γ) (h : UnitHandle) : Option UnitHandle :=
  (c.entries.get? h).bind CacheEntry.next

/-- The handle before a handle in the order of use. -/
def prev? (c : UnitCache γ) (h : UnitHandle) : Option UnitHandle :=
  (c.entries.get? h).bind CacheEntry.prev

/-- Following `next` from a start meets these entries, in this order, and then
stops. -/
inductive Follows (c : UnitCache γ) : Option UnitHandle → List UnitHandle → Prop
  | stop : Follows c none []
  | step {h : UnitHandle} {e : CacheEntry} {rest : List UnitHandle}
      (hget : c.entries.get? h = some e) (hrest : Follows c e.next rest) :
      Follows c (some h) (h :: rest)

/-- Arena, buckets and order of use agree. -/
structure Intact (digest : PipelineState → UInt32) (c : UnitCache γ) : Prop where
  /-- The list visits every entry once and ends at the tail. -/
  order : ∃ order, c.Follows c.head order ∧ order.Nodup ∧ (∀ h, h ∈ order ↔ c.holds h = true) ∧
    c.tail = order.getLast?
  inverse : ∀ h k, c.next? h = some k ↔ c.prev? k = some h
  head : ∀ h, c.head = some h → c.prev? h = none
  tail : ∀ h, c.tail = some h → c.next? h = none
  /-- All buckets together hold every cached handle once and no other. -/
  once : ∀ h, c.buckets.toList.flatten.count h = if c.holds h then 1 else 0
  placed : ∀ h e, c.entries.get? h = some e → h ∈ c.bucket e.hash
  hash : ∀ h e, c.entries.get? h = some e → e.hash = digest e.state
  distinct : ∀ h k e f, c.entries.get? h = some e → c.entries.get? k = some f →
    e.state = f.state → h = k
  bounded : c.size ≤ c.capacity

/-- A handle that resolves is held. -/
theorem holds_of_get? {e : CacheEntry} (hget : c.entries.get? h = some e) : c.holds h = true := by
  unfold UnitCache.holds
  rw [hget]
  rfl

/-! ## The order of use -/

/-- The neighbours of a member are those next to it in the list. -/
theorem Linked.neighbours (hlinked : c.Linked (before ++ h :: after)) :
    c.prev? h = before.getLast? ∧ c.next? h = after.head? := by
  have hlinks := hlinked.links before h after rfl
  unfold UnitCache.links at hlinks
  obtain ⟨e, hget, heq⟩ := Option.map_eq_some_iff.mp hlinks
  unfold prev? next?
  rw [hget]
  exact ⟨congrArg Prod.fst heq, congrArg Prod.snd heq⟩

/-- The rest of the list is what `next` leads through. -/
theorem Linked.follows (hlinked : c.Linked order) (hsplit : order = before ++ after) :
    c.Follows after.head? after := by
  induction after generalizing before with
  | nil => exact .stop
  | cons k rest ih =>
    have hlinks := hlinked.links before k rest hsplit
    unfold UnitCache.links at hlinks
    obtain ⟨e, hget, heq⟩ := Option.map_eq_some_iff.mp hlinks
    have hnext : e.next = rest.head? := congrArg Prod.snd heq
    apply Follows.step hget
    rw [hnext]
    have hshift : order = (before ++ [k]) ++ rest := by
      rw [hsplit, List.append_assoc]
      rfl
    exact ih hshift

section

variable (hlinked : c.Linked order) (hlive : ∀ h, h ∈ order ↔ c.holds h = true)
include hlinked hlive

/-- The next handle leads back. -/
theorem Linked.prev?_of_next? (hnext : c.next? h = some k) : c.prev? k = some h := by
  obtain ⟨e, hget, -⟩ := Option.bind_eq_some_iff.mp hnext
  have hmem : h ∈ order := (hlive h).mpr (holds_of_get? hget)
  obtain ⟨before, after, hsplit⟩ := List.append_of_mem hmem
  subst hsplit
  rw [hlinked.neighbours.2] at hnext
  cases after with
  | nil => cases hnext
  | cons k' rest =>
    obtain rfl := Option.some.inj hnext
    have hshift : before ++ h :: k' :: rest = (before ++ [h]) ++ k' :: rest := by simp
    rw [hshift] at hlinked
    rw [hlinked.neighbours.1, List.getLast?_concat]

/-- The previous handle leads on. -/
theorem Linked.next?_of_prev? (hprev : c.prev? k = some h) : c.next? h = some k := by
  obtain ⟨e, hget, -⟩ := Option.bind_eq_some_iff.mp hprev
  have hmem : k ∈ order := (hlive k).mpr (holds_of_get? hget)
  obtain ⟨before, after, hsplit⟩ := List.append_of_mem hmem
  subst hsplit
  rw [hlinked.neighbours.1] at hprev
  rcases List.eq_nil_or_concat before with hnil | ⟨front, last, hconcat⟩
  · rw [hnil] at hprev
    cases hprev
  · rw [List.concat_eq_append] at hconcat
    subst hconcat
    rw [List.getLast?_concat] at hprev
    obtain rfl := Option.some.inj hprev
    have hshift : (front ++ [last]) ++ k :: after = front ++ last :: k :: after := by simp
    rw [hshift] at hlinked
    rw [hlinked.neighbours.2, List.head?_cons]

end

/-- Nothing is before the head. -/
theorem Linked.prev?_head (hlinked : c.Linked order) (hhead : c.head = some h) :
    c.prev? h = none := by
  rw [hlinked.head] at hhead
  cases order with
  | nil => cases hhead
  | cons k rest =>
    obtain rfl := Option.some.inj hhead
    have hstart : c.Linked ([] ++ k :: rest) := hlinked
    exact hstart.neighbours.1

/-- Nothing is after the tail. -/
theorem Linked.next?_tail (hlinked : c.Linked order) (htail : c.tail = some h) :
    c.next? h = none := by
  rw [hlinked.tail] at htail
  rcases List.eq_nil_or_concat order with hnil | ⟨front, last, hconcat⟩
  · rw [hnil] at htail
    cases htail
  · rw [List.concat_eq_append] at hconcat
    subst hconcat
    rw [List.getLast?_concat] at htail
    obtain rfl := Option.some.inj htail
    exact hlinked.neighbours.2

/-! ## The buckets -/

/-- A handle is in one bucket only: that of its fingerprint. -/
theorem Bucketed.nodup_flatten (hbucketed : c.Bucketed) : c.buckets.toList.flatten.Nodup := by
  rw [List.nodup_flatten]
  constructor
  · intro bucket hmem
    obtain ⟨i, hi⟩ := List.getElem?_of_mem hmem
    rw [Array.getElem?_toList] at hi
    exact hbucketed.nodup i bucket hi
  · rw [List.pairwise_iff_getElem]
    intro i j hi hj hij h hfirst hsecond
    have hat : ∀ n (hn : n < c.buckets.toList.length),
      c.buckets[n]? = some c.buckets.toList[n] := by
      intro n hn
      rw [← Array.getElem?_toList]
      exact List.getElem?_eq_getElem hn
    obtain ⟨hash, s, u, hcontent, hindex⟩ := (hbucketed.mem i _ (hat i hi) h).mp hfirst
    obtain ⟨hash', s', u', hcontent', hindex'⟩ := (hbucketed.mem j _ (hat j hj) h).mp hsecond
    rw [hcontent] at hcontent'
    cases hcontent'
    omega

/-- The buckets together hold the handles that are held. -/
theorem Bucketed.mem_flatten (hbucketed : c.Bucketed) (h : UnitHandle) :
    h ∈ c.buckets.toList.flatten ↔ c.holds h = true := by
  rw [← isSome_content]
  constructor
  · intro hmem
    obtain ⟨bucket, hbucket, hmem⟩ := List.mem_flatten.mp hmem
    obtain ⟨i, hi⟩ := List.getElem?_of_mem hbucket
    rw [Array.getElem?_toList] at hi
    obtain ⟨hash, s, u, hcontent, -⟩ := (hbucketed.mem i bucket hi h).mp hmem
    rw [hcontent]
    rfl
  · intro hlive
    obtain ⟨⟨hash, s, u⟩, hcontent⟩ := Option.isSome_iff_exists.mp hlive
    have hsome := Array.getElem?_eq_getElem (hbucketed.bucketIndex_lt hash)
    apply List.mem_flatten.mpr
    refine ⟨_, Array.getElem_mem_toList _, (hbucketed.mem _ _ hsome h).mpr ?_⟩
    exact ⟨hash, s, u, hcontent, rfl⟩

/-- The buckets together hold every handle at most once. -/
theorem Bucketed.count_flatten (hbucketed : c.Bucketed) (h : UnitHandle) :
    c.buckets.toList.flatten.count h = if c.holds h then 1 else 0 := by
  by_cases hlive : c.holds h = true
  · rw [if_pos hlive]
    exact List.count_eq_one_of_mem hbucketed.nodup_flatten ((hbucketed.mem_flatten h).mpr hlive)
  · rw [if_neg hlive]
    apply List.count_eq_zero.mpr
    intro hmem
    exact hlive ((hbucketed.mem_flatten h).mp hmem)

/-! ## Integrity -/

/-- What is cached under a handle that resolves. -/
theorem content_of_get? {e : CacheEntry} (hget : c.entries.get? h = some e) :
    c.content h = some (e.hash, e.state, e.unit) := by
  unfold UnitCache.content
  rw [hget]
  rfl

/-- An entry of the arena is an entry of the list. -/
theorem Represents.listed (hrep : c.Represents digest l) {e : CacheEntry}
    (hget : c.entries.get? h = some e) :
    ∃ f, l.under? h = some f ∧ e.hash = digest f.state ∧ e.state = f.state := by
  have hcontent := hrep.content h
  rw [content_of_get? hget] at hcontent
  obtain ⟨f, hunder, heq⟩ := Option.map_eq_some_iff.mp hcontent.symm
  simp only [Prod.mk.injEq] at heq
  exact ⟨f, hunder, heq.1.symm, heq.2.1.symm⟩

/-- **A cache that represents a list of distinct states is intact.** -/
theorem Represents.intact (hrep : c.Represents digest l) (hdistinct : l.Distinct) :
    c.Intact digest where
  order := by
    have hwhole : l.handles = [] ++ l.handles := rfl
    have hfollows := hrep.linked.follows hwhole
    rw [← hrep.linked.head] at hfollows
    exact ⟨l.handles, hfollows, hrep.linked.nodup, fun h => (hrep.holds h).symm, hrep.linked.tail⟩
  inverse h k := by
    have hlive : ∀ h, h ∈ l.handles ↔ c.holds h = true := fun h => (hrep.holds h).symm
    constructor
    · intro hnext
      exact hrep.linked.prev?_of_next? hlive hnext
    · intro hprev
      exact hrep.linked.next?_of_prev? hlive hprev
  head h hhead := hrep.linked.prev?_head hhead
  tail h htail := hrep.linked.next?_tail htail
  once := hrep.bucketed.count_flatten
  placed h e hget := (hrep.bucketed.mem_bucket e.hash h).mpr ⟨_, _, _, content_of_get? hget, rfl⟩
  hash h e hget := by
    obtain ⟨f, -, hhash, hstate⟩ := hrep.listed hget
    rw [hhash, hstate]
  distinct h k e f hget hget' hstate := by
    obtain ⟨x, hx, -, hxstate⟩ := hrep.listed hget
    obtain ⟨y, hy, -, hystate⟩ := hrep.listed hget'
    obtain ⟨hxmem, rfl⟩ := hdistinct.under?_eq_some.mp hx
    obtain ⟨hymem, rfl⟩ := hdistinct.under?_eq_some.mp hy
    have hsame : x.state = y.state := by rw [← hxstate, hstate, hystate]
    rw [List.inj_on_of_nodup_map hdistinct.states hxmem hymem hsame]
  bounded := by
    rw [hrep.size, hrep.capacity]
    exact hdistinct.bounded

/-! ## Capacity and number of buckets -/

/-- Capacity and number of buckets. -/
def dimensions (c : UnitCache γ) : Nat × Nat := (c.capacity, c.buckets.size)

/-- Relinking changes no dimension. -/
theorem Relinked.dimensions {c' : UnitCache γ} (hrelinked : c.Relinked c') :
    c'.dimensions = c.dimensions := by
  unfold UnitCache.dimensions
  rw [hrelinked.capacity, hrelinked.buckets]

/-- Inserting changes no dimension. -/
theorem dimensions_insert (c : UnitCache γ) (hash : UInt32) (s : PipelineState) (u : BlendUnit) :
    (c.insert hash s u).1.dimensions = c.dimensions := by
  rw [insert_eq, (relinked_pushBack ..).dimensions]
  unfold dimensions store
  rw [Array.size_modify]

/-- Trimming changes no dimension. -/
theorem dimensions_trim (c : UnitCache γ) : c.trim.1.dimensions = c.dimensions := by
  unfold trim
  split
  · unfold evictOldest
    cases c.head with
    | none => rfl
    | some h =>
      have hunlink := (c.relinked_unlink h).dimensions
      simp only
      cases (c.unlink h).entries.get? h with
      | none => exact hunlink
      | some e =>
        rw [← hunlink]
        unfold dimensions discard
        rw [Array.size_modify]
  · rfl

variable [UnitCompiler γ]

/-- Ensuring a state changes no dimension. -/
theorem dimensions_ensureHashed (c : UnitCache γ) (hash : UInt32) (s : PipelineState) :
    (c.ensureHashed hash s).state.dimensions = c.dimensions := by
  unfold ensureHashed
  cases c.find? hash s with
  | some h => exact (c.countHit.relinked_touch h).dimensions
  | none =>
    unfold compileMissing
    simp only
    cases (UnitCompiler.compile c.countMiss.compiler s).result with
    | error cause => rfl
    | ok u =>
      simp only
      rw [dimensions_trim, dimensions_insert]
      rfl

/-- No call changes the capacity or the number of buckets. -/
theorem dimensions_call (digest : PipelineState → UInt32) (c : UnitCache γ) (k : CacheCall) :
    (c.call digest k).2.dimensions = c.dimensions := by
  cases k with
  | ensure s => exact c.dimensions_ensureHashed (digest s) s
  | lookup s => rfl
  | unit h => rfl
  | recency => rfl
  | size => rfl
  | stats => rfl
  | clear =>
    change (c.clear).dimensions = c.dimensions
    unfold dimensions clear
    rw [Array.size_map]

/-- No run of calls changes a dimension. -/
theorem dimensions_runCalls (digest : PipelineState → UInt32) (c : UnitCache γ)
    (calls : List CacheCall) : (c.runCalls digest calls).2.dimensions = c.dimensions := by
  induction calls generalizing c with
  | nil => rfl
  | cons k calls ih =>
    unfold runCalls
    simp only
    rw [ih, dimensions_call]

/-- **Every run of calls leaves the cache intact**, whatever its compiler does
and whatever capacity and number of buckets it was made with; both stay as they
were made, a zero raised to one. -/
theorem runCalls_intact (compiler : γ) (capacity buckets : Nat) (calls : List CacheCall) :
    let c := ((create compiler capacity buckets).runCalls PipelineState.fingerprint calls).2
    c.Intact PipelineState.fingerprint ∧ c.capacity = max capacity 1 ∧
      c.buckets.size = max buckets 1 := by
  intro c
  have hrep := represents_create PipelineState.fingerprint compiler capacity buckets
  have hdistinct := Lru.distinct_create compiler capacity
  obtain ⟨final, -, hfinal, hrun⟩ := runCalls_run hrep hdistinct calls
  have hdimensions : c.dimensions = (max capacity 1, max buckets 1) := by
    rw [dimensions_runCalls]
    unfold dimensions create
    rw [Array.size_replicate]
  obtain ⟨hcapacity, hbuckets⟩ := Prod.mk.inj hdimensions
  exact ⟨hrun.intact hfinal, hcapacity, hbuckets⟩

end PixelPipeline.UnitCache
