import PixelPipeline.Proofs.Blend.Chain

/-!
# The buckets of the cache

A bucket holds, once each, the handles of the entries whose fingerprints belong
there.  Relinking keeps that, and so do the two steps that change the buckets:
storing an entry and discarding one.
-/

namespace PixelPipeline.UnitCache

variable {γ : Type} {c c' : UnitCache γ} {h k : UnitHandle} {order : List UnitHandle}

/-- Each bucket holds, once, the handles whose fingerprints belong there. -/
structure Bucketed (c : UnitCache γ) : Prop where
  positive : 0 < c.buckets.size
  nodup : ∀ (i : Nat) (bucket : List UnitHandle), c.buckets[i]? = some bucket → bucket.Nodup
  mem : ∀ (i : Nat) (bucket : List UnitHandle), c.buckets[i]? = some bucket → ∀ h, h ∈ bucket ↔
    ∃ hash s u, c.content h = some (hash, s, u) ∧ c.bucketIndex hash = i

/-- The bucket of a fingerprint depends on the number of buckets only. -/
theorem bucketIndex_congr (hsize : c'.buckets.size = c.buckets.size) (hash : UInt32) :
    c'.bucketIndex hash = c.bucketIndex hash := by
  unfold bucketIndex
  rw [hsize]

/-- Relinking leaves the buckets. -/
theorem Relinked.bucketed (hrelinked : c.Relinked c') (hbucketed : c.Bucketed) : c'.Bucketed := by
  have hindex := bucketIndex_congr (congrArg Array.size hrelinked.buckets)
  constructor
  · rw [hrelinked.buckets]
    exact hbucketed.positive
  · rw [hrelinked.buckets]
    exact hbucketed.nodup
  · rw [hrelinked.buckets]
    intro i bucket hbucket h
    simp only [hrelinked.content, hindex]
    exact hbucketed.mem i bucket hbucket h

/-- Every fingerprint has a bucket. -/
theorem Bucketed.bucketIndex_lt (hbucketed : c.Bucketed) (hash : UInt32) :
    c.bucketIndex hash < c.buckets.size := Nat.mod_lt _ hbucketed.positive

/-- A bucket holds the handles whose fingerprints belong there. -/
theorem Bucketed.mem_bucket (hbucketed : c.Bucketed) (hash : UInt32) (h : UnitHandle) :
    h ∈ c.bucket hash ↔
      ∃ hash' s u, c.content h = some (hash', s, u) ∧ c.bucketIndex hash' = c.bucketIndex hash := by
  have hsome := Array.getElem?_eq_getElem (hbucketed.bucketIndex_lt hash)
  unfold bucket
  rw [hsome]
  exact hbucketed.mem _ _ hsome h

/-! ## Storing -/

/-- The cache with an entry that is in no list yet. -/
def store (c : UnitCache γ) (e : CacheEntry) : UnitCache γ :=
  { c with
    entries := (c.entries.insert e).1
    buckets := c.buckets.modify (c.bucketIndex e.hash) fun handles => handles ++ [c.entries.next] }

/-- Inserting stores an entry under the next handle and puts it at the end. -/
theorem insert_eq (c : UnitCache γ) (hash : UInt32) (s : PipelineState) (u : BlendUnit) :
    c.insert hash s u
      = ((c.store ⟨hash, s, u, none, none⟩).pushBack c.entries.next, c.entries.next) := by
  unfold insert store
  rw [← c.entries.insert_handle ⟨hash, s, u, none, none⟩]

/-- The stored entry is cached under the next handle, and every other one as before. -/
theorem content_store (hsound : c.entries.Sound) (e : CacheEntry) (k : UnitHandle) :
    (c.store e).content k
      = if k = c.entries.next then some (e.hash, e.state, e.unit) else c.content k := by
  unfold content store
  rw [Arena.get?_insert hsound]
  by_cases hk : k = c.entries.next
  · rw [if_pos hk, if_pos hk]
    rfl
  · rw [if_neg hk, if_neg hk]

/-- Storing an entry leaves the neighbours of every other one. -/
theorem links_store (hsound : c.entries.Sound) (e : CacheEntry) (hk : k ≠ c.entries.next) :
    (c.store e).links k = c.links k := by
  unfold links store
  rw [Arena.get?_insert hsound, if_neg hk]

/-- Storing an entry leaves the order of use. -/
theorem Linked.store (hlinked : c.Linked order) (hsound : c.entries.Sound)
    (hnew : c.entries.next ∉ order) (e : CacheEntry) : (c.store e).Linked order := by
  refine ⟨hlinked.nodup, hlinked.head, hlinked.tail, ?_⟩
  intro before k after hsplit
  have hk : k ≠ c.entries.next := by
    intro heq
    exact hnew (heq ▸ by simp [hsplit])
  rw [links_store hsound e hk]
  exact hlinked.links before k after hsplit

/-- Nothing is cached under the next handle. -/
theorem content_next (c : UnitCache γ) : c.content c.entries.next = none := by
  unfold content
  cases hget : c.entries.get? c.entries.next with
  | none => rfl
  | some e => exact (c.entries.next_fresh (Arena.get?_issued hget)).elim

/-- A stored entry goes into the bucket of its fingerprint. -/
theorem Bucketed.store (hbucketed : c.Bucketed) (hsound : c.entries.Sound) (e : CacheEntry) :
    (c.store e).Bucketed := by
  have hsize : (c.store e).buckets.size = c.buckets.size := Array.size_modify
  have hindex := bucketIndex_congr hsize
  have hbuckets : ∀ (i : Nat) (bucket : List UnitHandle), (c.store e).buckets[i]? = some bucket →
      ∃ old, c.buckets[i]? = some old ∧
        bucket = if c.bucketIndex e.hash = i then old ++ [c.entries.next] else old := by
    intro i bucket hbucket
    unfold UnitCache.store at hbucket
    rw [Array.getElem?_modify] at hbucket
    by_cases hi : c.bucketIndex e.hash = i
    · rw [if_pos hi] at hbucket
      obtain ⟨old, hold, heq⟩ := Option.map_eq_some_iff.mp hbucket
      exact ⟨old, hold, by rw [if_pos hi, heq]⟩
    · rw [if_neg hi] at hbucket
      exact ⟨bucket, hbucket, by rw [if_neg hi]⟩
  have hnext : ∀ (i : Nat) (old : List UnitHandle), c.buckets[i]? = some old →
      c.entries.next ∉ old := by
    intro i old hold hmem
    obtain ⟨hash, s, u, hcontent, -⟩ := (hbucketed.mem i old hold _).mp hmem
    rw [c.content_next] at hcontent
    cases hcontent
  refine ⟨hsize ▸ hbucketed.positive, fun i bucket hbucket => ?_, fun i bucket hbucket k => ?_⟩
  · obtain ⟨old, hold, heq⟩ := hbuckets i bucket hbucket
    by_cases hi : c.bucketIndex e.hash = i
    · rw [heq, if_pos hi, ← List.concat_eq_append]
      exact (hbucketed.nodup i old hold).concat (hnext i old hold)
    · rw [heq, if_neg hi]
      exact hbucketed.nodup i old hold
  · obtain ⟨old, hold, heq⟩ := hbuckets i bucket hbucket
    have hmem := hbucketed.mem i old hold k
    simp only [hindex, content_store hsound]
    by_cases hk : k = c.entries.next
    · have hnot : k ∉ old := hk ▸ hnext i old hold
      simp only [if_pos hk, heq]
      by_cases hi : c.bucketIndex e.hash = i
      · simp [hi, hk]
      · simp [hi, hnot]
    · simp only [if_neg hk, heq, ← hmem]
      by_cases hi : c.bucketIndex e.hash = i
      · simp [hi, hk]
      · simp [hi]

/-! ## Discarding -/

/-- The last handle takes the place of the one that goes. -/
theorem perm_swapRemove {handles : List UnitHandle} (hmem : h ∈ handles) :
    (h :: swapRemove handles h).Perm handles := by
  obtain ⟨before, after, hsplit, hfirst⟩ := List.eq_append_cons_of_mem hmem
  have hidx : handles.idxOf? h = some before.length := by
    rw [hsplit, List.idxOf?_eq_some_iff]
    refine ⟨by simp, by simp, fun j hj => ?_⟩
    rw [List.getElem_append_left hj]
    intro heq
    exact hfirst (heq ▸ List.getElem_mem hj)
  unfold swapRemove
  rw [hidx]
  rcases List.eq_nil_or_concat after with hnil | ⟨middle, last, hconcat⟩
  · have hlast : handles.getLast? = some h := by simp [hsplit, hnil]
    rw [hlast, hsplit, hnil]
    simpa using (List.perm_append_singleton h before).symm
  · rw [List.concat_eq_append] at hconcat
    have hlast : handles.getLast? = some last := by
      rw [hsplit, hconcat]
      simp [List.getLast?_append, List.getLast?_cons]
    have hset : (handles.set before.length last).dropLast = before ++ last :: middle := by
      rw [hsplit, hconcat, List.set_append_right _ _ (Nat.le_refl _), Nat.sub_self,
        List.set_cons_zero, ← List.cons_append, ← List.append_assoc, List.dropLast_concat]
    rw [hlast]
    simp only
    rw [hset, hsplit, hconcat]
    have hmove : (last :: middle).Perm (middle ++ [last]) := (List.perm_append_singleton ..).symm
    exact ((hmove.append_left before).cons h).trans List.perm_middle.symm

/-- A discarded entry is not cached any more, and every other one is as before. -/
theorem content_discard (c : UnitCache γ) (h : UnitHandle) (e : CacheEntry) (k : UnitHandle) :
    (c.discard h e).content k = if k = h then none else c.content k := by
  unfold content discard
  rw [Arena.get?_remove]
  by_cases hk : k = h
  · rw [if_pos hk, if_pos hk]
    rfl
  · rw [if_neg hk, if_neg hk]

/-- Discarding an entry leaves the neighbours of every other one. -/
theorem links_discard (c : UnitCache γ) (h : UnitHandle) (e : CacheEntry) (hk : k ≠ h) :
    (c.discard h e).links k = c.links k := by
  unfold links discard
  rw [Arena.get?_remove, if_neg hk]

/-- Discarding an entry outside the list leaves the order of use. -/
theorem Linked.discard (hlinked : c.Linked order) (hnot : h ∉ order) (e : CacheEntry) :
    (c.discard h e).Linked order := by
  refine ⟨hlinked.nodup, hlinked.head, hlinked.tail, ?_⟩
  intro before k after hsplit
  have hk : k ≠ h := by
    intro heq
    exact hnot (heq ▸ by simp [hsplit])
  rw [links_discard c h e hk]
  exact hlinked.links before k after hsplit

/-- A bucket after a discarded entry is the one before without the entry's handle, which
goes from its own bucket and is in no other. -/
theorem Bucketed.bucket_discard (hbucketed : c.Bucketed) {e : CacheEntry}
    (hcontent : c.content h = some (e.hash, e.state, e.unit)) {i : Nat}
    {bucket : List UnitHandle} (hbucket : (c.discard h e).buckets[i]? = some bucket) :
    ∃ old, c.buckets[i]? = some old ∧ bucket.Nodup ∧ ∀ k, k ∈ bucket ↔ k ≠ h ∧ k ∈ old := by
  unfold UnitCache.discard at hbucket
  rw [Array.getElem?_modify] at hbucket
  by_cases hi : c.bucketIndex e.hash = i
  · rw [if_pos hi] at hbucket
    obtain ⟨old, hold, heq⟩ := Option.map_eq_some_iff.mp hbucket
    have hmem : h ∈ old := (hbucketed.mem i old hold h).mpr ⟨_, _, _, hcontent, hi⟩
    have hperm := perm_swapRemove hmem
    have hnodup := hperm.nodup_iff.mpr (hbucketed.nodup i old hold)
    rw [heq] at hperm hnodup
    obtain ⟨hnot, hrest⟩ := List.nodup_cons.mp hnodup
    refine ⟨old, hold, hrest, fun k => ?_⟩
    rw [← hperm.mem_iff, List.mem_cons]
    constructor
    · intro hk
      exact ⟨fun hkh => hnot (hkh ▸ hk), .inr hk⟩
    · intro hk
      exact hk.2.resolve_left hk.1
  · rw [if_neg hi] at hbucket
    refine ⟨bucket, hbucket, hbucketed.nodup i bucket hbucket, fun k => ?_⟩
    constructor
    · intro hk
      refine ⟨fun hkh => ?_, hk⟩
      obtain ⟨hash, s, u, hsome, hbelongs⟩ := (hbucketed.mem i bucket hbucket k).mp hk
      rw [hkh, hcontent] at hsome
      cases hsome
      exact hi hbelongs
    · exact fun hk => hk.2

/-- A discarded entry leaves its bucket. -/
theorem Bucketed.discard (hbucketed : c.Bucketed) {e : CacheEntry}
    (hget : c.entries.get? h = some e) : (c.discard h e).Bucketed := by
  have hsize : (c.discard h e).buckets.size = c.buckets.size := Array.size_modify
  have hindex := bucketIndex_congr hsize
  have hcontent : c.content h = some (e.hash, e.state, e.unit) := by
    unfold content
    rw [hget]
    rfl
  refine ⟨hsize ▸ hbucketed.positive, fun i bucket hbucket => ?_, fun i bucket hbucket k => ?_⟩
  · obtain ⟨old, -, hnodup, -⟩ := hbucketed.bucket_discard hcontent hbucket
    exact hnodup
  · obtain ⟨old, hold, -, hmem⟩ := hbucketed.bucket_discard hcontent hbucket
    rw [hmem, hbucketed.mem i old hold]
    simp only [hindex, content_discard]
    by_cases hk : k = h
    · simp [hk]
    · simp [hk]

end PixelPipeline.UnitCache
