import PixelPipeline.Proofs.Blend.Buckets
import PixelPipeline.Proofs.Blend.Lru

/-!
# The cache is a list

Arena, buckets and neighbours together represent the plain list of `Lru`:
`Represents` says how, and every call answers as the list does and leaves the
two in step (`Represents.call`).

Fingerprints enter as an arbitrary digest of states, so the buckets may collide
in any way.
-/

namespace PixelPipeline.UnitCache

variable {γ : Type} {c : UnitCache γ} {l : Lru γ} {h k : UnitHandle} {e : LruEntry}
  {s : PipelineState} {u : BlendUnit} {digest : PipelineState → UInt32}

/-- Arena, buckets and neighbours hold the entries of the list. -/
structure Represents (digest : PipelineState → UInt32) (c : UnitCache γ) (l : Lru γ) : Prop where
  compiler : c.compiler = l.compiler
  capacity : c.capacity = l.capacity
  stats : c.stats = l.stats
  sound : c.entries.Sound
  issued : ∀ h ∈ l.issued, c.entries.Issued h
  linked : c.Linked l.handles
  bucketed : c.Bucketed
  content : ∀ h, c.content h = (l.under? h).map fun e => (digest e.state, e.state, e.unit)

/-- A new cache represents the empty list. -/
theorem represents_create (digest : PipelineState → UInt32) (compiler : γ)
    (capacity buckets : Nat) :
    (create compiler capacity buckets).Represents digest (.create compiler capacity) where
  compiler := rfl
  capacity := rfl
  stats := rfl
  sound := Arena.sound_empty
  issued := by simp [Lru.create]
  linked := ⟨List.nodup_nil, rfl, rfl, by simp [Lru.create, Lru.handles]⟩
  bucketed := by
    have hempty : ∀ (i : Nat) (bucket : List UnitHandle),
        (create compiler capacity buckets).buckets[i]? = some bucket → bucket = [] := by
      intro i bucket hbucket
      unfold create at hbucket
      rw [Array.getElem?_replicate] at hbucket
      by_cases hi : i < max buckets 1
      · rw [if_pos hi] at hbucket
        exact (Option.some.inj hbucket).symm
      · rw [if_neg hi] at hbucket
        cases hbucket
    refine ⟨?_, fun i bucket hbucket => ?_, fun i bucket hbucket h => ?_⟩
    · unfold create
      rw [Array.size_replicate]
      exact Nat.le_max_right _ _
    · rw [hempty i bucket hbucket]
      exact List.nodup_nil
    · rw [hempty i bucket hbucket]
      simp [content, create, Arena.get?_empty]
  content h := by simp [content, create, Arena.get?_empty, Lru.under?, Lru.create]

/-! ## Looking up -/

/-- The cache holds the handles of the list. -/
theorem Represents.holds (hrep : c.Represents digest l) (h : UnitHandle) :
    c.holds h = true ↔ h ∈ l.handles := by
  rw [← isSome_content, hrep.content, Option.isSome_map]
  exact Lru.isSome_under?

/-- The cache has as many entries as the list. -/
theorem Represents.size (hrep : c.Represents digest l) : c.size = l.entries.length := by
  have hlength := Arena.size_eq_length hrep.linked.nodup hrep.holds
  rw [Lru.handles, List.length_map] at hlength
  exact hlength

/-- Walking the neighbours gives the handles of the list in order. -/
theorem Represents.recency (hrep : c.Represents digest l) : c.recency = l.handles := by
  apply hrep.linked.recency
  rw [hrep.size, Lru.handles, List.length_map]

/-- A handle has the unit that the list has under it. -/
theorem Represents.unit? (hrep : c.Represents digest l) (h : UnitHandle) :
    c.unit? h = (l.under? h).map LruEntry.unit := by
  have hcontent := congrArg (Option.map fun x => x.2.2) (hrep.content h)
  unfold UnitCache.content at hcontent
  rw [Option.map_map, Option.map_map] at hcontent
  exact hcontent

/-- An entry is that of a state if the list says so; the digest decides nothing. -/
theorem Represents.isEntryOf (hrep : c.Represents digest l) (s : PipelineState)
    (h : UnitHandle) :
    c.isEntryOf (digest s) s h = (l.under? h).any fun e => e.state = s := by
  have hcontent := congrArg (Option.any fun x => x.1 == digest s && x.2.1 == s) (hrep.content h)
  unfold UnitCache.content at hcontent
  rw [Option.any_map, Option.any_map] at hcontent
  unfold UnitCache.isEntryOf
  rw [hcontent]
  cases l.under? h with
  | none => rfl
  | some e =>
    by_cases hstate : e.state = s
    · simp [hstate]
    · simp [hstate]

/-- Whatever the digest, a state is found exactly when it is in the list. -/
theorem Represents.find? (hrep : c.Represents digest l) (hdistinct : l.Distinct)
    (s : PipelineState) : c.find? (digest s) s = (l.find? s).map LruEntry.handle := by
  unfold UnitCache.find?
  cases hfind : l.find? s with
  | none =>
    rw [Option.map_none]
    apply List.find?_eq_none.mpr
    intro h _ hentry
    rw [hrep.isEntryOf] at hentry
    obtain ⟨e, he, hstate⟩ := (Option.any_eq_true _ _).mp hentry
    have hmem := (hdistinct.under?_eq_some.mp he).1
    exact Lru.find?_eq_none.mp hfind (by simpa using ⟨e, hmem, by simpa using hstate⟩)
  | some e =>
    obtain ⟨hmem, hstate⟩ := hdistinct.find?_eq_some.mp hfind
    have he : l.under? e.handle = some e := hdistinct.under?_eq_some.mpr ⟨hmem, rfl⟩
    have hbucket : e.handle ∈ c.bucket (digest s) := by
      rw [hrep.bucketed.mem_bucket]
      refine ⟨digest s, s, e.unit, ?_, rfl⟩
      rw [hrep.content, he, Option.map_some, hstate]
    have hexists : ((c.bucket (digest s)).find? (c.isEntryOf (digest s) s)).isSome := by
      apply List.find?_isSome.mpr
      refine ⟨e.handle, hbucket, ?_⟩
      rw [hrep.isEntryOf, he]
      simpa using hstate
    obtain ⟨h, hh⟩ := Option.isSome_iff_exists.mp hexists
    have hentry := List.find?_some hh
    rw [hrep.isEntryOf] at hentry
    obtain ⟨f, hf, hfstate⟩ := (Option.any_eq_true _ _).mp hentry
    obtain ⟨hfmem, hfhandle⟩ := hdistinct.under?_eq_some.mp hf
    have heq : some f = some e := by
      rw [← hdistinct.find?_eq_some.mpr ⟨hfmem, of_decide_eq_true hfstate⟩, hfind]
    rw [hh, Option.map_some, ← hfhandle, Option.some.inj heq]

/-! ## Changing the order and the counts -/

/-- A hit moves the entry to the end in both. -/
theorem Represents.hit (hrep : c.Represents digest l) (hdistinct : l.Distinct)
    (hmem : e ∈ l.entries) : (c.countHit.touch e.handle).Represents digest (l.hit e) := by
  obtain ⟨before, after, hsplit, hentries⟩ := hdistinct.hit_entries hmem
  have hrelinked := c.countHit.relinked_touch e.handle
  have hlinked : c.countHit.Linked
      (before.map LruEntry.handle ++ e.handle :: after.map LruEntry.handle) := by
    have hold := hrep.linked
    rw [Lru.handles, hsplit, List.map_append, List.map_cons] at hold
    exact ⟨hold.nodup, hold.head, hold.tail, hold.links⟩
  have hperm : (l.hit e).entries.Perm l.entries := by
    rw [hentries, hsplit]
    exact (List.perm_append_singleton _ _).trans List.perm_middle.symm
  have hentry : ∀ h, (l.hit e).under? h = l.under? h := by
    intro h
    apply Option.ext
    intro f
    rw [(hdistinct.hit hmem).under?_eq_some, hdistinct.under?_eq_some, hperm.mem_iff]
  have hstats : c.countHit.stats = (l.hit e).stats := by
    unfold countHit Lru.hit
    rw [hrep.stats]
  refine ⟨hrelinked.compiler.trans hrep.compiler, hrelinked.capacity.trans hrep.capacity,
    hrelinked.stats.trans hstats, hrelinked.sound hrep.sound,
    fun h hh => hrelinked.issued h (hrep.issued h hh), ?_,
    hrelinked.bucketed ⟨hrep.bucketed.positive, hrep.bucketed.nodup, hrep.bucketed.mem⟩, ?_⟩
  · have htouch := hlinked.touch
    rw [Lru.handles, hentries, List.map_append, List.map_append]
    exact htouch
  · intro h
    rw [hrelinked.content, hentry]
    exact hrep.content h

/-- A miss is counted in both. -/
theorem Represents.miss (hrep : c.Represents digest l) (compiler : γ) :
    ({ c.countMiss with compiler } : UnitCache γ).Represents digest (l.miss compiler) where
  compiler := rfl
  capacity := hrep.capacity
  stats := by
    unfold countMiss Lru.miss
    rw [hrep.stats]
  sound := hrep.sound
  issued := hrep.issued
  linked := ⟨hrep.linked.nodup, hrep.linked.head, hrep.linked.tail, hrep.linked.links⟩
  bucketed := ⟨hrep.bucketed.positive, hrep.bucketed.nodup, hrep.bucketed.mem⟩
  content := hrep.content

/-! ## Inserting, evicting, clearing -/

/-- The next handle is not in the list. -/
theorem Represents.next_not_mem (hrep : c.Represents digest l) : c.entries.next ∉ l.handles := by
  intro hmem
  have hholds := (hrep.holds _).mpr hmem
  rw [← isSome_content, content_next] at hholds
  cases hholds

/-- The next handle is new to the list. -/
theorem Represents.next_fresh (hrep : c.Represents digest l) : c.entries.next ∉ l.issued :=
  fun hmem => c.entries.next_fresh (hrep.issued _ hmem)

/-- An insertion appends to the list, under the next handle. -/
theorem Represents.insert (hrep : c.Represents digest l) (s : PipelineState) (u : BlendUnit) :
    (c.insert (digest s) s u).1.Represents digest (l.push c.entries.next s u) := by
  rw [insert_eq]
  let e : CacheEntry := ⟨digest s, s, u, none, none⟩
  have hrelinked := (c.store e).relinked_pushBack c.entries.next
  have hnew := hrep.next_not_mem
  have hnext : (c.store e).content c.entries.next = some (digest s, s, u) := by
    rw [content_store hrep.sound, if_pos rfl]
  have hlive : (c.store e).holds c.entries.next = true := by
    rw [← isSome_content, hnext]
    rfl
  have hlinked : (c.store e).Linked l.handles := hrep.linked.store hrep.sound hnew e
  refine ⟨hrelinked.compiler.trans hrep.compiler, hrelinked.capacity.trans hrep.capacity,
    hrelinked.stats.trans hrep.stats, hrelinked.sound (hrep.sound.insert e), ?_, ?_,
    hrelinked.bucketed (hrep.bucketed.store hrep.sound e), ?_⟩
  · intro h hh
    apply hrelinked.issued
    rcases List.mem_cons.mp hh with heq | hold
    · apply Arena.get?_issued (v := e)
      rw [heq]
      unfold store
      rw [Arena.get?_insert hrep.sound, if_pos rfl]
    · exact (hrep.issued h hold).insert hrep.sound e
  · have hpushed := hlinked.pushBack hnew hlive
    rw [Lru.handles, Lru.push, List.map_append]
    exact hpushed
  · intro k
    rw [hrelinked.content, content_store hrep.sound, hrep.content]
    unfold Lru.under? Lru.push
    rw [List.find?_append]
    by_cases hk : k = c.entries.next
    · have hnone : l.entries.find? (fun f => f.handle = k) = none := by
        apply List.find?_eq_none.mpr
        intro f hf hhandle
        apply hnew
        rw [← hk, ← of_decide_eq_true hhandle]
        exact List.mem_map_of_mem hf
      rw [if_pos hk, hnone]
      simp [hk, e]
    · rw [if_neg hk]
      simp [Ne.symm hk]

/-- An eviction drops the least recent entry in both. -/
theorem Represents.evict (hrep : c.Represents digest l) {rest : List LruEntry}
    (hentries : l.entries = e :: rest) : c.evictOldest.1.Represents digest l.evict := by
  have hlinkedCons : c.Linked ([] ++ e.handle :: rest.map LruEntry.handle) := by
    have hold := hrep.linked
    rw [Lru.handles, hentries, List.map_cons] at hold
    exact hold
  have hhead : c.head = some e.handle := hlinkedCons.head
  have hrelinked := c.relinked_unlink e.handle
  have hcontent : (c.unlink e.handle).content e.handle
      = some (digest e.state, e.state, e.unit) := by
    rw [hrelinked.content, hrep.content, Lru.under?, hentries, List.find?_cons_of_pos (by simp)]
    rfl
  obtain ⟨old, hget, heq⟩ := Option.map_eq_some_iff.mp hcontent
  have hevict : c.evictOldest.1 = (c.unlink e.handle).discard e.handle old := by
    unfold evictOldest
    rw [hhead]
    simp only [hget]
  rw [hevict]
  have hrest : e.handle ∉ rest.map LruEntry.handle := hlinkedCons.not_mem_rest
  have hstats : ((c.unlink e.handle).discard e.handle old).stats = l.evict.stats := by
    unfold UnitCache.discard Lru.evict
    rw [hrelinked.stats, hrep.stats]
  refine ⟨hrelinked.compiler.trans hrep.compiler, hrelinked.capacity.trans hrep.capacity,
    hstats, (hrelinked.sound hrep.sound).remove _, ?_, ?_,
    (hrelinked.bucketed hrep.bucketed).discard hget, ?_⟩
  · intro h hh
    exact (hrelinked.issued h (hrep.issued h hh)).remove _
  · have hunlinked := hlinkedCons.unlink
    have hhandles : l.evict.handles = rest.map LruEntry.handle := by
      unfold Lru.handles Lru.evict
      rw [hentries, List.tail_cons]
    rw [hhandles]
    exact hunlinked.discard hrest old
  · intro k
    rw [content_discard, hrelinked.content, hrep.content]
    unfold Lru.under? Lru.evict
    rw [hentries, List.tail_cons]
    by_cases hk : k = e.handle
    · have hnone : rest.find? (fun f => f.handle = k) = none := by
        apply List.find?_eq_none.mpr
        intro f hf hhandle
        apply hrest
        rw [← hk, ← of_decide_eq_true hhandle]
        exact List.mem_map_of_mem hf
      rw [if_pos hk, hnone]
      rfl
    · rw [if_neg hk, List.find?_cons_of_neg (by simpa using Ne.symm hk)]

/-- Trimming evicts in both or in neither. -/
theorem Represents.trim (hrep : c.Represents digest l) : c.trim.1.Represents digest l.trim := by
  unfold UnitCache.trim Lru.trim
  rw [hrep.size, hrep.capacity]
  by_cases hfull : l.capacity < l.entries.length
  · rw [if_pos hfull, if_pos hfull]
    cases hentries : l.entries with
    | nil =>
      rw [hentries] at hfull
      exact (Nat.not_lt_zero _ hfull).elim
    | cons e rest => exact hrep.evict hentries
  · rw [if_neg hfull, if_neg hfull]
    exact hrep

/-- Clearing empties both. -/
theorem Represents.clear (hrep : c.Represents digest l) : c.clear.Represents digest l.clear where
  compiler := hrep.compiler
  capacity := hrep.capacity
  stats := rfl
  sound := hrep.sound.filter _
  issued h hh := (hrep.issued h hh).filter _
  linked := ⟨List.nodup_nil, rfl, rfl, by simp [Lru.clear, Lru.handles]⟩
  bucketed := by
    have hempty : ∀ (i : Nat) (bucket : List UnitHandle),
        c.clear.buckets[i]? = some bucket → bucket = [] := by
      intro i bucket hbucket
      unfold UnitCache.clear at hbucket
      rw [Array.getElem?_map] at hbucket
      obtain ⟨old, -, heq⟩ := Option.map_eq_some_iff.mp hbucket
      exact heq.symm
    refine ⟨?_, fun i bucket hbucket => ?_, fun i bucket hbucket h => ?_⟩
    · unfold UnitCache.clear
      rw [Array.size_map]
      exact hrep.bucketed.positive
    · rw [hempty i bucket hbucket]
      exact List.nodup_nil
    · rw [hempty i bucket hbucket]
      simp [UnitCache.content, UnitCache.clear, Arena.get?_clear hrep.sound]
  content h := by
    simp [UnitCache.content, UnitCache.clear, Arena.get?_clear hrep.sound, Lru.under?, Lru.clear]

/-! ## Calls -/

variable [UnitCompiler γ]

/-- Compiling on first use answers as the list does. -/
theorem Represents.ensureHashed (hrep : c.Represents digest l) (hdistinct : l.Distinct)
    (s : PipelineState) :
    (c.ensureHashed (digest s) s).result = (l.ensure c.entries.next s).1 ∧
      (c.ensureHashed (digest s) s).state.Represents digest (l.ensure c.entries.next s).2 := by
  unfold UnitCache.ensureHashed Lru.ensure
  rw [hrep.find? hdistinct]
  cases hfind : l.find? s with
  | some e => exact ⟨rfl, hrep.hit hdistinct (hdistinct.find?_eq_some.mp hfind).1⟩
  | none =>
    have hcompiler : c.countMiss.compiler = l.compiler := hrep.compiler
    have hmiss := hrep.miss (UnitCompiler.compile l.compiler s).compiler
    unfold compileMissing
    simp only [Option.map_none, hcompiler]
    cases (UnitCompiler.compile l.compiler s).result with
    | error cause => exact ⟨rfl, hmiss⟩
    | ok u =>
      refine ⟨?_, (hmiss.insert s u).trim⟩
      simp only [insert_eq]
      rfl

end PixelPipeline.UnitCache
