import PixelPipeline.Proofs.Blend.Cache

/-!
# Runs of the cache

A run is any sequence of calls.  One call keeps cache and list in step, so by
induction a whole run answers as a run of the list (`runCalls_run`).

Which handles are given out depends on the arena alone, and the arena's shape
changes in a way that the list determines (`Lru.supply`).  Two caches whose
arenas have the same shape therefore answer alike, whatever their buckets and
digests (`runCalls_answers`).
-/

namespace PixelPipeline

namespace Lru

variable {γ : Type} [UnitCompiler γ]

/-- The shape of the arena after a state is ensured, when the list had a cache
with an arena of this shape. -/
def supplyEnsured (l : Lru γ) (a : Arena .blendUnit Unit) (s : PipelineState) :
    Arena .blendUnit Unit :=
  match l.find? s with
  | some _ => a
  | none =>
    match (UnitCompiler.compile l.compiler s).result with
    | .error _ => a
    | .ok u =>
      let l := l.push a.next s u
      let a := (a.insert ()).1
      if l.capacity < l.entries.length then l.handles.head?.elim a a.remove else a

/-- The shape of the arena after a call. -/
def supply (l : Lru γ) (a : Arena .blendUnit Unit) : CacheCall → Arena .blendUnit Unit
  | .ensure s => l.supplyEnsured a s
  | .clear => a.clear
  | _ => a

end Lru

namespace UnitCache

variable {γ : Type} {c c' : UnitCache γ} {l : Lru γ} {digest digest' : PipelineState → UInt32}

/-- Trimming frees the slot of the least recent entry, if there are too many. -/
theorem Represents.shape_trim (hrep : c.Represents digest l) :
    c.trim.1.entries.shape
      = if l.capacity < l.entries.length then
          l.handles.head?.elim c.entries.shape c.entries.shape.remove
        else c.entries.shape := by
  unfold UnitCache.trim
  rw [hrep.size, hrep.capacity]
  by_cases hfull : l.capacity < l.entries.length
  · rw [if_pos hfull, if_pos hfull]
    have hhead := hrep.linked.head
    cases hentries : l.entries with
    | nil =>
      rw [hentries] at hfull
      exact (Nat.not_lt_zero _ hfull).elim
    | cons e rest =>
      have hfirst : l.handles.head? = some e.handle := by
        unfold Lru.handles
        rw [hentries, List.map_cons, List.head?_cons]
      have hlive : (c.unlink e.handle).holds e.handle = true := by
        rw [(c.relinked_unlink e.handle).holds, hrep.holds]
        exact List.mem_of_head? hfirst
      obtain ⟨old, hget⟩ := Option.isSome_iff_exists.mp hlive
      unfold evictOldest
      rw [hhead, hfirst]
      simp only [hget]
      unfold discard
      rw [Arena.shape_remove, (c.relinked_unlink e.handle).shape]
      rfl
  · rw [if_neg hfull, if_neg hfull]

/-- An insertion takes the next slot, whatever is inserted. -/
theorem shape_insert (c : UnitCache γ) (hash : UInt32) (s : PipelineState) (u : BlendUnit) :
    (c.insert hash s u).1.entries.shape = (c.entries.shape.insert ()).1 := by
  rw [insert_eq, (relinked_pushBack ..).shape]
  unfold store
  rw [Arena.shape_insert]

variable [UnitCompiler γ]

/-- How the arena moves when a state is ensured is read off the list. -/
theorem Represents.shape_ensureHashed (hrep : c.Represents digest l) (hdistinct : l.Distinct)
    (s : PipelineState) :
    (c.ensureHashed (digest s) s).state.entries.shape
      = l.supplyEnsured c.entries.shape s := by
  unfold UnitCache.ensureHashed Lru.supplyEnsured
  rw [hrep.find? hdistinct]
  cases hfind : l.find? s with
  | some e => exact (c.countHit.relinked_touch e.handle).shape
  | none =>
    have hcompiler : c.countMiss.compiler = l.compiler := hrep.compiler
    have hmiss := hrep.miss (UnitCompiler.compile l.compiler s).compiler
    unfold compileMissing
    simp only [Option.map_none, hcompiler]
    cases (UnitCompiler.compile l.compiler s).result with
    | error cause => rfl
    | ok u =>
      have hinserted := hmiss.insert s u
      simp only
      rw [hinserted.shape_trim, shape_insert, Arena.next_shape]
      rfl

/-! ## One call -/

/-- The answer to a call, and the cache after it, when states are digested so.
With `PipelineState.fingerprint` this is what `ensure` and `lookup?` do. -/
def call (digest : PipelineState → UInt32) (c : UnitCache γ) :
    CacheCall → CacheAnswer × UnitCache γ
  | .ensure s =>
    let reply := c.ensureHashed (digest s) s
    (.ensured reply.result, reply.state)
  | .lookup s => (.found (c.find? (digest s) s), c)
  | .unit h => (.unit (c.unit? h), c)
  | .recency => (.recency c.recency, c)
  | .size => (.size c.size, c)
  | .stats => (.stats c.stats, c)
  | .clear => (.cleared, c.clear)

/-- What a call for a state's unit leaves. -/
theorem state_call_ensure (digest : PipelineState → UInt32) (c : UnitCache γ)
    (s : PipelineState) :
    (c.call digest (.ensure s)).2 = (c.ensureHashed (digest s) s).state := rfl

/-- Every call answers as the list does and keeps cache and list in step. -/
theorem Represents.call (hrep : c.Represents digest l) (hdistinct : l.Distinct)
    (k : CacheCall) :
    (c.call digest k).1 = (l.call c.entries.next k).1 ∧
      (c.call digest k).2.Represents digest (l.call c.entries.next k).2 := by
  cases k with
  | ensure s =>
    obtain ⟨hresult, hstate⟩ := hrep.ensureHashed hdistinct s
    exact ⟨congrArg CacheAnswer.ensured hresult, hstate⟩
  | lookup s => exact ⟨congrArg CacheAnswer.found (hrep.find? hdistinct s), hrep⟩
  | unit h => exact ⟨congrArg CacheAnswer.unit (hrep.unit? h), hrep⟩
  | recency => exact ⟨congrArg CacheAnswer.recency hrep.recency, hrep⟩
  | size => exact ⟨congrArg CacheAnswer.size hrep.size, hrep⟩
  | stats => exact ⟨congrArg CacheAnswer.stats hrep.stats, hrep⟩
  | clear => exact ⟨rfl, hrep.clear⟩

/-- How the arena moves at a call is read off the list. -/
theorem Represents.shape_call (hrep : c.Represents digest l) (hdistinct : l.Distinct)
    (k : CacheCall) : (c.call digest k).2.entries.shape = l.supply c.entries.shape k := by
  cases k with
  | ensure s => exact hrep.shape_ensureHashed hdistinct s
  | lookup s => rfl
  | unit h => rfl
  | recency => rfl
  | size => rfl
  | stats => rfl
  | clear => exact c.entries.shape_clear

/-! ## Calls in a row -/

/-- The answers to calls in a row, and the cache after them. -/
def runCalls (digest : PipelineState → UInt32) (c : UnitCache γ) :
    List CacheCall → List CacheAnswer × UnitCache γ
  | [] => ([], c)
  | k :: calls =>
    let (answer, c) := c.call digest k
    let (answers, c) := c.runCalls digest calls
    (answer :: answers, c)

/-- **Every run of calls is a run of the list**, and the cache represents where it ends. -/
theorem runCalls_run (hrep : c.Represents digest l) (hdistinct : l.Distinct)
    (calls : List CacheCall) :
    ∃ final, Lru.Run l calls (c.runCalls digest calls).1 final ∧ final.Distinct ∧
      (c.runCalls digest calls).2.Represents digest final := by
  induction calls generalizing c l with
  | nil => exact ⟨l, .done l, hdistinct, hrep⟩
  | cons k calls ih =>
    obtain ⟨hanswer, hnext⟩ := hrep.call hdistinct k
    have hfresh := hrep.next_fresh
    obtain ⟨final, hrun, hfinal⟩ := ih hnext (hdistinct.call hfresh k)
    refine ⟨final, ?_, hfinal⟩
    unfold runCalls
    simp only
    rw [hanswer]
    exact .step hfresh hrun

/-- Caches that represent one list in arenas of one shape answer alike. -/
theorem runCalls_answers (hrep : c.Represents digest l) (hrep' : c'.Represents digest' l)
    (hdistinct : l.Distinct) (hshape : c'.entries.shape = c.entries.shape)
    (calls : List CacheCall) :
    (c'.runCalls digest' calls).1 = (c.runCalls digest calls).1 := by
  induction calls generalizing c c' l with
  | nil => rfl
  | cons k calls ih =>
    have hnext : c'.entries.next = c.entries.next := by
      rw [← c'.entries.next_shape, hshape, c.entries.next_shape]
    obtain ⟨hanswer, hstep⟩ := hrep.call hdistinct k
    obtain ⟨hanswer', hstep'⟩ := hrep'.call hdistinct k
    rw [hnext] at hanswer' hstep'
    have hshape' : (c'.call digest' k).2.entries.shape = (c.call digest k).2.entries.shape := by
      rw [hrep'.shape_call hdistinct, hrep.shape_call hdistinct, hshape]
    have hrest := ih hstep hstep' (hdistinct.call hrep.next_fresh k) hshape'
    unfold runCalls
    simp only
    rw [hanswer, hanswer', hrest]

/-- The cache is the least-recently-used list of its states: whatever compiler,
capacity, bucket count and digest it is made with, any calls are answered as a
run of the list answers them, and they are answered the same with any other
bucket count and any other digest. -/
theorem runCalls_refines (compiler : γ) (capacity buckets : Nat)
    (digest : PipelineState → UInt32) (calls : List CacheCall) :
    (∃ final, Lru.Run (.create compiler capacity) calls
        ((create compiler capacity buckets).runCalls digest calls).1 final ∧
      final.Distinct ∧
      ((create compiler capacity buckets).runCalls digest calls).2.Represents digest final) ∧
    ∀ (buckets' : Nat) (digest' : PipelineState → UInt32),
      ((create compiler capacity buckets').runCalls digest' calls).1
        = ((create compiler capacity buckets).runCalls digest calls).1 := by
  have hrep := represents_create digest compiler capacity buckets
  have hdistinct := Lru.distinct_create compiler capacity
  refine ⟨runCalls_run hrep hdistinct calls, fun buckets' digest' => ?_⟩
  have hrep' := represents_create digest' compiler capacity buckets'
  exact runCalls_answers hrep hrep' hdistinct rfl calls

end UnitCache

end PixelPipeline
