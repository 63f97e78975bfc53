import Mathlib.Data.List.Nodup
import PixelPipeline.Blend.Cache

/-!
# Least recently used

The cache as its users see it: a list of distinct states, the least recently
used first, each with a handle and a unit.  Handles are drawn from outside: a
run may give an inserted state any handle that it has not given out before, so
whatever holds of every run does not depend on how handles are made up.
-/

namespace PixelPipeline

/-- A cached state, its handle and its unit. -/
structure LruEntry where
  state : PipelineState
  handle : UnitHandle
  unit : BlendUnit

/-- A bounded list of cached states around a compiler. -/
structure Lru (γ : Type) where
  compiler : γ
  /-- From the least to the most recently used. -/
  entries : List LruEntry
  capacity : Nat
  stats : CacheStats
  /-- Every handle given out so far. -/
  issued : List UnitHandle

/-- What the users of a cache call. -/
inductive CacheCall where
  | ensure (s : PipelineState)
  | lookup (s : PipelineState)
  | unit (h : UnitHandle)
  | recency
  | size
  | stats
  | clear

/-- What a cache answers. -/
inductive CacheAnswer where
  | ensured (result : Except Fault UnitHandle)
  | found (handle : Option UnitHandle)
  | unit (unit : Option BlendUnit)
  | recency (order : List UnitHandle)
  | size (count : Nat)
  | stats (stats : CacheStats)
  | cleared

namespace Lru

variable {γ : Type} {l : Lru γ} {s : PipelineState} {e f : LruEntry} {h fresh : UnitHandle}
  {u : BlendUnit}

/-- Nothing is cached; a capacity of zero is raised to one. -/
def create (compiler : γ) (capacity : Nat) : Lru γ := ⟨compiler, [], max capacity 1, default, []⟩

/-- The entry of a state. -/
def find? (l : Lru γ) (s : PipelineState) : Option LruEntry := l.entries.find? fun e => e.state = s

/-- The entry under a handle. -/
def under? (l : Lru γ) (h : UnitHandle) : Option LruEntry := l.entries.find? fun e => e.handle = h

/-- The handles in the order of use. -/
def handles (l : Lru γ) : List UnitHandle := l.entries.map LruEntry.handle

/-- Moves an entry to the most recent end and counts a hit. -/
def hit (l : Lru γ) (e : LruEntry) : Lru γ :=
  { l with
    entries := l.entries.filter (fun f => f.state ≠ e.state) ++ [e]
    stats := { l.stats with hits := l.stats.hits + 1 } }

/-- Counts a miss, after which the compiler is in another state. -/
def miss (l : Lru γ) (compiler : γ) : Lru γ :=
  { l with compiler, stats := { l.stats with misses := l.stats.misses + 1 } }

/-- Appends a state under a new handle. -/
def push (l : Lru γ) (fresh : UnitHandle) (s : PipelineState) (u : BlendUnit) : Lru γ :=
  { l with entries := l.entries ++ [⟨s, fresh, u⟩], issued := fresh :: l.issued }

/-- Drops the least recent entry and counts an eviction. -/
def evict (l : Lru γ) : Lru γ :=
  { l with
    entries := l.entries.tail
    stats := { l.stats with evictions := l.stats.evictions + 1 } }

/-- Drops the least recent entry if there are more than the capacity allows. -/
def trim (l : Lru γ) : Lru γ := if l.capacity < l.entries.length then l.evict else l

/-- Drops every entry and resets the counts. -/
def clear (l : Lru γ) : Lru γ := { l with entries := [], stats := default }

variable [UnitCompiler γ]

/-- The handle of a state's unit; a state that is not cached is compiled, and
gets the handle `fresh` if that succeeds. -/
def ensure (l : Lru γ) (fresh : UnitHandle) (s : PipelineState) :
    Except Fault UnitHandle × Lru γ :=
  match l.find? s with
  | some e => (.ok e.handle, l.hit e)
  | none =>
    let compilation := UnitCompiler.compile l.compiler s
    let l := l.miss compilation.compiler
    match compilation.result with
    | .error cause => (.error (.compile cause), l)
    | .ok u => (.ok fresh, (l.push fresh s u).trim)

/-- The answer to a call, and the list after it. -/
def call (l : Lru γ) (fresh : UnitHandle) : CacheCall → CacheAnswer × Lru γ
  | .ensure s =>
    let (result, l) := l.ensure fresh s
    (.ensured result, l)
  | .lookup s => (.found ((l.find? s).map LruEntry.handle), l)
  | .unit h => (.unit ((l.under? h).map LruEntry.unit), l)
  | .recency => (.recency l.handles, l)
  | .size => (.size l.entries.length, l)
  | .stats => (.stats l.stats, l)
  | .clear => (.cleared, l.clear)

/-- Calls in a row may be answered so, each with a handle at hand that was never
given out. -/
inductive Run : Lru γ → List CacheCall → List CacheAnswer → Lru γ → Prop
  | done (l : Lru γ) : Run l [] [] l
  | step {l final : Lru γ} {fresh : UnitHandle} {c : CacheCall} {calls : List CacheCall}
      {answers : List CacheAnswer} (hfresh : fresh ∉ l.issued)
      (hrest : Run (l.call fresh c).2 calls answers final) :
      Run l (c :: calls) ((l.call fresh c).1 :: answers) final

/-! ## Distinct states and handles -/

/-- States and handles are distinct, every handle was given out, and there are
no more entries than the capacity allows. -/
structure Distinct (l : Lru γ) : Prop where
  states : (l.entries.map LruEntry.state).Nodup
  handles : l.handles.Nodup
  issued : ∀ e ∈ l.entries, e.handle ∈ l.issued
  bounded : l.entries.length ≤ l.capacity
  positive : 0 < l.capacity

/-- Under distinct keys, the element with a key is the one that is found. -/
theorem find?_key {α κ : Type} [DecidableEq κ] {key : α → κ} {xs : List α} {x : α} {k : κ}
    (hnodup : (xs.map key).Nodup) :
    xs.find? (fun y => key y = k) = some x ↔ x ∈ xs ∧ key x = k := by
  constructor
  · intro hfind
    exact ⟨List.mem_of_find?_eq_some hfind, by simpa using List.find?_some hfind⟩
  · intro hx
    have hexists : (xs.find? fun y => key y = k).isSome := by
      apply List.find?_isSome.mpr
      exact ⟨x, hx.1, by simpa using hx.2⟩
    obtain ⟨y, hfind⟩ := Option.isSome_iff_exists.mp hexists
    have hy : key y = k := by simpa using List.find?_some hfind
    have heq : y = x := List.inj_on_of_nodup_map hnodup
      (List.mem_of_find?_eq_some hfind) hx.1 (hy.trans hx.2.symm)
    rw [hfind, heq]

omit [UnitCompiler γ]

/-- The empty list is distinct. -/
theorem distinct_create (compiler : γ) (capacity : Nat) : (create compiler capacity).Distinct where
  states := List.nodup_nil
  handles := List.nodup_nil
  issued := by simp [create]
  bounded := Nat.zero_le _
  positive := Nat.le_max_right _ _

/-- The entry of a state is the one with the state. -/
theorem Distinct.find?_eq_some (hdistinct : l.Distinct) :
    l.find? s = some e ↔ e ∈ l.entries ∧ e.state = s := find?_key hdistinct.states

/-- The entry under a handle is the one with the handle. -/
theorem Distinct.under?_eq_some (hdistinct : l.Distinct) :
    l.under? h = some e ↔ e ∈ l.entries ∧ e.handle = h := find?_key hdistinct.handles

/-- A state without an entry is not cached. -/
theorem find?_eq_none : l.find? s = none ↔ s ∉ l.entries.map LruEntry.state := by
  unfold find?
  simp [List.find?_eq_none]

/-- The handles of the list have entries. -/
theorem isSome_under? : (l.under? h).isSome ↔ h ∈ l.handles := by
  unfold under? handles
  simp [List.find?_isSome]

/-- A hit takes its entry out of the list and puts it at the end. -/
theorem Distinct.hit_entries (hdistinct : l.Distinct) (hmem : e ∈ l.entries) :
    ∃ before after, l.entries = before ++ e :: after ∧
      (l.hit e).entries = before ++ after ++ [e] := by
  obtain ⟨before, after, hsplit⟩ := List.append_of_mem hmem
  refine ⟨before, after, hsplit, ?_⟩
  have hstates := hdistinct.states
  rw [hsplit, List.map_append, List.map_cons] at hstates
  have hmove : (before.map LruEntry.state ++ e.state :: after.map LruEntry.state).Perm
      (e.state :: (before.map LruEntry.state ++ after.map LruEntry.state)) := List.perm_middle
  have hperm := hmove.nodup_iff.mp hstates
  rw [← List.map_append] at hperm
  have hkeep : ∀ f ∈ before ++ after, f.state ≠ e.state := by
    intro f hf heq
    exact (List.nodup_cons.mp hperm).1 (heq ▸ List.mem_map_of_mem hf)
  have hfilter : (before ++ after).filter (fun f => f.state ≠ e.state) = before ++ after := by
    apply List.filter_eq_self.mpr
    intro f hf
    simpa using hkeep f hf
  unfold hit
  rw [List.filter_append] at hfilter
  simp only [hsplit, List.filter_append]
  rw [List.filter_cons_of_neg (by simp), hfilter]

/-- A hit keeps the list distinct. -/
theorem Distinct.hit (hdistinct : l.Distinct) (hmem : e ∈ l.entries) : (l.hit e).Distinct := by
  obtain ⟨before, after, hsplit, hentries⟩ := hdistinct.hit_entries hmem
  have hperm : (l.hit e).entries.Perm l.entries := by
    rw [hentries, hsplit]
    exact (List.perm_append_singleton _ _).trans List.perm_middle.symm
  constructor
  · exact (hperm.map _).nodup_iff.mpr hdistinct.states
  · exact (hperm.map _).nodup_iff.mpr hdistinct.handles
  · intro f hf
    exact hdistinct.issued f (hperm.mem_iff.mp hf)
  · rw [hperm.length_eq]
    exact hdistinct.bounded
  · exact hdistinct.positive

/-- A miss keeps the list distinct. -/
theorem Distinct.miss (hdistinct : l.Distinct) (compiler : γ) : (l.miss compiler).Distinct :=
  ⟨hdistinct.states, hdistinct.handles, hdistinct.issued, hdistinct.bounded, hdistinct.positive⟩

/-- A new state under a new handle; the oldest one goes if there are too many. -/
theorem Distinct.push (hdistinct : l.Distinct) (hfresh : fresh ∉ l.issued)
    (hnew : l.find? s = none) (u : BlendUnit) : (l.push fresh s u).trim.Distinct := by
  have hstates : ((l.push fresh s u).entries.map LruEntry.state).Nodup := by
    simp only [Lru.push, List.map_append, List.map_cons, List.map_nil]
    rw [← List.concat_eq_append]
    exact hdistinct.states.concat (find?_eq_none.mp hnew)
  have hhandles : (l.push fresh s u).handles.Nodup := by
    simp only [Lru.push, Lru.handles, List.map_append, List.map_cons, List.map_nil]
    rw [← List.concat_eq_append]
    apply List.Nodup.concat _ hdistinct.handles
    intro hmem
    obtain ⟨f, hf, heq⟩ := List.mem_map.mp hmem
    exact hfresh (heq ▸ hdistinct.issued f hf)
  have hissued : ∀ f ∈ (l.push fresh s u).entries, f.handle ∈ (l.push fresh s u).issued := by
    intro f hf
    rcases List.mem_append.mp hf with hold | hlast
    · exact List.mem_cons_of_mem _ (hdistinct.issued f hold)
    · rw [List.mem_singleton.mp hlast]
      exact List.mem_cons_self
  have hlength : (l.push fresh s u).entries.length = l.entries.length + 1 := by
    simp [Lru.push]
  have hbounded := hdistinct.bounded
  unfold trim
  by_cases hfull : (l.push fresh s u).capacity < (l.push fresh s u).entries.length
  · rw [if_pos hfull]
    have htail : (l.push fresh s u).entries.tail.Sublist (l.push fresh s u).entries :=
      List.tail_sublist _
    refine ⟨(htail.map _).nodup hstates, (htail.map _).nodup hhandles, fun f hf => ?_, ?_,
      hdistinct.positive⟩
    · exact hissued f (htail.mem hf)
    · change (l.push fresh s u).entries.tail.length ≤ l.capacity
      rw [List.length_tail, hlength]
      exact hbounded
  · rw [if_neg hfull]
    exact ⟨hstates, hhandles, hissued, Nat.le_of_not_lt hfull, hdistinct.positive⟩

/-- Clearing keeps the list distinct. -/
theorem Distinct.clear (hdistinct : l.Distinct) : l.clear.Distinct :=
  ⟨List.nodup_nil, List.nodup_nil, by simp [Lru.clear], Nat.zero_le _, hdistinct.positive⟩

variable [UnitCompiler γ]

/-- Ensuring a state keeps the list distinct, if the handle is a new one. -/
theorem Distinct.ensure (hdistinct : l.Distinct) (hfresh : fresh ∉ l.issued) (s : PipelineState) :
    (l.ensure fresh s).2.Distinct := by
  unfold Lru.ensure
  cases hfind : l.find? s with
  | some e => exact hdistinct.hit (hdistinct.find?_eq_some.mp hfind).1
  | none =>
    have hmiss := hdistinct.miss (UnitCompiler.compile l.compiler s).compiler
    simp only
    cases (UnitCompiler.compile l.compiler s).result with
    | error cause => exact hmiss
    | ok u => exact hmiss.push hfresh hfind u

/-- Every call keeps states and handles distinct. -/
theorem Distinct.call (hdistinct : l.Distinct) (hfresh : fresh ∉ l.issued) (c : CacheCall) :
    (l.call fresh c).2.Distinct := by
  cases c with
  | ensure s => exact hdistinct.ensure hfresh s
  | lookup s => exact hdistinct
  | unit h => exact hdistinct
  | recency => exact hdistinct
  | size => exact hdistinct
  | stats => exact hdistinct
  | clear => exact hdistinct.clear

end Lru

end PixelPipeline
