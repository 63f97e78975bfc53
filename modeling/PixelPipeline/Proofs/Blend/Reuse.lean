import Mathlib.Data.Finset.Card
import Mathlib.Data.List.DropRight
import PixelPipeline.Proofs.Blend.Integrity
import PixelPipeline.Proofs.Blend.Unit

/-!
# Reuse distance

What a cache holds is determined by what it was asked for.  Ordered by their
last requests, the requested states are the history without its repetitions,
and a cache of capacity `n` holds the last `n` of them, as long as no state is
refused (`Recalls`).  A state is among the last `n` exactly when fewer than `n`
others were requested since (`mem_recent_iff`).

Hence the distance to the last request decides between hit and miss, and a
larger cache holds whatever a smaller one does (`Fresh.reuse`).
-/

namespace PixelPipeline

/-! ## The last distinct states -/

section

variable {α : Type} {s : α} {old recent xs history : List α} {n : Nat}

/-- A list that is not longer is taken whole. -/
theorem rtake_of_length_le (hle : xs.length ≤ n) : xs.rtake n = xs := by
  unfold List.rtake
  rw [Nat.sub_eq_zero_of_le hle, List.drop_zero]

/-- What is taken from the end lies in the end if that is long enough. -/
theorem rtake_append (hlength : n ≤ recent.length) : (old ++ recent).rtake n = recent.rtake n := by
  unfold List.rtake
  have hsplit : (old ++ recent).length - n = old.length + (recent.length - n) := by
    rw [List.length_append]
    omega
  rw [hsplit, List.drop_append, List.drop_eq_nil_of_le (by omega), List.nil_append,
    Nat.add_sub_cancel_left]

/-- A list ends in the elements that are taken from its end, and if there are
fewer than were asked for, in nothing else. -/
theorem exists_rtake (xs : List α) (n : Nat) :
    ∃ old, xs = old ++ xs.rtake n ∧ (xs.rtake n).length ≤ n ∧
      (old = [] ∨ (xs.rtake n).length = n) := by
  refine ⟨xs.take (xs.length - n), (List.take_append_drop _ _).symm, ?_, ?_⟩
  · unfold List.rtake
    rw [List.length_drop]
    omega
  · unfold List.rtake
    by_cases hle : xs.length ≤ n
    · rw [Nat.sub_eq_zero_of_le hle]
      exact .inl List.take_zero
    · rw [List.length_drop]
      exact .inr (by omega)

/-- A list that has a member has a last place with it. -/
theorem exists_last (hmem : s ∈ history) :
    ∃ before after, history = before ++ s :: after ∧ s ∉ after := by
  obtain ⟨after, before, hsplit, hlast⟩ := List.eq_append_cons_of_mem (List.mem_reverse.mpr hmem)
  refine ⟨before.reverse, after.reverse, ?_, fun h => hlast (List.mem_reverse.mp h)⟩
  rw [← List.reverse_reverse history, hsplit]
  simp

variable [DecidableEq α]

/-- Asking for a state moves it behind the others. -/
theorem dedup_concat (history : List α) (s : α) :
    (history ++ [s]).dedup = history.dedup.filter (fun x => x ≠ s) ++ [s] := by
  induction history with
  | nil => rfl
  | cons x rest ih =>
    rw [List.cons_append]
    by_cases hx : x ∈ rest
    · rw [List.dedup_cons_of_mem (List.mem_append_left _ hx), List.dedup_cons_of_mem hx, ih]
    rw [List.dedup_cons_of_notMem hx]
    by_cases hs : x = s
    · rw [List.dedup_cons_of_mem (by simp [hs]), ih, List.filter_cons_of_neg (by simp [hs])]
    · rw [List.dedup_cons_of_notMem (by simp [hx, hs]), ih, List.filter_cons_of_pos (by simp [hs]),
        List.cons_append]

/-- A state among the last distinct ones moves behind them. -/
theorem recent_hit (hmem : s ∈ history.dedup.rtake (n + 1)) :
    (history ++ [s]).dedup.rtake (n + 1)
      = (history.dedup.rtake (n + 1)).filter (fun x => x ≠ s) ++ [s] := by
  obtain ⟨old, hsplit, hle, hfull⟩ := exists_rtake history.dedup (n + 1)
  have hnodup := history.nodup_dedup
  rw [hsplit] at hnodup
  obtain ⟨-, hrecent, hdisjoint⟩ := List.nodup_append.mp hnodup
  rw [dedup_concat, List.rtake_concat_succ]
  congr 1
  generalize history.dedup.rtake (n + 1) = recent at *
  -- one element fewer, and nothing is taken from the older ones
  have hlength : (recent.filter fun x => x ≠ s).length + 1 = recent.length := by
    have hne : (fun x => decide (x ≠ s)) = fun x => x != s := by
      funext x
      by_cases hx : x = s <;> simp [hx]
    rw [hne, ← hrecent.erase_eq_filter]
    exact List.length_erase_add_one hmem
  have hold : old.filter (fun x => x ≠ s) = old := by
    apply List.filter_eq_self.mpr
    intro x hx
    exact decide_eq_true (hdisjoint x hx s hmem)
  rw [hsplit, List.filter_append, hold]
  rcases hfull with rfl | hfull
  · rw [List.nil_append]
    exact rtake_of_length_le (by omega)
  · rw [rtake_append (by omega)]
    exact rtake_of_length_le (by omega)

/-- Any other state takes the place of the oldest one. -/
theorem recent_miss (hmem : s ∉ history.dedup.rtake (n + 1)) :
    (history ++ [s]).dedup.rtake (n + 1) = (history.dedup.rtake (n + 1) ++ [s]).rtake (n + 1) := by
  obtain ⟨old, hsplit, hle, hfull⟩ := exists_rtake history.dedup (n + 1)
  rw [dedup_concat, List.rtake_concat_succ, List.rtake_concat_succ]
  congr 1
  generalize history.dedup.rtake (n + 1) = recent at *
  have hrecent : recent.filter (fun x => x ≠ s) = recent := by
    apply List.filter_eq_self.mpr
    intro x hx
    exact decide_eq_true fun heq => hmem (heq ▸ hx)
  rw [hsplit, List.filter_append, hrecent]
  rcases hfull with rfl | hfull
  · rfl
  · rw [rtake_append (by omega)]

/-- The state was asked for, and fewer than `n` others since then. -/
def Reused (n : Nat) (history : List α) (s : α) : Prop :=
  ∃ before after, history = before ++ s :: after ∧ s ∉ after ∧ after.toFinset.card < n

theorem Reused.mono {m : Nat} (hreused : Reused n history s) (hle : n ≤ m) :
    Reused m history s := by
  obtain ⟨before, after, hsplit, hlast, hcard⟩ := hreused
  exact ⟨before, after, hsplit, hlast, Nat.lt_of_lt_of_le hcard hle⟩

/-- **The last `n` distinct states are those with fewer than `n` others behind
their last request.** -/
theorem mem_recent_iff : s ∈ history.dedup.rtake n ↔ Reused n history s := by
  -- the states behind the last request come last, and the state before them
  have hplace : ∀ {before after}, history = before ++ s :: after → s ∉ after →
      ∃ old, history.dedup = old ++ s :: after.dedup := by
    intro before after hsplit hlast
    obtain ⟨old, hold⟩ := List.suffix_union_right before (s :: after.dedup)
    refine ⟨old, ?_⟩
    rw [hsplit, List.dedup_append, List.dedup_cons_of_notMem hlast, hold]
  constructor
  · intro hmem
    have hrequested : s ∈ history := List.mem_dedup.mp (List.mem_of_mem_drop hmem)
    obtain ⟨before, after, hsplit, hlast⟩ := exists_last hrequested
    refine ⟨before, after, hsplit, hlast, ?_⟩
    rw [List.card_toFinset]
    refine Nat.lt_of_not_le fun hle => hlast ?_
    obtain ⟨old, hdedup⟩ := hplace hsplit hlast
    rw [hdedup, List.append_cons, rtake_append hle] at hmem
    exact List.mem_dedup.mp (List.mem_of_mem_drop hmem)
  · rintro ⟨before, after, hsplit, hlast, hcard⟩
    rw [List.card_toFinset] at hcard
    obtain ⟨old, hdedup⟩ := hplace hsplit hlast
    obtain ⟨older, htaken, -, hfull⟩ := exists_rtake history.dedup n
    rcases hfull with rfl | hfull
    · rw [← List.nil_append (history.dedup.rtake n), ← htaken, hdedup]
      exact List.mem_append_right _ List.mem_cons_self
    · have hlonger : s :: after.dedup <:+ history.dedup := ⟨old, hdedup.symm⟩
      have htake : history.dedup.rtake n <:+ history.dedup := ⟨older, htaken.symm⟩
      have hsuffix : s :: after.dedup <:+ history.dedup.rtake n := by
        apply List.suffix_of_suffix_length_le hlonger htake
        rw [hfull]
        exact hcard
      exact hsuffix.subset List.mem_cons_self

end

/-! ## The list of cached states -/

/-- The state that a call asks for. -/
def CacheCall.request? : CacheCall → Option PipelineState
  | .ensure s => some s
  | _ => none

/-- The states that calls ask for, in order. -/
def CacheCall.requests (calls : List CacheCall) : List PipelineState :=
  calls.filterMap CacheCall.request?

namespace Lru

variable {γ : Type} {l : Lru γ} {s : PipelineState} {fresh : UnitHandle}
  {history : List PipelineState}

/-- The cached states from the least to the most recently used. -/
def states (l : Lru γ) : List PipelineState := l.entries.map LruEntry.state

/-- The list holds the last distinct states of the history. -/
def Recalls (l : Lru γ) (history : List PipelineState) : Prop :=
  l.states = history.dedup.rtake l.capacity

/-- A hit moves the state to the end. -/
theorem states_hit (l : Lru γ) (e : LruEntry) :
    (l.hit e).states = l.states.filter (fun s => s ≠ e.state) ++ [e.state] := by
  unfold states hit
  rw [List.map_append, List.filter_map]
  rfl

/-- A new state goes to the end. -/
theorem states_push (l : Lru γ) (fresh : UnitHandle) (s : PipelineState) (u : BlendUnit) :
    (l.push fresh s u).states = l.states ++ [s] := by
  unfold states push
  rw [List.map_append]
  rfl

/-- Trimming leaves the capacity. -/
theorem capacity_trim (l : Lru γ) : l.trim.capacity = l.capacity := by
  unfold trim
  split <;> rfl

/-- Trimming keeps the last states when there is one too many. -/
theorem states_trim (hle : l.entries.length ≤ l.capacity + 1) :
    l.trim.states = l.states.rtake l.capacity := by
  have hlength : l.states.length = l.entries.length := List.length_map _
  unfold trim
  by_cases hfull : l.capacity < l.entries.length
  · rw [if_pos hfull]
    unfold List.rtake
    rw [hlength, show l.entries.length - l.capacity = 1 by omega, List.drop_one]
    exact List.map_tail
  · rw [if_neg hfull]
    exact (rtake_of_length_le (by omega)).symm

variable [UnitCompiler γ]

/-- Ensuring a state leaves the capacity. -/
theorem capacity_ensure (l : Lru γ) (fresh : UnitHandle) (s : PipelineState) :
    (l.ensure fresh s).2.capacity = l.capacity := by
  unfold ensure
  cases l.find? s with
  | some e => rfl
  | none =>
    simp only
    cases (UnitCompiler.compile l.compiler s).result with
    | error cause => rfl
    | ok u => exact capacity_trim _

/-- A state that is not refused is the last one from then on. -/
theorem Recalls.ensure (hrecalls : l.Recalls history) (hdistinct : l.Distinct) {h : UnitHandle}
    (hserved : (l.ensure fresh s).1 = .ok h) : (l.ensure fresh s).2.Recalls (history ++ [s]) := by
  obtain ⟨n, hn⟩ := Nat.exists_eq_add_one_of_ne_zero (Nat.ne_of_gt hdistinct.positive)
  have hbounded := hdistinct.bounded
  unfold Recalls at hrecalls ⊢
  rw [capacity_ensure, hn]
  rw [hn] at hrecalls
  unfold Lru.ensure at hserved ⊢
  cases hfind : l.find? s with
  | some e =>
    obtain ⟨hmem, rfl⟩ := hdistinct.find?_eq_some.mp hfind
    have hcached : e.state ∈ l.states := List.mem_map_of_mem hmem
    simp only
    rw [states_hit, hrecalls, recent_hit (hrecalls ▸ hcached)]
  | none =>
    have hcached : s ∉ l.states := find?_eq_none.mp hfind
    rw [hfind] at hserved
    simp only at hserved ⊢
    cases hresult : (UnitCompiler.compile l.compiler s).result with
    | error cause =>
      rw [hresult] at hserved
      cases hserved
    | ok u =>
      have hlength :
          ((l.miss (UnitCompiler.compile l.compiler s).compiler).push fresh s u).entries.length
            = l.entries.length + 1 := List.length_append
      simp only
      rw [states_trim (by rw [hlength]; exact Nat.succ_le_succ hbounded), states_push]
      change (l.states ++ [s]).rtake l.capacity = _
      rw [hrecalls, recent_miss (hrecalls ▸ hcached), hn]

/-- An ensured state counts as a hit if it was cached, and as a miss if not. -/
theorem counts_ensure (l : Lru γ) (fresh : UnitHandle) (s : PipelineState) :
    (l.ensure fresh s).2.stats.hits = l.stats.hits + (if s ∈ l.states then 1 else 0) ∧
      (l.ensure fresh s).2.stats.misses = l.stats.misses + (if s ∈ l.states then 0 else 1) := by
  have htrim : ∀ l : Lru γ, l.trim.stats.hits = l.stats.hits ∧
      l.trim.stats.misses = l.stats.misses := by
    intro l
    unfold trim
    split <;> exact ⟨rfl, rfl⟩
  unfold ensure
  cases hfind : l.find? s with
  | some e =>
    have hcached : s ∈ l.states := by
      refine Decidable.not_not.mp fun hnone => ?_
      rw [find?_eq_none.mpr hnone] at hfind
      cases hfind
    rw [if_pos hcached, if_pos hcached]
    exact ⟨rfl, rfl⟩
  | none =>
    have hcached : s ∉ l.states := find?_eq_none.mp hfind
    rw [if_neg hcached, if_neg hcached]
    simp only
    cases (UnitCompiler.compile l.compiler s).result with
    | error cause => exact ⟨rfl, rfl⟩
    | ok u => exact htrim _

end Lru

/-! ## Caches -/

namespace UnitCache

variable {γ γ' : Type} [UnitCompiler γ] [UnitCompiler γ'] {c : UnitCache γ} {c' : UnitCache γ'}
  {capacity capacity' : Nat} {s : PipelineState} {history : List PipelineState} {k : CacheCall}
  {calls : List CacheCall}

/-- The cache was just made, or cleared after any calls. -/
inductive Fresh (capacity : Nat) : UnitCache γ → Prop
  | created (compiler : γ) (buckets : Nat) : Fresh capacity (create compiler capacity buckets)
  | cleared (compiler : γ) (buckets : Nat) (earlier : List CacheCall) :
      Fresh capacity
        ((create compiler capacity buckets).runCalls PipelineState.fingerprint earlier).2.clear

/-- No call of these asks for a state that is refused. -/
def Serves (c : UnitCache γ) (calls : List CacheCall) : Prop :=
  ∀ fault, CacheAnswer.ensured (.error fault) ∉ (c.runCalls PipelineState.fingerprint calls).1

/-- The cache holds the last distinct states of the history. -/
def Recalls (capacity : Nat) (c : UnitCache γ) (history : List PipelineState) : Prop :=
  ∃ l, c.Represents PipelineState.fingerprint l ∧ l.Distinct ∧ l.capacity = max capacity 1 ∧
    l.Recalls history

/-- A fresh cache recalls nothing and has counted nothing. -/
theorem Fresh.recalls (hfresh : c.Fresh capacity) :
    c.Recalls capacity [] ∧ c.stats = default := by
  cases hfresh with
  | created compiler buckets =>
    exact ⟨⟨_, represents_create _ compiler capacity buckets, Lru.distinct_create _ _, rfl,
      (List.rtake_nil _).symm⟩, rfl⟩
  | cleared compiler buckets earlier =>
    have hrep := represents_create PipelineState.fingerprint compiler capacity buckets
    obtain ⟨final, -, hdistinct, hfinal⟩ :=
      runCalls_run hrep (Lru.distinct_create compiler capacity) earlier
    have hcapacity : final.capacity = max capacity 1 := by
      rw [← hfinal.capacity]
      exact congrArg Prod.fst (dimensions_runCalls _ _ earlier)
    exact ⟨⟨final.clear, hfinal.clear, hdistinct.clear, hcapacity,
      (List.rtake_nil _).symm⟩, rfl⟩

omit [UnitCompiler γ] in
/-- A state that is held is found, and is one whose reuse distance is below the
capacity. -/
theorem Recalls.lookup?_isSome (hrecalls : c.Recalls capacity history) (s : PipelineState) :
    (c.lookup? s).isSome ↔ Reused (max capacity 1) history s := by
  obtain ⟨l, hrep, hdistinct, hcapacity, hstates⟩ := hrecalls
  have hfound : (l.find? s).isSome ↔ s ∈ l.states := by
    rw [← Decidable.not_iff_not, Option.not_isSome_iff_eq_none]
    exact Lru.find?_eq_none
  unfold lookup?
  rw [hrep.find? hdistinct, Option.isSome_map, hfound, hstates, hcapacity]
  exact mem_recent_iff

/-- Asking for a state counts as a hit if its reuse distance is below the
capacity, and as a miss if not. -/
theorem Recalls.counts (hrecalls : c.Recalls capacity history) (s : PipelineState) :
    ((c.ensure s).state.stats.hits = c.stats.hits + 1 ↔ Reused (max capacity 1) history s) ∧
      ((c.ensure s).state.stats.misses = c.stats.misses + 1
        ↔ ¬ Reused (max capacity 1) history s) := by
  obtain ⟨l, hrep, hdistinct, hcapacity, hstates⟩ := hrecalls
  obtain ⟨hhits, hmisses⟩ := l.counts_ensure c.entries.next s
  have hensured := (hrep.ensureHashed hdistinct s).2.stats
  have hmem : s ∈ l.states ↔ Reused (max capacity 1) history s := by
    rw [hstates, hcapacity]
    exact mem_recent_iff
  unfold ensure
  rw [hensured, hrep.stats, hhits, hmisses, ← hmem]
  by_cases hcached : s ∈ l.states
  · simp [hcached]
  · simp [hcached]

/-! ## Calls in a row -/

/-- The first call does not fail. -/
theorem Serves.head (hserves : c.Serves (k :: calls)) (fault : Fault) :
    (c.call PipelineState.fingerprint k).1 ≠ .ensured (.error fault) :=
  fun heq => hserves fault (List.mem_cons.mpr (.inl heq.symm))

/-- The calls after the first do not fail. -/
theorem Serves.tail (hserves : c.Serves (k :: calls)) :
    (c.call PipelineState.fingerprint k).2.Serves calls :=
  fun fault hmem => hserves fault (List.mem_cons_of_mem _ hmem)

/-- A call adds the state that it asks for to the history. -/
theorem Recalls.call (hrecalls : c.Recalls capacity history) (hkept : k ≠ .clear)
    (hserved : ∀ fault, (c.call PipelineState.fingerprint k).1 ≠ .ensured (.error fault)) :
    (c.call PipelineState.fingerprint k).2.Recalls capacity (history ++ k.request?.toList) := by
  obtain ⟨l, hrep, hdistinct, hcapacity, hstates⟩ := hrecalls
  obtain ⟨hanswer, hnext⟩ := hrep.call hdistinct k
  refine ⟨_, hnext, hdistinct.call hrep.next_fresh k, ?_⟩
  cases k with
  | ensure s =>
    refine ⟨(l.capacity_ensure _ s).trans hcapacity, ?_⟩
    cases hresult : (l.ensure c.entries.next s).1 with
    | error fault =>
      exact (hserved fault (hanswer.trans (congrArg CacheAnswer.ensured hresult))).elim
    | ok h => exact hstates.ensure hdistinct hresult
  | clear => exact (hkept rfl).elim
  | _ => exact ⟨hcapacity, (congrArg l.Recalls (List.append_nil history)).mpr hstates⟩

/-- Of two caches with one history, the larger one has a hit whenever the smaller
one has. -/
theorem Recalls.hits_call_le (hrecalls : c.Recalls capacity history)
    (hrecalls' : c'.Recalls capacity' history) (hle : capacity ≤ capacity')
    (hhits : c.stats.hits ≤ c'.stats.hits) (hkept : k ≠ .clear) :
    (c.call PipelineState.fingerprint k).2.stats.hits
      ≤ (c'.call PipelineState.fingerprint k).2.stats.hits := by
  obtain ⟨l, hrep, hdistinct, hcapacity, hstates⟩ := hrecalls
  obtain ⟨l', hrep', hdistinct', hcapacity', hstates'⟩ := hrecalls'
  rw [(hrep.call hdistinct k).2.stats, (hrep'.call hdistinct' k).2.stats]
  rw [hrep.stats, hrep'.stats] at hhits
  cases k with
  | ensure s =>
    have hinclusion : s ∈ l.states → s ∈ l'.states := by
      rw [hstates, hstates', mem_recent_iff, mem_recent_iff]
      intro hreused
      exact hreused.mono (by omega)
    change (l.ensure c.entries.next s).2.stats.hits ≤ (l'.ensure c'.entries.next s).2.stats.hits
    rw [(l.counts_ensure _ s).1, (l'.counts_ensure _ s).1]
    by_cases hcached : s ∈ l.states
    · rw [if_pos hcached, if_pos (hinclusion hcached)]
      exact Nat.add_le_add_right hhits 1
    · rw [if_neg hcached]
      exact Nat.le_trans hhits (Nat.le_add_right _ _)
  | clear => exact (hkept rfl).elim
  | _ => exact hhits

/-- After a run without clearing the cache recalls what was requested before and in it. -/
theorem Recalls.runCalls (hrecalls : c.Recalls capacity history) (hkept : .clear ∉ calls)
    (hserves : c.Serves calls) :
    (c.runCalls PipelineState.fingerprint calls).2.Recalls capacity
      (history ++ CacheCall.requests calls) := by
  induction calls generalizing c history with
  | nil =>
    rw [CacheCall.requests, List.filterMap_nil, List.append_nil]
    exact hrecalls
  | cons k rest ih =>
    obtain ⟨hk, hrest⟩ := not_or.mp (mt List.mem_cons.mpr hkept)
    have hstep := hrecalls.call (Ne.symm hk) hserves.head
    have hrun := ih hstep hrest hserves.tail
    have hsplit : history ++ CacheCall.requests (k :: rest)
        = history ++ k.request?.toList ++ CacheCall.requests rest := by
      rw [List.append_assoc]
      unfold CacheCall.requests
      cases hrequest : k.request? with
      | none => rw [List.filterMap_cons_none hrequest, Option.toList_none, List.nil_append]
      | some s =>
        rw [List.filterMap_cons_some hrequest]
        rfl
    rw [hsplit]
    exact hrun

/-- **A larger cache hits at least as often** on the same calls. -/
theorem Recalls.hits_runCalls_le (hrecalls : c.Recalls capacity history)
    (hrecalls' : c'.Recalls capacity' history) (hle : capacity ≤ capacity')
    (hhits : c.stats.hits ≤ c'.stats.hits) (hkept : .clear ∉ calls) (hserves : c.Serves calls)
    (hserves' : c'.Serves calls) :
    (c.runCalls PipelineState.fingerprint calls).2.stats.hits
      ≤ (c'.runCalls PipelineState.fingerprint calls).2.stats.hits := by
  induction calls generalizing c c' history with
  | nil => exact hhits
  | cons k rest ih =>
    obtain ⟨hk, hrest⟩ := not_or.mp (mt List.mem_cons.mpr hkept)
    exact ih (hrecalls.call (Ne.symm hk) hserves.head) (hrecalls'.call (Ne.symm hk) hserves'.head)
      (hrecalls.hits_call_le hrecalls' hle hhits (Ne.symm hk)) hrest hserves.tail hserves'.tail

/-- **The reuse distance decides.**  After any calls since a cache was made or
cleared, as long as no state was refused, asking for a state is a hit exactly if
it was asked for before and fewer others than the capacity were since then.  Hence
a cache that is no larger holds no other states and never counts more hits. -/
theorem Fresh.reuse (hfresh : c.Fresh capacity) (hfresh' : c'.Fresh capacity')
    (hle : capacity ≤ capacity') (hkept : .clear ∉ calls) (hserves : c.Serves calls)
    (hserves' : c'.Serves calls) :
    let final := (c.runCalls PipelineState.fingerprint calls).2
    let final' := (c'.runCalls PipelineState.fingerprint calls).2
    (∀ s, (final.ensure s).state.stats.hits = final.stats.hits + 1
        ↔ Reused (max capacity 1) (CacheCall.requests calls) s) ∧
      (∀ s, (final.ensure s).state.stats.misses = final.stats.misses + 1
        ↔ ¬ Reused (max capacity 1) (CacheCall.requests calls) s) ∧
      (∀ s, (final.lookup? s).isSome → (final'.lookup? s).isSome) ∧
      final.stats.hits ≤ final'.stats.hits := by
  intro final final'
  obtain ⟨hstart, hstats⟩ := hfresh.recalls
  obtain ⟨hstart', hstats'⟩ := hfresh'.recalls
  have hrecalls : final.Recalls capacity (CacheCall.requests calls) := hstart.runCalls hkept hserves
  have hrecalls' : final'.Recalls capacity' (CacheCall.requests calls) :=
    hstart'.runCalls hkept hserves'
  refine ⟨fun s => (hrecalls.counts s).1, fun s => (hrecalls.counts s).2, fun s hfound => ?_, ?_⟩
  · rw [hrecalls.lookup?_isSome] at hfound
    rw [hrecalls'.lookup?_isSome]
    exact hfound.mono (by omega)
  · exact hstart.hits_runCalls_le hstart' hle (by rw [hstats, hstats']) hkept hserves hserves'

/-! ## Blend units -/

/-- No state is refused by a compiler that lowers blend programs. -/
theorem serves_blend (c : UnitCache BlendCompiler) (calls : List CacheCall) : c.Serves calls := by
  have hensure : ∀ (c : UnitCache BlendCompiler) hash s fault,
      (c.ensureHashed hash s).result ≠ .error fault := by
    intro c hash s fault hresult
    unfold ensureHashed at hresult
    cases hfind : c.find? hash s with
    | some h =>
      rw [hfind] at hresult
      cases hresult
    | none =>
      obtain ⟨u, hu⟩ := BlendCompiler.unitOf_ok s
      rw [hfind] at hresult
      unfold compileMissing at hresult
      simp only [BlendCompiler.compile_result c.countMiss.compiler hu] at hresult
      cases hresult
  intro fault
  induction calls generalizing c with
  | nil => exact List.not_mem_nil
  | cons k rest ih =>
    intro hmem
    rcases List.mem_cons.mp hmem with hfirst | hrest
    · cases k with
      | ensure s => exact hensure c _ s fault (CacheAnswer.ensured.inj hfirst).symm
      | _ => cases hfirst
    · exact ih _ hrest

/-- A state that writes depth. -/
def depthWriting : PipelineState := { (default : PipelineState) with depthWrite := true }

/-- A state with the global switch on. -/
def blendEnabling : PipelineState := { (default : PipelineState) with blendEnabled := true }

/-- Three states, the first of them twice. -/
def alternation : List CacheCall :=
  [.ensure default, .ensure depthWriting, .ensure default, .lookup depthWriting,
    .ensure blendEnabling]

/-- Two other states were asked for since the second one: it is a miss with room
for two states and a hit with room for three. -/
theorem reuse_alternation : ∃ small large : UnitCache BlendCompiler,
    small.Fresh 2 ∧ large.Fresh 3 ∧ small.Serves alternation ∧ large.Serves alternation ∧
    let final := (small.runCalls PipelineState.fingerprint alternation).2
    let final' := (large.runCalls PipelineState.fingerprint alternation).2
    (final.ensure depthWriting).state.stats.misses = final.stats.misses + 1 ∧
      (final'.ensure depthWriting).state.stats.hits = final'.stats.hits + 1 ∧
      final.stats.hits ≤ final'.stats.hits := by
  have hsmall : Fresh 2 ((create (BlendCompiler.new false) 2 4).runCalls
      PipelineState.fingerprint [.ensure depthWriting]).2.clear := .cleared _ _ _
  have hlarge : Fresh 3 (create (BlendCompiler.new true) 3 1) := .created _ _
  have hkept : CacheCall.clear ∉ alternation := by simp [alternation]
  obtain ⟨-, hmiss, -, hhits⟩ := hsmall.reuse hlarge (by decide) hkept (serves_blend _ _)
    (serves_blend _ _)
  obtain ⟨hhit, -⟩ := hlarge.reuse hlarge (Nat.le_refl 3) hkept (serves_blend _ _)
    (serves_blend _ _)
  refine ⟨_, _, hsmall, hlarge, serves_blend _ _, serves_blend _ _,
    (hmiss depthWriting).mpr ?_, (hhit depthWriting).mpr ?_, hhits⟩
  · rw [← mem_recent_iff]
    decide
  · exact ⟨[default], [default, blendEnabling], rfl, by decide, by decide⟩

end UnitCache

end PixelPipeline
