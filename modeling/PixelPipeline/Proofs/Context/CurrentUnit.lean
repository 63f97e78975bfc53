import PixelPipeline.Context.Basic
import PixelPipeline.Proofs.Blend.Cache
import PixelPipeline.Proofs.Blend.Unit

/-!
# The unit of the current state

A context remembers the state it resolved last and the handle it got.  The
handle may have been evicted since, but it is never given to another state, so
a handle that still resolves leads to the unit of the remembered state
(`Backed`).  Whichever way the unit is found, it is that of the current state
(`currentUnit_ok`).
-/

namespace PixelPipeline

open BlendCompiler

namespace Lru

variable {l : Lru BlendCompiler} {s : PipelineState} {e : LruEntry} {h fresh : UnitHandle}
  {u : BlendUnit}

/-- Every cached unit is the unit of its state. -/
def Compiled (l : Lru BlendCompiler) : Prop := ∀ e ∈ l.entries, unitOf e.state = .ok e.unit

/-- A handle was given out and, as long as it is cached, belongs to the state. -/
structure Owns (l : Lru BlendCompiler) (s : PipelineState) (h : UnitHandle) : Prop where
  issued : h ∈ l.issued
  state : ∀ e ∈ l.entries, e.handle = h → e.state = s

/-- A hit brings no new entry. -/
theorem mem_hit {f : LruEntry} (hmem : e ∈ l.entries) (hf : f ∈ (l.hit e).entries) :
    f ∈ l.entries := by
  rcases List.mem_append.mp hf with hkept | hlast
  · exact (List.mem_filter.mp hkept).1
  · rw [List.mem_singleton.mp hlast]
    exact hmem

/-- Trimming brings no new entry. -/
theorem mem_trim {f : LruEntry} (hf : f ∈ l.trim.entries) : f ∈ l.entries := by
  unfold trim at hf
  by_cases hfull : l.capacity < l.entries.length
  · rw [if_pos hfull] at hf
    exact List.mem_of_mem_tail hf
  · rw [if_neg hfull] at hf
    exact hf

/-- Trimming takes no handle back. -/
theorem issued_trim (l : Lru BlendCompiler) : l.trim.issued = l.issued := by
  unfold trim
  split <;> rfl

/-- A list with room for one entry keeps the one that was just added. -/
theorem mem_trim_push (hpositive : 0 < l.capacity) (fresh : UnitHandle) (s : PipelineState)
    (u : BlendUnit) : ⟨s, fresh, u⟩ ∈ (l.push fresh s u).trim.entries := by
  have hmem : (⟨s, fresh, u⟩ : LruEntry) ∈ (l.push fresh s u).entries := by simp [push]
  unfold trim
  by_cases hfull : (l.push fresh s u).capacity < (l.push fresh s u).entries.length
  · rw [if_pos hfull]
    cases hentries : l.entries with
    | nil =>
      have hlength : (l.push fresh s u).entries.length = 1 := by simp [push, hentries]
      rw [hlength] at hfull
      exact (Nat.not_lt.mpr hpositive hfull).elim
    | cons oldest rest => simp [evict, push, hentries]
  · rw [if_neg hfull]
    exact hmem

/-- What ensuring a state does to a list of compiled units: either the state was
there, or its unit is added. -/
theorem ensure_cases (hdistinct : l.Distinct) (fresh : UnitHandle) (s : PipelineState) :
    (∃ e ∈ l.entries, e.state = s ∧ l.ensure fresh s = (.ok e.handle, l.hit e)) ∨
    ∃ u compiler, unitOf s = .ok u ∧
      l.ensure fresh s = (.ok fresh, ((l.miss compiler).push fresh s u).trim) := by
  unfold ensure
  cases hfind : l.find? s with
  | some e =>
    obtain ⟨hmem, hstate⟩ := hdistinct.find?_eq_some.mp hfind
    exact .inl ⟨e, hmem, hstate, rfl⟩
  | none =>
    obtain ⟨u, hu⟩ := unitOf_ok s
    refine .inr ⟨u, (UnitCompiler.compile l.compiler s).compiler, hu, ?_⟩
    simp only [compile_result l.compiler hu]

/-- Ensuring a state answers with the handle of its unit. -/
theorem Compiled.ensure (hcompiled : l.Compiled) (hdistinct : l.Distinct) (fresh : UnitHandle)
    (s : PipelineState) :
    (l.ensure fresh s).2.Compiled ∧ ∃ e ∈ (l.ensure fresh s).2.entries,
      e.state = s ∧ (l.ensure fresh s).1 = .ok e.handle := by
  rcases ensure_cases hdistinct fresh s with hhit | hmiss
  · obtain ⟨e, hmem, hstate, heq⟩ := hhit
    rw [heq]
    refine ⟨fun f hf => hcompiled f (mem_hit hmem hf), e, ?_, hstate, rfl⟩
    exact List.mem_append_right _ List.mem_cons_self
  · obtain ⟨u, compiler, hu, heq⟩ := hmiss
    rw [heq]
    have hmem : (⟨s, fresh, u⟩ : LruEntry) ∈ ((l.miss compiler).push fresh s u).trim.entries :=
      mem_trim_push (l := l.miss compiler) hdistinct.positive fresh s u
    refine ⟨fun f hf => ?_, ⟨s, fresh, u⟩, hmem, rfl, rfl⟩
    rcases List.mem_append.mp (mem_trim hf) with hold | hlast
    · exact hcompiled f hold
    · rw [List.mem_singleton.mp hlast]
      exact hu

/-- A handle goes on to belong to its state, whatever is ensured. -/
theorem Owns.ensure (howns : l.Owns s h) (hdistinct : l.Distinct) (hfresh : fresh ∉ l.issued)
    (s' : PipelineState) : (l.ensure fresh s').2.Owns s h := by
  rcases ensure_cases hdistinct fresh s' with hhit | hmiss
  · obtain ⟨e, hmem, -, heq⟩ := hhit
    rw [heq]
    exact ⟨howns.issued, fun f hf => howns.state f (mem_hit hmem hf)⟩
  · obtain ⟨u, compiler, -, heq⟩ := hmiss
    rw [heq]
    refine ⟨?_, fun f hf hhandle => ?_⟩
    · rw [issued_trim]
      exact List.mem_cons_of_mem _ howns.issued
    · rcases List.mem_append.mp (mem_trim hf) with hold | hlast
      · exact howns.state f hold hhandle
      · -- a new entry has a handle that was never given out
        have hnew : fresh = h := by
          rw [List.mem_singleton.mp hlast] at hhandle
          exact hhandle
        exact (hfresh (hnew ▸ howns.issued)).elim

/-- An entry owns its handle. -/
theorem Distinct.owns (hdistinct : l.Distinct) (hmem : e ∈ l.entries) :
    l.Owns e.state e.handle := by
  refine ⟨hdistinct.issued e hmem, fun f hf hhandle => ?_⟩
  have heq : f = e := List.inj_on_of_nodup_map hdistinct.handles hf hmem hhandle
  rw [heq]

end Lru

/-- The cache is a list of compiled units, and what is remembered about it
holds. -/
structure Backed (cache : UnitCache BlendCompiler)
    (current : Option (PipelineState × UnitHandle)) (l : Lru BlendCompiler) : Prop where
  represents : cache.Represents PipelineState.fingerprint l
  distinct : l.Distinct
  compiled : l.Compiled
  owns : ∀ s h, current = some (s, h) → l.Owns s h

namespace Backed

variable {cache : UnitCache BlendCompiler} {current : Option (PipelineState × UnitHandle)}
  {l : Lru BlendCompiler} {s : PipelineState} {h : UnitHandle} {u : BlendUnit}

/-- A cache made from settings is backed, with nothing remembered. -/
theorem of_settings {settings : Settings} (hcache : UnitCache.ofSettings settings = .ok cache) :
    ∃ l, Backed cache none l := by
  unfold UnitCache.ofSettings at hcache
  cases hvalidate : settings.validate with
  | error fault =>
    rw [hvalidate] at hcache
    cases hcache
  | ok _ =>
    rw [hvalidate] at hcache
    obtain rfl := Except.ok.inj hcache
    refine ⟨_, UnitCache.represents_create _ _ _ _, Lru.distinct_create _ _, ?_, ?_⟩
    · intro e he
      cases he
    · intro s h hnone
      cases hnone

/-- A remembered handle that resolves leads to the unit of the remembered
state. -/
theorem unitOf (hbacked : Backed cache (some (s, h)) l) (hunit : cache.unit? h = some u) :
    unitOf s = .ok u := by
  rw [hbacked.represents.unit?] at hunit
  obtain ⟨e, hunder, heq⟩ := Option.map_eq_some_iff.mp hunit
  obtain ⟨hmem, hhandle⟩ := hbacked.distinct.under?_eq_some.mp hunder
  have hstate := (hbacked.owns s h rfl).state e hmem hhandle
  rw [← hstate, ← heq]
  exact hbacked.compiled e hmem

/-- What is remembered outlives clearing, but is not cached any more. -/
theorem clear (hbacked : Backed cache current l) : Backed cache.clear current l.clear where
  represents := hbacked.represents.clear
  distinct := hbacked.distinct.clear
  compiled e he := by cases he
  owns s h hcurrent := by
    refine ⟨(hbacked.owns s h hcurrent).issued, fun e he => ?_⟩
    cases he

/-- Ensuring a state answers with the handle of its unit, and may be
remembered. -/
theorem ensure (hbacked : Backed cache current l) (s : PipelineState) :
    ∃ h u cache' log l', cache.ensure s = ⟨.ok h, cache', log⟩ ∧ cache'.unit? h = some u ∧
      BlendCompiler.unitOf s = .ok u ∧ Backed cache' current l' ∧
      Backed cache' (some (s, h)) l' := by
  have hfresh := hbacked.represents.next_fresh
  obtain ⟨hresult, hrep⟩ := hbacked.represents.ensureHashed hbacked.distinct s
  obtain ⟨hcompiled, e, hmem, hstate, hhandle⟩ :=
    hbacked.compiled.ensure hbacked.distinct cache.entries.next s
  have hdistinct := hbacked.distinct.ensure hfresh s
  unfold UnitCache.ensure
  rcases hensure : cache.ensureHashed s.fingerprint s with ⟨result, cache', log⟩
  rw [hensure] at hresult hrep
  replace hresult : result = .ok e.handle := hresult.trans hhandle
  subst hresult
  refine ⟨e.handle, e.unit, cache', log, (l.ensure cache.entries.next s).2, rfl, ?_,
    hstate ▸ hcompiled e hmem, ⟨hrep, hdistinct, hcompiled, ?_⟩, ⟨hrep, hdistinct, hcompiled, ?_⟩⟩
  · rw [hrep.unit?, hdistinct.under?_eq_some.mpr ⟨hmem, rfl⟩]
    rfl
  · intro s' h' hcurrent
    exact (hbacked.owns s' h' hcurrent).ensure hbacked.distinct hfresh s
  · intro s' h' hcurrent
    obtain ⟨hs, hh⟩ := Prod.mk.inj (Option.some.inj hcurrent)
    have howns := hdistinct.owns hmem
    rw [hstate, hh] at howns
    rw [← hs]
    exact howns

end Backed

namespace RenderContext

variable {c : RenderContext}

/-- What is remembered serves the current state and is still cached. -/
theorem remembered?_eq_some {h : UnitHandle} {u : BlendUnit}
    (hremembered : c.remembered? = some (h, u)) :
    c.current = some (c.state.pipelineState, h) ∧ c.cache.unit? h = some u := by
  unfold remembered? at hremembered
  cases hcurrent : c.current with
  | none =>
    rw [hcurrent] at hremembered
    cases hremembered
  | some last =>
    rcases last with ⟨s, h'⟩
    simp only [hcurrent] at hremembered
    by_cases hsame : s = c.state.pipelineState
    · rw [if_pos hsame] at hremembered
      obtain ⟨u', hunit, heq⟩ := Option.map_eq_some_iff.mp hremembered
      obtain ⟨rfl, rfl⟩ := Prod.mk.inj heq
      exact ⟨by rw [hsame], hunit⟩
    · rw [if_neg hsame] at hremembered
      cases hremembered

/-- What is remembered and still cached is the current unit, and nothing changes. -/
theorem currentUnit_of_some {found : UnitHandle × BlendUnit}
    (hremembered : c.remembered? = some found) : c.currentUnit = .quiet (.ok found) c := by
  unfold currentUnit
  rw [hremembered]

/-- Otherwise the unit is asked of the cache. -/
theorem currentUnit_of_none (hremembered : c.remembered? = none) :
    c.currentUnit = c.resolveUnit := by
  unfold currentUnit
  rw [hremembered]

/-- Resolving through the cache remembers the state and the handle. -/
theorem resolveUnit_of_ensure {h : UnitHandle} {u : BlendUnit} {cache : UnitCache BlendCompiler}
    {log : Log} (hensure : c.cache.ensure c.state.pipelineState = ⟨.ok h, cache, log⟩)
    (hunit : cache.unit? h = some u) :
    c.resolveUnit = ⟨.ok (h, u), { c with cache, current := some (c.state.pipelineState, h) },
      log ++ [] ++ []⟩ := by
  have hfound : c.cache.ensureUnit c.state.pipelineState = ⟨.ok (h, u), cache, log ++ []⟩ := by
    unfold UnitCache.ensureUnit
    rw [Reply.andThen_of_ok hensure, hunit]
    rfl
  have hmapped : (c.cache.ensureUnit c.state.pipelineState).mapState (fun cache => { c with cache })
      = ⟨.ok (h, u), { c with cache }, log ++ []⟩ := by
    rw [hfound]
    rfl
  unfold resolveUnit
  rw [Reply.andThen_of_ok hmapped]
  rfl

/-- Whichever way it is found, the current unit is the unit of the current
state, and finding it changes the cache and the memory of it only. -/
theorem currentUnit_ok {l : Lru BlendCompiler} (hbacked : Backed c.cache c.current l) :
    ∃ h u cache current l' log, c.currentUnit = ⟨.ok (h, u), { c with cache, current }, log⟩ ∧
      unitOf c.state.pipelineState = .ok u ∧ Backed cache current l' := by
  cases hremembered : c.remembered? with
  | some found =>
    rcases found with ⟨h, u⟩
    obtain ⟨hcurrent, hunit⟩ := remembered?_eq_some hremembered
    refine ⟨h, u, c.cache, c.current, l, [], currentUnit_of_some hremembered, ?_, hbacked⟩
    rw [hcurrent] at hbacked
    exact hbacked.unitOf hunit
  | none =>
    obtain ⟨h, u, cache, log, l', hensure, hunit, hu, -, hbacked'⟩ :=
      hbacked.ensure c.state.pipelineState
    exact ⟨h, u, cache, _, l', _,
      (currentUnit_of_none hremembered).trans (resolveUnit_of_ensure hensure hunit), hu, hbacked'⟩

end RenderContext

end PixelPipeline
