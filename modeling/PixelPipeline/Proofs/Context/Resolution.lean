import PixelPipeline.Proofs.Blend.CacheRuns
import PixelPipeline.Proofs.Context.Fragments

/-!
# Resolving a unit

A unit is resolved when somebody asks for the unit of a state and gets a handle
and the unit.  A resolution is faithful if the unit is the one of the state that
was asked for and the handle leads to it in the cache at that moment.

Two kinds of users share a cache with others.  A context remembers a handle
while its cache is used directly, so units are evicted and cleared behind its
back.  Clients of a shared cache hold handles while others use it, one call at a
time and in any order.  Neither ever sees a handle that leads to another state's
unit, and a handle that was just resolved is never missing: an entry that was
just added is not the one that is evicted, and a handle that was given out is
not given out again.

* `Backed.ensureUnit` — what one resolution does;
* `performAll_faithful` — every resolution of a shared cache is faithful, and
  its handle leads to its unit or nowhere ever after;
* `resolutions_faithful` — the same of contexts and of shared caches.
-/

namespace PixelPipeline

open BlendCompiler

/-- A state for which a unit was asked, the answer, and the cache right after. -/
structure Resolution where
  asked : PipelineState
  answer : Except Fault (UnitHandle × BlendUnit)
  cache : UnitCache BlendCompiler

/-- The answer is a unit of the state, and its handle leads to it. -/
def Resolution.Faithful (r : Resolution) : Prop :=
  ∃ h u, r.answer = .ok (h, u) ∧ u.state = r.asked ∧ r.cache.unit? h = some u

/-! ## One resolution -/

namespace Backed

variable {cache cache' : UnitCache BlendCompiler} {h : UnitHandle} {u : BlendUnit}
  {current : Option (PipelineState × UnitHandle)} {l : Lru BlendCompiler}

/-- Asking for a state's unit answers with it; what was remembered before stays
true, and the answer may be remembered. -/
theorem ensureUnit (hbacked : Backed cache current l) (s : PipelineState) :
    ∃ h u cache' l', (cache.ensureUnit s).result = .ok (h, u) ∧
      (cache.ensureUnit s).state = cache' ∧ BlendCompiler.unitOf s = .ok u ∧
        cache'.unit? h = some u ∧
      Backed cache' current l' ∧ Backed cache' (some (s, h)) l' := by
  obtain ⟨h, u, cache', log, l', hensure, hunit, hu, hkept, hremembered⟩ := hbacked.ensure s
  refine ⟨h, u, cache', l', ?_, ?_, hu, hunit, hkept, hremembered⟩
  · unfold UnitCache.ensureUnit
    rw [Reply.andThen_of_ok hensure, hunit]
    rfl
  · unfold UnitCache.ensureUnit
    rw [Reply.andThen_of_ok hensure, hunit]
    rfl

/-- A call keeps what was remembered true. -/
theorem call (hbacked : Backed cache current l) (k : CacheCall) :
    ∃ l', Backed (cache.call PipelineState.fingerprint k).2 current l' := by
  cases k with
  | ensure s =>
    obtain ⟨h, u, cache', log, l', hensure, -, -, hkept, -⟩ := hbacked.ensure s
    unfold UnitCache.ensure at hensure
    refine ⟨l', ?_⟩
    rw [UnitCache.state_call_ensure, hensure]
    exact hkept
  | lookup s => exact ⟨l, hbacked⟩
  | unit h => exact ⟨l, hbacked⟩
  | recency => exact ⟨l, hbacked⟩
  | size => exact ⟨l, hbacked⟩
  | stats => exact ⟨l, hbacked⟩
  | clear =>
    refine ⟨l.clear, ?_⟩
    change Backed cache.clear current l.clear
    exact hbacked.clear

/-- A backed cache stays backed over any run of calls. -/
theorem runCalls (hbacked : Backed cache current l) (calls : List CacheCall) :
    ∃ l', Backed (cache.runCalls PipelineState.fingerprint calls).2 current l' := by
  induction calls generalizing cache l with
  | nil => exact ⟨l, hbacked⟩
  | cons k calls ih =>
    obtain ⟨l', hnext⟩ := hbacked.call k
    unfold UnitCache.runCalls
    exact ih hnext

end Backed

/-! ## Shared caches -/

/-- Whoever uses a shared cache, by number. -/
abbrev Client : Type := Nat

/-- What a client does with a shared cache while nobody else uses it. -/
inductive SharedCall where
  /-- Asks for the unit of a state. -/
  | resolve (s : PipelineState)
  /-- Calls the cache directly, several times in a row. -/
  | within (calls : List CacheCall)

namespace UnitCache

/-- The resolution that a call makes, if it makes one, and the cache after it. -/
def perform (c : UnitCache BlendCompiler) :
    SharedCall → Option Resolution × UnitCache BlendCompiler
  | .resolve s =>
    let reply := c.ensureUnit s
    (some ⟨s, reply.result, reply.state⟩, reply.state)
  | .within calls => (none, (c.runCalls PipelineState.fingerprint calls).2)

/-- Resolving ensures the state and reports the cache right after. -/
theorem perform_resolve (c : UnitCache BlendCompiler) (s : PipelineState) :
    c.perform (.resolve s)
      = (some ⟨s, (c.ensureUnit s).result, (c.ensureUnit s).state⟩, (c.ensureUnit s).state) := rfl

/-- The resolutions of calls in the order in which the clients get their turns,
and the cache after them. -/
def performAll (c : UnitCache BlendCompiler) :
    List (Client × SharedCall) → List (Client × Resolution) × UnitCache BlendCompiler
  | [] => ([], c)
  | (client, k) :: rest =>
    let (made, c) := c.perform k
    let (later, c) := c.performAll rest
    ((made.map fun r => (client, r)).toList ++ later, c)

end UnitCache

namespace Backed

variable {cache : UnitCache BlendCompiler} {current : Option (PipelineState × UnitHandle)}
  {l : Lru BlendCompiler}

/-- A call on a shared cache keeps what anybody remembers true. -/
theorem perform (hbacked : Backed cache current l) (k : SharedCall) :
    ∃ l', Backed (cache.perform k).2 current l' := by
  cases k with
  | resolve s =>
    obtain ⟨h, u, cache', l', -, hstate, -, -, hkept, -⟩ := hbacked.ensureUnit s
    refine ⟨l', ?_⟩
    rw [UnitCache.perform_resolve, hstate]
    exact hkept
  | within calls => exact hbacked.runCalls calls

/-- A backed cache stays backed over any schedule. -/
theorem performAll (hbacked : Backed cache current l) (schedule : List (Client × SharedCall)) :
    ∃ l', Backed (cache.performAll schedule).2 current l' := by
  induction schedule generalizing cache l with
  | nil => exact ⟨l, hbacked⟩
  | cons turn rest ih =>
    obtain ⟨l', hnext⟩ := hbacked.perform turn.2
    unfold UnitCache.performAll
    exact ih hnext

/-- The resolution of a call is faithful, and its answer may be remembered. -/
theorem perform_faithful (hbacked : Backed cache current l) (k : SharedCall) {r : Resolution}
    (hmade : (cache.perform k).1 = some r) :
    r.Faithful ∧ ∀ h u, r.answer = .ok (h, u) →
      BlendCompiler.unitOf r.asked = .ok u ∧
      ∃ l', Backed (cache.perform k).2 (some (r.asked, h)) l' := by
  cases k with
  | resolve s =>
    obtain ⟨h, u, cache', l', hresult, hstate, hu, hunit, -, hremembered⟩ := hbacked.ensureUnit s
    rw [UnitCache.perform_resolve, hresult, hstate] at hmade ⊢
    obtain rfl := Option.some.inj hmade
    constructor
    · exact ⟨h, u, rfl, (unitOf_program hu).1, hunit⟩
    · intro h' u' hanswer
      obtain ⟨rfl, rfl⟩ := Prod.mk.inj (Except.ok.inj hanswer)
      exact ⟨hu, l', hremembered⟩
  | within calls => cases hmade

/-- **Every resolution is faithful, and its handle stays faithful**: whatever
the clients do afterwards, it leads to the resolved unit or nowhere. -/
theorem performAll_faithful (hbacked : Backed cache current l)
    (schedule : List (Client × SharedCall)) :
    ∀ made ∈ (cache.performAll schedule).1, made.2.Faithful ∧
      ∀ h u, made.2.answer = .ok (h, u) →
        ∀ u', (cache.performAll schedule).2.unit? h = some u' → u' = u := by
  induction schedule generalizing cache l with
  | nil =>
    intro made hmem
    cases hmem
  | cons turn rest ih =>
    intro made hmem
    obtain ⟨l', hnext⟩ := hbacked.perform turn.2
    have hlater := ih hnext
    unfold UnitCache.performAll at hmem ⊢
    rcases List.mem_append.mp hmem with hnow | hmem
    · obtain ⟨r, hr, rfl⟩ := Option.map_eq_some_iff.mp (Option.mem_toList.mp hnow)
      obtain ⟨hfaithful, hheld⟩ := hbacked.perform_faithful turn.2 hr
      refine ⟨hfaithful, ?_⟩
      intro h u hanswer u' hfound
      -- the answer is remembered through all later calls
      obtain ⟨hu, l'', hremembered⟩ := hheld h u hanswer
      obtain ⟨final, hfinal⟩ := hremembered.performAll rest
      have hu' := hfinal.unitOf hfound
      rw [hu] at hu'
      exact (Except.ok.inj hu').symm
    · exact hlater made hmem

/-- A new cache around a compiler that lowers blend programs. -/
theorem create (compiler : BlendCompiler) (capacity buckets : Nat) :
    Backed (.create compiler capacity buckets) none (.create compiler capacity) where
  represents := UnitCache.represents_create _ compiler capacity buckets
  distinct := Lru.distinct_create compiler capacity
  compiled e he := by cases he
  owns s h hnone := by cases hnone

end Backed

/-! ## Contexts -/

namespace RenderContext

variable {c c' : RenderContext} {h : UnitHandle} {u : BlendUnit}

/-- One resolution serves whatever the context does next: it names the handle,
and a fragment or a draw runs with its unit. -/
structure Serves (c : RenderContext) (h : UnitHandle) (u : BlendUnit) (c' : RenderContext) :
    Prop where
  faithful : Resolution.Faithful ⟨c.state.pipelineState, .ok (h, u), c'.cache⟩
  /-- Only the cache and the memory of it change. -/
  frame : ∃ cache current, c' = { c with cache, current }
  ensureCompiled : c.ensureCompiled.result = .ok h ∧ c.ensureCompiled.state = c'
  processFragment : ∀ {σ : Type} (shader : Shader σ) (f : Fragment) (memory : σ),
    let ran := c'.stage.run u shader f ⟨c'.resources, memory⟩
    (c.processFragment shader f memory).result = ran.1 ∧
      (c.processFragment shader f memory).state
        = ⟨{ c' with resources := ran.2.resources }, ran.2.memory⟩
  draw : ∀ {σ : Type} (shader : Shader σ) (fragments : List Fragment) (memory : σ),
    let ran := c'.stage.runAll u shader fragments default ⟨c'.resources, memory⟩
    (c.draw shader fragments memory).result = ran.1 ∧
      (c.draw shader fragments memory).state
        = ⟨{ c' with resources := ran.2.resources }, ran.2.memory⟩

/-- Whatever the context does next begins with the current unit. -/
theorem serves_of_currentUnit {log : Log} (hunit : c.currentUnit = ⟨.ok (h, u), c', log⟩)
    (hfaithful : Resolution.Faithful ⟨c.state.pipelineState, .ok (h, u), c'.cache⟩)
    (hframe : ∃ cache current, c' = { c with cache, current }) : c.Serves h u c' where
  faithful := hfaithful
  frame := hframe
  ensureCompiled := by
    unfold RenderContext.ensureCompiled
    rw [Reply.andThen_of_ok hunit]
    exact ⟨rfl, rfl⟩
  processFragment shader f memory := by
    rw [processFragment_of_currentUnit hunit]
    exact ⟨rfl, rfl⟩
  draw shader fragments memory := by
    unfold RenderContext.draw
    rw [hunit]
    exact ⟨rfl, rfl⟩

/-- The remembered handle and a handle from the cache serve alike. -/
theorem Coherent.serves (hcoherent : c.Coherent) : ∃ h u c', c.Serves h u c' := by
  obtain ⟨l, hbacked⟩ := hcoherent.backed
  cases hremembered : c.remembered? with
  | some found =>
    rcases found with ⟨h, u⟩
    obtain ⟨hcurrent, hfound⟩ := remembered?_eq_some hremembered
    rw [hcurrent] at hbacked
    have hprogram := (unitOf_program (hbacked.unitOf hfound)).1
    exact ⟨h, u, c, serves_of_currentUnit (currentUnit_of_some hremembered)
      ⟨h, u, rfl, hprogram, hfound⟩ ⟨c.cache, c.current, rfl⟩⟩
  | none =>
    obtain ⟨h, u, cache, log, l', hensure, hfound, hu, -, -⟩ :=
      hbacked.ensure c.state.pipelineState
    have hunit := resolveUnit_of_ensure hensure hfound
    exact ⟨h, u, _, serves_of_currentUnit ((currentUnit_of_none hremembered).trans hunit)
      ⟨h, u, rfl, (unitOf_program hu).1, hfound⟩ ⟨cache, _, rfl⟩⟩

/-- A direct call on the cache of a context resolves, too. -/
theorem Coherent.ensure_faithful (hcoherent : c.Coherent) (s : PipelineState) :
    ∃ h u, (c.cache.ensure s).result = .ok h ∧
      Resolution.Faithful ⟨s, .ok (h, u), (c.cache.ensure s).state⟩ := by
  obtain ⟨l, hbacked⟩ := hcoherent.backed
  obtain ⟨h, u, cache, log, l', hensure, hfound, hu, -, -⟩ := hbacked.ensure s
  rw [hensure]
  exact ⟨h, u, rfl, h, u, rfl, (unitOf_program hu).1, hfound⟩

end RenderContext

/-- **Units are resolved faithfully, whoever else uses the cache.**  After any
operations on a context and directly on its cache, the context resolves the unit
of its current state under a live handle and runs fragments and draws with it,
and so does a direct call for any state.  When clients take turns on a shared
cache in any order, each of their resolutions is faithful, and a resolved handle
leads to its unit or nowhere from then on.  No resolution fails. -/
theorem resolutions_faithful :
    (∀ c : RenderContext, c.Reachable → (∃ h u c', c.Serves h u c') ∧
      ∀ s, ∃ h u, (c.cache.ensure s).result = .ok h ∧
        Resolution.Faithful ⟨s, .ok (h, u), (c.cache.ensure s).state⟩) ∧
    ∀ (compiler : BlendCompiler) (capacity buckets : Nat) (schedule : List (Client × SharedCall)),
      let run := (UnitCache.create compiler capacity buckets).performAll schedule
      ∀ made ∈ run.1, made.2.Faithful ∧ ∀ h u, made.2.answer = .ok (h, u) →
        ∀ u', run.2.unit? h = some u' → u' = u := by
  constructor
  · intro c hreachable
    exact ⟨hreachable.coherent.serves, hreachable.coherent.ensure_faithful⟩
  · intro compiler capacity buckets schedule
    exact (Backed.create compiler capacity buckets).performAll_faithful schedule

/-- A state that takes the only place in the cache of the pixel. -/
def rival : PipelineState := { RenderContext.pixel.state.pipelineState with blendEnabled := true }

/-- A unit whose place a rival state takes is resolved anew, and faithfully both times. -/
theorem resolutions_faithful_rival :
    let c := RenderContext.pixel.ensureCompiled.state
    let evicted : RenderContext := { c with cache := (c.cache.ensure rival).state }
    let run := (UnitCache.create (BlendCompiler.new false) 1 1).performAll
      [(0, .resolve rival), (1, .within [.clear]), (1, .resolve c.state.pipelineState)]
    evicted.Reachable ∧ (∃ h u c', evicted.Serves h u c') ∧ run.1.map Prod.fst = [0, 1] ∧
      ∀ made ∈ run.1, made.2.Faithful := by
  intro c evicted run
  have hreachable : evicted.Reachable :=
    (RenderContext.pixel_reachable.step .ensureCompiled).step (.ensure rival)
  obtain ⟨hcontexts, hshared⟩ := resolutions_faithful
  refine ⟨hreachable, (hcontexts evicted hreachable).1, rfl, fun made hmem => ?_⟩
  exact (hshared _ _ _ _ made hmem).1

end PixelPipeline
