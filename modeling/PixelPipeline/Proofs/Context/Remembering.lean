import PixelPipeline.Proofs.Context.Batches

/-!
# The remembered unit is transparent

A context that still has the unit of its state does not ask the cache for it, so it neither
counts a hit nor moves the entry to the end of the order of use.  Nobody can tell: the unit that
is remembered, as long as it is cached, is the entry that was used last (`Recent`), and a hit of
that entry moves nothing.

The context is compared with one that forgets its unit before every operation and so ensures its
state in the cache every time (`cache_operateAfresh`).

* `Recent.operate` — one operation is answered alike, and the two stay the same but for the
  count of hits;
* `trace_remembering` — so are all operations from a new context on.
-/

namespace PixelPipeline

/-! ## Counting hits -/

namespace UnitCache

variable {γ : Type}

/-- The cache with another count of hits. -/
def withHits (c : UnitCache γ) (hits : Nat) : UnitCache γ :=
  { c with stats := { c.stats with hits } }

variable (c : UnitCache γ) (hits : Nat)

/-- The count of hits decides nothing about the units. -/
@[simp] theorem unit?_withHits (h : UnitHandle) : (c.withHits hits).unit? h = c.unit? h := rfl

/-- Linking forward does not look at the count of hits. -/
theorem linkForward_withHits (prev next : Option UnitHandle) :
    (c.withHits hits).linkForward prev next = (c.linkForward prev next).withHits hits := by
  have hholds : (c.withHits hits).holds = c.holds := rfl
  unfold linkForward
  rw [hholds]
  cases prev.filter c.holds <;> rfl

/-- Linking backward does not look at the count of hits. -/
theorem linkBackward_withHits (prev next : Option UnitHandle) :
    (c.withHits hits).linkBackward prev next = (c.linkBackward prev next).withHits hits := by
  have hholds : (c.withHits hits).holds = c.holds := rfl
  unfold linkBackward
  rw [hholds]
  cases next.filter c.holds <;> rfl

/-- Changing an entry does not look at the count of hits. -/
theorem modifyEntry_withHits (h : UnitHandle) (f : CacheEntry → CacheEntry) :
    (c.withHits hits).modifyEntry h f = (c.modifyEntry h f).withHits hits := rfl

/-- Taking a handle out does not look at the count of hits. -/
theorem unlink_withHits (h : UnitHandle) :
    (c.withHits hits).unlink h = (c.unlink h).withHits hits := by
  have hentries : (c.withHits hits).entries = c.entries := rfl
  unfold unlink
  rw [hentries]
  cases c.entries.get? h with
  | none => rfl
  | some e =>
    simp only [modifyEntry_withHits, linkForward_withHits, linkBackward_withHits]

/-- Putting a handle at the end does not look at the count of hits. -/
theorem pushBack_withHits (h : UnitHandle) :
    (c.withHits hits).pushBack h = (c.pushBack h).withHits hits := by
  have htail : (c.withHits hits).tail = c.tail := rfl
  unfold pushBack
  simp only [htail, modifyEntry_withHits, linkForward_withHits]
  rfl

/-- Moving a handle to the end does not look at the count of hits. -/
theorem touch_withHits (h : UnitHandle) :
    (c.withHits hits).touch h = (c.touch h).withHits hits := by
  have htail : (c.withHits hits).tail = c.tail := rfl
  unfold touch
  rw [htail]
  split
  · rfl
  · rw [unlink_withHits, pushBack_withHits]

/-- Inserting does not look at the count of hits. -/
theorem insert_withHits (hash : UInt32) (s : PipelineState) (u : BlendUnit) :
    (c.withHits hits).insert hash s u
      = ((c.insert hash s u).1.withHits hits, (c.insert hash s u).2) := by
  unfold insert
  simp only [← pushBack_withHits]
  rfl

/-- Trimming does not look at the count of hits. -/
theorem trim_withHits :
    (c.withHits hits).trim = (c.trim.1.withHits hits, c.trim.2) := by
  have hfull : ((c.withHits hits).capacity < (c.withHits hits).size) = (c.capacity < c.size) := rfl
  have hhead : (c.withHits hits).head = c.head := rfl
  unfold trim evictOldest
  simp only [hfull, hhead, unlink_withHits]
  split
  · cases c.head with
    | none => rfl
    | some h =>
      have hentries : ((c.unlink h).withHits hits).entries = (c.unlink h).entries := rfl
      simp only [hentries]
      cases (c.unlink h).entries.get? h <;> rfl
  · rfl

variable [UnitCompiler γ]

/-- Compiling a missing unit does not look at the count of hits. -/
theorem compileMissing_withHits (hash : UInt32) (s : PipelineState) :
    (c.withHits hits).compileMissing hash s
      = (c.compileMissing hash s).mapState (·.withHits hits) := by
  have hcompiler : (c.withHits hits).compiler = c.compiler := rfl
  have hstep (compiler : γ) : ({ c.withHits hits with compiler } : UnitCache γ)
      = ({ c with compiler } : UnitCache γ).withHits hits := rfl
  unfold compileMissing
  simp only [hcompiler, hstep, insert_withHits, trim_withHits]
  cases (UnitCompiler.compile c.compiler s).result with
  | error cause => rfl
  | ok u => rfl

/-- The count of hits matters to no other part of the cache. -/
theorem ensureHashed_withHits (hash : UInt32) (s : PipelineState) :
    ∃ after, (c.withHits hits).ensureHashed hash s
      = (c.ensureHashed hash s).mapState (·.withHits after) := by
  have hfind : (c.withHits hits).find? hash s = c.find? hash s := rfl
  unfold ensureHashed
  rw [hfind]
  cases c.find? hash s with
  | some h =>
    have hcount : (c.withHits hits).countHit = c.countHit.withHits (hits + 1) := rfl
    refine ⟨hits + 1, ?_⟩
    simp only [hcount, touch_withHits]
    rfl
  | none => exact ⟨hits, c.countMiss.compileMissing_withHits hits hash s⟩

/-- Ensuring a state differs in the count of hits only, if that did. -/
theorem ensure_withHits (s : PipelineState) :
    ∃ after, (c.withHits hits).ensure s = (c.ensure s).mapState (·.withHits after) :=
  c.ensureHashed_withHits hits s.fingerprint s

/-- An entry that was used last is a hit that moves nothing. -/
theorem ensureHashed_of_tail {hash : UInt32} {s : PipelineState} {h : UnitHandle}
    (hfind : c.find? hash s = some h) (htail : c.tail = some h) :
    c.ensureHashed hash s = ⟨.ok h, c.countHit, []⟩ := by
  have hsame : c.countHit.touch h = c.countHit := if_pos htail
  unfold ensureHashed
  rw [hfind]
  simp only [hsame]
  rfl

/-- The unit is looked up in the cache that ensuring its state left. -/
theorem state_ensureUnit (s : PipelineState) : (c.ensureUnit s).state = (c.ensure s).state := by
  unfold ensureUnit
  generalize c.ensure s = reply
  rcases reply with ⟨result, cache, log⟩
  cases result with
  | error fault => rfl
  | ok h =>
    rw [Reply.andThen_of_ok rfl]
    cases cache.unit? h with
    | none => rfl
    | some u => rfl

end UnitCache

/-! ## The entry that was used last -/

/-- Whatever was done to find it, the state asked for is used last. -/
theorem Lru.getLast?_ensure {l : Lru BlendCompiler} (hdistinct : l.Distinct) (fresh : UnitHandle)
    (s : PipelineState) :
    ∃ h, (l.ensure fresh s).1 = .ok h ∧ (l.ensure fresh s).2.handles.getLast? = some h := by
  rcases ensure_cases hdistinct fresh s with hhit | hmiss
  · obtain ⟨e, -, -, heq⟩ := hhit
    refine ⟨e.handle, congrArg Prod.fst heq, ?_⟩
    rw [heq, handles, hit, List.map_append, List.map_singleton, List.getLast?_concat]
  · obtain ⟨u, compiler, -, heq⟩ := hmiss
    refine ⟨fresh, congrArg Prod.fst heq, ?_⟩
    have hpushed : ((l.miss compiler).push fresh s u).handles.getLast? = some fresh := by
      rw [handles, push, List.map_append, List.map_singleton, List.getLast?_concat]
    rw [heq]
    simp only
    unfold trim
    split
    · next hfull =>
      -- the entry that is given up is the first of several
      have hpositive : 0 < ((l.miss compiler).push fresh s u).capacity := hdistinct.positive
      have hseveral : ((l.miss compiler).push fresh s u).handles.length ≠ 1 := by
        rw [handles, List.length_map]
        omega
      rw [handles, evict, List.map_tail, List.getLast?_tail]
      exact (if_neg hseveral).trans hpushed
    · exact hpushed

/-- The state that was ensured last is at the end of the order of use. -/
theorem Backed.tail_ensure {cache cache' : UnitCache BlendCompiler}
    {current : Option (PipelineState × UnitHandle)} {l : Lru BlendCompiler} {s : PipelineState}
    {h : UnitHandle} {log : Log} (hbacked : Backed cache current l)
    (hensure : cache.ensure s = ⟨.ok h, cache', log⟩) : cache'.tail = some h := by
  obtain ⟨hresult, hrep⟩ := hbacked.represents.ensureHashed hbacked.distinct s
  obtain ⟨h', hanswer, hlast⟩ := Lru.getLast?_ensure hbacked.distinct cache.entries.next s
  unfold UnitCache.ensure at hensure
  rw [hensure] at hresult hrep
  obtain rfl : h = h' := Except.ok.inj (hresult.trans hanswer)
  exact hrep.linked.tail.trans hlast

/-- A remembered state that is still cached is found under its handle. -/
theorem Backed.find? {cache : UnitCache BlendCompiler} {l : Lru BlendCompiler} {s : PipelineState}
    {h : UnitHandle} {u : BlendUnit} (hbacked : Backed cache (some (s, h)) l)
    (hunit : cache.unit? h = some u) : cache.find? s.fingerprint s = some h := by
  rw [hbacked.represents.unit?] at hunit
  obtain ⟨e, hunder, -⟩ := Option.map_eq_some_iff.mp hunit
  obtain ⟨hmem, hhandle⟩ := hbacked.distinct.under?_eq_some.mp hunder
  have hstate := (hbacked.owns s h rfl).state e hmem hhandle
  rw [hbacked.represents.find? hbacked.distinct, hbacked.distinct.find?_eq_some.mpr ⟨hmem, hstate⟩,
    Option.map_some, hhandle]

namespace RenderContext

variable {c c' : RenderContext}

/-- What is remembered and still cached was used last. -/
structure Recent (c : RenderContext) : Prop where
  backed : ∃ l, Backed c.cache c.current l
  last : ∀ s h, c.current = some (s, h) → (c.cache.unit? h).isSome → c.cache.tail = some h

/-- The same context but for the count of hits and what is remembered. -/
def Twin (c c' : RenderContext) : Prop :=
  ∃ hits current, c' = { c with cache := c.cache.withHits hits, current }

/-- The context with nothing remembered. -/
def forget (c : RenderContext) : RenderContext := { c with current := none }

/-- Resolving the unit ensures the current state. -/
theorem cache_resolveUnit (c : RenderContext) :
    c.resolveUnit.state.cache = (c.cache.ensure c.state.pipelineState).state := by
  rw [← UnitCache.state_ensureUnit]
  unfold resolveUnit
  rcases hensure : c.cache.ensureUnit c.state.pipelineState with ⟨result, cache, log⟩
  simp only [hensure]
  cases result with
  | error fault => rfl
  | ok h => rfl

/-- **Finding the unit** of the current state: to remember it comes to the same as to ask the
cache. -/
theorem Recent.currentUnit (hrecent : c.Recent) (htwin : c.Twin c') :
    ∃ found d d' log, c.currentUnit = ⟨.ok found, d, log⟩ ∧
      c'.forget.currentUnit = ⟨.ok found, d', log⟩ ∧ d.Recent ∧ d.Twin d' := by
  obtain ⟨hits, last, rfl⟩ := htwin
  obtain ⟨l, hbacked⟩ := hrecent.backed
  -- what the other context remembered is forgotten, so it resolves
  let other := forget { c with cache := c.cache.withHits hits, current := last }
  have hother : other.currentUnit = other.resolveUnit := rfl
  cases hremembered : c.remembered? with
  | some found =>
    rcases found with ⟨h, u⟩
    obtain ⟨hcurrent, hunit⟩ := remembered?_eq_some hremembered
    rw [hcurrent] at hbacked
    -- the other context hits the entry that was used last, which moves nothing
    have hfind := hbacked.find? hunit
    have htail := hrecent.last _ _ hcurrent (by rw [hunit]; rfl)
    have hensure : (c.cache.withHits hits).ensure c.state.pipelineState
        = ⟨.ok h, (c.cache.withHits hits).countHit, []⟩ :=
      (c.cache.withHits hits).ensureHashed_of_tail hfind htail
    have hfound : c.currentUnit = ⟨.ok (h, u), c, []⟩ := currentUnit_of_some hremembered
    have hasked := hother.trans (resolveUnit_of_ensure (c := other) hensure hunit)
    exact ⟨(h, u), c, _, [], hfound, hasked, hrecent, hits + 1, _, rfl⟩
  | none =>
    obtain ⟨h, u, cache, log, l', hensure, hunit, -, -, hbacked'⟩ :=
      hbacked.ensure c.state.pipelineState
    obtain ⟨after, hsame⟩ := c.cache.ensure_withHits hits c.state.pipelineState
    rw [hensure] at hsame
    have hfound := currentUnit_of_none hremembered
    have htail := hbacked.tail_ensure hensure
    have hasked := hother.trans (resolveUnit_of_ensure (c := other) hsame hunit)
    refine ⟨(h, u), _, _, _, hfound.trans (resolveUnit_of_ensure hensure hunit),
      hasked, ⟨⟨l', hbacked'⟩, ?_⟩, after, _, rfl⟩
    intro s k hlast _
    obtain ⟨-, rfl⟩ := Prod.mk.inj (Option.some.inj hlast)
    exact htail

/-! ## Operations -/

/-- What is done with a context whose cache is used through the context only, but for
clearing it. -/
inductive Operation : Type 1 where
  | setState (state : RenderState)
  /-- Leaves other resources, bindings and targets. -/
  | arrange (resources : Resources) (units : TextureUnits) (targets : Targets)
  | ensureCompiled
  | processFragment {σ : Type} (shader : Shader σ) (f : Fragment) (memory : σ)
  | draw {σ : Type} (shader : Shader σ) (fragments : List Fragment) (memory : σ)
  | clearCache

/-- What an operation answers, with the memory of the shader and the records. -/
inductive Answer : Type 1 where
  | done
  | handle (result : Except Fault UnitHandle) (log : Log)
  | outcome {σ : Type} (result : Except Fault FragmentOutcome) (memory : σ) (log : Log)
  | stats {σ : Type} (result : Except Fault DrawStats) (memory : σ) (log : Log)

/-- Does an operation. -/
def operate (c : RenderContext) : Operation → Answer × RenderContext
  | .setState state => (.done, { c with state })
  | .arrange resources units targets => (.done, { c with resources, units, targets })
  | .ensureCompiled =>
    let reply := c.ensureCompiled
    (.handle reply.result reply.log, reply.state)
  | .processFragment shader f memory =>
    let reply := c.processFragment shader f memory
    (.outcome reply.result reply.state.memory reply.log, reply.state.context)
  | .draw shader fragments memory =>
    let reply := c.draw shader fragments memory
    (.stats reply.result reply.state.memory reply.log, reply.state.context)
  | .clearCache => (.done, { c with cache := c.cache.clear })

/-- Does an operation without remembering anything from before, so that the unit is asked of
the cache. -/
def operateAfresh (c : RenderContext) (op : Operation) : Answer × RenderContext :=
  c.forget.operate op

/-- The answers to operations in a row, each with the context after it. -/
def trace (step : RenderContext → Operation → Answer × RenderContext) (c : RenderContext) :
    List Operation → List (Answer × RenderContext)
  | [] => []
  | op :: ops => step c op :: trace step (step c op).2 ops

/-- Both answer alike and stay the same but for the count of hits. -/
structure Agrees (made made' : Answer × RenderContext) : Prop where
  answer : made.1 = made'.1
  twin : made.2.Twin made'.2

/-- After clearing nothing that is remembered is cached. -/
theorem Recent.clear (hrecent : c.Recent) : Recent { c with cache := c.cache.clear } := by
  obtain ⟨l, hbacked⟩ := hrecent.backed
  refine ⟨⟨l.clear, hbacked.clear⟩, ?_⟩
  intro s h _ hcached
  have hempty : c.cache.clear.unit? h = none := by
    rw [hbacked.clear.represents.unit?]
    rfl
  rw [hempty] at hcached
  cases hcached

/-- **One operation** is answered alike. -/
theorem Recent.operate (hrecent : c.Recent) (htwin : c.Twin c') (op : Operation) :
    Agrees (c.operate op) (c'.operateAfresh op) ∧ (c.operate op).2.Recent := by
  cases op with
  | setState state =>
    obtain ⟨hits, last, rfl⟩ := htwin
    exact ⟨⟨rfl, hits, none, rfl⟩, hrecent.backed, hrecent.last⟩
  | arrange resources units targets =>
    obtain ⟨hits, last, rfl⟩ := htwin
    exact ⟨⟨rfl, hits, none, rfl⟩, hrecent.backed, hrecent.last⟩
  | clearCache =>
    obtain ⟨hits, last, rfl⟩ := htwin
    exact ⟨⟨rfl, 0, none, rfl⟩, hrecent.clear⟩
  | ensureCompiled =>
    obtain ⟨found, d, d', log, hunit, hunit', hafter, htwin'⟩ := hrecent.currentUnit htwin
    unfold operateAfresh RenderContext.operate ensureCompiled
    simp only [Reply.andThen_of_ok hunit, Reply.andThen_of_ok hunit']
    exact ⟨⟨rfl, htwin'⟩, hafter⟩
  | processFragment shader f memory =>
    obtain ⟨found, d, d', log, hunit, hunit', hafter, hits, last, rfl⟩ := hrecent.currentUnit htwin
    unfold operateAfresh RenderContext.operate
    simp only [processFragment_of_currentUnit hunit, processFragment_of_currentUnit hunit']
    exact ⟨⟨rfl, hits, last, rfl⟩, hafter.backed, hafter.last⟩
  | draw shader fragments memory =>
    obtain ⟨found, d, d', log, hunit, hunit', hafter, hits, last, rfl⟩ := hrecent.currentUnit htwin
    unfold operateAfresh RenderContext.operate RenderContext.draw
    simp only [hunit, hunit']
    exact ⟨⟨rfl, hits, last, rfl⟩, hafter.backed, hafter.last⟩

/-- **Operations in a row** are answered alike. -/
theorem Recent.trace (hrecent : c.Recent) (htwin : c.Twin c') (ops : List Operation) :
    List.Forall₂ Agrees (RenderContext.trace RenderContext.operate c ops)
      (RenderContext.trace operateAfresh c' ops) := by
  induction ops generalizing c c' with
  | nil => exact .nil
  | cons op ops ih =>
    obtain ⟨hagrees, hnext⟩ := hrecent.operate htwin op
    exact .cons hagrees (ih hnext hagrees.twin)

/-- A new context remembers nothing. -/
theorem recent_create {settings : Settings} (hcreate : create settings = .ok c) : c.Recent := by
  obtain ⟨cache, hcache, hrest⟩ := bind_eq_ok.mp hcreate
  obtain rfl := Except.ok.inj hrest
  refine ⟨Backed.of_settings hcache, ?_⟩
  intro s h hnone
  cases hnone

/-- Whether an operation needs the unit of the current state. -/
def Operation.resolves : Operation → Bool
  | .ensureCompiled | .processFragment .. | .draw .. => true
  | .setState _ | .arrange .. | .clearCache => false

/-- What an operation leaves in the cache is what finding the unit leaves. -/
theorem cache_operate (c : RenderContext) {op : Operation} (hresolves : op.resolves) :
    (c.operate op).2.cache = c.currentUnit.state.cache := by
  rcases hunit : c.currentUnit with ⟨result, d, log⟩
  cases op with
  | setState state => cases hresolves
  | arrange resources units targets => cases hresolves
  | clearCache => cases hresolves
  | ensureCompiled =>
    unfold operate ensureCompiled
    rw [hunit]
    cases result <;> rfl
  | processFragment shader f memory =>
    unfold operate
    cases result with
    | error fault => simp only [processFragment_of_fault hunit]
    | ok found => simp only [processFragment_of_currentUnit hunit]
  | draw shader fragments memory =>
    unfold operate draw
    simp only [hunit]
    cases result <;> rfl

/-- An operation that remembers nothing from before ensures its state in the cache. -/
theorem cache_operateAfresh (c : RenderContext) {op : Operation} (hresolves : op.resolves) :
    (c.operateAfresh op).2.cache = (c.cache.ensure c.state.pipelineState).state :=
  (c.forget.cache_operate hresolves).trans c.forget.cache_resolveUnit

/-- **The remembered unit is transparent.**  From a new context on, whatever is done with it,
every operation answers as if the unit were asked of the cache each time: the same handle, or
the same fault, the same outcomes, the same records.  After each of them both caches have the
same entries under the same handles, the same order of use and the same counts of misses and
evictions; only the count of hits may differ. -/
theorem trace_remembering {settings : Settings} (hcreate : create settings = .ok c)
    (ops : List Operation) :
    List.Forall₂ Agrees (trace operate c ops) (trace operateAfresh c ops) :=
  (recent_create hcreate).trace ⟨c.cache.stats.hits, c.current, rfl⟩ ops

/-- Two states take turns in a cache that has room for one of them, and the cache is
cleared. -/
def turns : List Operation :=
  [.ensureCompiled, .ensureCompiled,
    .setState { (default : RenderState) with blendEnabled := true }, .ensureCompiled,
    .setState default, .ensureCompiled, .clearCache, .ensureCompiled]

/-- Taking turns agrees step by step, and differs in nothing but the count of hits. -/
theorem trace_remembering_turns : ∃ c, create ⟨1, 1, 1, false⟩ = .ok c ∧
    List.Forall₂ Agrees (trace operate c turns) (trace operateAfresh c turns) ∧
    ((trace operate c turns).map fun made => made.2.cache.stats.hits) = [0, 0, 0, 0, 0, 0, 0, 0] ∧
    ((trace operateAfresh c turns).map fun made => made.2.cache.stats.hits)
      = [0, 1, 1, 1, 1, 1, 0, 0] := by
  have hcreate : create ⟨1, 1, 1, false⟩ = .ok _ := rfl
  refine ⟨_, hcreate, trace_remembering hcreate turns, ?_, ?_⟩
  · decide +kernel
  · decide +kernel

end RenderContext

end PixelPipeline
