import PixelPipeline.Proofs.Context.Fragments

/-!
# A draw is its fragments, one after the other

A draw resolves the unit once and then runs its fragments; fragments that are
processed one by one resolve it every time.  It comes to the same.  A resolution
that succeeds leaves a context that remembers its answer, and what a fragment
does to the resources does not make the context forget: from then on the unit is
found without touching the cache (`currentUnit_of_remembered`).  So a fault of
the resolution is met before the first fragment on either way, and a fault of a
fragment, which ends the row, finds the same fragments processed before it.

* `processAll_settled` — once the unit is remembered, fragments are processed as
  a row of the stage;
* `draw_processAll` — the same of a draw, in any context, with any shader.
-/

namespace PixelPipeline

variable {σ : Type}

/-- The shader that also writes down its calls: each fragment, and the textures
it was shown with. -/
def Shader.recorded (shader : Shader σ) : Shader (σ × List (Fragment × Textures)) where
  shade f textures memory :=
    let answer := shader.shade f textures memory.1
    (answer.1, answer.2, memory.2 ++ [(f, textures)])

/-- Whether the fragment reached the targets. -/
def FragmentOutcome.isWritten : FragmentOutcome → Bool
  | .written => true
  | .discarded _ => false

namespace DrawStats

/-- How many outcomes were written and how many discarded. -/
def ofOutcomes (outcomes : List FragmentOutcome) : DrawStats :=
  ⟨outcomes.countP FragmentOutcome.isWritten, outcomes.countP fun outcome => !outcome.isWritten⟩

/-- Outcomes that are recorded one by one are counted. -/
theorem foldl_record (outcomes : List FragmentOutcome) (stats : DrawStats) :
    outcomes.foldl record stats
      = ⟨stats.written + (ofOutcomes outcomes).written,
        stats.discarded + (ofOutcomes outcomes).discarded⟩ := by
  induction outcomes generalizing stats with
  | nil => rfl
  | cons outcome rest ih =>
    rw [List.foldl_cons, ih]
    unfold ofOutcomes
    simp only [List.countP_cons]
    cases outcome with
    | written =>
      simp only [record, FragmentOutcome.isWritten, mk.injEq]
      exact ⟨by simp only [if_true]; omega, rfl⟩
    | discarded reason =>
      simp only [record, FragmentOutcome.isWritten, mk.injEq]
      exact ⟨rfl, by simp only [Bool.not_false, if_true]; omega⟩

/-- Recording outcomes from nothing counts them. -/
theorem foldl_record_default (outcomes : List FragmentOutcome) :
    outcomes.foldl record default = ofOutcomes outcomes := by
  have hrecord := foldl_record outcomes default
  simpa [default] using hrecord

/-- Every outcome is counted once. -/
theorem ofOutcomes_total (outcomes : List FragmentOutcome) :
    (ofOutcomes outcomes).written + (ofOutcomes outcomes).discarded = outcomes.length := by
  have hlength := outcomes.length_eq_countP_add_countP FragmentOutcome.isWritten
  simpa [ofOutcomes] using hlength.symm

end DrawStats

namespace UnitCache

/-- The unit that a state is answered with is cached under the handle. -/
theorem unit?_of_ensureUnit {cache cache' : UnitCache BlendCompiler} {s : PipelineState}
    {h : UnitHandle} {u : BlendUnit} {log : Log}
    (hensure : cache.ensureUnit s = ⟨.ok (h, u), cache', log⟩) : cache'.unit? h = some u := by
  unfold ensureUnit at hensure
  rcases hanswer : cache.ensure s with ⟨result, cache'', log'⟩
  cases result with
  | error fault =>
    rw [hanswer] at hensure
    cases hensure
  | ok h' =>
    rw [Reply.andThen_of_ok hanswer] at hensure
    cases hunit : cache''.unit? h' with
    | none =>
      simp only [hunit] at hensure
      cases hensure
    | some u' =>
      simp only [hunit] at hensure
      cases hensure
      exact hunit

end UnitCache

namespace RenderContext

variable {c c' : RenderContext} {found : UnitHandle × BlendUnit} {log : Log}

/-! ## The unit is remembered -/

/-- A unit that is remembered is found again, whatever becomes of the resources,
and nothing else is touched. -/
theorem currentUnit_of_remembered (hremembered : c.remembered? = some found)
    (resources : Resources) :
    currentUnit { c with resources } = .quiet (.ok found) { c with resources } :=
  currentUnit_of_some (c := { c with resources }) hremembered

/-- A unit that was resolved is remembered. -/
theorem remembered?_of_resolveUnit (hresolve : c.resolveUnit = ⟨.ok found, c', log⟩) :
    c'.remembered? = some found := by
  unfold resolveUnit at hresolve
  rcases hensure : c.cache.ensureUnit c.state.pipelineState with ⟨result, cache, log'⟩
  simp only [hensure, Reply.mapState] at hresolve
  cases result with
  | error fault => cases hresolve
  | ok answer =>
    rw [Reply.andThen_of_ok rfl] at hresolve
    obtain ⟨hanswer, hcontext, -⟩ := Reply.mk.inj hresolve
    obtain rfl := Except.ok.inj hanswer
    have hcached := UnitCache.unit?_of_ensureUnit hensure
    rw [← hcontext]
    unfold remembered?
    simp only [Reply.quiet, if_true, hcached]
    rfl

/-- A unit that was found is remembered. -/
theorem remembered?_of_currentUnit (hunit : c.currentUnit = ⟨.ok found, c', log⟩) :
    c'.remembered? = some found := by
  cases hremembered : c.remembered? with
  | some answer =>
    rw [currentUnit_of_some hremembered] at hunit
    cases hunit
    exact hremembered
  | none =>
    rw [currentUnit_of_none hremembered] at hunit
    exact remembered?_of_resolveUnit hunit

/-! ## One after the other -/

/-- Processes fragments one after the other, each for itself, up to the first
fault; the answer lists the outcomes. -/
def processAll (shader : Shader σ) :
    List Fragment → RenderContext → σ → Reply (Shading σ) (List FragmentOutcome)
  | [], c, memory => .quiet (.ok []) ⟨c, memory⟩
  | f :: rest, c, memory =>
    (c.processFragment shader f memory).andThen fun outcome s =>
      (processAll shader rest s.context s.memory).andThen fun outcomes s =>
        .quiet (.ok (outcome :: outcomes)) s

/-- Once the unit is remembered, fragments are processed as a row of the stage. -/
theorem processAll_settled (hremembered : c.remembered? = some found) (shader : Shader σ)
    (fragments : List Fragment) (resources : Resources) (memory : σ) (stats : DrawStats) :
    let row := c.stage.runAll found.2 shader fragments stats ⟨resources, memory⟩
    let reply := processAll shader fragments { c with resources } memory
    row.1 = reply.result.map (·.foldl DrawStats.record stats) ∧
      reply.state = ⟨{ c with resources := row.2.resources }, row.2.memory⟩ := by
  induction fragments generalizing resources memory stats with
  | nil => exact ⟨rfl, rfl⟩
  | cons f rest ih =>
    have hunit := currentUnit_of_remembered hremembered resources
    have hprocess := processFragment_of_currentUnit hunit shader f memory
    rcases hrun : c.stage.run found.2 shader f ⟨resources, memory⟩ with ⟨answer, s⟩
    have hsame : stage { c with resources } = c.stage := rfl
    simp only [hsame, hrun] at hprocess
    unfold processAll Stage.runAll
    rw [hrun]
    cases answer with
    | error fault =>
      rw [hprocess]
      exact ⟨rfl, rfl⟩
    | ok outcome =>
      obtain ⟨hresult, hstate⟩ := ih s.resources s.memory (stats.record outcome)
      rw [Reply.andThen_of_ok hprocess]
      rcases hrest : processAll shader rest { c with resources := s.resources } s.memory
        with ⟨result, after, log⟩
      rw [hrest] at hresult hstate
      cases result with
      | error fault => exact ⟨hresult, hstate⟩
      | ok outcomes =>
        refine ⟨?_, ?_⟩
        · rw [hresult]
          rfl
        · exact hstate

/-- Finding the unit first changes nothing about how fragments are processed,
but for the records. -/
theorem processAll_of_currentUnit (hunit : c.currentUnit = ⟨.ok found, c', log⟩)
    (shader : Shader σ) {fragments : List Fragment} (hsome : fragments ≠ []) (memory : σ) :
    (processAll shader fragments c memory).result = (processAll shader fragments c' memory).result ∧
      (processAll shader fragments c memory).state
        = (processAll shader fragments c' memory).state := by
  cases fragments with
  | nil => exact (hsome rfl).elim
  | cons f rest =>
    have hagain := currentUnit_of_remembered (remembered?_of_currentUnit hunit) c'.resources
    have hfirst := processFragment_of_currentUnit hunit shader f memory
    have hfirst' := processFragment_of_currentUnit hagain shader f memory
    unfold processAll
    rw [hfirst, hfirst']
    rcases c'.stage.run found.2 shader f ⟨c'.resources, memory⟩ with ⟨answer, s⟩
    cases answer with
    | error fault => exact ⟨rfl, rfl⟩
    | ok outcome => exact ⟨rfl, rfl⟩

/-- A fragment whose unit cannot be resolved is not processed. -/
theorem processFragment_of_fault {fault : Fault} (hunit : c.currentUnit = ⟨.error fault, c', log⟩)
    (shader : Shader σ) (f : Fragment) (memory : σ) :
    c.processFragment shader f memory = ⟨.error fault, ⟨c', memory⟩, log⟩ := by
  unfold processFragment
  rw [hunit]
  rfl

/-- Every fragment that is processed has an outcome. -/
theorem length_processAll {shader : Shader σ} {fragments : List Fragment} {memory : σ}
    {outcomes : List FragmentOutcome}
    (hresult : (processAll shader fragments c memory).result = .ok outcomes) :
    outcomes.length = fragments.length := by
  induction fragments generalizing c memory outcomes with
  | nil =>
    obtain rfl := Except.ok.inj hresult
    rfl
  | cons f rest ih =>
    unfold processAll at hresult
    rcases hfirst : c.processFragment shader f memory with ⟨answer, s, log⟩
    cases answer with
    | error fault =>
      rw [hfirst] at hresult
      cases hresult
    | ok outcome =>
      rw [Reply.andThen_of_ok hfirst] at hresult
      rcases hrest : processAll shader rest s.context s.memory with ⟨answer, s', log'⟩
      simp only [hrest] at hresult
      cases answer with
      | error fault => cases hresult
      | ok later =>
        obtain rfl : outcome :: later = outcomes := Except.ok.inj hresult
        rw [List.length_cons, List.length_cons, ih (congrArg Reply.result hrest)]

/-- A draw leaves what its fragments leave, and counts their outcomes. -/
theorem draw_agrees (c : RenderContext) (shader : Shader σ) {fragments : List Fragment}
    (hsome : fragments ≠ []) (memory : σ) :
    (c.draw shader fragments memory).state = (processAll shader fragments c memory).state ∧
      (c.draw shader fragments memory).result
        = (processAll shader fragments c memory).result.map (·.foldl DrawStats.record default) := by
  rcases hunit : c.currentUnit with ⟨answer, c', log⟩
  cases answer with
  | error fault =>
    cases fragments with
    | nil => exact (hsome rfl).elim
    | cons f rest =>
      unfold draw processAll
      rw [hunit, processFragment_of_fault hunit]
      exact ⟨rfl, rfl⟩
  | ok found =>
    obtain ⟨hresult, hstate⟩ := processAll_of_currentUnit hunit shader hsome memory
    obtain ⟨hrow, hafter⟩ := processAll_settled (remembered?_of_currentUnit hunit) shader fragments
      c'.resources memory default
    rw [hresult, hstate, hafter, ← hrow]
    unfold draw
    rw [hunit]
    exact ⟨rfl, rfl⟩

/-- **A draw is its fragments, one after the other.**  In any context, and with
any shader, a draw leaves the same context and the same memory of the shader as
its fragments do when they are processed in order up to the first fault: the same
bytes of every image, the same entries, recency order and counts of the cache, and
the same calls of the shader.  It ends with the same fault, if there is one, and
otherwise with the counts of their outcomes. -/
theorem draw_processAll (c : RenderContext) (shader : Shader σ) {fragments : List Fragment}
    (hsome : fragments ≠ []) (memory : σ) :
    let drawn := c.draw shader fragments memory
    let processed := processAll shader fragments c memory
    drawn.state = processed.state ∧
      drawn.result = processed.result.map DrawStats.ofOutcomes ∧
      (∀ stats, drawn.result = .ok stats → stats.written + stats.discarded = fragments.length) ∧
      (c.draw shader.recorded fragments (memory, [])).state.memory.2
        = (processAll shader.recorded fragments c (memory, [])).state.memory.2 := by
  obtain ⟨hstate, hresult⟩ := c.draw_agrees shader hsome memory
  obtain ⟨hrecorded, -⟩ := c.draw_agrees shader.recorded hsome (memory, [])
  simp only [DrawStats.foldl_record_default] at hresult
  refine ⟨hstate, hresult, fun stats hstats => ?_, congrArg (·.memory.2) hrecorded⟩
  rw [hresult] at hstats
  cases hprocessed : (processAll shader fragments c memory).result with
  | error fault =>
    rw [hprocessed] at hstats
    cases hstats
  | ok outcomes =>
    rw [hprocessed] at hstats
    obtain rfl := Except.ok.inj hstats
    rw [DrawStats.ofOutcomes_total, length_processAll hprocessed]

/-- A shader that tires: it colours one fragment and fails at the next. -/
def tiring : Shader Nat where
  shade _ _ calls :=
    (if calls = 0 then .ok (some (.mk .one .zero .one .one)) else .error (.invalidHandle .view),
      calls + 1)

/-- Three fragments of one pixel. -/
def strip : List Fragment := [pixelFragment, { pixelFragment with z := .one }, pixelFragment]

/-- A shader that fails at its second call is called twice in either case, with the same fault. -/
theorem draw_processAll_tiring :
    strip ≠ [] ∧ (pixel.draw tiring strip 0).state = (processAll tiring strip pixel 0).state ∧
      (processAll tiring strip pixel 0).state.memory = 2 ∧
      (pixel.draw tiring strip 0).result = .error (.invalidHandle .view) := by
  have hsome : strip ≠ [] := List.cons_ne_nil _ _
  obtain ⟨hstate, -, -, -⟩ := draw_processAll pixel tiring hsome 0
  refine ⟨hsome, hstate, ?_, by decide +kernel⟩
  rw [← hstate]
  decide +kernel

end RenderContext

end PixelPipeline
