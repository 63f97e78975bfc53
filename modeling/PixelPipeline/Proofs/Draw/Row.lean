import PixelPipeline.Proofs.Draw.Agreement

/-!
# Fragments follow the reference

From start to end, a fragment does what the reference says.  With every target
in place (`Staged`) it either meets a gate that is shut and ends there
(`run_turned_away`), or it is shaded and written (`run_let_through`,
`shadeAndWrite_draws`).

* `run_follows` — the outcome, the texels and the shader's memory are the
  reference's, unless the shader fails;
* `run_settles` — whatever happens, the resources are as they were or as the
  reference leaves them;
* `run_error` — a fault leaves the resources as they were.
-/

namespace PixelPipeline

namespace Stage

open Scene

variable {σ : Type} {g : Stage} {r r' : Resources} {q : Scene} {f : Fragment}

/-- The scene is the stage's, every target exists, and what the entrance lets
through lies on all of them. -/
structure Staged (g : Stage) (r : Resources) (q : Scene) (f : Fragment) : Prop where
  state : q.state = g.state
  surfaces : q.surfaces = g.targets.bound.filterMap r.surfaces.get?
  live : ∀ h ∈ g.targets.bound, ∃ s, r.surfaces.get? h = some s
  aimed : shut? (q.entrance f) = none → g.Aimed r q f

/-- Writes that succeed leave the outcome that was asked for. -/
theorem afterWrites_eq {s : Surroundings σ} {writes : Writing Unit} {outcome : FragmentOutcome}
    (hperform : perform writes s.resources = (.ok (), r')) :
    afterWrites s writes outcome = (.ok outcome, { s with resources := r' }) := by
  unfold afterWrites
  unfold perform at hperform
  rw [hperform]
  rfl

section Row

variable {u : BlendUnit} {shader : Shader σ} {memory : σ}

/-- A fragment that meets a shut gate ends there, whatever the shader is. -/
theorem run_turned_away (hstaged : g.Staged r q f) {gate : Gate}
    (hbarrier : q.barrier? f r.texels = some gate) :
    ∃ m r', (∀ shaded, q.final f r.texels shaded = some m) ∧ r.Draws q.images m r' ∧
      g.run u shader f ⟨r, memory⟩ = (.ok (.discarded gate.reason), ⟨r', memory⟩) := by
  unfold run Scene.final
  rw [hbarrier, qualify_eq hstaged.state hstaged.surfaces hstaged.live]
  rw [barrier?_eq] at hbarrier
  cases hentrance : shut? (q.entrance f) with
  | some first =>
    rw [hentrance] at hbarrier
    obtain rfl := Option.some.inj hbarrier
    simp only [update_of_entrance hentrance]
    exact ⟨r.texels, r, fun _ => rfl, .refl r, rfl⟩
  | none =>
    rw [hentrance, Option.none_or] at hbarrier
    have haimed := hstaged.aimed hentrance
    obtain ⟨op, hop⟩ := update_of_tests hbarrier
    obtain ⟨m, r', hm, hperform, hdraws⟩ :=
      updateStencil_draws haimed (fun _ => storedStencil_eq_some) op
    refine ⟨m, r', fun _ => ?_, hdraws, ?_⟩
    · simp only [hop]
      exact hm
    · simp only [judge_eq haimed, hbarrier, verdictOf, hop, Option.getD_some]
      rw [afterWrites_eq (s := ⟨r, memory⟩) hperform]

/-- A fragment that meets no shut gate lies on every target, and is shaded. -/
theorem run_let_through (hstaged : g.Staged r q f) (hbarrier : q.barrier? f r.texels = none) :
    g.Aimed r q f ∧ g.run u shader f ⟨r, memory⟩
      = g.shadeAndWrite u shader f (q.candidate f) (q.storedStencil f r.texels) ⟨r, memory⟩ := by
  rw [barrier?_eq, Option.or_eq_none_iff] at hbarrier
  obtain ⟨hentrance, htests⟩ := hbarrier
  have haimed := hstaged.aimed hentrance
  unfold run
  rw [qualify_eq hstaged.state hstaged.surfaces hstaged.live, hentrance]
  simp only [judge_eq haimed, htests, verdictOf]
  exact ⟨haimed, trivial⟩

/-- Shading and writing end as the reference says, unless the shader fails. -/
theorem shadeAndWrite_draws (haimed : g.Aimed r q f)
    (hunit : BlendCompiler.unitOf q.state.pipelineState = .ok u)
    (hbarrier : q.barrier? f r.texels = none) {shaded : Option Color}
    (hshaded : (shader.shade f ⟨r, g.units⟩ memory).1 = .ok shaded) :
    ∃ m r', q.final f r.texels shaded = some m ∧ r.Draws q.images m r' ∧
      g.shadeAndWrite u shader f (q.candidate f) (q.storedStencil f r.texels) ⟨r, memory⟩
        = (.ok (if shaded.isSome then .written else .discarded .shader),
          ⟨r', (shader.shade f ⟨r, g.units⟩ memory).2⟩) := by
  unfold shadeAndWrite Scene.final
  rw [hbarrier]
  rcases hanswer : shader.shade f ⟨r, g.units⟩ memory with ⟨answer, memory'⟩
  rw [hanswer] at hshaded
  obtain rfl : answer = .ok shaded := hshaded
  cases shaded with
  | none => exact ⟨r.texels, r, rfl, .refl r, rfl⟩
  | some color =>
    obtain ⟨blended, passed, m, r', hblended, hpassed, hm, hperform, hdraws⟩ :=
      writePixel_draws haimed hunit color
    refine ⟨m, r', ?_, hdraws, ?_⟩
    · simp [hblended, hpassed, hm]
    · simp only
      rw [afterWrites_eq (s := ⟨r, memory'⟩) hperform]
      rfl

/-- **A fragment follows the reference** when its targets exist and its shader
does not fail. -/
theorem run_follows (hstaged : g.Staged r q f)
    (hunit : BlendCompiler.unitOf q.state.pipelineState = .ok u) {shaded : Option Color}
    (hshaded : (shader.shade f ⟨r, g.units⟩ memory).1 = .ok shaded) :
    ∃ m r', q.final f r.texels shaded = some m ∧ r.Draws q.images m r' ∧
      g.run u shader f ⟨r, memory⟩ = (.ok (q.outcome f r.texels shaded),
        ⟨r', if (q.barrier? f r.texels).isNone then (shader.shade f ⟨r, g.units⟩ memory).2
          else memory⟩) := by
  unfold Scene.outcome
  cases hbarrier : q.barrier? f r.texels with
  | some gate =>
    obtain ⟨m, r', hm, hdraws, hrun⟩ := run_turned_away hstaged hbarrier
    exact ⟨m, r', hm shaded, hdraws, hrun⟩
  | none =>
    obtain ⟨haimed, hrun⟩ := run_let_through hstaged hbarrier
    obtain ⟨m, r', hm, hdraws, hshade⟩ := shadeAndWrite_draws haimed hunit hbarrier hshaded
    exact ⟨m, r', hm, hdraws, hrun.trans hshade⟩

/-! ## Faults -/

/-- A fragment becomes a candidate only when every target exists. -/
theorem live_of_insideAll {x y : Nat} {handles : List (Handle .surface)}
    (hinside : insideAll r x y handles = .ok true) :
    ∀ h ∈ handles, ∃ s, r.surfaces.get? h = some s := by
  induction handles with
  | nil =>
    intro h hmem
    cases hmem
  | cons first rest ih =>
    unfold insideAll at hinside
    obtain ⟨s, hsurface, hrest⟩ := bind_eq_ok.mp hinside
    by_cases hhere : (s.texelCoord? x y).isSome = true
    · rw [if_pos hhere] at hrest
      exact List.forall_mem_cons.mpr ⟨⟨s, Resources.surface_eq_ok.mp hsurface⟩, ih hrest⟩
    · rw [if_neg hhere] at hrest
      cases hrest

/-- A fragment that qualifies found every target alive. -/
theorem live_of_qualify {candidate : Candidate} (hqualify : g.qualify r f = .ok (.ok candidate)) :
    ∀ h ∈ g.targets.bound, ∃ s, r.surfaces.get? h = some s := by
  unfold qualify at hqualify
  split at hqualify
  · cases hqualify
  · split at hqualify
    · cases hqualify
    · split at hqualify
      · cases hqualify
      · split at hqualify
        · cases hqualify
        · obtain ⟨inside, hinside, hrest⟩ := bind_eq_ok.mp hqualify
          cases inside with
          | true => exact live_of_insideAll hinside
          | false => cases hrest

/-- A fragment changes nothing when a target is gone. -/
theorem run_dead (hdead : ¬ ∀ h ∈ g.targets.bound, ∃ s, r.surfaces.get? h = some s) :
    (g.run u shader f ⟨r, memory⟩).2.resources = r := by
  unfold run
  cases hqualify : g.qualify r f with
  | error fault => rfl
  | ok qualified =>
    cases qualified with
    | error reason => rfl
    | ok candidate => exact (hdead (live_of_qualify hqualify)).elim

/-- A shader that fails ends the fragment before the first write. -/
theorem shadeAndWrite_error {candidate : Candidate} {stored : Option UInt8} {fault : Fault}
    (hanswer : (shader.shade f ⟨r, g.units⟩ memory).1 = .error fault) :
    ∃ memory', g.shadeAndWrite u shader f candidate stored ⟨r, memory⟩
      = (.error fault, ⟨r, memory'⟩) := by
  unfold shadeAndWrite
  rcases hshade : shader.shade f ⟨r, g.units⟩ memory with ⟨answer, memory'⟩
  rw [hshade] at hanswer
  obtain rfl : answer = .error fault := hanswer
  exact ⟨memory', rfl⟩

/-- **A fragment leaves everything as it was, or what the reference leaves**, with
the outcome of the reference. -/
theorem run_settles
    (hstaged : (∀ h ∈ g.targets.bound, ∃ s, r.surfaces.get? h = some s) → g.Staged r q f)
    (hunit : BlendCompiler.unitOf q.state.pipelineState = .ok u) :
    let answer := g.run u shader f ⟨r, memory⟩
    answer.2.resources = r ∨ ∃ shaded m, q.final f r.texels shaded = some m ∧
      r.Draws q.images m answer.2.resources ∧
      answer.1 = .ok (q.outcome f r.texels shaded) := by
  by_cases hlive : ∀ h ∈ g.targets.bound, ∃ s, r.surfaces.get? h = some s
  · cases hanswer : (shader.shade f ⟨r, g.units⟩ memory).1 with
    | ok shaded =>
      obtain ⟨m, r', hfinal, hdraws, hrun⟩ := run_follows (hstaged hlive) hunit hanswer
      rw [hrun]
      exact .inr ⟨shaded, m, hfinal, hdraws, rfl⟩
    | error fault =>
      cases hbarrier : q.barrier? f r.texels with
      | some gate =>
        obtain ⟨m, r', hfinal, hdraws, hrun⟩ := run_turned_away (hstaged hlive) hbarrier
        have houtcome : q.outcome f r.texels none = .discarded gate.reason := by
          unfold Scene.outcome
          rw [hbarrier]
        rw [hrun, ← houtcome]
        exact .inr ⟨none, m, hfinal none, hdraws, rfl⟩
      | none =>
        obtain ⟨-, hrun⟩ := run_let_through (hstaged hlive) hbarrier
        obtain ⟨memory', hshade⟩ := shadeAndWrite_error hanswer
        rw [hrun, hshade]
        exact .inl rfl
  · exact .inl (run_dead hlive)

/-- **A fault leaves everything as it was.**  A target that is gone is noticed
before the first write; later only the shader can fail, and it has nothing to
write with. -/
theorem run_error
    (hstaged : (∀ h ∈ g.targets.bound, ∃ s, r.surfaces.get? h = some s) → g.Staged r q f)
    (hunit : BlendCompiler.unitOf q.state.pipelineState = .ok u) {fault : Fault}
    (herror : (g.run u shader f ⟨r, memory⟩).1 = .error fault) :
    (g.run u shader f ⟨r, memory⟩).2.resources = r := by
  obtain hkept | ⟨shaded, m, -, -, houtcome⟩ := run_settles hstaged hunit
  · exact hkept
  · rw [houtcome] at herror
    cases herror

end Row

end Stage

end PixelPipeline
