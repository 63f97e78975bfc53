import PixelPipeline.Blend.Unit
import PixelPipeline.Proofs.Blend.Acceptance
import PixelPipeline.Proofs.Blend.Emission

/-!
# Units do what their states mean

A unit loads the stored pixel and the input into the places of the entry's
parameters, runs the lowered blend program, and reads the pixel back.  The
program does on the machine what the blend program does as it is written, and
that is what the state means.

* `unitOf_ok` — there is a unit for every state;
* `invoke_unitOf` — invoking it is evaluating the state;
* `compile_evaluates` — so for every compiler that lowers blend programs.
-/

namespace PixelPipeline

open Ir Machine Reference

/-! ## Loading and unloading -/

/-- The machine that a unit loads holds the inputs of its program. -/
theorem BlendUnit.load_holds {u : BlendUnit}
    (hparams : u.program.params = Blend.Entry.params.zip Blend.Entry.bindings) (pixel : Pixel)
    (input : BlendInput) : u.program.Holds (Blend.inputs pixel input) (u.load pixel input) := by
  have places : u.place 0 = 0 ∧ u.place 1 = 1 ∧ u.place 2 = 2 ∧ u.place 3 = 0 ∧ u.place 4 = 3 := by
    simp only [BlendUnit.place, hparams]
    exact ⟨rfl, rfl, rfl, rfl, rfl⟩
  obtain ⟨h₀, h₁, h₂, h₃, h₄⟩ := places
  rw [Program.Holds, hparams]
  simp only [BlendUnit.load, h₀, h₁, h₂, h₃, h₄]
  refine .cons (.array ?_) (.cons (.cell ?_) (.cons (.array ?_) (.cons (.scalar ?_)
    (.cons (.array ?_) .nil))))
  · rw [State.slot_setRegister, State.slot_setSlot_ne _ _ (by decide),
      State.slot_setSlot_ne _ _ (by decide), State.setLane, State.slot_setSlot_ne _ _ (by decide),
      State.slot_setSlot_self _ _ (by decide)]
  · rw [State.lane_setRegister, State.lane, State.slot_setSlot_ne _ _ (by decide),
      State.slot_setSlot_ne _ _ (by decide)]
    exact State.lane_setLane_self _ _ (by decide) (by decide)
  · rw [State.slot_setRegister, State.slot_setSlot_ne _ _ (by decide),
      State.slot_setSlot_self _ _ (by decide)]
  · rw [State.register_setRegister_self _ _ (by decide)]
  · rw [State.slot_setRegister, State.slot_setSlot_self _ _ (by decide)]

/-- A slot that matches an array holds the array's colour. -/
theorem slot_of_matches {mem : Memory} {N : State} (h : MemoryMatches mem N) {address : Nat}
    (hlt : address < mem.size) {c : Color} (has : mem.Has address c) : N.slot address = c := by
  ext i hi
  rw [← State.lane_eq N hi]
  exact h.lane_eq address hlt i hi _ (has ⟨i, hi⟩)

namespace BlendCompiler

variable {s : PipelineState} {u : BlendUnit}

/-! ## Units -/

/-- The unit of a state is that of its blend program, which the emitter writes. -/
theorem unitOf_eq (s : PipelineState) : unitOf s = unitOfModule (Blend.programOf s) s := by
  unfold unitOf
  rw [Blend.emit_eq]
  rfl

/-- There is a unit for every state. -/
theorem unitOf_ok (s : PipelineState) : ∃ u, unitOf s = .ok u := by
  obtain ⟨p, hp, hparams⟩ := Blend.lower_programOf s
  have fits := lower_fits hp
  refine ⟨⟨p, s, s.fingerprint⟩, ?_⟩
  rw [unitOf_eq, unitOfModule, hp]
  have hkinds : p.params.map Prod.fst = Blend.Entry.params := by
    rw [hparams]
    rfl
  change BlendUnit.ofProgram p s s.fingerprint = _
  simp only [BlendUnit.ofProgram, hkinds, ne_eq, not_true_eq_false, if_false]
  exact if_neg (by omega)

/-- The unit of a state carries the state and its lowered blend program. -/
theorem unitOf_program (h : unitOf s = .ok u) :
    u.state = s ∧ u.fingerprint = s.fingerprint ∧ lower (Blend.programOf s) = .ok u.program ∧
      u.program.params = Blend.Entry.params.zip Blend.Entry.bindings := by
  obtain ⟨p, hp, hparams⟩ := Blend.lower_programOf s
  rw [unitOf_eq, unitOfModule, hp] at h
  change BlendUnit.ofProgram p s s.fingerprint = _ at h
  simp only [BlendUnit.ofProgram] at h
  split at h
  · cases h
  · split at h
    · cases h
    · obtain rfl := Except.ok.inj h
      exact ⟨rfl, rfl, hp, hparams⟩

/-- Invoking the unit of a state is evaluating the state, and the program
returns. -/
theorem invoke_unitOf (h : unitOf s = .ok u) (pixel : Pixel) (input : BlendInput) :
    (u.program.run (u.load pixel input)).2 = .returned ∧
      u.invoke pixel input = s.evaluate pixel input := by
  obtain ⟨-, -, hlower, hparams⟩ := unitOf_program h
  obtain ⟨final, hrun, hcolor, hdepth⟩ := Blend.run_programOf s pixel input
    (enough (Blend.programOf s))
  have hkinds : (Blend.inputs pixel input).map Input.kind = u.program.params.map Prod.fst := by
    rw [hparams]
    rfl
  have runs := lower_runs hlower hkinds (BlendUnit.load_holds hparams pixel input)
    (Nat.le_add_right _ 10)
  rw [hrun] at runs
  obtain ⟨N, hN, hmatches, hsize⟩ := runs
  obtain ⟨mem, hbind, hmem, -⟩ := Blend.bind_inputs pixel input
  rw [hbind, hmem] at hsize
  have h₀ : u.place 0 = 0 := by
    simp only [BlendUnit.place, hparams]
    rfl
  have h₁ : u.place 1 = 1 := by
    simp only [BlendUnit.place, hparams]
    rfl
  refine ⟨by rw [hN], ?_⟩
  rw [BlendUnit.invoke, hN, BlendUnit.unload, h₀, h₁, slot_of_matches hmatches (by omega) hcolor,
    hmatches.lane_eq 1 (by omega) 0 (by decide) _ hdepth]

/-- A compiler that lowers blend programs answers with the unit of the state. -/
theorem compile_result (c : BlendCompiler) (h : unitOf s = .ok u) :
    (UnitCompiler.compile c s).result = .ok u := by
  rw [unitOf_eq] at h
  change (compile c s).result = _
  rw [compile, Blend.emit_eq]
  simp only [h]

/-- **Compiled blending is blending.**  For every state there is a unit, every
compiler that lowers blend programs makes it, its program returns on every
pixel and input, and it leaves the colour and the depth that the state means. -/
theorem compile_evaluates (s : PipelineState) :
    ∃ u : BlendUnit, (∀ c : BlendCompiler, (UnitCompiler.compile c s).result = .ok u) ∧
      u.state = s ∧ ∀ (pixel : Pixel) (input : BlendInput),
        (u.program.run (u.load pixel input)).2 = .returned ∧
        u.invoke pixel input = s.evaluate pixel input := by
  obtain ⟨u, hu⟩ := unitOf_ok s
  exact ⟨u, fun c => compile_result c hu, (unitOf_program hu).1, invoke_unitOf hu⟩

end BlendCompiler

end PixelPipeline
