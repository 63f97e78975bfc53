import PixelPipeline.Proofs.Lowering.Simulation

/-!
# Blocks and routines

A terminator takes the machine to the block it names, or to the operation by
which the routine returns.  A program whose jumps go forward visits the blocks
of a routine in the order of their numbers, so the reference run spends at most
one unit of fuel for each block, and a nesting of `maxPath` routines bounds what
it spends on calls.

* `lowerTerminator_runs` — one block is left;
* `execFrom_runs` — the blocks of a routine are run through;
* `expandRoutine_simulates` — so are the routines it calls, by induction on how
  deep calls may still nest.
-/

namespace PixelPipeline.Ir

open Machine Reference Lower Storage

variable {program : Array (Op Nat)} {start pos : Nat} {fragments : List Fragment}
  {f : Frame} {first top : Nat} {a : Activation} {s : Store} {M : State}
  {st st' : Storage} {code : Fragment}

/-! ## Leaving a block -/

/-- The position is where the routine goes on: at a later block, or at the
operation by which it returns. -/
def GoesOn (program : Array (Op Nat)) (f : Frame) (start : Nat) (fragments : List Fragment)
    (pos q : Nat) : Option Nat → Prop
  | none => program[q]? = some (f.onReturn.mapTargets (aimIn start fragments q))
  | some next =>
      next < f.routine.blocks.length ∧ q = start + blockStart fragments next ∧ pos < q

/-- A block that is a target exists. -/
theorem blockTarget_ok {b : Nat} {target : Target} (h : f.blockTarget b = .ok target) :
    b < f.routine.blocks.length ∧ target = .block b := by
  unfold Frame.blockTarget at h
  split at h
  · exact ⟨‹_›, (Except.ok.inj h).symm⟩
  · cases h

/-- A terminator leads where the reference run goes on. -/
theorem lowerTerminator_runs {terminator : Terminator} (forward : Forward program)
    (h : (lowerTerminator f terminator).Yields st code st') (tracks : Tracks f first top a s M)
    (htop : top ≤ st.tempTop) (segment : Segment program (aimIn start fragments) pos code) :
    Assured (Reference.leave a s terminator) fun next => ∃ q N, Path program pos M q N ∧
      M.Keeps top N ∧ GoesOn program f start fragments pos q next := by
  cases terminator with
  | ret =>
      obtain ⟨rfl, rfl⟩ := lowerTerminator_ret_yields.mp h
      exact ⟨pos, M, .here _ _, .refl _ _, segment_singleton.mp segment⟩
  | jump b =>
      obtain ⟨target, htarget, rfl, rfl⟩ := lowerTerminator_jump_yields.mp h
      obtain ⟨hb, rfl⟩ := blockTarget_ok htarget
      have fetch := segment_singleton.mp segment
      exact ⟨_, M, .jump fetch rfl, .refl _ _, hb, rfl, forward fetch (t := M) (s := M) rfl⟩
  | branch op lhs rhs thenBlock elseBlock =>
      obtain ⟨lhsCode, x, u, rhsCode, y, onTrue, onFalse, hl, hr, ht, he, rfl⟩ :=
        lowerTerminator_branch_yields.mp h
      obtain ⟨hthen, rfl⟩ := blockTarget_ok ht
      obtain ⟨helse, rfl⟩ := blockTarget_ok he
      obtain ⟨segment, hop⟩ := segment_append.mp segment
      obtain ⟨hlSeg, hrSeg⟩ := segment_append.mp segment
      have hu := (lowerValue_restored hl).2
      have hx := lowerValue_register_lt tracks htop hl
      rw [Reference.leave]
      refine (lowerValue_runs hl tracks htop hlSeg).bind ?_
      rintro _ ⟨N, lhsPath, lhsKeeps, rfl⟩
      refine (lowerValue_runs hr (tracks.keeps (lhsKeeps.mono htop)) (Nat.le_trans htop hu)
        hrSeg).bind ?_
      rintro _ ⟨O, rhsPath, rhsKeeps, rfl⟩
      have keeps : M.Keeps top O := (lhsKeeps.mono htop).trans (rhsKeeps.mono (by omega))
      have path := lhsPath.trans rhsPath
      have fetch := segment_singleton.mp hop
      rw [List.length_append, ← Nat.add_assoc] at fetch
      rw [← rhsKeeps.register x hx]
      by_cases hcmp : op.eval (O.register x) (O.register y) = true
      · have exec : Op.exec O (.branch op x y (start + blockStart fragments thenBlock)
            (start + blockStart fragments elseBlock)) =
            (O, .goto (start + blockStart fragments thenBlock)) := by
          rw [Op.exec, if_pos hcmp]
        have later := forward fetch exec
        rw [if_pos hcmp]
        exact ⟨_, O, path.trans (.jump fetch exec), keeps, hthen, rfl, by
          have := path.le forward
          omega⟩
      · have exec : Op.exec O (.branch op x y (start + blockStart fragments thenBlock)
            (start + blockStart fragments elseBlock)) =
            (O, .goto (start + blockStart fragments elseBlock)) := by
          rw [Op.exec, if_neg hcmp]
        have later := forward fetch exec
        rw [if_neg hcmp]
        exact ⟨_, O, path.trans (.jump fetch exec), keeps, helse, rfl, by
          have := path.le forward
          omega⟩

/-! ## Running through the blocks -/

variable {m : Module} {expand : Expander} {invoke : Invoke}

/-- From the start of a block the machine reaches the operation by which the
routine returns, with what the reference run leaves in memory. -/
theorem execFrom_runs (forward : Forward program) (hexpand : expand.Simulates m program invoke)
    (hrestores : expand.Restores)
    (hblocks : (lowerBlocks m expand f 0 f.routine.blocks).Yields st fragments st')
    (segment : Segment program (aimIn start fragments) start fragments.flatten) {fuel index : Nat}
    (hindex : index < f.routine.blocks.length) (hfuel : f.routine.blocks.length ≤ fuel + index)
    (tracks : Tracks f first top a s M) (htop : top = st.registerTop)
    (hslots : s.memory.size = st.slotTop) :
    Assured (execFrom m invoke a fuel index s) fun final => ∃ q N,
      Path program (start + blockStart fragments index) M q N ∧
      program[q]? = some (f.onReturn.mapTargets (aimIn start fragments q)) ∧
      MemoryMatches final N ∧ final.size = s.memory.size ∧
      ∀ r, r < first → N.register r = M.register r := by
  induction fuel generalizing index s M with
  | zero => omega
  | succ fuel ih =>
      obtain ⟨⟨stmts, ending⟩, hb⟩ : ∃ b, f.routine.blocks[index]? = some b :=
        ⟨_, List.getElem?_eq_getElem hindex⟩
      obtain ⟨fragment, u, w, hget, restored, hlower⟩ := lowerBlocks_get hrestores hblocks hb
      obtain ⟨front, v, terminator, back, hstmts, rfl, hend, rfl⟩ := lowerBlock_yields.mp hlower
      obtain ⟨hfront, hback⟩ := segment_append.mp (segment_block segment hget)
      have leftover := lowerStmts_restored hrestores hstmts
      rw [execFrom_block (by rw [← tracks.routine]; exact hb)]
      refine (lowerStmts_runs hexpand hrestores hstmts tracks
        (htop.trans restored.sameRegisters.symm) (hslots.trans restored.slotTop.symm) hfront).bind
          ?_
      rintro s₁ ⟨N, path, tracksN, hsize, below⟩
      refine (lowerTerminator_runs forward hend tracksN ?_ hback).bind ?_
      · have := restored.sameRegisters
        have := leftover.sameRegisters
        simp only [dropTemps]
        omega
      rintro next ⟨q, O, pathEnd, keeps, goesOn⟩
      have below' : ∀ r, r < first → O.register r = M.register r := fun r hr => by
        have := tracks.first_le
        rw [keeps.register r (by omega), below r hr]
      cases next with
      | none => exact ⟨q, O, path.trans pathEnd, goesOn, tracksN.memory.keeps keeps, hsize, below'⟩
      | some next =>
          obtain ⟨hnext, rfl, hlater⟩ := goesOn
          have hlt : index < next := by
            by_contra hle
            have := blockStart_mono fragments (Nat.le_of_not_lt hle)
            omega
          refine (ih hnext (by omega) (tracksN.keeps keeps) (hsize.trans hslots)).mono ?_
          rintro final ⟨q, P, pathRest, hreturn, hmatches, hfinal, belowRest⟩
          refine ⟨q, P, (path.trans pathEnd).trans pathRest, hreturn, hmatches,
            hfinal.trans hsize, fun r hr => ?_⟩
          rw [belowRest r hr, below' r hr]

/-! ## Routines -/

/-- An activation begins with its parameters bound and nothing assigned. -/
theorem tracks_above {routine : Routine} {params : List Binding} {onReturn : Op Target}
    {actuals : List Actual} {mem : Memory}
    (hslots : routine.temps = 0 ∨ st.slotTop + routine.temps ≤ maxSlots)
    (hregisters : routine.vars = 0 ∨ st.registerTop + routine.vars ≤ maxRegisters)
    (bound : Bound M st.registerTop mem.size params actuals) (hmatches : MemoryMatches mem M)
    (hsize : mem.size = st.slotTop) :
    Tracks (.above routine params onReturn st) st.registerTop (st.registerTop + routine.vars)
      ⟨routine, actuals, mem.size⟩ ⟨fun _ => none, mem.extend routine.temps⟩ M where
  routine := rfl
  vars := rfl
  temps := by rw [hsize]; rfl
  varsFit i hi := by
    simp only at hi
    omega
  first_le := Nat.le_add_right _ _
  tempsFit := Nat.le_refl _
  params := bound.mono (fun _ _ => rfl) (Nat.le_refl _) (Nat.le_add_right _ _)
  var_eq i v hi hv := by cases hv
  memory := hmatches.extend (by
    have := hmatches.size_le
    omega)

/-- The code of a routine reaches the operation by which it returns. -/
theorem lowerRoutine_runs (forward : Forward program) (hexpand : expand.Simulates m program invoke)
    (hrestores : expand.Restores) {routine : Routine} {params : List Binding}
    {onReturn : Op Target} {placed : PlacedCode} {actuals : List Actual} {mem : Memory} {fuel : Nat}
    (h : (lowerRoutine m expand routine params onReturn).Yields st placed st')
    (hblocks : routine.blocks ≠ []) (hfuel : routine.blocks.length ≤ fuel)
    (segment : Segment program aimBy start placed)
    (bound : Bound M st.registerTop mem.size params actuals) (hmatches : MemoryMatches mem M)
    (hsize : mem.size = st.slotTop) :
    Assured (execFrom m invoke ⟨routine, actuals, mem.size⟩ fuel 0
        ⟨fun _ => none, mem.extend routine.temps⟩) fun final =>
      ∃ fragments q N, placed = place fragments ∧ Path program start M q N ∧
        program[q]? = some (onReturn.mapTargets (aimIn start fragments q)) ∧
        MemoryMatches final N ∧ mem.size ≤ final.size ∧
        ∀ r, r < st.registerTop → N.register r = M.register r := by
  obtain ⟨hslots, hregisters, fragments, u, hlower, rfl, -⟩ := lowerRoutine_yields.mp h
  have hindex : 0 < routine.blocks.length := List.length_pos_of_ne_nil hblocks
  refine (execFrom_runs forward hexpand hrestores hlower (segment_place segment) hindex hfuel
    (tracks_above hslots hregisters bound hmatches hsize) ?_ ?_).mono ?_
  · rw [registerTop_enter]
  · rw [slotTop_enter, ← hsize]
    rfl
  · rintro final ⟨q, N, path, hreturn, hfinal, hgrown, below⟩
    refine ⟨fragments, q, N, rfl, path, hreturn, hfinal, ?_, below⟩
    rw [hgrown]
    exact Nat.le_add_right _ _

/-- A routine that returns by its exit ends up behind its own code, a routine
without blocks at once. -/
theorem lowerRoutine_returns (forward : Forward program) {fuel : Nat}
    (hexpand : expand.Simulates m program (Reference.invoke m fuel)) (hrestores : expand.Restores)
    {routine : Routine} {params : List Binding} {placed : PlacedCode} {actuals : List Actual}
    {mem : Memory}
    (h : (lowerRoutine m expand routine params (.jump .exit)).Yields st placed st')
    (hfuel : routine.blocks.length ≤ fuel) (segment : Segment program aimBy start placed)
    (bound : Bound M st.registerTop mem.size params actuals) (hmatches : MemoryMatches mem M)
    (hsize : mem.size = st.slotTop) :
    Assured (Reference.invoke m (fuel + 1) routine actuals mem) fun final => ∃ N,
      Path program start M (start + placed.length) N ∧ MemoryMatches final N ∧
      final.size = mem.size ∧ ∀ q, q < st.registerTop → N.register q = M.register q := by
  rw [Reference.invoke]
  by_cases hblocks : routine.blocks = []
  · obtain ⟨-, -, fragments, u, hlower, rfl, -⟩ := lowerRoutine_yields.mp h
    rw [hblocks] at hlower
    obtain ⟨rfl, -⟩ := lowerBlocks_nil_yields.mp hlower
    rw [if_pos hblocks]
    exact ⟨M, .here _ _, hmatches, rfl, fun _ _ => rfl⟩
  · rw [if_neg hblocks]
    refine (lowerRoutine_runs forward hexpand hrestores h hblocks hfuel segment bound hmatches
      hsize).bind ?_
    rintro final ⟨fragments, q, N, rfl, path, hreturn, hfinal, hle, below⟩
    refine ⟨N, ?_, hfinal.shrink hle, rfl, below⟩
    rw [length_place]
    exact path.trans (.jump hreturn rfl)

/-- **Expanded callees do what calls of them do**, when the fuel suffices for
the calls that may still nest and for the blocks of every routine. -/
theorem expandRoutine_simulates (forward : Forward program) {longest : Nat}
    (hlongest : ∀ routine ∈ m.routines, routine.blocks.length ≤ longest) (depth : Nat) {fuel : Nat}
    (hfuel : depth + 1 + longest ≤ fuel) :
    Expander.Simulates m program (some (expandRoutine m depth)) (Reference.invoke m fuel) := by
  induction depth generalizing fuel with
  | zero =>
      obtain ⟨fuel, rfl⟩ : ∃ n, fuel = n + 1 := ⟨fuel - 1, by omega⟩
      rintro body ⟨⟩ callee bindings st placed st' actuals mem M pos hmem h segment bound hmatches
        hsize
      have := hlongest callee hmem
      refine lowerRoutine_returns forward ?_ ?_ h (by omega) segment bound hmatches hsize
      · rintro body ⟨⟩
      · rintro body ⟨⟩
  | succ depth ih =>
      obtain ⟨fuel, rfl⟩ : ∃ n, fuel = n + 1 := ⟨fuel - 1, by omega⟩
      rintro body ⟨⟩ callee bindings st placed st' actuals mem M pos hmem h segment bound hmatches
        hsize
      have := hlongest callee hmem
      exact lowerRoutine_returns forward (ih (by omega)) (expandRoutine_restores m depth) h
        (by omega) segment bound hmatches hsize

end PixelPipeline.Ir
