import PixelPipeline.Proofs.Lowering.Placement
import PixelPipeline.Proofs.Lowering.Tracking

/-!
# Lowered code does what was written

Each piece of lowered code, wherever it stands in a program whose jumps go
forward, takes the machine from a state that tracks the reference run to one
that tracks it after the same piece.  Here the pieces are values, arguments and
statements; what callees do is assumed, as `Expander.Simulates`.

* A value is evaluated above everything in use, so the operands that wait for
  it are safe.
* A scalar argument is moved to the first free register before the next one is
  evaluated; temporaries of the first may lie there, but they are dead by then.
* A callee owns what lies above its caller's registers and slots.  It returns by
  a jump behind its own code, which is where its caller goes on.
-/

namespace PixelPipeline.Ir

open Machine Reference Lower Storage

variable {program : Array (Op Nat)} {aim : Nat → Target → Nat} {pos : Nat}
  {f : Frame} {first top : Nat} {a : Activation} {s : Store} {M : State}
  {st st' : Storage} {code : Fragment} {r : Nat}

/-! ## Values -/

/-- The register of a value is in use when its code ends. -/
theorem lowerValue_register_lt {v : Value} (tracks : Tracks f first top a s M)
    (htop : top ≤ st.tempTop) (h : (lowerValue f v).Yields st (code, r) st') :
    r < st'.tempTop := by
  cases v with
  | const v =>
      obtain ⟨h, -⟩ := lowerValue_const_yields.mp h
      obtain ⟨-, rfl, rfl⟩ := allocTemp_yields.mp h
      exact Nat.lt_succ_self _
  | load array lane =>
      obtain ⟨_, -, h, -⟩ := lowerValue_load_yields.mp h
      obtain ⟨-, rfl, rfl⟩ := allocTemp_yields.mp h
      exact Nat.lt_succ_self _
  | param i =>
      obtain ⟨hr, -, rfl⟩ := lowerValue_param_yields.mp h
      have := (tracks.scalar hr).2
      have := tracks.first_le
      omega
  | var i =>
      obtain ⟨hr, -, rfl⟩ := lowerValue_var_yields.mp h
      obtain ⟨hi, rfl⟩ := tracks.var hr
      have := tracks.varsFit i hi
      omega
  | binary op lhs rhs =>
      obtain ⟨_, _, _, _, _, w, -, -, h, -⟩ := lowerValue_binary_yields.mp h
      obtain ⟨-, rfl, rfl⟩ := allocTemp_yields.mp h
      exact Nat.lt_succ_self _

/-- The code of a value leaves it in its register and disturbs nothing that was
in use. -/
theorem lowerValue_runs {v : Value} (h : (lowerValue f v).Yields st (code, r) st')
    (tracks : Tracks f first top a s M) (htop : top ≤ st.tempTop)
    (segment : Segment program aim pos code) :
    Assured (a.eval s v) fun x => ∃ N, Path program pos M (pos + code.length) N ∧
      M.Keeps st.tempTop N ∧ N.register r = x := by
  induction v generalizing st st' code r pos M with
  | const v =>
      obtain ⟨halloc, rfl⟩ := lowerValue_const_yields.mp h
      obtain ⟨hfit, rfl, -⟩ := allocTemp_yields.mp halloc
      refine ⟨M.setRegister st.tempTop v, .one (segment_singleton.mp segment) rfl,
        .setRegister (Nat.le_refl _) v, ?_⟩
      exact State.register_setRegister_self M v hfit
  | load array lane =>
      obtain ⟨slot, hslot, halloc, rfl⟩ := lowerValue_load_yields.mp h
      obtain ⟨hfit, rfl, -⟩ := allocTemp_yields.mp halloc
      obtain ⟨haddress, hsize, hlane⟩ := tracks.address hslot
      rw [Activation.eval, haddress]
      refine Assured.assigned fun x hx => ?_
      refine ⟨M.setRegister st.tempTop (M.lane slot lane),
        .one (segment_singleton.mp segment) rfl, .setRegister (Nat.le_refl _) _, ?_⟩
      rw [State.register_setRegister_self M _ hfit]
      exact tracks.memory.lane_eq slot hsize lane hlane x hx
  | param i =>
      obtain ⟨hr, rfl, rfl⟩ := lowerValue_param_yields.mp h
      rw [Activation.eval, (tracks.scalar hr).1]
      exact ⟨M, .here _ _, .refl _ _, rfl⟩
  | var i =>
      obtain ⟨hr, rfl, rfl⟩ := lowerValue_var_yields.mp h
      obtain ⟨hi, rfl⟩ := tracks.var hr
      rw [Activation.eval, Activation.var, if_pos hi]
      refine Assured.assigned fun x hx => ?_
      exact ⟨M, .here _ _, .refl _ _, tracks.var_eq i x hi hx⟩
  | binary op lhs rhs ihl ihr =>
      obtain ⟨lhsCode, x, u, rhsCode, y, w, hl, hr, halloc, rfl⟩ :=
        lowerValue_binary_yields.mp h
      obtain ⟨hfit, rfl, -⟩ := allocTemp_yields.mp halloc
      obtain ⟨segment, hop⟩ := segment_append.mp segment
      obtain ⟨hlSeg, hrSeg⟩ := segment_append.mp segment
      have hu := (lowerValue_restored hl).2
      have hw := (lowerValue_restored hr).2
      have hx := lowerValue_register_lt tracks htop hl
      rw [Activation.eval]
      refine (ihl hl tracks htop hlSeg).bind ?_
      rintro _ ⟨N, lhsPath, lhsKeeps, rfl⟩
      refine (ihr hr (tracks.keeps (lhsKeeps.mono htop)) (Nat.le_trans htop hu) hrSeg).bind ?_
      rintro _ ⟨O, rhsPath, rhsKeeps, rfl⟩
      refine ⟨O.setRegister w.tempTop (op.eval (O.register x) (O.register y)), ?_, ?_, ?_⟩
      · simp only [List.length_append, ← Nat.add_assoc] at hop ⊢
        exact (lhsPath.trans rhsPath).trans (.one (segment_singleton.mp hop) rfl)
      · have hle : st.tempTop ≤ w.tempTop := Nat.le_trans hu hw
        exact (lhsKeeps.trans (rhsKeeps.mono hu)).trans (.setRegister hle _)
      · rw [State.register_setRegister_self O _ hfit, rhsKeeps.register x hx]

/-! ## Statements -/

/-- What the code of a statement achieves: the machine tracks the store after
it, and the callers' registers and the extent of memory are untouched. -/
def Advances (program : Array (Op Nat)) (f : Frame) (first top : Nat) (a : Activation)
    (size : Nat) (pos : Nat) (M : State) (stop : Nat) (s : Store) : Prop :=
  ∃ N, Path program pos M stop N ∧ Tracks f first top a s N ∧ s.memory.size = size ∧
    ∀ q, q < first → N.register q = M.register q

/-- The code of an assignment does what the assignment does. -/
theorem lowerAssign_runs {dst : Place} {v : Value} (h : (lowerAssign f dst v).Yields st code st')
    (tracks : Tracks f first top a s M) (htop : top ≤ st.tempTop)
    (segment : Segment program aim pos code) :
    Assured (a.eval s v >>= fun x => a.assign s x dst)
      (Advances program f first top a s.memory.size pos M (pos + code.length)) := by
  cases dst with
  | lane array lane =>
      obtain ⟨front, src, slot, hv, hslot, rfl⟩ := lowerAssign_lane_yields.mp h
      obtain ⟨hfront, hop⟩ := segment_append.mp segment
      refine (lowerValue_runs hv tracks htop hfront).bind ?_
      rintro _ ⟨N, path, keeps, rfl⟩
      have tracksN := tracks.keeps (keeps.mono htop)
      obtain ⟨haddress, hsize, hlane⟩ := tracksN.address hslot
      rw [Activation.assign, haddress]
      refine ⟨N.setLane slot lane (N.register src), ?_, tracksN.write hsize hlane _, rfl, ?_⟩
      · rw [List.length_append, ← Nat.add_assoc]
        exact path.trans (.one (segment_singleton.mp hop) rfl)
      · intro q hq
        have := tracks.first_le
        exact keeps.register q (by omega)
  | var i =>
      obtain ⟨front, src, dst, hv, hdst, rfl⟩ := lowerAssign_var_yields.mp h
      obtain ⟨hfront, hop⟩ := segment_append.mp segment
      refine (lowerValue_runs hv tracks htop hfront).bind ?_
      rintro _ ⟨N, path, keeps, rfl⟩
      have tracksN := tracks.keeps (keeps.mono htop)
      obtain ⟨hi, rfl⟩ := tracksN.var hdst
      rw [Activation.assign, if_pos hi]
      refine ⟨N.setRegister (first + i) (N.register src), ?_, tracksN.setVar hi _, rfl, ?_⟩
      · rw [List.length_append, ← Nat.add_assoc]
        exact path.trans (.one (segment_singleton.mp hop) rfl)
      · intro q hq
        have := tracks.first_le
        rw [State.register_setRegister_ne N _ (by omega)]
        exact keeps.register q (by omega)

/-! ## Calls -/

/-- The code of an argument makes it available to the callee. -/
theorem lowerArg_runs {callee : Routine} {index : Nat} {kind : ParamKind} {arg : Arg}
    {binding : Binding} (h : (lowerArg f callee index kind arg).Yields st (code, binding) st')
    (tracks : Tracks f first top a s M) (htop : top ≤ st.registerTop)
    (htemp : st.registerTop ≤ st.tempTop) (segment : Segment program aim pos code) :
    Assured (a.pass s arg) fun actual => ∃ N, Path program pos M (pos + code.length) N ∧
      M.Keeps st.registerTop N ∧ binding.Means N st'.registerTop s.memory.size actual := by
  obtain ⟨array, slot, -, rfl, hslot, rfl, rfl, rfl⟩ |
    ⟨value, front, temp, u, register, -, rfl, hv, hr, rfl, rfl⟩ := lowerArg_yields.mp h
  · obtain ⟨haddress, hsize, -⟩ := tracks.address hslot
    rw [Activation.pass, haddress]
    exact ⟨M, .here _ _, .refl _ _, .slot hsize⟩
  · obtain ⟨hfit, rfl, rfl⟩ := allocRegister_yields.mp hr
    have restored := (lowerValue_restored hv).1.sameRegisters
    obtain ⟨hfront, hop⟩ := segment_append.mp segment
    rw [Activation.pass]
    refine (lowerValue_runs hv tracks (Nat.le_trans htop htemp) hfront).bind ?_
    rintro _ ⟨N, path, keeps, rfl⟩
    refine ⟨N.setRegister u.registerTop (N.register temp), ?_, ?_, ?_⟩
    · rw [List.length_append, ← Nat.add_assoc]
      exact path.trans (.one (segment_singleton.mp hop) rfl)
    · exact (keeps.mono htemp).trans (.setRegister (Nat.le_of_eq restored.symm) _)
    · have hself := State.register_setRegister_self N (N.register temp) hfit
      have means : Binding.Means (N.setRegister u.registerTop (N.register temp))
          (u.registerTop + 1) s.memory.size (.register u.registerTop)
          (.scalar ((N.setRegister u.registerTop (N.register temp)).register u.registerTop)) :=
        .register (Nat.lt_succ_self u.registerTop)
      rw [hself] at means
      exact means

/-- After an argument the temporaries lie above the registers again. -/
theorem lowerArg_temp {callee : Routine} {index : Nat} {kind : ParamKind} {arg : Arg}
    {binding : Binding} (h : (lowerArg f callee index kind arg).Yields st (code, binding) st')
    (htemp : st.registerTop ≤ st.tempTop) : st'.registerTop ≤ st'.tempTop := by
  obtain ⟨_, _, -, -, -, -, -, rfl⟩ | ⟨_, _, _, _, _, -, -, -, hr, -, -⟩ := lowerArg_yields.mp h
  · exact htemp
  · obtain ⟨-, -, rfl⟩ := allocRegister_yields.mp hr
    exact Nat.le_refl _

/-- The arguments of a call, in order: later ones leave earlier ones alone. -/
theorem lowerArgs_runs {callee : Routine} {index : Nat} {kinds : List ParamKind} {args : List Arg}
    {bindings : List Binding} (hlen : kinds.length = args.length)
    (h : (lowerArgs f callee index (kinds.zip args)).Yields st (code, bindings) st')
    (tracks : Tracks f first top a s M) (htop : top ≤ st.registerTop)
    (htemp : st.registerTop ≤ st.tempTop) (segment : Segment program aim pos code) :
    Assured (a.passAll s args) fun actuals => ∃ N, Path program pos M (pos + code.length) N ∧
      M.Keeps st.registerTop N ∧ Bound N st'.registerTop s.memory.size bindings actuals := by
  induction args generalizing kinds index st code bindings pos M with
  | nil =>
      rw [List.zip_nil_right] at h
      obtain ⟨rfl, rfl, rfl⟩ := lowerArgs_nil_yields.mp h
      exact ⟨M, .here _ _, .refl _ _, .nil⟩
  | cons arg rest ih =>
      cases kinds with
      | nil => simp at hlen
      | cons kind kinds =>
          rw [List.zip_cons_cons] at h
          obtain ⟨front, binding, u, back, others, harg, hrest, rfl, rfl⟩ :=
            lowerArgs_cons_yields.mp h
          obtain ⟨hfront, hback⟩ := segment_append.mp segment
          have grown := (lowerArg_grows harg).registerTop
          have grownRest := (lowerArgs_grows hrest).registerTop
          rw [Activation.passAll]
          refine (lowerArg_runs harg tracks htop htemp hfront).bind ?_
          rintro actual ⟨N, path, keeps, means⟩
          refine (ih (by simpa using hlen) hrest (tracks.keeps (keeps.mono htop))
            (Nat.le_trans htop grown) (lowerArg_temp harg htemp) hback).bind ?_
          rintro actuals ⟨O, pathRest, keepsRest, bound⟩
          refine ⟨O, ?_, keeps.trans (keepsRest.mono grown), ?_⟩
          · rw [List.length_append, ← Nat.add_assoc]
            exact path.trans pathRest
          · exact .cons (means.mono keepsRest.register grownRest (Nat.le_refl _)) bound

/-- What an expanded callee achieves: it runs from its start to behind its end,
and leaves its caller's registers alone. -/
def Expander.Simulates (m : Module) (program : Array (Op Nat)) (expand : Expander)
    (invoke : Invoke) : Prop :=
  ∀ ⦃body⦄, expand = some body → ∀ ⦃callee bindings st placed st' actuals mem M pos⦄,
    callee ∈ m.routines →
    (body callee bindings (.jump .exit)).Yields st placed st' →
    Segment program aimBy pos placed →
    Bound M st.registerTop mem.size bindings actuals → MemoryMatches mem M →
    mem.size = st.slotTop →
    Assured (invoke callee actuals mem) fun final => ∃ N,
      Path program pos M (pos + placed.length) N ∧ MemoryMatches final N ∧
      final.size = mem.size ∧ ∀ q, q < st.registerTop → N.register q = M.register q

variable {m : Module} {expand : Expander} {invoke : Invoke}

/-- A call passes its arguments and comes back behind the callee's code. -/
theorem lowerCall_runs {start : Nat} {blocks : List Fragment} {id : Nat} {args : List Arg}
    (hexpand : expand.Simulates m program invoke)
    (h : (lowerCall m expand f id args).Yields st code st')
    (tracks : Tracks f first top a s M) (htop : top = st.registerTop)
    (htemp : st.registerTop ≤ st.tempTop) (hslots : s.memory.size = st.slotTop)
    (segment : Segment program (aimIn start blocks) pos code) :
    Assured (Reference.exec m invoke a s (.call id args))
      (Advances program f first top a s.memory.size pos M (pos + code.length)) := by
  subst htop
  obtain ⟨callee, body, argCode, bindings, u, placed, w, hcallee, -, hbody, hlen, hargs, hrun, rfl,
    -⟩ := lowerCall_yields.mp h
  obtain ⟨hargSeg, hbodySeg⟩ := segment_append.mp segment
  have grown := lowerArgs_grows hargs
  simp only [Reference.exec, hcallee]
  refine (lowerArgs_runs hlen hargs tracks (Nat.le_refl _) htemp hargSeg).bind ?_
  rintro actuals ⟨N, argPath, argKeeps, bound⟩
  have tracksN := tracks.keeps argKeeps
  refine (hexpand hbody (List.mem_of_getElem? hcallee) hrun (segment_embed.mp hbodySeg) bound
    tracksN.memory (hslots.trans grown.slotTop.symm)).bind ?_
  rintro final ⟨O, bodyPath, matchesO, hsize, below⟩
  have callers : ∀ q, q < st.registerTop → O.register q = N.register q := fun q hq =>
    below q (Nat.lt_of_lt_of_le hq grown.registerTop)
  refine ⟨O, ?_, ?_, hsize, fun q hq => ?_⟩
  · rw [List.length_append, length_embed, ← Nat.add_assoc]
    exact argPath.trans bodyPath
  · refine { tracksN with tempsFit := ?_, params := ?_, var_eq := ?_, memory := matchesO }
    · rw [hsize]
      exact tracksN.tempsFit
    · exact tracksN.params.mono (fun q hq => callers q (Nat.lt_of_lt_of_le hq tracksN.first_le))
        (Nat.le_refl _) (Nat.le_of_eq hsize.symm)
    · intro i v hi hv
      rw [callers _ (tracksN.varsFit i hi).1]
      exact tracksN.var_eq i v hi hv
  · have := tracks.first_le
    rw [callers q (by omega), argKeeps.register q (by omega)]

/-- The code of a statement does what the statement does, if callees do. -/
theorem lowerStmt_runs {start : Nat} {blocks : List Fragment} {stmt : Stmt}
    (hexpand : expand.Simulates m program invoke)
    (h : (lowerStmt m expand f stmt).Yields st code st')
    (tracks : Tracks f first top a s M) (htop : top = st.registerTop)
    (htemp : st.registerTop ≤ st.tempTop) (hslots : s.memory.size = st.slotTop)
    (segment : Segment program (aimIn start blocks) pos code) :
    Assured (Reference.exec m invoke a s stmt)
      (Advances program f first top a s.memory.size pos M (pos + code.length)) := by
  cases stmt with
  | assign dst value =>
      exact lowerAssign_runs h tracks (by omega) segment
  | call id args => exact lowerCall_runs hexpand h tracks htop htemp hslots segment

/-- Statements run in order; the temporaries of each are dead when the next
begins. -/
theorem lowerStmts_runs {start : Nat} {blocks : List Fragment} {stmts : List Stmt}
    (hexpand : expand.Simulates m program invoke) (hrestores : expand.Restores)
    (h : (lowerStmts m expand f stmts).Yields st code st')
    (tracks : Tracks f first top a s M) (htop : top = st.registerTop)
    (hslots : s.memory.size = st.slotTop)
    (segment : Segment program (aimIn start blocks) pos code) :
    Assured (execAll m invoke a s stmts)
      (Advances program f first top a s.memory.size pos M (pos + code.length)) := by
  induction stmts generalizing st code pos M s with
  | nil =>
      obtain ⟨rfl, rfl⟩ := lowerStmts_nil_yields.mp h
      exact ⟨M, .here _ _, tracks, rfl, fun _ _ => rfl⟩
  | cons stmt rest ih =>
      obtain ⟨front, u, back, hstmt, hrest, rfl⟩ := lowerStmts_cons_yields.mp h
      obtain ⟨hfront, hback⟩ := segment_append.mp segment
      have restored := (dropTemps_restored st).trans (lowerStmt_restored hrestores hstmt)
      rw [execAll]
      refine (lowerStmt_runs hexpand hstmt tracks htop (Nat.le_refl _) hslots hfront).bind ?_
      rintro s₁ ⟨N, path, tracksN, hsize, below⟩
      refine (ih hrest tracksN (htop.trans restored.sameRegisters.symm)
        ((hsize.trans hslots).trans restored.slotTop.symm) hback).mono ?_
      rintro s₂ ⟨O, pathRest, tracksO, hsizeRest, belowRest⟩
      refine ⟨O, ?_, tracksO, hsizeRest.trans hsize, fun q hq => ?_⟩
      · rw [List.length_append, ← Nat.add_assoc]
        exact path.trans pathRest
      · rw [belowRest q hq, below q hq]

end PixelPipeline.Ir
