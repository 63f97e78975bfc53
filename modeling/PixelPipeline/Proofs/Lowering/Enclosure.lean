import PixelPipeline.Proofs.Lowering.Agreement
import PixelPipeline.Proofs.Lowering.Confinement
import PixelPipeline.Proofs.Lowering.WellFormed

/-!
# Expansion in place

Looking up labels gives the positions that displacements lead to, so a program that is assembled
in one pass is the lowered one (`Labelled.lower_eq`).

A state of the assembly encloses what was emitted after it (`Assembly.Encloses`) if storage is in
use as before, the new code writes only what was free or was handed to it, and the new labels lead
into the new code or right behind it.  `Labelled.lower_encloses` says this of every expansion of a
routine and of every call, from whatever state.
-/

namespace PixelPipeline.Machine.Op

variable {σ τ : Type} {R : σ → τ → Prop} {op : Op σ} {op' : Op τ}

/-- Operations that are alike write one register. -/
theorem Alike.written?_eq (h : op.Alike R op') : op.written? = op'.written? := by
  cases h <;> rfl

/-- Operations that are alike write one slot. -/
theorem Alike.stored?_eq (h : op.Alike R op') : op.stored? = op'.stored? := by
  cases h <;> rfl

end PixelPipeline.Machine.Op

namespace PixelPipeline.Ir

open Machine

/-! ## Looking up labels -/

section

variable {table : List (Option Nat)} {x : Exits} {source length : Nat}

/-- A label that stands for a displacement is bound to where the displacement leads. -/
theorem target_eq_resolveTarget (length : Nat) {label : Nat} {displacement : Int}
    (h : Names table x source label (.within displacement)) :
    Assembly.target table length source label = resolveTarget length source displacement := by
  cases h with
  | @within offset _ hbound hoffset =>
      have htarget : ((source : Int) + displacement).toNat = offset := by omega
      simp only [Assembly.target, resolveTarget, hbound, htarget]

/-- Looking up labels resolves the code as adding positions does. -/
theorem resolveFrom_eq {code : List (Op Nat)} {placed : PlacedCode}
    (h : Spells table x source code (embed placed)) :
    Assembly.resolveFrom table length source code = resolveFrom length source placed := by
  induction placed generalizing source code with
  | nil =>
      cases h
      rfl
  | cons op rest ih =>
      cases h with
      | cons hop hrest =>
          have hfirst := hop.of_mapTargets.traverseTargets fun _ _ =>
            target_eq_resolveTarget length
          rw [Assembly.resolveFrom, resolveFrom, hfirst, ih hrest]

/-- Labels and displacements are resolved to the same code. -/
theorem resolve_eq {a : Assembly} {placed : PlacedCode}
    (h : Spells a.labels x 0 a.code (embed placed)) : a.resolve = resolve placed := by
  have hlength : a.code.length = placed.length := h.length_eq.trans (length_embed placed)
  rw [Assembly.resolve, resolve, resolveFrom_eq h, hlength]

end

/-! ## Programs -/

/-- The entry is emitted alike. -/
theorem entry_agrees (m : Module) (id : Nat) (r : Routine) :
    Agree (fun params a w s => params = w.1 ∧ a.storage = s ∧
        Spells a.labels ⟨[], none⟩ 0 a.code (embed w.2))
      (Labelled.entry m id r ⟨.empty, [], []⟩) (lowerEntry m id r .empty) := by
  unfold Labelled.entry lowerEntry
  refine (Agree.ofLower (r.params.mapM allocParam) ⟨.empty, [], []⟩).seq fun params _ _ s h => ?_
  obtain ⟨rfl, rfl⟩ := h
  simp only [Labelled.modifyStorage_bind, modify_bind]
  refine (expandRoutine_agrees m (maxPath - 1) r params none _).seq fun _ a placed s h => ?_
  obtain ⟨hstorage, code, offsets, grows, -, hspells⟩ := h
  refine .ok ⟨rfl, hstorage, ?_⟩
  rw [grows.code]
  exact hspells ⟨[], none⟩ a.labels (.refl _) fun _ h => nomatch h

/-- **Code that is assembled in one pass is the lowered code**, and the same modules are refused
for the same reasons. -/
theorem Labelled.lower_eq (m : Module) : Labelled.lower m = Ir.lower m := by
  unfold Labelled.lower Ir.lower
  cases m.entry with
  | none => rfl
  | some id =>
      cases hroutine : m.routine? id with
      | none => simp only [hroutine]
      | some r =>
          simp only [hroutine]
          have hentry := entry_agrees m id r
          simp only [StateT.run]
          generalize Labelled.entry m id r ⟨.empty, [], []⟩ = p at hentry ⊢
          generalize lowerEntry m id r .empty = q at hentry ⊢
          cases hentry with
          | error e => rfl
          | ok h =>
              obtain ⟨rfl, rfl, hspells⟩ := h
              simp only [bind, Except.bind, resolve_eq hspells]

/-! ## What is enclosed -/

/-- Code that is alike is as confined. -/
theorem Confined.of_alike {σ τ : Type} {R : σ → τ → Prop} {register : Nat} {allowed : Nat → Prop}
    {code : List (Op σ)} {placed : List (Op τ)} (halike : List.Forall₂ (Op.Alike R) code placed)
    (h : Confined register allowed placed) : Confined register allowed code := by
  induction halike with
  | nil => exact .nil
  | @cons op op' _ _ hop _ ih =>
      have hfirst := h op' List.mem_cons_self
      have hconfined : op.Confined register allowed :=
        ⟨fun r hr => hfirst.written r (hop.written?_eq ▸ hr),
          fun slot hslot => hfirst.stored slot (hop.stored?_eq ▸ hslot)⟩
      exact (Confined.one hconfined).append
        (ih fun op' hop' => h op' (List.mem_cons_of_mem _ hop'))

/-- What was emitted in between leaves alone what was in use, but for the slots that are shared
with it, and is complete in itself: nothing is left in use, and its labels are bound inside it or
right behind it. -/
structure Assembly.Encloses (a b : Assembly) (shared : Nat → Prop) : Prop where
  registerTop : b.storage.registerTop = a.storage.registerTop
  slotTop : b.storage.slotTop = a.storage.slotTop
  path : b.storage.path = a.storage.path
  emitted : ∃ code offsets, a.Grows b code offsets ∧
    Confined a.storage.registerTop (fun slot => a.storage.slotTop ≤ slot ∨ shared slot) code

variable {m : Module} {a b : Assembly}

/-- Returning writes no register. -/
theorem returnBy_written? (continuation : Option Nat) :
    (returnBy continuation).written? = none := by
  cases continuation <;> rfl

/-- Returning writes no slot. -/
theorem returnBy_stored? (continuation : Option Nat) :
    (returnBy continuation).stored? = none := by
  cases continuation <;> rfl

/-- **An expanded routine is enclosed**, but for the slots that it received. -/
theorem expandRoutine_encloses {depth : Nat} {r : Routine} {params : List Binding}
    {continuation : Option Nat}
    (h : Labelled.expandRoutine m depth r params continuation a = .ok ((), b)) :
    a.Encloses b (r.Received params) := by
  obtain ⟨placed, s, hrun, rfl, code, offsets, grows, halike, -⟩ :=
    (expandRoutine_agrees m depth r params continuation a).exists_ok h
  have restored := expandRoutine_restored hrun
  have hconfined := expandRoutine_confined (returnBy_written? continuation)
    (returnBy_stored? continuation) hrun
  exact ⟨restored.sameRegisters, restored.slotTop, restored.path, code, offsets, grows,
    hconfined.of_alike halike⟩

/-- Any way to expand callees. -/
theorem call_encloses {e : LabelledExpander} {expand : Expander} (follows : e.Follows expand)
    (restores : expand.Restores) (confines : expand.Confines) {f : Frame} {id : Nat}
    {args : List Arg} (htemps : a.storage.registerTop ≤ a.storage.tempTop)
    (h : Labelled.call m e f id args a = .ok ((), b)) : a.Encloses b (m.Passes f id args) := by
  obtain ⟨fragment, s, hrun, rfl, code, offsets, grows, hspells⟩ :=
    (call_agrees follows restores ⟨[], none⟩ id args a).exists_ok h
  have restored := lowerCall_restored restores hrun
  have hconfined := lowerCall_confined confines htemps hrun
  exact ⟨restored.sameRegisters, restored.slotTop, restored.path, code, offsets, grows,
    hconfined.of_alike hspells.alike⟩

/-- **Expansion in place is enclosed**: from any storage, code and labels, an expanded routine
leaves alone what was in use, but for the arrays that it received, and a call leaves its caller
alone, but for the arrays that it passes.  Code that is emitted so is the lowered code.  Callees
are expanded as deep as is left, or not at all. -/
theorem Labelled.lower_encloses (m : Module) :
    Labelled.lower m = Ir.lower m ∧
    (∀ (depth : Nat) (r : Routine) (params : List Binding) (continuation : Option Nat)
      (a b : Assembly), Labelled.expandRoutine m depth r params continuation a = .ok ((), b) →
        a.Encloses b (r.Received params)) ∧
    ∀ (depth : Option Nat) (f : Frame) (id : Nat) (args : List Arg) (a b : Assembly),
      a.storage.registerTop ≤ a.storage.tempTop →
      Labelled.call m (depth.map (Labelled.expandRoutine m)) f id args a = .ok ((), b) →
        a.Encloses b (m.Passes f id args) := by
  refine ⟨Labelled.lower_eq m, fun depth r params continuation a b h => expandRoutine_encloses h,
    fun depth f id args a b htemps h => ?_⟩
  cases depth with
  | none =>
      refine call_encloses .none ?_ ?_ htemps h
      · exact fun _ hbody => nomatch hbody
      · exact fun _ hbody => nomatch hbody
  | some depth =>
      exact call_encloses (.some (expandRoutine_agrees m depth)) (expandRoutine_restores m depth)
        (expandRoutine_confines m depth) htemps h

/-- The storage of the entry of `scatter`, some code, and a label that is not bound yet. -/
def scattering : Assembly := ⟨⟨1, 1, 1, 2, 2, [1]⟩, [.ret], [some 0, none]⟩

/-- The entry of `scatter` on that storage. -/
def scatterFrame : Frame :=
  ⟨(scatter.routine? 1).get rfl, [.slot 0, .slot 1, .register 0], [], [], .ret⟩

/-- The routine that the entry of `scatter` calls. -/
def putRoutine : Routine := (scatter.routine? 0).get rfl

/-- A call, and its callee alone, which leaves by a label that is bound later. -/
theorem lower_encloses_scatter :
    scattering.storage.registerTop ≤ scattering.storage.tempTop ∧
    (∃ b, Labelled.call scatter (some (Labelled.expandRoutine scatter 6)) scatterFrame 0
        [.array (.param 0), .value (.param 2)] scattering = .ok ((), b) ∧
      b.code = [.ret, .move 1 0, .store 0 0 1, .jump 2] ∧
      b.labels = [some 0, none, some 4, some 2] ∧
      scattering.Encloses b
        (scatter.Passes scatterFrame 0 [.array (.param 0), .value (.param 2)])) ∧
    ∃ b, Labelled.expandRoutine scatter 6 putRoutine [.slot 0, .register 0] (some 1) scattering
        = .ok ((), b) ∧
      b.code = [.ret, .store 0 0 0, .jump 1] ∧ b.labels = [some 0, none, some 1] ∧
      scattering.Encloses b (putRoutine.Received [.slot 0, .register 0]) :=
  ⟨Nat.le_refl 1,
    ⟨_, rfl, rfl, rfl,
      (Labelled.lower_encloses scatter).2.2 (some 6) _ _ _ _ _ (Nat.le_refl 1) rfl⟩,
    _, rfl, rfl, rfl, (Labelled.lower_encloses scatter).2.1 6 _ _ (some 1) _ _ rfl⟩

end PixelPipeline.Ir
