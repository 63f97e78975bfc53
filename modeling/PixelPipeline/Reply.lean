import PixelPipeline.Fault
import PixelPipeline.Log

/-!
# Replies

An operation on a state that outlives its failures answers with a result or a
fault, the state after it in either case, and the records it made.
-/

namespace PixelPipeline

/-- What an operation on states in `σ` answers. -/
structure Reply (σ α : Type) where
  result : Except Fault α
  state : σ
  log : Log

namespace Reply

variable {σ τ α β : Type}

/-- The reply of an operation that makes no records. -/
def quiet (result : Except Fault α) (state : σ) : Reply σ α := ⟨result, state, []⟩

/-- The same reply about a state that contains the old one. -/
def mapState (f : σ → τ) (r : Reply σ α) : Reply τ α := ⟨r.result, f r.state, r.log⟩

/-- Goes on with the result and the state after it; a fault ends the sequence.
The records of both come in order. -/
def andThen (r : Reply σ α) (next : α → σ → Reply σ β) : Reply σ β :=
  match r.result with
  | .error fault => ⟨.error fault, r.state, r.log⟩
  | .ok value =>
    let s := next value r.state
    ⟨s.result, s.state, r.log ++ s.log⟩

/-- After a result the next operation answers. -/
theorem andThen_of_ok {r : Reply σ α} {value : α} {s : σ} {log : Log}
    (hreply : r = ⟨.ok value, s, log⟩) (next : α → σ → Reply σ β) :
    r.andThen next
      = ⟨(next value s).result, (next value s).state, log ++ (next value s).log⟩ := by
  subst hreply
  rfl

end Reply

end PixelPipeline
