import PixelPipeline.Ir.Basic

/-!
# Why a blend program is refused

One constructor per cause.  `CompileFault.message` is the only place where the
causes are put into words.
-/

namespace PixelPipeline.Ir

/-- The registers of the machine. -/
def maxRegisters : Nat := 64

/-- The array slots of the machine. -/
def maxSlots : Nat := 16

/-- The temporary arrays a routine may declare while it is being built. -/
def maxTemps : Nat := 8

/-- A cause for refusing a routine, a module or a program. -/
inductive CompileFault where
  /-- A routine asked for a ninth temporary array. -/
  | tooManyTemps (routine : String)
  | statementAfterEnd (routine : String) (block : Nat)
  | endedTwice (routine : String) (block : Nat)
  | unknownBlock (routine : String) (block : Nat)
  /-- A routine was finished with an open block. -/
  | openBlock (routine : String) (block : Nat)
  | noEntry
  | missingEntry (id : Nat)
  | registersExhausted
  | temporariesExhausted
  | slotsExhausted
  /-- A block of a module under compilation has no end. -/
  | unterminated (routine : String) (block : Nat)
  | unknownCallee (routine : String) (id : Nat)
  | nestedTooDeep (routine callee : String)
  | argumentCount (routine callee : String) (expected got : Nat)
  | argumentKind (routine callee : String) (index : Nat)
  | notScalarParam (routine : String) (index : Nat)
  | notReferenceParam (routine : String) (array : ArrayRef)
  | undeclaredTemp (routine : String) (array : ArrayRef)
  | laneOutOfRange (routine : String) (lane : Nat) (array : ArrayRef)
  | undeclaredVar (routine : String) (index : Nat)
  | missingBlock (routine : String) (index : Nat)
  | backwardJump (source target : Nat)
  | jumpPastEnd (source : Nat)
  | noFinalReturn
  | signature (found expected : List ParamKind)
  | frameTooLarge
  /-- A compiler refused for a reason of its own. -/
  | refused (reason : String)
  deriving DecidableEq, Repr

namespace CompileFault

/-- The routine number as messages write it. -/
def routineText (id : Nat) : String := s!"FuncId({id})"

/-- The cause in words. -/
def message : CompileFault → String
  | .tooManyTemps f => s!"{f}: more than {maxTemps} local arrays"
  | .statementAfterEnd f b => s!"{f}: statement after terminator in bb{b}"
  | .endedTwice f b => s!"{f}: bb{b} terminated twice"
  | .unknownBlock f b => s!"{f}: unknown block bb{b}"
  | .openBlock f b => s!"{f}: block bb{b} has no terminator"
  | .noEntry => "module has no entry function"
  | .missingEntry id => "entry " ++ routineText id ++ " does not exist"
  | .registersExhausted => s!"more than {maxRegisters} live registers"
  | .temporariesExhausted => s!"expression needs more than {maxRegisters} registers"
  | .slotsExhausted => s!"more than {maxSlots} live arrays"
  | .unterminated f b => s!"{f}: bb{b} has no terminator"
  | .unknownCallee f id => s!"{f}: call to unknown " ++ routineText id
  | .nestedTooDeep f g => s!"{f}: recursive or too deeply nested call to {g}"
  | .argumentCount f g expected got =>
    s!"{f}: {g} expects {expected} arguments, got {got}"
  | .argumentKind f g i => s!"{f}: argument {i} of {g} has the wrong kind"
  | .notScalarParam f i => s!"{f}: p{i} is not a scalar parameter"
  | .notReferenceParam f a => s!"{f}: {a.text} is not a pointer parameter"
  | .undeclaredTemp f a => s!"{f}: {a.text} is not declared"
  | .laneOutOfRange f lane a => s!"{f}: lane {lane} out of range for {a.text}"
  | .undeclaredVar f i => s!"{f}: l{i} is not declared"
  | .missingBlock f i => s!"{f}: bb{i} does not exist"
  | .backwardJump source target => s!"backward jump from {source} to {target}"
  | .jumpPastEnd source => s!"jump from {source} past the end"
  | .noFinalReturn => "program does not end in return"
  | .signature found expected =>
    "entry signature " ++ ParamKind.listText found ++ " does not match "
      ++ ParamKind.listText expected
  | .frameTooLarge => "program exceeds the executor frame"
  | .refused reason => reason

end CompileFault

end PixelPipeline.Ir
