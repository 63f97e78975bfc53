import PixelPipeline.Blend.Emitter
import PixelPipeline.Blend.Evaluate
import PixelPipeline.Ir.Listing
import PixelPipeline.Ir.Lowering
import PixelPipeline.Log
import PixelPipeline.Machine.Run
import PixelPipeline.State.Fingerprint

/-!
# Blend units

A unit is a finished program whose parameters are those of a blend entry,
together with the state it was made for.  Invoking it loads the stored pixel and
the input into the bound slots and registers of an empty machine, runs the
program, and reads the pixel back.
-/

namespace PixelPipeline

open Ir Machine

/-- A program for one state. -/
structure BlendUnit where
  program : Program
  state : PipelineState
  fingerprint : UInt32

namespace BlendUnit

/-- Accepts a program with the parameters of a blend entry that fits the
machine. -/
def ofProgram (program : Program) (state : PipelineState) (fingerprint : UInt32) :
    Except CompileFault BlendUnit :=
  let kinds := program.params.map Prod.fst
  if kinds ≠ Blend.Entry.params then .error (.signature kinds Blend.Entry.params)
  else if maxRegisters < program.registers ∨ maxSlots < program.slots then .error .frameTooLarge
  else .ok ⟨program, state, fingerprint⟩

/-- Where the entry's parameter with this number lives. -/
def place (u : BlendUnit) (param : Nat) : Nat :=
  (u.program.params[param]?.map fun p => p.2.index).getD 0

/-- The machine before the run. -/
def load (u : BlendUnit) (pixel : Pixel) (input : BlendInput) : State :=
  State.empty
    |>.setSlot (u.place 0) pixel.color
    |>.setLane (u.place 1) 0 pixel.depth
    |>.setSlot (u.place 2) input.color
    |>.setSlot (u.place 4) input.constant
    |>.setRegister (u.place 3) input.depth

/-- The pixel in the machine. -/
def unload (u : BlendUnit) (s : State) : Pixel :=
  ⟨s.slot (u.place 0), s.lane (u.place 1) 0⟩

/-- The pixel after the unit has run. -/
def invoke (u : BlendUnit) (pixel : Pixel) (input : BlendInput) : Pixel :=
  u.unload (u.program.run (u.load pixel input)).1

/-- A one-line description. -/
def text (u : BlendUnit) : String :=
  "CompiledUnit \x7b fingerprint: " ++ Hex.hash u.fingerprint
    ++ s!", ops: {u.program.code.size}, regs: {u.program.registers}"
    ++ s!", slots: {u.program.slots}, .. " ++ "\x7d"

end BlendUnit

/-- A compiler's answer: a unit or a refusal, the compiler's next state, and the
records it made. -/
structure Compilation (γ : Type) where
  result : Except CompileFault BlendUnit
  compiler : γ
  log : Log

/-- Makes units for states; it may refuse and may change state at every call. -/
class UnitCompiler (γ : Type) where
  compile : γ → PipelineState → Compilation γ

/-- The compiler that emits the state's own blend program and lowers it. -/
structure BlendCompiler where
  /-- Whether every generated program is listed in the log. -/
  traceListing : Bool
  /-- How many units were made so far. -/
  compiled : Nat
  deriving DecidableEq, Repr

namespace BlendCompiler

/-- A compiler that has made nothing yet. -/
def new (traceListing : Bool) : BlendCompiler := ⟨traceListing, 0⟩

/-- The unit of an emitted program. -/
def unitOfModule (m : Module) (s : PipelineState) : Except CompileFault BlendUnit := do
  let program ← lower m
  BlendUnit.ofProgram program s s.fingerprint

/-- The unit of a state. -/
def unitOf (s : PipelineState) : Except CompileFault BlendUnit := do
  unitOfModule (← Blend.emit s) s

/-- The record of an emitted program. -/
def listingRecord (m : Module) (s : PipelineState) : LogRecord :=
  ⟨.trace, "blend program " ++ Hex.hash s.fingerprint ++ ":\n" ++ m.text⟩

/-- The record of a finished unit. -/
def unitRecord (u : BlendUnit) : LogRecord :=
  ⟨.debug, "Compiled blend unit " ++ Hex.hash u.fingerprint
    ++ s!": {u.program.code.size} ops, {u.program.branchCount} branches"⟩

/-- Emits the program of a state, makes its unit and counts it. -/
def compile (c : BlendCompiler) (s : PipelineState) : Compilation BlendCompiler :=
  match Blend.emit s with
  | .error fault => ⟨.error fault, c, []⟩
  | .ok m =>
    let listing := if c.traceListing then [listingRecord m s] else []
    match unitOfModule m s with
    | .error fault => ⟨.error fault, c, listing⟩
    | .ok u => ⟨.ok u, { c with compiled := c.compiled + 1 }, listing ++ [unitRecord u]⟩

instance : UnitCompiler BlendCompiler := ⟨compile⟩

end BlendCompiler

end PixelPipeline
