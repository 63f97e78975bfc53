import PixelPipeline.Blend.Emission
import PixelPipeline.Ir.Builder

/-!
# Emitting a blend program

The emitter writes a state's program through builders: every helper when it is
first asked for, and the entry last.  It keeps the number that each helper's
routine got, so that a helper which is asked for again is not built again.
-/

namespace PixelPipeline.Blend

open Ir

/-! ## The steps of a routine -/

open FactorRoutine in
/-- Computes the saturate factor in three new blocks, and goes on in the last,
where both sides meet. -/
def saturateSteps : List BuildStep :=
  let alpha := Value.load source 3
  let room := complement (.load destination 3)
  let take (block : Nat) (v : Value) : List BuildStep :=
    [.switchTo block, .push (.assign (.var saturateVar) v), .close (.jump 3)]
  [.addVar, .addBlock, .addBlock, .addBlock, .close (.branch .le alpha room 1 2)]
    ++ take 1 alpha ++ take 2 room ++ [.switchTo 3]

/-- The steps of a factor helper. -/
def factorSteps (factor : BlendFactor) (lanes : List Nat) : List BuildStep :=
  let store (lane : Nat) : BuildStep :=
    .push (.assign (.lane FactorRoutine.result lane) (scaledValue factor lane))
  (if factor = .srcAlphaSaturate then saturateSteps else []) ++ lanes.map store ++ [.close .ret]

open EquationRoutine in
/-- The steps that choose lane by lane, each lane in three blocks added behind
the block it starts in. -/
def chooseSteps (op : CmpOp) : (first : Nat) → List Nat → List BuildStep
  | _, [] => [.close .ret]
  | first, lane :: rest =>
    let src := Value.load source lane
    let dst := Value.load destination lane
    let take (block : Nat) (v : Value) : List BuildStep :=
      [.switchTo block, .push (.assign (.lane result lane) v), .close (.jump (first + 3))]
    [.addBlock, .addBlock, .addBlock, .close (.branch op src dst (first + 1) (first + 2))]
      ++ take (first + 1) src ++ take (first + 2) dst ++ [.switchTo (first + 3)]
      ++ chooseSteps op (first + 3) rest

open EquationRoutine in
/-- The steps of an equation helper. -/
def equationSteps (equation : BlendEquation) (lanes : List Nat) : List BuildStep :=
  match EquationShape.of equation with
  | .choose op => chooseSteps op 0 lanes
  | .compute op swapped =>
    let store (lane : Nat) : BuildStep :=
      let src := Value.load source lane
      let dst := Value.load destination lane
      .push (.assign (.lane result lane)
        (if swapped then .binary op dst src else .binary op src dst))
    lanes.map store ++ [.close .ret]

/-- The steps of a mask helper. -/
def maskSteps (mask : ColorMask) : List BuildStep :=
  let store (lane : Fin 4) : BuildStep :=
    .push (.assign (.lane (.param 0) lane.val) (.load (.param 1) lane.val))
  ((List.finRange 4).filter mask.has).map store ++ [.close .ret]

/-- The steps of a state's entry, with the numbers of the helpers it calls. -/
def entrySteps (s : PipelineState) (numbers : List Nat) : List BuildStep :=
  let call (c : HelperCall) (number : Nat) : BuildStep :=
    .push (.call number (c.args.map .array))
  let storeDepth : List BuildStep :=
    if s.depthWrite then [.push (.assign (.lane Entry.depthBuf 0) (.param Entry.depthParam))]
    else []
  (if s.blendingActive then [.addTemp, .addTemp, .addTemp] else [])
    ++ (calls s).zipWith call numbers ++ storeDepth ++ [.close .ret]

/-! ## The emitter -/

/-- A module under construction, and the numbers of the helpers it has. -/
structure Emitter where
  module : Module
  numbers : List (Helper × Nat)

/-- Work on a module under construction that may be refused. -/
abbrev Emit : Type → Type := StateT Emitter (Except CompileFault)

namespace Emit

/-- Builds a routine and gives its number. -/
def build (name : String) (params : List ParamKind) (steps : List BuildStep) : Emit Nat := do
  let e ← get
  let (m, number) ← ((Builder.start name params).run steps).finish e.module
  set { e with module := m }
  return number

/-- Builds a helper and gives its number. -/
def buildHelper : Helper → Emit Nat
  | .rgbFactor f => build ("rgb_" ++ Named.name f) FactorRoutine.params (factorSteps f rgbLanes)
  | .alphaFactor f =>
    build ("alpha_" ++ Named.name f) FactorRoutine.params (factorSteps f alphaLanes)
  | .rgbEquation e =>
    build ("eq_rgb_" ++ Named.name e) EquationRoutine.params (equationSteps e rgbLanes)
  | .alphaEquation e =>
    build ("eq_alpha_" ++ Named.name e) EquationRoutine.params (equationSteps e alphaLanes)
  | .mask m =>
    build ("color_mask_" ++ Hex.digits m.bits.toNat) (List.replicate 2 .vec4Ptr) (maskSteps m)

/-- The number of a helper, which is built when it is first asked for. -/
def helper (h : Helper) : Emit Nat := do
  match (← get).numbers.lookup h with
  | some number => return number
  | none =>
    let number ← buildHelper h
    modify fun e => { e with numbers := e.numbers ++ [(h, number)] }
    return number

/-- Asks for the mask and then for the helpers in the order of their calls, and
builds the entry that calls them. -/
def entry (s : PipelineState) : Emit Unit := do
  let _ ← helper (.mask s.attachment.colorMask)
  let numbers ← (calls s).mapM fun c => helper c.helper
  let number ← build "fragment_set" Entry.params (entrySteps s numbers)
  modify fun e => { e with module := { e.module with entry := some number } }

end Emit

/-- The program that the emitter writes for a state. -/
def emit (s : PipelineState) : Except CompileFault Module := do
  let (_, e) ← (Emit.entry s).run ⟨default, []⟩
  return e.module

end PixelPipeline.Blend
