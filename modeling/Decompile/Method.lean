import Decompile.Declaration
import Decompile.Dispatcher
import Decompile.Handler.Structure
import Decompile.Inlining
import Decompile.Lowering
import Decompile.Reduction.Reachable
import Decompile.StackMapping

namespace Decompile

inductive MethodError
  | build (e : BuildError)
  | handlers (e : HandlerError)
  | stack (e : StackError)
  | consistency (e : Inconsistency)
  deriving DecidableEq, Inhabited

def MethodError.message : MethodError → String
  | build e => "While building flow blocks: " ++ e.message
  | handlers e => "While structuring exception handlers: " ++ e.message
  | stack e => "While mapping the operand stack: " ++ e.message
  | consistency e => "While checking consistency: " ++ e.message

structure MethodBody where
  analysis : Analysis
  root : BlockId
  /-- The tree is a dispatcher loop, or only says why there is none. -/
  degraded : Bool

namespace Analysis

/-- Reduces the flow blocks to one tree, by a dispatcher if need be, with a new budget for what
follows. Returns whether that was needed. -/
def structureAll (a : Analysis) (rows : List ExceptionRow) (fuel : Nat) :
    Except MethodError (Analysis × Bool) := do
  let a := a.removeUnreachable (rows.map (·.handler))
  let a ← (a.structureHandlers rows).mapError .handlers
  let (a, structured) := a.reduceAll
  if let some e := a.broken then throw (.consistency e)
  return if structured then (a, false) else ({ a.degrade with fuel }, true)

/-- Folds what the reduction has left and keeps what is passed on the operand stack in locals. -/
def finish (a : Analysis) : Except MethodError Analysis := do
  let a := (a.mergeEnd a.entry).fixpoint a.entry
  let a := a.restoreIncrements (a.root a.entry)
  let a := a.removeTrailingReturn (a.root a.entry)
  let a ← a.mapStack.mapError .stack
  let a := a.inlineStackLocals.fixpoint a.entry
  let a := a.mergeBySlot (a.flow a.entry).reads (VariableSet.ofList a.parameters)
  return a.placeDeclarations

end Analysis

def analyze (m : MethodInfo) (code : List Instruction) (rows : List ExceptionRow) (o : Options) :
    Except MethodError MethodBody := do
  let a ← (Analysis.build m code o).mapError .build
  let (a, degraded) ← a.structureAll rows (o.fuelFor code.length)
  let a ← a.finish
  if let some e := a.broken then throw (.consistency e)
  if o.checked then a.checkConsistency.mapError .consistency
  return ⟨a, a.root a.entry, degraded⟩

/-- As `analyze`, but with a description in the place of a body that cannot be analyzed. -/
def analyzeOrDescribe (m : MethodInfo) (code : List Instruction) (rows : List ExceptionRow)
    (o : Options) : MethodBody :=
  match analyze m code rows o with
  | .ok body => body
  | .error e =>
    let (a, root) := (Analysis.new o.checked 0).alloc (.description ("error: " ++ e.message))
    ⟨a, root, true⟩

end Decompile
