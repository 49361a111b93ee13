import Decompile.Handler.Clause
import Decompile.Handler.Table

namespace Decompile

/-- The state of structuring an exception table: the try blocks so far stand for these ranges. -/
structure Structuring where
  analysis : Analysis
  ranges : List (BlockId × Nat × Nat) := []

namespace Analysis

def startingAt (a : Analysis) (address : Nat) : Except HandlerError FlowId :=
  match a.graph.flowStartingAt address with
  | some f => .ok f
  | none => .error (.noInstruction address)

/-- Reduces the protected code and its handler to two flow blocks, one after the other. -/
def reduceRow (a : Analysis) (row : ExceptionRow) (outer : List ExceptionRow) :
    Except HandlerError (Analysis × FlowId × FlowId) := do
  let body ← a.startingAt row.start
  let (a, _) := a.reduce body ⟨row.start, max row.stop row.handler⟩
  if (a.flow body).stop < row.stop then throw (.rangeNotReduced row.start row.stop)
  let handler ← a.startingAt row.handler
  if !(a.flow handler).predecessors.isEmpty then throw (.handlerHasPredecessors row.handler)
  let (a, _) := a.reduce handler ⟨row.handler, row.boundary outer⟩
  if (a.flow handler).addr ≠ (a.flow body).stop then throw (.handlerNotAdjacent row.handler)
  return (a, body, handler)

end Analysis

namespace Structuring

/-- Adds a catch clause to the try block of the same range, or to a new one. -/
def addCatch (s : Structuring) (row : ExceptionRow) (body handler : FlowId) (existing : Bool) :
    Structuring :=
  let root := s.analysis.root body
  let (a, clause) := s.analysis.makeCatch handler row.type
  match existing, a.statement root with
  | true, .tryCatch inner handlers =>
    let a := a.setStatement root (.tryCatch inner (handlers ++ [clause]))
    let a := a.setOuter clause (some root)
    { s with analysis := (a.absorbHandler body handler).checkpoint }
  | _, _ =>
    let (a, tryBlock) := a.alloc (.tryCatch root [clause])
    let a := (a.setRoot body tryBlock).absorbHandler body handler
    ⟨a.checkpoint, (tryBlock, row.start, row.stop) :: s.ranges⟩

/-- Structures one row, the outer ones of which are still to come. -/
def addRow (s : Structuring) (row : ExceptionRow) (outer : List ExceptionRow) :
    Except HandlerError Structuring := do
  let (a, body, handler) ← s.analysis.reduceRow row outer
  let s := { s with analysis := a }
  let existing := s.ranges.lookup (a.root body) == some (row.start, row.stop)
  if row.type.isNone && !existing then
    if let some a ← a.makeFinally body handler then return { s with analysis := a }
    if let some a := a.makeSynchronized body handler then return { s with analysis := a }
  return s.addCatch row body handler existing

def addRows (s : Structuring) : List ExceptionRow → Except HandlerError Structuring
  | [] => .ok s
  | row :: outer => do (← s.addRow row outer).addRows outer

end Structuring

namespace Analysis

def hasSubroutines (a : Analysis) : Bool :=
  a.graph.live.any fun f ↦ (a.blocks.subtree (a.root f)).any fun b ↦ (a.statement b).isSubroutine

/-- Turns the exception table into try, catch, finally and synchronized blocks. -/
def structureHandlers (a : Analysis) (rows : List ExceptionRow) : Except HandlerError Analysis := do
  let s ← Structuring.addRows ⟨a, []⟩ (ExceptionRow.normalize rows)
  if s.analysis.hasSubroutines then throw .straySubroutine
  return s.analysis

end Analysis

end Decompile
