import Decompile.Reduction.Interval

namespace Decompile

inductive HandlerError
  | noInstruction (address : Nat)
  | rangeNotReduced (start stop : Nat)
  | handlerHasPredecessors (handler : Nat)
  | handlerNotAdjacent (handler : Nat)
  | malformedSubroutine (address : Nat)
  | straySubroutine
  deriving DecidableEq, Inhabited

def HandlerError.message : HandlerError → String
  | noInstruction address => s!"No instruction starts at {address}"
  | rangeNotReduced start stop =>
    s!"Protected range {start}..{stop} does not reduce to a single flow block"
  | handlerHasPredecessors handler =>
    s!"Handler at {handler} is reachable without an exception"
  | handlerNotAdjacent handler => s!"Handler at {handler} does not follow its protected range"
  | malformedSubroutine address =>
    s!"Subroutine at {address} does not start by storing its return address and end with ret"
  | straySubroutine => "Subroutine call or return outside a finally block"

namespace Analysis

/-- The local that a statement moves the top of the stack to, which at the head of a handler is the
exception. -/
def storedException? (a : Analysis) (b : BlockId) : Option LocalId := do
  let expr ← a.statementExpr? b
  let .assign target none value := a.expr expr | none
  guard (a.expr value).isFree
  (a.expr target).local?

def rethrows (a : Analysis) (b : BlockId) (exception : LocalId) : Bool :=
  match a.statement b with
  | .throws thrown => (a.expr thrown).local?.any fun x ↦ a.locals.sameSlot x exception
  | _ => false

/-- Takes over the code of a handler. It runs after any part of the protected code, so its reads
may see every write there. -/
def absorbHandler (a : Analysis) (body handler : FlowId) : Analysis :=
  let a := a.absorb body handler { gen := (a.flow body).writes }
  a.setGrowth body (a.root body)

def discardTree (a : Analysis) (f : FlowId) : Analysis :=
  let (a, empty) := (a.removeJumps f).alloc .empty
  (a.setRoot f empty).setGrowth f empty

end Analysis

end Decompile
