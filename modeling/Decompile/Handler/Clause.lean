import Decompile.Handler.Basic

namespace Decompile.Analysis

def makeCatch (a : Analysis) (handler : FlowId) (type : Option Name) : Analysis × BlockId :=
  let first := a.blocks.chainHead (a.root handler)
  let (a, binding) :=
    match a.storedException? first, a.statement first with
    | some x, _ => (a.discardStatement first, some x)
    | none, .shuffle .pop => (a.discardStatement first, none)
    | none, _ =>
      let (a, x) := a.addLocal .exception none
      let (a, expr) := a.allocExpr (.var x)
      let (a, push) := a.alloc (.evaluate expr 1)
      (a.insertBefore first push, some x)
  a.alloc (.catchClause type binding (a.root handler))

/-- Takes a subroutine call out of the tree. Its jump to the next instruction stays. -/
def removeCall (a : Analysis) (jsr : BlockId) : Analysis :=
  if (a.jumpOf jsr).isSome then
    let (a, empty) := a.alloc .empty
    a.replaceStatement jsr empty
  else a.discardStatement jsr

def removeCalls (a : Analysis) (subroutine : FlowId) : Analysis :=
  a.graph.live.foldl (fun a f ↦
    (a.graph.jumpsTo f subroutine).foldl (fun a j ↦
      let call := (a.jump j).source
      let a := a.removeJump f j
      match a.outer call with
      | some jsr => a.removeCall jsr
      | none => a) a) a

/-- The subroutine of a handler `e = exception; jsr subroutine; throw e`. -/
def finallySubroutine? (a : Analysis) (handler : FlowId) : Option FlowId := do
  let [store, jsr, throws] := a.blocks.chain (a.root handler) | none
  let exception ← a.storedException? store
  let .jsr call := a.statement jsr | none
  guard (a.rethrows throws exception)
  return (a.jump (← a.jumpOf call)).destination

/-- The first and the last statement of a subroutine that starts by storing its return address and
ends by returning there. -/
def subroutineEnds? (a : Analysis) (subroutine : FlowId) : Option (BlockId × BlockId) := do
  let root := a.root subroutine
  let head := a.blocks.chainHead root
  let tail := a.blocks.chainTail root
  let stored ← a.storedException? head
  let .ret address := a.statement tail | none
  guard (head ≠ tail ∧ a.locals.sameSlot stored address)
  return (head, tail)

/-- A handler that only calls a subroutine and rethrows becomes `try { … } finally { … }`. Every
other call of the subroutine goes, since the clause runs there as well. -/
def makeFinally (a : Analysis) (body handler : FlowId) : Except HandlerError (Option Analysis) :=
  match a.finallySubroutine? handler with
  | none => .ok none
  | some subroutine =>
    let address := (a.flow subroutine).addr
    let (a, _) := a.reduce subroutine ⟨address, everywhere.stop⟩
    match a.subroutineEnds? subroutine with
    | none => .error (.malformedSubroutine address)
    | some (head, tail) =>
      let a := a.removeCalls subroutine
      if (a.flow subroutine).predecessors.any fun p ↦ !p.isSentinel then
        .error (.malformedSubroutine address)
      else
        let a := (a.discardStatement tail).discardStatement head
        let (a, clause) := a.alloc (.finallyClause (a.root subroutine))
        let (a, tryBlock) := a.alloc (.tryCatch (a.root body) [clause])
        let a := (a.setRoot body tryBlock).discardTree handler
        -- The root of the subroutine is inside the clause now, so both go before the check.
        .ok (some (((a.absorbHandler body handler).absorbHandler body subroutine).checkpoint))

def releasedMonitor? (a : Analysis) (b : BlockId) : Option LocalId := do
  let .evaluate expr _ := a.statement b | none
  let .monitorExit object := a.expr expr | none
  (a.expr object).local?

def removeReleases (a : Analysis) (root : BlockId) (monitor : LocalId) : Analysis :=
  (a.blocks.subtree root).foldl (fun a b ↦
    if (a.releasedMonitor? b).any fun x ↦ a.locals.sameSlot x monitor then a.discardStatement b
    else a) a

/-- The monitor of a handler `e = exception; monitorexit(l); throw e`. -/
def guardedMonitor? (a : Analysis) (handler : FlowId) : Option LocalId := do
  let [store, release, throws] := a.blocks.chain (a.root handler) | none
  let exception ← a.storedException? store
  let monitor ← a.releasedMonitor? release
  guard (a.rethrows throws exception)
  return monitor

/-- Puts the protected code into `synchronized (l) { … }`, without what releases the monitor. Returns
the code inside. -/
def wrapSynchronized (a : Analysis) (body : FlowId) (monitor : LocalId) : Analysis × BlockId :=
  let a := a.removeReleases (a.root body) monitor
  let root := a.root body
  let (a, block) := a.alloc (.synchronized monitor none root)
  (a.setRoot body block, root)

/-- A handler that only releases a monitor and rethrows turns the protected code into
`synchronized (l) { … }`. -/
def makeSynchronized (a : Analysis) (body handler : FlowId) : Option Analysis := do
  let monitor ← a.guardedMonitor? handler
  let (a, root) := a.wrapSynchronized body monitor
  return (((a.foldFrom body root).discardTree handler).absorbHandler body handler).checkpoint

end Decompile.Analysis
