import Decompile.Rule.Basic

namespace Decompile.Analysis

def updated? (a : Analysis) (e : ExprId) : Option ExprId :=
  match a.expr e with
  | .assign target _ _ => some target
  | .step target _ _ => some target
  | _ => none

/-- `i = 0; while (i < n) { …; i++ }` becomes `for (i = 0; i < n; i++) { … }`. -/
def foldForInitializer (a : Analysis) (b : BlockId) : Option (Analysis × BlockId) := do
  let .loop .possibleFor cond _ (some incr) body labeled := a.statement b | none
  let prev ← a.blocks.prevStatement b
  let init ← a.statementExpr? prev
  let .assign target none _ := a.expr init | none
  let slot ← a.exprs.localSlot a.locals target
  let .evaluate update _ := a.statement incr | none
  let updated ← a.updated? update
  guard (a.exprs.localSlot a.locals updated = some slot ∧ a.exprs.readsSlot a.locals cond slot ∧
    a.exprs.freeCount init = 0 ∧ a.removable [prev])
  return ((a.removeStatement prev).setStatement b
    (.loop .forLoop cond (some init) (some incr) body labeled), b)

def assignedTo? (a : Analysis) (e : ExprId) (x : LocalId) : Option ExprId := do
  let .assign target none value := a.expr e | none
  let y ← (a.expr target).local?
  guard (a.locals.sameSlot y x)
  return value

/-- `monitorenter(l = o); synchronized (l) { … }` becomes `synchronized (o) { … }`, and so does
`l = o; monitorenter(l); synchronized (l) { … }`. -/
def completeSynchronized (a : Analysis) (b : BlockId) : Option (Analysis × BlockId) := do
  let .synchronized monitor none body := a.statement b | none
  let enter ← a.blocks.prevStatement b
  let expr ← a.statementExpr? enter
  let .monitorEnter object := a.expr expr | none
  guard (a.exprs.freeCount object = 0)
  let (value, run) ←
    match a.expr object with
    | .assign .. => (a.assignedTo? object monitor).map (·, [enter])
    | .var copy => do
      guard (a.locals.sameSlot copy monitor)
      let store ← a.blocks.prevStatement enter
      let stored ← a.statementExpr? store
      (a.assignedTo? stored monitor).map (·, [store, enter])
    | _ => none
  guard (a.removable run)
  return ((a.removeStatements run).setStatement b (.synchronized monitor (some value) body), b)

end Decompile.Analysis
