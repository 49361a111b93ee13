import Decompile.Rule.Basic

namespace Decompile.Analysis

/-- `push e; pop` becomes `e;`, or nothing if `e` is pure. -/
def removePop (a : Analysis) (b : BlockId) : Option (Analysis × BlockId) := do
  let op ← a.shuffle? b
  let popped ← op.poppedSlots
  let prev ← a.blocks.prevStatement b
  let (expr, width) ← a.pushed? prev
  guard (width = popped ∧ a.removable [prev])
  return a.replaceRun [prev] b (if a.exprs.isPure expr then .empty else .evaluate expr 0)

/-- `push a; push b; swap` becomes `push b; push a` for locals and constants. -/
def removeSwap (a : Analysis) (b : BlockId) : Option (Analysis × BlockId) := do
  guard (a.shuffle? b = some .swap)
  let [first, second] ← a.blocks.preceding b 2 | none
  let (x, 1) ← a.pushed? first | none
  let (y, 1) ← a.pushed? second | none
  guard ((a.expr x).isSimple ∧ (a.expr y).isSimple ∧ a.canRemoveStatement b)
  let a := (a.setStatement first (.evaluate y 1)).setStatement second (.evaluate x 1)
  return (a.removeStatement b, second)

/-- `push a; dup` becomes `push a; push a` for locals and constants. -/
def removeDup (a : Analysis) (b : BlockId) : Option (Analysis × BlockId) := do
  let op ← a.shuffle? b
  guard (op = .dup ∨ op = .dup2)
  let prev ← a.blocks.prevStatement b
  let (expr, width) ← a.pushed? prev
  guard (op.dupShape = some (width, 0) ∧ (a.expr expr).isSimple)
  let (a, copy) := a.allocExpr (a.expr expr)
  return a.replaceRun [] b (.evaluate copy width)

/-- `push v; dup_x<n>; target = FREE` becomes `push (target = v)`, where the target takes the `n`
skipped slots as operands of its own. -/
def foldDupStore (a : Analysis) (b : BlockId) : Option (Analysis × BlockId) := do
  let expr ← a.statementExpr? b
  let .assign target _ value := a.expr expr | none
  let .free width := a.expr value | none
  let [push, dup] ← a.blocks.preceding b 2 | none
  let (copied, skipped) ← a.dupShape? dup
  let (pushed, pushedWidth) ← a.pushed? push
  guard (copied = width ∧ pushedWidth = width ∧ a.exprs.freeSlots target = skipped ∧
    a.removable [push, dup])
  let a := { a with exprs := (a.exprs.fillLastFree? expr pushed width).getD a.exprs }
  return a.replaceRun [push, dup] b (.evaluate expr width)

end Decompile.Analysis
