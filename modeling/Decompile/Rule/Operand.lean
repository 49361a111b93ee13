import Decompile.Rule.Basic

namespace Decompile.Analysis

/-- `push v; op(…, FREE)` becomes `op(…, v)`. -/
def createExpression (a : Analysis) (b : BlockId) : Option (Analysis × BlockId) := do
  let root ← (a.statement b).operandExpr
  let leaf ← (a.exprs.freeOperands root).getLast?
  let prev ← a.blocks.prevStatement b
  let (value, width) ← a.pushed? prev
  guard (a.exprs.freeWidth leaf = width ∧ a.removable [prev])
  guard (a.exprs.isPure value || a.exprs.onlyOperandsBefore root leaf value)
  let exprs ← a.exprs.fillLastFree? root value width
  return ({ a with exprs }.removeStatement prev, b)

/-- A void statement without a jump goes from its chain. -/
def removeEmpty (a : Analysis) (b : BlockId) : Option (Analysis × BlockId) := do
  guard (a.statement b = .empty ∧ (a.jumpOf b).isNone ∧ a.canRemoveStatement b)
  let (_, survivor) ← a.sibling? b
  return (a.removeStatement b, survivor)

end Decompile.Analysis
