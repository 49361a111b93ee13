import Decompile.Rule.Basic

namespace Decompile.Analysis

/-- `if (c) push x; else push y;` becomes `push c ? x : y`, and `c ? 1 : 0` is just `c`. -/
def foldTernary (a : Analysis) (b : BlockId) : Option (Analysis × BlockId) := do
  let .ifElse cond onTrue (some onFalse) := a.statement b | none
  let (ifTrue, width) ← a.pushed? onTrue
  let (ifFalse, otherWidth) ← a.pushed? onFalse
  guard (width = otherWidth ∧ a.exprs.freeCount ifTrue = 0 ∧ a.exprs.freeCount ifFalse = 0 ∧
    (a.blocks.get onTrue).declares.isEmpty ∧ (a.blocks.get onFalse).declares.isEmpty)
  let (a, expr) :=
    match a.expr ifTrue, a.expr ifFalse with
    | .const (.int 1), .const (.int 0) => (a, cond)
    | .const (.int 0), .const (.int 1) => a.negate cond
    | _, _ => a.allocExpr (.ternary cond ifTrue ifFalse)
  return a.replaceRun [] b (.evaluate expr width)

/-- The condition and the jump of `if (cond) goto …` with nothing else in the branch. -/
def conditionalJump? (a : Analysis) (b : BlockId) : Option (ExprId × JumpId) := do
  let .conditional cond taken := a.statement b | none
  guard (a.statement taken = .empty)
  let j ← a.jumpOf taken
  return (cond, j)

/-- Merges two conditional jumps in a row. `if (x) goto A; if (y) goto A;` becomes
`if (x || y) goto A;`, and `if (x) goto A; if (y) goto B; goto A;` becomes
`if (!x && y) goto B; goto A;`. -/
def combineConditions (a : Analysis) (b : BlockId) : Option (Analysis × BlockId) := do
  let (second, secondJump) ← a.conditionalJump? b
  let prev ← a.blocks.prevStatement b
  let (first, firstJump) ← a.conditionalJump? prev
  guard (a.exprs.freeCount second = 0 ∧ a.removable [prev])
  let f ← a.flowOf b
  let target := (a.jump firstJump).destination
  let (a, op, lhs) ←
    if target = (a.jump secondJump).destination then some (a, LogicalOp.or, first)
    else if (a.jumpOf b).any fun j ↦ (a.jump j).destination = target then
      let (a, negated) := a.negate first
      some (a, .and, negated)
    else none
  let (a, combined) := a.allocExpr (.logical op lhs second)
  return (((a.removeJump f firstJump).removeStatement prev).setCondition b combined, b)

end Decompile.Analysis
