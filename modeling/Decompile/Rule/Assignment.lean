import Decompile.Expression.Place
import Decompile.Rule.Basic

namespace Decompile.Analysis

def samePlace (a : Analysis) (x y : ExprId) (freeEqual : Bool) : Bool :=
  a.exprs.samePlace a.locals x y freeEqual

def mergePlaces (a : Analysis) (x y : ExprId) : Analysis :=
  ((a.exprs.localsIn x).zip (a.exprs.localsIn y)).foldl (fun a (u, v) ↦ a.mergeLocals u v) a

/-- The statement evaluates `target = lhs op rhs`. -/
def assignedBinary? (a : Analysis) (expr : ExprId) :
    Option (ExprId × BinaryOp × ExprId × ExprId) := do
  let .assign target none value := a.expr expr | none
  let .binary op lhs rhs := a.expr value | none
  return (target, op, lhs, rhs)

/-- A duplication copies just the given number of slots, counted in eight bits, over the skipped
ones. -/
def duplicates (a : Analysis) (b : BlockId) (copied skipped : Nat) : Bool :=
  a.dupShape? b == some (copied % 256, skipped % 256)

/-- `x = x op v` becomes `x op= v`. -/
def foldCompound (a : Analysis) (b : BlockId) : Option (Analysis × BlockId) := do
  let .evaluate expr _ := a.statement b | none
  let (target, op, lhs, rhs) ← a.assignedBinary? expr
  guard (a.samePlace target lhs false ∧ a.exprs.evaluatedOnce lhs)
  return ((a.mergePlaces target lhs).setExpr expr (.assign target (some op) rhs), b)

/-- `push o; dup; FREE.f = FREE.f op v` becomes `push o; FREE.f op= v`, and likewise for array
elements with `dup2`. -/
def foldCompoundThroughDup (a : Analysis) (b : BlockId) : Option (Analysis × BlockId) := do
  let .evaluate expr _ := a.statement b | none
  let (target, op, lhs, rhs) ← a.assignedBinary? expr
  let slots := a.exprs.freeSlots target
  guard (slots ≠ 0 ∧ a.exprs.freeSlots lhs = slots ∧ a.exprs.freeCount rhs = 0 ∧
    a.samePlace target lhs true)
  let prev ← a.blocks.prevStatement b
  guard (a.duplicates prev slots 0 ∧ a.removable [prev])
  return ((a.setExpr expr (.assign target (some op) rhs)).removeStatement prev, b)

/-- `push x; x += 1` becomes `push x++`. -/
def foldPostIncrement (a : Analysis) (b : BlockId) : Option (Analysis × BlockId) := do
  let expr ← a.statementExpr? b
  let .assign target op value := a.expr expr | none
  let step ← a.exprs.stepOf? op value
  let prev ← a.blocks.prevStatement b
  let (read, width) ← a.pushed? prev
  guard ((a.expr target).local?.isSome ∧ a.samePlace read target false ∧ a.removable [prev])
  let (a, increment) := (a.mergePlaces target read).allocExpr (.step target step false)
  return a.replaceRun [prev] b (.evaluate increment width)

/-- `push x; dup; x = FREE + 1` becomes `push x++`. For fields and array elements the operands of
the location are duplicated first, as in `push o; dup; push FREE.f; dup_x1; FREE.f = FREE + 1`. -/
def foldPostIncrementThroughDup (a : Analysis) (b : BlockId) : Option (Analysis × BlockId) := do
  let expr ← a.statementExpr? b
  let (target, op, lhs, rhs) ← a.assignedBinary? expr
  let step ← a.exprs.stepOf? (some op) rhs
  let .free width := a.expr lhs | none
  let skipped := a.exprs.freeSlots target
  guard ((a.exprs.freeOperands expr).getLast? = some lhs)
  let run ← a.blocks.preceding b (if skipped = 0 then 2 else 3)
  let dup :: push :: location := run.reverse | none
  guard (a.dupShape? dup = some (width, skipped % 256))
  let (read, readWidth) ← a.pushed? push
  guard (readWidth = width ∧ a.samePlace read target true)
  guard (location.all fun l ↦ a.duplicates l skipped 0)
  guard (a.removable run)
  let (a, increment) := (a.mergePlaces target read).allocExpr (.step target step false)
  return a.replaceRun run b (.evaluate increment width)

/-- `x += 1; push x` becomes `push ++x`, and so does `push (x += 1)`. -/
def foldPreIncrement (a : Analysis) (b : BlockId) : Option (Analysis × BlockId) := do
  let .evaluate expr push := a.statement b | none
  guard (push ≠ 0)
  match a.expr expr with
  | .assign target op value =>
    let step ← a.exprs.stepOf? op value
    return (a.setExpr expr (.step target step true), b)
  | .var _ =>
    let prev ← a.blocks.prevStatement b
    let update ← a.statementExpr? prev
    let .assign target op value := a.expr update | none
    let step ← a.exprs.stepOf? op value
    guard (a.samePlace expr target false ∧ a.removable [prev])
    let (a, increment) := (a.mergePlaces target expr).allocExpr (.step target step true)
    return a.replaceRun [prev] b (.evaluate increment push)
  | _ => none

end Decompile.Analysis
