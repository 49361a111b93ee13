import Decompile.Rule.Assignment
import Decompile.Rule.Condition
import Decompile.Rule.Creation
import Decompile.Rule.Header
import Decompile.Rule.Operand
import Decompile.Rule.Shuffle

namespace Decompile

/-- A rule at work on the state. It may decline at any point, and what it has written by then stays
written. -/
abbrev Rewrite := OptionT (StateM Analysis)

namespace Rewrite

def exec {α : Type} (x : Rewrite α) (a : Analysis) : Option α × Analysis := x.run.run a

/-- Looks for something in the state, and declines if it is not there. -/
def look {α : Type} (q : Analysis → Option α) : Rewrite α := OptionT.mk fun a ↦ (q a, a)

def view {α : Type} (q : Analysis → α) : Rewrite α := look fun a ↦ some (q a)

def require (p : Analysis → Bool) : Rewrite Unit :=
  look fun a ↦ if p a then some () else none

def make {α : Type} (f : Analysis → Analysis × α) : Rewrite α :=
  OptionT.mk fun a ↦ (some (f a).2, (f a).1)

def edit (f : Analysis → Analysis) : Rewrite Unit := make fun a ↦ (f a, ())

def fillLastFree (root value : ExprId) (width : Nat) : Rewrite Unit := do
  let leaf ← look fun a ↦ (a.exprs.freeOperands root).getLast?
  require fun a ↦ a.exprs.freeWidth leaf = width
  edit fun a ↦ a.setExpr leaf (a.expr value)
  edit fun a ↦ { a with exprs := a.exprs.simplify root }

def replaceRun (run : List BlockId) (last : BlockId) (s : Statement) : Rewrite BlockId := do
  let new ← make (·.alloc s)
  edit (·.removeStatements run)
  edit (·.replaceStatement last new)
  return new

def createExpression (b : BlockId) : Rewrite BlockId := do
  let root ← look fun a ↦ (a.statement b).operandExpr
  let leaf ← look fun a ↦ (a.exprs.freeOperands root).getLast?
  let prev ← look (·.blocks.prevStatement b)
  let (value, width) ← look (·.pushed? prev)
  require fun a ↦ a.exprs.freeWidth leaf = width ∧ a.removable [prev]
  require fun a ↦ a.exprs.isPure value || a.exprs.onlyOperandsBefore root leaf value
  fillLastFree root value width
  edit (·.removeStatement prev)
  return b

def foldConstructor (b : BlockId) : Rewrite BlockId := do
  let expr ← look (·.statementExpr? b)
  let .call .special ref (some object) arguments ← view (·.expr expr) | failure
  require fun _ ↦ ref.name.isConstructor
  if let .newObject created ← view (·.expr object) then
    require fun a ↦ created = ref.owner ∧ a.exprs.freeCount expr = 0
    let constructed ← make (·.allocExpr (.construct ref.owner ref.descriptor arguments))
    replaceRun [] b (.evaluate constructed 0)
  else
    require fun a ↦ a.exprs.freeOperands expr = [object]
    let [new, dup] ← look (·.blocks.preceding b 2) | failure
    require fun a ↦ a.shuffle? dup = some .dup
    let (created, _) ← look (·.pushed? new)
    require fun a ↦ a.expr created = .newObject ref.owner ∧ a.removable [new, dup]
    let constructed ← make (·.allocExpr (.construct ref.owner ref.descriptor arguments))
    replaceRun [new, dup] b (.evaluate constructed 1)

def foldArrayLiteral (b : BlockId) : Rewrite BlockId := do
  let expr ← look (·.statementExpr? b)
  let .assign target none value ← view (·.expr expr) | failure
  let .element array index ← view (·.expr target) | failure
  let .const (.int index) ← view (·.expr index) | failure
  require fun a ↦ a.exprs.freeOperands expr = [array]
  let [new, dup] ← look (·.blocks.preceding b 2) | failure
  require fun a ↦ a.shuffle? dup = some .dup
  let (created, _) ← look (·.pushed? new)
  let (element, length, values) ← look (·.arrayUnderway? created)
  require fun a ↦ index = values.length ∧ index < length ∧ a.removable [new, dup]
  let literal ← make (·.allocExpr (.arrayLiteral element length (values ++ [value])))
  replaceRun [new, dup] b (.evaluate literal 1)

def removePop (b : BlockId) : Rewrite BlockId := do
  let op ← look (·.shuffle? b)
  let popped ← look fun _ ↦ op.poppedSlots
  let prev ← look (·.blocks.prevStatement b)
  let (expr, width) ← look (·.pushed? prev)
  require fun a ↦ width = popped ∧ a.removable [prev]
  let unused ← view (·.exprs.isPure expr)
  replaceRun [prev] b (if unused then .empty else .evaluate expr 0)

def removeSwap (b : BlockId) : Rewrite BlockId := do
  require fun a ↦ a.shuffle? b = some .swap
  let [first, second] ← look (·.blocks.preceding b 2) | failure
  let (x, 1) ← look (·.pushed? first) | failure
  let (y, 1) ← look (·.pushed? second) | failure
  require fun a ↦ (a.expr x).isSimple ∧ (a.expr y).isSimple ∧ a.canRemoveStatement b
  edit (·.setStatement first (.evaluate y 1))
  edit (·.setStatement second (.evaluate x 1))
  edit (·.removeStatement b)
  return second

def removeDup (b : BlockId) : Rewrite BlockId := do
  let op ← look (·.shuffle? b)
  require fun _ ↦ op = .dup ∨ op = .dup2
  let prev ← look (·.blocks.prevStatement b)
  let (expr, width) ← look (·.pushed? prev)
  require fun a ↦ op.dupShape = some (width, 0) ∧ (a.expr expr).isSimple
  let copy ← make fun a ↦ a.allocExpr (a.expr expr)
  replaceRun [] b (.evaluate copy width)

def foldDupStore (b : BlockId) : Rewrite BlockId := do
  let expr ← look (·.statementExpr? b)
  let .assign target _ value ← view (·.expr expr) | failure
  let .free width ← view (·.expr value) | failure
  let [push, dup] ← look (·.blocks.preceding b 2) | failure
  let (copied, skipped) ← look (·.dupShape? dup)
  let (pushed, pushedWidth) ← look (·.pushed? push)
  require fun a ↦ copied = width ∧ pushedWidth = width ∧ a.exprs.freeSlots target = skipped ∧
    a.removable [push, dup]
  fillLastFree expr pushed width <|> pure ()
  replaceRun [push, dup] b (.evaluate expr width)

def foldCompound (b : BlockId) : Rewrite BlockId := do
  let .evaluate expr _ ← view (·.statement b) | failure
  let (target, op, lhs, rhs) ← look (·.assignedBinary? expr)
  require fun a ↦ a.samePlace target lhs false ∧ a.exprs.evaluatedOnce lhs
  edit (·.mergePlaces target lhs)
  edit (·.setExpr expr (.assign target (some op) rhs))
  return b

def foldCompoundThroughDup (b : BlockId) : Rewrite BlockId := do
  let .evaluate expr _ ← view (·.statement b) | failure
  let (target, op, lhs, rhs) ← look (·.assignedBinary? expr)
  let slots ← view (·.exprs.freeSlots target)
  require fun a ↦ slots ≠ 0 ∧ a.exprs.freeSlots lhs = slots ∧ a.exprs.freeCount rhs = 0 ∧
    a.samePlace target lhs true
  let prev ← look (·.blocks.prevStatement b)
  require fun a ↦ a.duplicates prev slots 0 ∧ a.removable [prev]
  edit (·.setExpr expr (.assign target (some op) rhs))
  edit (·.removeStatement prev)
  return b

def foldPostIncrement (b : BlockId) : Rewrite BlockId := do
  let expr ← look (·.statementExpr? b)
  let .assign target op value ← view (·.expr expr) | failure
  let step ← look (·.exprs.stepOf? op value)
  let prev ← look (·.blocks.prevStatement b)
  let (read, width) ← look (·.pushed? prev)
  require fun a ↦ (a.expr target).local?.isSome ∧ a.samePlace read target false ∧
    a.removable [prev]
  edit (·.mergePlaces target read)
  let increment ← make (·.allocExpr (.step target step false))
  replaceRun [prev] b (.evaluate increment width)

def foldPostIncrementThroughDup (b : BlockId) : Rewrite BlockId := do
  let expr ← look (·.statementExpr? b)
  let (target, op, lhs, rhs) ← look (·.assignedBinary? expr)
  let step ← look (·.exprs.stepOf? (some op) rhs)
  let .free width ← view (·.expr lhs) | failure
  let skipped ← view (·.exprs.freeSlots target)
  require fun a ↦ (a.exprs.freeOperands expr).getLast? = some lhs
  let run ← look (·.blocks.preceding b (if skipped = 0 then 2 else 3))
  let dup :: push :: location := run.reverse | failure
  require fun a ↦ a.dupShape? dup = some (width, skipped % 256)
  let (read, readWidth) ← look (·.pushed? push)
  require fun a ↦ readWidth = width ∧ a.samePlace read target true
  require fun a ↦ location.all fun l ↦ a.duplicates l skipped 0
  require (·.removable run)
  edit (·.mergePlaces target read)
  let increment ← make (·.allocExpr (.step target step false))
  replaceRun run b (.evaluate increment width)

def foldPreIncrement (b : BlockId) : Rewrite BlockId := do
  let .evaluate expr push ← view (·.statement b) | failure
  require fun _ ↦ push ≠ 0
  match ← view (·.expr expr) with
  | .assign target op value =>
    let step ← look (·.exprs.stepOf? op value)
    edit (·.setExpr expr (.step target step true))
    return b
  | .var _ =>
    let prev ← look (·.blocks.prevStatement b)
    let update ← look (·.statementExpr? prev)
    let .assign target op value ← view (·.expr update) | failure
    let step ← look (·.exprs.stepOf? op value)
    require fun a ↦ a.samePlace expr target false ∧ a.removable [prev]
    edit (·.mergePlaces target expr)
    let increment ← make (·.allocExpr (.step target step true))
    replaceRun [prev] b (.evaluate increment push)
  | _ => failure

def foldTernary (b : BlockId) : Rewrite BlockId := do
  let .ifElse cond onTrue (some onFalse) ← view (·.statement b) | failure
  let (ifTrue, width) ← look (·.pushed? onTrue)
  let (ifFalse, otherWidth) ← look (·.pushed? onFalse)
  require fun a ↦ width = otherWidth ∧ a.exprs.freeCount ifTrue = 0 ∧
    a.exprs.freeCount ifFalse = 0 ∧ (a.blocks.get onTrue).declares.isEmpty ∧
    (a.blocks.get onFalse).declares.isEmpty
  let expr ←
    match ← view (·.expr ifTrue), ← view (·.expr ifFalse) with
    | .const (.int 1), .const (.int 0) => pure cond
    | .const (.int 0), .const (.int 1) => make (·.negate cond)
    | _, _ => make (·.allocExpr (.ternary cond ifTrue ifFalse))
  replaceRun [] b (.evaluate expr width)

def combineConditions (b : BlockId) : Rewrite BlockId := do
  let (second, secondJump) ← look (·.conditionalJump? b)
  let prev ← look (·.blocks.prevStatement b)
  let (first, firstJump) ← look (·.conditionalJump? prev)
  require fun a ↦ a.exprs.freeCount second = 0 ∧ a.removable [prev]
  let f ← look (·.flowOf b)
  let target ← view fun a ↦ (a.jump firstJump).destination
  let (op, lhs) ←
    if target = (← view fun a ↦ (a.jump secondJump).destination) then
      pure (LogicalOp.or, first)
    else do
      require fun a ↦ (a.jumpOf b).any fun j ↦ (a.jump j).destination = target
      let negated ← make (·.negate first)
      pure (LogicalOp.and, negated)
  let combined ← make (·.allocExpr (.logical op lhs second))
  edit (·.removeJump f firstJump)
  edit (·.removeStatement prev)
  edit (·.setCondition b combined)
  return b

def foldForInitializer (b : BlockId) : Rewrite BlockId := do
  let .loop .possibleFor cond _ (some incr) body labeled ← view (·.statement b) | failure
  let prev ← look (·.blocks.prevStatement b)
  let init ← look (·.statementExpr? prev)
  let .assign target none _ ← view (·.expr init) | failure
  let slot ← look fun a ↦ a.exprs.localSlot a.locals target
  let .evaluate update _ ← view (·.statement incr) | failure
  let updated ← look (·.updated? update)
  require fun a ↦ a.exprs.localSlot a.locals updated = some slot ∧
    a.exprs.readsSlot a.locals cond slot ∧ a.exprs.freeCount init = 0 ∧ a.removable [prev]
  edit (·.removeStatement prev)
  edit (·.setStatement b (.loop .forLoop cond (some init) (some incr) body labeled))
  return b

def completeSynchronized (b : BlockId) : Rewrite BlockId := do
  let .synchronized monitor none body ← view (·.statement b) | failure
  let enter ← look (·.blocks.prevStatement b)
  let expr ← look (·.statementExpr? enter)
  let .monitorEnter object ← view (·.expr expr) | failure
  require fun a ↦ a.exprs.freeCount object = 0
  let (value, run) ←
    match ← view (·.expr object) with
    | .assign .. => look fun a ↦ (a.assignedTo? object monitor).map (·, [enter])
    | .var copy => do
      require fun a ↦ a.locals.sameSlot copy monitor
      let store ← look (·.blocks.prevStatement enter)
      let stored ← look (·.statementExpr? store)
      look fun a ↦ (a.assignedTo? stored monitor).map (·, [store, enter])
    | _ => failure
  require (·.removable run)
  edit (·.removeStatements run)
  edit (·.setStatement b (.synchronized monitor (some value) body))
  return b

def removeEmpty (b : BlockId) : Rewrite BlockId := do
  require fun a ↦ a.statement b = .empty ∧ (a.jumpOf b).isNone ∧ a.canRemoveStatement b
  let (_, survivor) ← look (·.sibling? b)
  edit (·.removeStatement b)
  return survivor

end Rewrite

end Decompile
