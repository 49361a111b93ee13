import Decompile.Liveness
import Decompile.Rule.Fixpoint

namespace Decompile.Analysis

/-- Moves the jump of a sequence down to its last statement, where it takes effect. If a block on
the way jumps itself, the jump is never taken. -/
def sinkJump (f : FlowId) (top : BlockId) (j : JumpId) : Nat → BlockId → Analysis → Analysis
  | n + 1, b, a =>
    match a.statement b with
    | .sequence _ second =>
      if (a.jumpOf second).isSome then a.removeJump f j else sinkJump f top j n second a
    | _ => a.moveJump top b
  | 0, b, a => a.moveJump top b

def normalizeRootJump (a : Analysis) (f : FlowId) : Analysis :=
  let root := a.root f
  match a.jumpOf root with
  | some j => if (a.statement root).isSequence then sinkJump f root j a.blocks.size root a else a
  | none => a

/-- Makes a loop of `body` the root of `f`. A jump of the body out of the loop gets a statement of
its own. -/
def makeLoop (a : Analysis) (f : FlowId) (kind : LoopKind) (cond : ExprId) (body : BlockId) :
    Analysis × BlockId :=
  let (a, body) :=
    if (a.jumpOf body).any fun j ↦ (a.jump j).destination ≠ f then
      let (a, exit) := a.alloc .empty
      (a.moveJump body exit).alloc (.sequence body exit)
    else (a, body)
  let (a, looped) := a.alloc (.loop kind cond none none body false)
  (a.setRoot f looped, looped)

def setExit (a : Analysis) (looped : BlockId) : Option JumpId → Analysis
  | some j => (a.setJumpOf looped (some j)).modifyJump j ({ · with source := looped })
  | none => a

/-- The test at the end becomes that of the loop. -/
def formDoWhile (a : Analysis) (f : FlowId) (test : BlockId) (cond : ExprId) :
    Analysis × BlockId :=
  let exit := a.jumpOf test
  let a := a.setJumpOf test none
  let (a, body) :=
    if test = a.root f then a.alloc .empty
    else
      let a := a.removeStatement test
      (a, a.root f)
  let (a, looped) := a.makeLoop f .doWhile cond body
  (a.setExit looped exit, looped)

/-- `body; if (c) goto self` becomes `do { body } while (c)`. -/
def closeDoWhile (a : Analysis) (f : FlowId) : Option (Analysis × BlockId) := do
  let [j] := a.graph.jumpsTo f f | none
  let test ← a.outer (a.jump j).source
  let .conditional cond _ := a.statement test | none
  guard (a.blocks.chainTail (a.root f) = test ∧ a.fallsToEnd f test)
  return (a.removeJump f j).formDoWhile f test cond

/-- The test at the start, with its branches exchanged, becomes that of the loop. -/
def formWhile (a : Analysis) (f : FlowId) (head taken : BlockId) (cond : ExprId) :
    Analysis × BlockId :=
  let (a, negated) := a.negate cond
  let (a, body) :=
    if head = a.root f then
      let (a, body) := a.alloc .empty
      (a.moveJump head body, body)
    else
      let a := a.removeStatement head
      (a, a.root f)
  let (a, looped) := a.makeLoop f .whileLoop negated body
  (a.moveJump taken looped, looped)

/-- `if (c) goto out; body` becomes `while (!c) { body } goto out`. -/
def closeWhile (a : Analysis) (f : FlowId) : Option (Analysis × BlockId) := do
  let root := a.root f
  let head := a.blocks.chainHead root
  let .conditional cond taken := a.statement head | none
  let exit ← a.jumpOf taken
  guard ((a.jump exit).destination ≠ f ∧ a.statement taken = .empty ∧ a.exprs.freeCount cond = 0)
  guard (head = root ∨ a.canRemoveStatement head)
  return a.formWhile f head taken cond

/-- `while (true) { body }`. -/
def closeForever (a : Analysis) (f : FlowId) : Analysis × BlockId :=
  let (a, cond) := a.allocExpr (.const (.bool true))
  a.makeLoop f .whileLoop cond (a.root f)

/-- Turns a jump back to the loop's head into the end of its body or into a continue, and returns
whether it became a continue. -/
def closeJump (f : FlowId) (looped : BlockId) (a : Analysis) (j : JumpId) : Analysis × Bool :=
  match a.statement looped with
  | .loop _ _ _ _ body _ =>
    let source := (a.jump j).source
    if a.blocks.fallsToEndOf source body then ((a.removeJump f j).dropIfEmpty source, false)
    else
      let labeled := a.blocks.innermostLoop source ≠ some looped
      let a := if labeled then a.setLabeled looped else a
      let (a, again) := a.alloc (.continueTo looped labeled)
      (a.replaceJumpWith f j again, true)
  | _ => (a, false)

/-- The last statement of a while loop, if it updates a local that the condition reads. -/
def incrementOf? (a : Analysis) (looped : BlockId) : Option BlockId := do
  let .loop .whileLoop cond _ _ body _ := a.statement looped | none
  let tail := a.blocks.chainTail body
  guard (tail ≠ body ∧ (a.jumpOf tail).isNone)
  let expr ← a.statementExpr? tail
  let target ← a.updated? expr
  let slot ← a.exprs.localSlot a.locals target
  guard (a.exprs.readsSlot a.locals cond slot ∧ a.canRemoveStatement tail)
  return tail

def splitIncrement (a : Analysis) (looped : BlockId) : Analysis :=
  match a.incrementOf? looped with
  | some tail =>
    ((a.removeStatement tail).modifyStatement looped (·.setIncrement tail)).setOuter tail
      (some looped)
  | none => a

def closeJumps (f : FlowId) (looped : BlockId) : List JumpId → Analysis → Analysis × Bool
  | [], a => (a, false)
  | j :: rest, a =>
    let (a, continued) := closeJump f looped a j
    let (a, continues) := closeJumps f looped rest a
    (a, continued || continues)

/-- Makes a loop of the tree of `f`, which jumps to itself. -/
def loopBack (a : Analysis) (f : FlowId) : Analysis × BlockId :=
  let backEdge := ((a.flow f).edge? f).getD {}
  let a := a.normalizeRootJump f
  let (a, looped) := (a.closeDoWhile f <|> a.closeWhile f).getD (a.closeForever f)
  let (a, continues) := closeJumps f looped (a.graph.jumpsTo f f) a
  let a := { a with graph := a.graph.removeEdge f f }
  let a := if continues then a else a.splitIncrement looped
  ((a.mergeBackEdge f backEdge).setGrowth f looped, looped)

/-- A loop can be closed at `f`: it jumps to itself, and nothing else in the window jumps in. -/
def isLoopHead (a : Analysis) (f : FlowId) (w : Window) : Bool :=
  let preds := (a.flow f).predecessors
  preds.contains f && !preds.any fun p ↦ p ≠ f && !p.isSentinel && (a.flow p).inWindow w

def closeLoop (a : Analysis) (f : FlowId) (w : Window) : Option Analysis :=
  if a.isLoopHead f w then
    let (a, looped) := a.loopBack f
    some (a.checkpoint.foldFrom f looped)
  else none

def restoreIncrements (a : Analysis) (root : BlockId) : Analysis :=
  (a.blocks.subtree root).foldl (fun a b ↦
    match a.statement b with
    | .loop .possibleFor _ _ (some incr) body _ =>
      let a := a.setOuter incr none
      let a := (a.wrapSequential (a.blocks.chainTail body) incr).1
      a.modifyStatement b (·.dropIncrement)
    | _ => a) a

end Decompile.Analysis
