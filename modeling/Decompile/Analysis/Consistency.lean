import Decompile.Analysis.Edit

namespace Decompile.Analysis

/-- The jump is filed under its destination and held by a block of the tree. -/
def checkJump (a : Analysis) (f filed : FlowId) (j : JumpId) : Except Inconsistency Unit :=
  let jump := a.jump j
  if jump.destination ≠ filed then .error (.misfiledJump f j filed jump.destination)
  else if a.jumpOf jump.source ≠ some j then .error (.jumpNotHeld jump.source j)
  else if !a.blocks.isWithin jump.source (a.root f) then .error (.foreignJump f j)
  else .ok ()

/-- The edge is known at its other end, and so is every jump on it. -/
def checkEdge (a : Analysis) (f : FlowId) (edge : FlowId × Edge) :
    Except Inconsistency Unit :=
  if (a.flow edge.1).predecessors.contains f then
    (a.graph.chain edge.2.jumps).forM (a.checkJump f edge.1)
  else .error (.missingPredecessor f edge.1)

def checkPredecessor (a : Analysis) (f pred : FlowId) : Except Inconsistency Unit :=
  if pred.isSentinel || (a.flow pred).alive && ((a.flow pred).edge? f).isSome then .ok ()
  else .error (.stalePredecessor pred f)

/-- The block's jump is listed, its children know their parent, and sequences lean right. -/
def checkBlock (a : Analysis) (listed : List JumpId) (b : BlockId) : Except Inconsistency Unit := do
  if let some j := a.jumpOf b then
    if !listed.contains j then throw (.unlistedJump b j)
  (a.statement b).children.forM fun child ↦
    if a.outer child = some b then .ok () else .error (.badParent child)
  if let .sequence first _ := a.statement b then
    if (a.jumpOf first).isSome || (a.statement first).isSequence then throw (.malformedSequence b)

def checkFlow (a : Analysis) (f : FlowId) : Except Inconsistency Unit := do
  let flow := a.flow f
  flow.successors.forM (a.checkEdge f)
  flow.predecessors.forM (a.checkPredecessor f)
  if (a.outer flow.root).isSome then throw (.badParent flow.root)
  let listed := flow.successors.flatMap fun edge ↦ a.graph.chain edge.2.jumps
  (a.blocks.subtree flow.root).forM (a.checkBlock listed)

def checkConsistency (a : Analysis) : Except Inconsistency Unit := a.graph.live.forM a.checkFlow

/-- Checks the state after a structural edit, if asked to, and keeps the first failure. -/
def checkpoint (a : Analysis) : Analysis :=
  if a.checked && a.broken.isNone then
    match a.checkConsistency with
    | .ok _ => a
    | .error e => { a with broken := some e }
  else a

end Decompile.Analysis
