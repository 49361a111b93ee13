import Decompile.Analysis.Basic

namespace Decompile

inductive Place
  | child (parent : BlockId)
  | root (flow : FlowId)
  | detached
  deriving DecidableEq, Inhabited

namespace Analysis

def placeOf (a : Analysis) (b : BlockId) : Place :=
  match a.outer b with
  | some parent => .child parent
  | none => (a.graph.ownerOfRoot b).elim .detached .root

/-- Hangs `new` where `old` was. A new block around `old` is its parent already, so `place` is the
place of `old` before that block was made. -/
def put (a : Analysis) (place : Place) (old new : BlockId) : Analysis :=
  match place with
  | .child parent => { a with blocks := a.blocks.replaceChild parent old new }
  | .root f =>
    (a.setOuter new none).modifyFlow f fun f ↦
      { f with root := new, growth := if f.growth = old then new else f.growth }
  | .detached => a

def replaceBlock (a : Analysis) (old new : BlockId) : Analysis := a.put (a.placeOf old) old new

def flowOf (a : Analysis) (b : BlockId) : Option FlowId :=
  a.graph.ownerOfRoot (a.blocks.rootOf b)

def isAttached (a : Analysis) (b : BlockId) : Bool := (a.flowOf b).isSome

def addJump (a : Analysis) (f : FlowId) (source : BlockId) (destination : FlowId) :
    Analysis × JumpId :=
  let (graph, j) := a.graph.allocJump destination source
  ({ a with graph := graph.linkJump f j, blocks := a.blocks.setJump source (some j) }, j)

def removeJump (a : Analysis) (f : FlowId) (j : JumpId) : Analysis :=
  let source := (a.jump j).source
  let a := if a.jumpOf source = some j then a.setJumpOf source none else a
  { a with graph := a.graph.unlinkJump f j }

def removeJumps (a : Analysis) (f : FlowId) : Analysis :=
  (a.graph.successorsOf f).foldl (fun a dest ↦
    (a.graph.jumpsTo f dest).foldl (fun a j ↦ a.removeJump f j) a) a

/-- Lets another block hold the jump. The edge stays as it is. -/
def moveJump (a : Analysis) (source target : BlockId) : Analysis :=
  match a.jumpOf source with
  | some j =>
    ((a.setJumpOf source none).setJumpOf target (some j)).modifyJump j ({ · with source := target })
  | none => a

def wrapSequential (a : Analysis) (b next : BlockId) : Analysis × BlockId :=
  let place := a.placeOf b
  let (a, seq) := a.alloc (.sequence b next)
  (a.put place b seq, seq)

def replaceJumpWith (a : Analysis) (f : FlowId) (j : JumpId) (b : BlockId) : Analysis :=
  let source := (a.jump j).source
  let a := a.removeJump f j
  if a.statement source = .empty then a.replaceBlock source b
  else
    let tail := a.blocks.chainTail source
    -- A jump of the tail is taken before the block completes.
    if (a.jumpOf tail).isSome then a else (a.wrapSequential tail b).1

def insertBefore (a : Analysis) (b new : BlockId) : Analysis :=
  let target :=
    match a.outer b with
    | some parent =>
      match a.statement parent with
      | .sequence first _ => if first = b then parent else b
      | _ => b
    | none => b
  let place := a.placeOf target
  let (a, seq) := a.alloc (.sequence new target)
  a.put place target seq

def sibling? (a : Analysis) (b : BlockId) : Option (BlockId × BlockId) := do
  let parent ← a.outer b
  let .sequence first second := a.statement parent | none
  return (parent, if first = b then second else first)

/-- Whether `b` can go from its chain without the loss of a jump. -/
def canRemoveStatement (a : Analysis) (b : BlockId) : Bool :=
  match a.sibling? b with
  | none => false
  | some (parent, other) =>
    match a.jumpOf parent, a.jumpOf b with
    | none, none => true
    | some _, some _ => false
    | _, _ => (a.jumpOf other).isNone

/-- Moves the growth point of every flow block that grows at one of the old blocks. -/
def retargetGrowth (a : Analysis) (old : List BlockId) (new : BlockId) : Analysis :=
  a.graph.live.foldl
    (fun a f ↦ if old.contains (a.flow f).growth then a.setGrowth f new else a) a

/-- Drops `b` from its chain. The other part of the sequence takes over its place and jumps. -/
def removeStatement (a : Analysis) (b : BlockId) : Analysis :=
  match a.sibling? b with
  | none => a
  | some (parent, other) =>
    let a := ((a.moveJump parent other).moveJump b other).setOuter b none
    (a.put (a.placeOf parent) parent other).retargetGrowth [b, parent] other

def replaceStatement (a : Analysis) (old new : BlockId) : Analysis :=
  ((a.moveJump old new).replaceBlock old new).retargetGrowth [old] new

def discardStatement (a : Analysis) (b : BlockId) : Analysis :=
  if a.canRemoveStatement b then a.removeStatement b
  else
    let (a, empty) := a.alloc .empty
    a.replaceStatement b empty

def dropIfEmpty (a : Analysis) (b : BlockId) : Analysis :=
  if a.statement b = .empty ∧ (a.jumpOf b).isNone ∧ a.canRemoveStatement b then a.removeStatement b
  else a

/-- Whether the end of `b` is the end of the whole tree of `f`, no jump being taken. -/
def fallsToEnd (a : Analysis) (f : FlowId) (b : BlockId) : Bool :=
  a.blocks.fallsToEndOf b (a.root f) && (b == a.root f || (a.jumpOf (a.root f)).isNone)

def setLabeled (a : Analysis) (breakable : BlockId) : Analysis :=
  a.modifyStatement breakable (·.setLabeled)

def setCondition (a : Analysis) (b : BlockId) (cond : ExprId) : Analysis :=
  a.modifyStatement b (·.setCondition cond)

def removable (a : Analysis) (bs : List BlockId) : Bool :=
  bs.all fun b ↦
    (a.jumpOf b).isNone && (a.blocks.get b).declares.isEmpty && a.canRemoveStatement b

end Analysis

end Decompile
