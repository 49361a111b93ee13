import Decompile.Expression.Condition
import Decompile.Flow.Jump
import Decompile.Statement.Navigation

namespace Decompile

inductive Inconsistency
  | misfiledJump (flow : FlowId) (jump : JumpId) (filed actual : FlowId)
  | jumpNotHeld (block : BlockId) (jump : JumpId)
  | foreignJump (flow : FlowId) (jump : JumpId)
  | unlistedJump (block : BlockId) (jump : JumpId)
  | missingPredecessor (flow successor : FlowId)
  | stalePredecessor (predecessor flow : FlowId)
  | badParent (block : BlockId)
  | malformedSequence (block : BlockId)
  deriving DecidableEq, Inhabited

namespace Inconsistency

def flowText (f : FlowId) : String := s!"FlowId({f.index})"

def jumpText (j : JumpId) : String := s!"JumpId({j.index})"

def blockText (b : BlockId) : String := s!"BlockId({b.index})"

def message : Inconsistency → String
  | misfiledJump flow jump filed actual =>
    s!"Jump {jumpText jump} of {flowText flow} is filed under {flowText filed}" ++
      s!" but points to {flowText actual}"
  | jumpNotHeld block jump => s!"Block {blockText block} does not hold its jump {jumpText jump}"
  | foreignJump flow jump => s!"Jump {jumpText jump} of {flowText flow} starts outside its tree"
  | unlistedJump block jump =>
    s!"Block {blockText block} holds jump {jumpText jump} that no successor lists"
  | missingPredecessor flow successor =>
    s!"{flowText flow} is missing from the predecessors of {flowText successor}"
  | stalePredecessor predecessor flow =>
    s!"{flowText predecessor} is recorded as a predecessor of {flowText flow} without an edge"
  | badParent block => s!"Block {blockText block} is not linked to its parent"
  | malformedSequence block =>
    s!"Sequential block {blockText block} is not right-leaning or jumps out of its first statement"

end Inconsistency

structure Options where
  /-- Check the state for consistency after every structural edit. -/
  checked : Bool := true
  /-- The budget of steps, scaled to the code if none is given. -/
  fuel : Option Nat := none
  deriving DecidableEq, Inhabited

def Options.fuelFor (o : Options) (instructions : Nat) : Nat :=
  o.fuel.getD (10000 + 400 * instructions)

structure Analysis where
  exprs : Expressions := {}
  blocks : Blocks := {}
  locals : Locals := {}
  graph : FlowGraph := {}
  checked : Bool
  fuel : Nat
  entry : FlowId := .methodEntry
  /-- Locals bound to the arguments, `this` first. -/
  parameters : List LocalId := []
  returnsVoid : Bool := true
  applied : Nat := 0
  /-- The first failed check, which stops the reduction. -/
  broken : Option Inconsistency := none
  deriving Inhabited

namespace Analysis

/-- A state with the three sentinel flow blocks, dead and each with an empty block. -/
def new (checked : Bool) (fuel : Nat) : Analysis :=
  (List.range 3).foldl (fun a _ ↦
    let (blocks, root) := a.blocks.alloc .empty
    let (graph, f) := a.graph.addFlow 4294967295 0 root
    { a with blocks, graph := graph.modifyFlow f ({ · with alive := false }) })
    { checked, fuel }

def expr (a : Analysis) (e : ExprId) : Expression := a.exprs.get e

def statement (a : Analysis) (b : BlockId) : Statement := a.blocks.statement b

def outer (a : Analysis) (b : BlockId) : Option BlockId := a.blocks.outer b

def jumpOf (a : Analysis) (b : BlockId) : Option JumpId := a.blocks.jump b

def flow (a : Analysis) (f : FlowId) : Flow := a.graph.flow f

def jump (a : Analysis) (j : JumpId) : Jump := a.graph.jump j

def root (a : Analysis) (f : FlowId) : BlockId := (a.flow f).root

def setExpr (a : Analysis) (e : ExprId) (x : Expression) : Analysis :=
  { a with exprs := a.exprs.set e x }

def allocExpr (a : Analysis) (x : Expression) : Analysis × ExprId :=
  let (exprs, e) := a.exprs.alloc x
  ({ a with exprs }, e)

def negate (a : Analysis) (e : ExprId) : Analysis × ExprId :=
  let (exprs, e) := a.exprs.negate e
  ({ a with exprs }, e)

def alloc (a : Analysis) (s : Statement) : Analysis × BlockId :=
  let (blocks, b) := a.blocks.alloc s
  ({ a with blocks }, b)

def addLocal (a : Analysis) (kind : LocalKind) (slot : Option Nat) : Analysis × LocalId :=
  let (locals, x) := a.locals.add kind slot
  ({ a with locals }, x)

def mergeLocals (a : Analysis) (x y : LocalId) : Analysis :=
  { a with locals := (a.locals.merge x y).1 }

def addFlow (a : Analysis) (addr length : Nat) (root : BlockId) : Analysis × FlowId :=
  let (graph, f) := a.graph.addFlow addr length root
  ({ a with graph }, f)

def setStatement (a : Analysis) (b : BlockId) (s : Statement) : Analysis :=
  { a with blocks := a.blocks.setStatement b s }

def modifyStatement (a : Analysis) (b : BlockId) (k : Statement → Statement) : Analysis :=
  a.setStatement b (k (a.statement b))

def setOuter (a : Analysis) (b : BlockId) (outer : Option BlockId) : Analysis :=
  { a with blocks := a.blocks.setOuter b outer }

def setJumpOf (a : Analysis) (b : BlockId) (jump : Option JumpId) : Analysis :=
  { a with blocks := a.blocks.setJump b jump }

def modifyFlow (a : Analysis) (f : FlowId) (k : Flow → Flow) : Analysis :=
  { a with graph := a.graph.modifyFlow f k }

def modifyJump (a : Analysis) (j : JumpId) (k : Jump → Jump) : Analysis :=
  { a with graph := a.graph.modifyJump j k }

def setRoot (a : Analysis) (f : FlowId) (root : BlockId) : Analysis :=
  a.modifyFlow f ({ · with root := root })

def setGrowth (a : Analysis) (f : FlowId) (growth : BlockId) : Analysis :=
  a.modifyFlow f ({ · with growth := growth })

def tick (a : Analysis) : Option Analysis :=
  if a.fuel = 0 then none else some { a with fuel := a.fuel - 1 }

def isExhausted (a : Analysis) : Bool := a.fuel == 0

end Analysis

end Decompile
