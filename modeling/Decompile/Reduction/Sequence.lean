import Decompile.Liveness
import Decompile.Reduction.Resolve
import Decompile.Rule.Fixpoint

namespace Decompile.Analysis

/-- Puts the tree `next` behind the last statement of the tree of `f`. Of a void statement there is
only the jump to keep. -/
def appendTree (a : Analysis) (f : FlowId) (tail next : BlockId) : Analysis :=
  if a.statement next = .empty then (a.moveJump next tail).setGrowth f tail
  else (a.wrapSequential tail next).1.setGrowth f next

/-- Puts the tree of `succ`, which only `f` precedes, behind that of `f`. Returns the statement it
has been put behind. -/
def joinSuccessor (a : Analysis) (f succ : FlowId) : Analysis × BlockId :=
  let edge := ((a.flow f).edge? succ).getD {}
  let a := a.resolveJumpsTo f succ
  let a := { a with graph := a.graph.removeEdge f succ }
  let tail := a.blocks.chainTail (a.root f)
  let a := a.appendTree f tail (a.root succ)
  (a.absorb f succ edge, tail)

def appendSuccessor (a : Analysis) (f succ : FlowId) : Analysis :=
  let (a, tail) := a.joinSuccessor f succ
  a.checkpoint.foldFrom f tail

/-- Turns the jumps to the end of the method into returns, or drops them where control ends
anyway. -/
def mergeEnd (a : Analysis) (f : FlowId) : Analysis :=
  let a := (a.graph.jumpsTo f .endOfMethod).foldl (fun a j ↦
    let source := (a.jump j).source
    if a.fallsToEnd f source || (a.statement source).isReturn then
      (a.removeJump f j).dropIfEmpty source
    else
      let (a, ret) := a.alloc (.returns none)
      a.replaceJumpWith f j ret) a
  { a with graph := a.graph.removeEdge f .endOfMethod }

def removeTrailingReturn (a : Analysis) (root : BlockId) : Analysis :=
  let last := a.blocks.chainTail root
  if a.returnsVoid ∧ a.statement last = .returns none ∧ (a.jumpOf last).isNone then
    if a.canRemoveStatement last then a.removeStatement last else a.setStatement last .empty
  else a

end Decompile.Analysis
