import Decompile.Flow.Basic

namespace Decompile.FlowGraph

def chainWithin (g : FlowGraph) : Nat → Option JumpId → List JumpId
  | n + 1, some j => j :: g.chainWithin n (g.jump j).next
  | _, _ => []

def chain (g : FlowGraph) (head : Option JumpId) : List JumpId := g.chainWithin g.jumps.size head

def jumpsTo (g : FlowGraph) (source destination : FlowId) : List JumpId :=
  (((g.flow source).edge? destination).map fun edge ↦ g.chain edge.jumps).getD []

def thread (g : FlowGraph) : List JumpId → FlowGraph
  | [] => g
  | j :: js => (g.modifyJump j ({ · with next := js.head? })).thread js

def removeEdge (g : FlowGraph) (source destination : FlowId) : FlowGraph :=
  (g.modifyFlow source (·.eraseEdge destination)).modifyFlow destination fun f ↦
    { f with predecessors := f.predecessors.filter (· ≠ source) }

def addPredecessor (g : FlowGraph) (f pred : FlowId) : FlowGraph :=
  if (g.flow f).predecessors.contains pred then g
  else g.modifyFlow f fun f ↦ { f with predecessors := f.predecessors ++ [pred] }

/-- Points an edge, new if need be, at the chain of the given jumps. -/
def setChain (g : FlowGraph) (source destination : FlowId) (jumps : List JumpId) : FlowGraph :=
  let edge := ((g.flow source).edge? destination).getD {}
  (g.thread jumps).modifyFlow source (·.setEdge destination { edge with jumps := jumps.head? })

def linkJump (g : FlowGraph) (source : FlowId) (j : JumpId) : FlowGraph :=
  let destination := (g.jump j).destination
  (g.setChain source destination (g.jumpsTo source destination ++ [j])).addPredecessor
    destination source

/-- Takes a jump out of the chain to its destination. The edge goes with its last jump. -/
def unlinkJump (g : FlowGraph) (source : FlowId) (j : JumpId) : FlowGraph :=
  let destination := (g.jump j).destination
  let rest := (g.jumpsTo source destination).filter (· ≠ j)
  let g := if rest.isEmpty then g.removeEdge source destination
    else g.setChain source destination rest
  g.modifyJump j ({ · with next := none })

/-- Gives `flow` an edge with the given jumps, some of which `succ` has had so far. -/
def inheritEdge (g : FlowGraph) (flow succ destination : FlowId) (edge : Edge)
    (jumps : List JumpId) : FlowGraph :=
  let g := jumps.foldl (fun g j ↦ g.modifyJump j ({ · with destination })) (g.thread jumps)
  let g := g.modifyFlow flow (·.setEdge destination { edge with jumps := jumps.head? })
  let g := g.modifyFlow destination fun f ↦
    { f with predecessors := f.predecessors.filter (· ≠ succ) }
  g.addPredecessor destination flow

def jumpCount (g : FlowGraph) : Nat :=
  (g.live.flatMap fun f ↦ (g.flow f).successors.flatMap fun e ↦ g.chain e.2.jumps).length

end Decompile.FlowGraph
