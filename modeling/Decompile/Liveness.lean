import Decompile.Analysis.Consistency

namespace Decompile.Analysis

def mergeBySlot (a : Analysis) (reads writes : VariableSet) : Analysis :=
  reads.members.foldl (fun a read ↦
    (writes.withSlotOf a.locals read).foldl (fun a write ↦ a.mergeLocals read write) a) a

/-- What is known of the paths that go along `first` and then along `second`. -/
def composeEdges (locals : Locals) (first second : Edge) : Edge where
  kill := first.kill.union second.kill
  gen := second.gen.union (first.gen.withoutKilled second.kill locals)
  jumps := second.jumps

/-- Gives an outgoing edge of `succ` to `flow`, together with the edge that `flow` has to the same
destination already. A way from `succ` back to itself becomes one of `flow`. -/
def takeEdge (flow succ : FlowId) (edge : Edge) (a : Analysis) (out : FlowId × Edge) : Analysis :=
  let destination := if out.1 = succ then flow else out.1
  let through := composeEdges a.locals edge out.2
  let merged : Edge :=
    match (a.flow flow).edge? destination with
    | some existing =>
      { existing with
        kill := existing.kill.inter through.kill
        gen := existing.gen.union through.gen }
    | none => through
  let jumps := a.graph.jumpsTo flow destination ++ a.graph.chain out.2.jumps
  { a with graph := a.graph.inheritEdge flow succ destination merged jumps }

/-- Takes over the range, the edges and the locals of `succ`, whose edge from `flow` is gone
already. The caller joins the trees. -/
def absorb (a : Analysis) (flow succ : FlowId) (edge : Edge) : Analysis :=
  let absorbed := a.flow succ
  let a := a.mergeBySlot absorbed.reads edge.gen
  let a := a.modifyFlow flow fun f ↦
    { f with
      reads := f.reads.union (absorbed.reads.withoutKilled edge.kill a.locals)
      writes := f.writes.union absorbed.writes }
  let a := a.modifyFlow succ ({ · with successors := [] })
  let a := absorbed.successors.foldl (takeEdge flow succ edge) a
  let a := a.modifyFlow flow fun f ↦
    let start := min f.addr absorbed.addr
    { f with addr := start, length := max f.stop absorbed.stop - start }
  a.modifyFlow succ ({ · with alive := false, predecessors := [], reads := {} })

/-- Once a loop is closed, the writes on the way back reach the reads at its head. -/
def mergeBackEdge (a : Analysis) (flow : FlowId) (backEdge : Edge) : Analysis :=
  a.mergeBySlot (a.flow flow).reads backEdge.gen

end Decompile.Analysis
