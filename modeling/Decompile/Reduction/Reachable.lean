import Decompile.Analysis.Consistency

namespace Decompile.Analysis

/-- Strikes off everything that the queued flow blocks reach. -/
def strikeReached (a : Analysis) (unreached queue : List FlowId) : List FlowId :=
  match queue with
  | [] => unreached
  | f :: queue =>
    if f ∈ unreached then
      a.strikeReached (unreached.erase f) ((a.flow f).successors.map (·.1) ++ queue)
    else a.strikeReached unreached queue
termination_by (unreached.length, queue.length)
decreasing_by
  · rename_i h
    have := List.length_erase_of_mem h
    have := List.length_pos_of_mem h
    simp_wf
    apply Prod.Lex.left
    omega
  · simp_wf
    apply Prod.Lex.right
    omega

/-- Live flow blocks that neither the entry reaches nor a handler at one of the addresses. -/
def unreachable (a : Analysis) (handlers : List Nat) : List FlowId :=
  a.strikeReached a.graph.live (a.entry :: handlers.filterMap a.graph.flowStartingAt)

def detach (a : Analysis) (f : FlowId) : Analysis :=
  let a := (a.flow f).predecessors.foldl (fun a pred ↦
    if pred.isSentinel then a else a.modifyFlow pred (·.eraseEdge f)) a
  a.modifyFlow f ({ · with predecessors := [] })

/-- Gives the range of a dead flow block to a live neighbour, the one before it if there is one. -/
def yieldRange (a : Analysis) (f : FlowId) : Analysis :=
  let dead := a.flow f
  match a.graph.live.find? fun other ↦ (a.flow other).stop = dead.addr with
  | some before => a.modifyFlow before fun g ↦ { g with length := g.length + dead.length }
  | none =>
    match a.graph.live.find? fun other ↦ (a.flow other).addr = dead.stop with
    | some after => a.modifyFlow after fun g ↦
        { g with addr := dead.addr, length := g.length + dead.length }
    | none => a

/-- Drops unreachable flow blocks. What is left around them stays adjacent. -/
def removeUnreachable (a : Analysis) (handlers : List Nat) : Analysis :=
  let dead := a.unreachable handlers
  let a := dead.foldl (fun a f ↦ (a.removeJumps f).modifyFlow f ({ · with alive := false })) a
  let a := dead.foldl detach a
  (dead.foldl yieldRange a).checkpoint

end Decompile.Analysis
