import Decompile.Liveness

namespace Decompile.Analysis

/-- The body, jump and target of a case that still is a bare jump. -/
def pendingCase? (a : Analysis) (b : BlockId) : Option (BlockId × JumpId × FlowId) := do
  let .switchCase _ body _ := a.statement b | none
  guard (a.statement body = .empty)
  let j ← a.jumpOf body
  return (body, j, (a.jump j).destination)

/-- Where the window of a case ends: at the first later case in the window beyond it. -/
def caseBoundary (a : Analysis) (later : List BlockId) (addr stop : Nat) : Nat :=
  let addrs := later.filterMap fun b ↦ (a.pendingCase? b).map fun (_, _, f) ↦ (a.flow f).addr
  (addrs.find? fun x ↦ addr < x && x < stop).getD stop

/-- Puts the tree of `target` into its case. The jumps that fall in from the case before go away. -/
def mergeCase (a : Analysis) (f : FlowId) (switch block body : BlockId) (j : JumpId)
    (target : FlowId) (fellIn : List JumpId) : Analysis :=
  let edge := ((a.flow f).edge? target).getD {}
  let a := fellIn.foldl (fun a other ↦
    let source := (a.jump other).source
    (a.removeJump f other).dropIfEmpty source) a
  let a := a.removeJump f j
  let a := { a with graph := a.graph.removeEdge f target }
  let a := a.put (.child block) body (a.root target)
  let a := if fellIn.isEmpty then a
    else a.modifyStatement block (·.setFallthrough)
  ((a.absorb f target edge).setGrowth f switch).checkpoint

/-- Merges the cases from the first on, in the order of their addresses, as far as it goes.
`reduce` reduces the target of a case inside its window. -/
def mergeCases (reduce : FlowId → Window → Analysis → Analysis × Bool) (f : FlowId) (w : Window)
    (switch : BlockId) :
    List BlockId → Option BlockId → Bool → Analysis → Analysis × Bool
  | [], _, changed, a => (a, changed)
  | block :: rest, previous, changed, a =>
    match a.pendingCase? block with
    | none => mergeCases reduce f w switch rest (some block) changed a
    | some (body, j, target) =>
      if target = f || !(a.flow target).inWindow w then (a, changed)
      else
        let addr := (a.flow target).addr
        let (a, reduced) := reduce target ⟨addr, a.caseBoundary rest addr w.stop⟩ a
        let changed := changed || reduced
        let fellIn := (a.graph.jumpsTo f target).filter (· ≠ j)
        let fromPrevious (other : JumpId) : Bool :=
          previous.any fun p ↦ a.blocks.fallsToEndOf (a.jump other).source p
        if (a.flow target).addr = (a.flow f).stop ∧ (a.flow target).predecessors = [f] ∧
            fellIn.all fromPrevious then
          mergeCases reduce f w switch rest (some block) true
            (a.mergeCase f switch block body j target fellIn)
        else (a, changed)

def mergeSwitch (reduce : FlowId → Window → Analysis → Analysis × Bool) (f : FlowId) (w : Window)
    (a : Analysis) : Analysis × Bool :=
  let switch := (a.flow f).growth
  match a.statement switch with
  | .switch _ cases _ => mergeCases reduce f w switch cases none false a
  | _ => (a, false)

end Decompile.Analysis
