import Decompile.Liveness

namespace Decompile.Analysis

/-- `selector = index;` -/
def allocSelect (a : Analysis) (selector : LocalId) (index : Nat) : Analysis × BlockId :=
  let (a, target) := a.allocExpr (.var selector)
  let (a, value) := a.allocExpr (.const (.int index))
  let (a, expr) := a.allocExpr (.assign target none value)
  a.alloc (.evaluate expr 0)

def allocRegions (a : Analysis) (index : Nat) : List FlowId → Analysis × List BlockId
  | [] => (a, [])
  | f :: rest =>
    let (a, first) := a.alloc (.switchCase (.value index) (a.root f) false)
    let (a, cases) := a.allocRegions (index + 1) rest
    (a, first :: cases)

/-- Puts `selector = i; continue;` in the place of a jump to region `i`, and a return in the place
of one to the end of the method. -/
def dispatchJump (regions : List FlowId) (selector : LocalId) (looped : BlockId) (f dest : FlowId)
    (a : Analysis) (j : JumpId) : Analysis :=
  let source := (a.jump j).source
  match regions.idxOf? dest with
  | some index =>
    let labeled := a.blocks.innermostLoop source ≠ some looped
    let a := if labeled then a.setLabeled looped else a
    let (a, select) := a.allocSelect selector index
    let (a, again) := a.alloc (.continueTo looped labeled)
    let (a, dispatch) := a.alloc (.sequence select again)
    a.replaceJumpWith f j dispatch
  | none =>
    if dest = .endOfMethod ∧ !(a.statement source).isReturn then
      let (a, ret) := a.alloc (.returns none)
      a.replaceJumpWith f j ret
    else a.removeJump f j

def dispatchJumps (regions : List FlowId) (selector : LocalId) (looped : BlockId) (a : Analysis)
    (f : FlowId) : Analysis :=
  (a.graph.successorsOf f).foldl (fun a dest ↦
    (a.graph.jumpsTo f dest).foldl (dispatchJump regions selector looped f dest) a) a

/-- Makes one tree of all flow blocks that are left, the regions of a loop around a switch:
`selector = 0; while (true) { switch (selector) { case i: region i } }`. -/
def degrade (a : Analysis) : Analysis :=
  let others := a.graph.live.filter (· ≠ a.entry)
  let regions := a.entry :: others
  let (a, selector) := a.addLocal .selector none
  let (a, cases) := a.allocRegions 0 regions
  let (a, selected) := a.allocExpr (.var selector)
  let (a, switch) := a.alloc (.switch selected cases false)
  let (a, cond) := a.allocExpr (.const (.bool true))
  let (a, looped) := a.alloc (.loop .whileLoop cond none none switch false)
  let (a, init) := a.allocSelect selector 0
  let (a, root) := a.alloc (.sequence init looped)
  let a := regions.foldl (dispatchJumps regions selector looped) a
  let a := others.foldl (fun a f ↦ a.modifyFlow f ({ · with alive := false, predecessors := [] })) a
  -- Any region may follow any other, so reads see the writes of all.
  let reads := regions.foldl (fun s f ↦ s.union (a.flow f).reads) ({} : VariableSet)
  let writes := regions.foldl (fun s f ↦ s.union (a.flow f).writes) ({} : VariableSet)
  (a.mergeBySlot reads writes).modifyFlow a.entry fun f ↦
    { f with reads, writes, root, growth := root, predecessors := [.methodEntry] }

end Decompile.Analysis
