import Decompile.Reduction.Loop
import Decompile.Reduction.Sequence
import Decompile.Reduction.Switch

namespace Decompile.Analysis

/-- Goes through the successors of `f` by address: appends one that can be, or reduces one that
lies ahead inside its own window. Returns whether anything changed. -/
def growOnce (reduce : FlowId → Window → Analysis → Analysis × Bool) (f : FlowId) (stop : Nat) :
    List FlowId → Analysis → Analysis × Bool
  | [], a => (a, false)
  | succ :: rest, a =>
    let here := a.flow f
    let there := a.flow succ
    if (there.addr = here.stop ∨ there.stop = here.addr) ∧ there.predecessors = [f] then
      (a.appendSuccessor f succ, true)
    else
      let (a, changed) :=
        if here.stop ≤ there.addr then
          reduce succ ⟨here.stop, (rest.head?.map fun next ↦ (a.flow next).addr).getD stop⟩ a
        else (a, false)
      if changed then (a, true)
      else if a.isExhausted then (a, false)
      else growOnce reduce f stop rest a

def reduceWithin : Nat → Bool → FlowId → Window → Analysis → Analysis × Bool
  | 0, changed, _, _, a => (a, changed)
  | n + 1, changed, f, w, a =>
    if a.broken.isSome then (a, changed)
    else
      match a.tick with
      | none => (a, changed)
      | some a =>
        match a.mergeSwitch (reduceWithin n false) f w with
        | (a, true) => reduceWithin n true f w a
        | (a, false) =>
          match a.closeLoop f w with
          | some a => reduceWithin n true f w a
          | none =>
            let successors := (a.graph.successorsOf f).filter fun succ ↦
              succ ≠ f && (a.flow succ).inWindow w
            match a.growOnce (reduceWithin n false) f w.stop successors with
            | (a, true) => reduceWithin n true f w a
            | (a, false) => (a, changed)

/-- Reduces the flow blocks that `f` reaches inside the window, and returns whether anything
changed. Every round takes one step from the budget. -/
def reduce (a : Analysis) (f : FlowId) (w : Window) : Analysis × Bool :=
  reduceWithin (a.fuel + 1) false f w a

def everywhere : Window := ⟨0, 4294967295⟩

def reduceAllWithin (f : FlowId) : Nat → Analysis → Analysis
  | 0, a => a
  | n + 1, a =>
    match a.reduce f everywhere with
    | (a, true) => if a.isExhausted then a else reduceAllWithin f n a
    | (a, false) => a

/-- Reduces from the entry on, and returns whether a single flow block is left. -/
def reduceAll (a : Analysis) : Analysis × Bool :=
  let a := reduceAllWithin a.entry (a.fuel + 1) a
  (a, a.graph.live = [a.entry] && !a.isExhausted)

end Decompile.Analysis
