import Decompile.Analysis.Consistency

namespace Decompile.Analysis

/-- The condition is negated, and its taken block gets the jump of the whole. -/
def exchangeExit (a : Analysis) (b taken : BlockId) (cond : ExprId) : Analysis :=
  let (a, negated) := (a.moveJump b taken).negate cond
  a.setCondition b negated

/-- The rest of a sequence runs only if the condition of its first statement does not hold. -/
def guardRest (a : Analysis) (seq first taken rest : BlockId) (cond : ExprId) : Analysis :=
  let (a, negated) := a.negate cond
  let place := a.placeOf seq
  let (a, ite) := (a.setOuter rest none).alloc (.ifElse negated rest none)
  (a.put place seq ite).retargetGrowth [seq, first, taken] ite

/-- `if (c) goto succ; goto X;` becomes `if (!c) goto X;`, and `if (c) goto succ; R` becomes
`if (!c) { R }`. -/
def invertCondition (a : Analysis) (f succ : FlowId) (j : JumpId) : Option Analysis := do
  let source := (a.jump j).source
  let parent ← a.outer source
  let .conditional cond taken := a.statement parent | none
  guard (taken = source ∧ a.statement source = .empty)
  if (a.jumpOf parent).any (fun own ↦ (a.jump own).destination ≠ succ) && a.fallsToEnd f parent then
    return (a.removeJump f j).exchangeExit parent source cond
  let seq ← a.outer parent
  let .sequence first second := a.statement seq | none
  guard (first = parent ∧ (a.jumpOf seq).isNone ∧ a.fallsToEnd f seq)
  return (a.removeJump f j).guardRest seq parent source second cond

def attachElse (a : Analysis) (seq ite rest : BlockId) : Analysis :=
  let place := a.placeOf seq
  let a := a.modifyStatement ite (·.setElse rest)
  ((a.setOuter rest (some ite)).put place seq ite).retargetGrowth [seq] ite

/-- `if (c) { A; goto succ } R` becomes `if (c) { A } else { R }`. -/
def convertToElse (a : Analysis) (f : FlowId) (j : JumpId) : Option Analysis := do
  let source := (a.jump j).source
  let ite ← (a.blocks.ancestors source).find? fun b ↦ (a.statement b).isOneArmed
  let .ifElse _ onTrue _ := a.statement ite | none
  guard (a.blocks.chainTail onTrue = source ∧ a.blocks.fallsToEndOf source onTrue)
  let seq ← a.outer ite
  let .sequence first second := a.statement seq | none
  guard (first = ite ∧ (a.jumpOf seq).isNone ∧ a.fallsToEnd f seq)
  return ((a.removeJump f j).dropIfEmpty source).attachElse seq ite second

def breakOut (a : Analysis) (f : FlowId) (target : BlockId) (j : JumpId) : Analysis :=
  let labeled := a.blocks.innermostBreakable (a.jump j).source ≠ some target
  let a := if labeled then a.setLabeled target else a
  let (a, exit) := a.alloc (.breakTo target labeled)
  a.replaceJumpWith f j exit

/-- A break out of the innermost breakable block that goes on at `succ`. -/
def breakToSuccessor (a : Analysis) (f succ : FlowId) (j : JumpId) : Option Analysis := do
  let target ← (a.blocks.ancestors (a.jump j).source).find? fun b ↦
    (a.statement b).isBreakable &&
      match a.jumpOf b with
      | some own => (a.jump own).destination = succ
      | none => a.fallsToEnd f b
  return a.breakOut f target j

def resolveJump (a : Analysis) (f succ : FlowId) (j : JumpId) : Option Analysis :=
  let source := (a.jump j).source
  if a.fallsToEnd f source then some ((a.removeJump f j).dropIfEmpty source)
  else if (a.outer source).isNone then none
  else a.invertCondition f succ j <|> a.convertToElse f j <|> a.breakToSuccessor f succ j

def resolvePass (f succ : FlowId) : List JumpId → Analysis → Analysis × List JumpId
  | [], a => (a, [])
  | j :: rest, a =>
    match a.resolveJump f succ j with
    | some a => resolvePass f succ rest a
    | none =>
      let (a, kept) := resolvePass f succ rest a
      (a, j :: kept)

def resolvePending (f succ : FlowId) (pending : List JumpId) (a : Analysis) :
    Analysis × List JumpId :=
  let (a, kept) := resolvePass f succ pending a
  if kept.isEmpty then (a, [])
  else if kept.length < pending.length then resolvePending f succ kept a
  else (a, kept)
termination_by pending.length

def exitsWithin (a : Analysis) : Nat → BlockId → Bool
  | 0, b => (a.jumpOf b).isSome
  | n + 1, b =>
    (a.jumpOf b).isSome ||
      match a.statement b with
      | .sequence _ second => a.exitsWithin n second
      | _ => false

/-- Some block at the end of the tree leaves through a jump. -/
def tailExits (a : Analysis) (f : FlowId) : Bool := a.exitsWithin a.blocks.size (a.root f)

/-- Puts the tree into `do { … } while (false)`, for breaks to leave. -/
def wrapInBreakable (a : Analysis) (f : FlowId) : Analysis × BlockId :=
  let (a, cond) := a.allocExpr (.const (.bool false))
  let (a, wrapper) := a.alloc (.loop .doWhile cond none none (a.root f) false)
  ((a.setRoot f wrapper).setGrowth f wrapper, wrapper)

/-- Turns every jump from `f` to `succ` into structure, so that the tree of `succ` can follow that
of `f`. -/
def resolveJumpsTo (a : Analysis) (f succ : FlowId) : Analysis :=
  let (a, pending) := resolvePending f succ (a.graph.jumpsTo f succ) a
  if pending.isEmpty && !a.tailExits f then a
  else
    let (a, wrapper) := a.wrapInBreakable f
    pending.foldl (fun a j ↦ a.breakOut f wrapper j) a

end Decompile.Analysis
