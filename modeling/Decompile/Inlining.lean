import Decompile.Rule.Basic

namespace Decompile

structure StackStore where
  leader : LocalId
  block : BlockId
  target : ExprId
  value : ExprId

structure StackRead where
  leader : LocalId
  block : BlockId
  root : ExprId
  leaf : ExprId

namespace Analysis

def stackLocal? (a : Analysis) (e : ExprId) : Option LocalId := do
  let x ← (a.expr e).local?
  guard (a.locals.kind x = .stack)
  return a.locals.classOf x

def stackStore? (a : Analysis) (block : BlockId) : Option StackStore := do
  let expr ← a.statementExpr? block
  let .assign target none value := a.expr expr | none
  return ⟨← a.stackLocal? target, block, target, value⟩

def stackStores (a : Analysis) (blocks : List BlockId) : List StackStore :=
  blocks.filterMap a.stackStore?

def stackReads (a : Analysis) (targets : List ExprId) (blocks : List BlockId) : List StackRead :=
  blocks.flatMap fun block ↦ (a.statement block).exprs.flatMap fun root ↦
    (a.exprs.preorder root).filterMap fun leaf ↦ do
      let x ← a.stackLocal? leaf
      guard (!targets.contains leaf)
      return ⟨x, block, root, leaf⟩

/-- The value can be computed at its read, right after the store. A loop would compute it over and
over. -/
def canInline (a : Analysis) (store : StackStore) (read : StackRead) : Bool :=
  a.blocks.prevStatement read.block == some store.block && a.removable [store.block] &&
    !(a.statement read.block).isLoop &&
    (a.exprs.isPure store.value || a.exprs.onlyOperandsBefore read.root read.leaf store.value)

/-- Drops a store that nobody reads. What its value does beside still happens. -/
def dropStore (a : Analysis) (store : StackStore) : Analysis :=
  if !a.exprs.isPure store.value then a.setStatement store.block (.evaluate store.value 0)
  else if a.removable [store.block] then a.removeStatement store.block
  else a.setStatement store.block .empty

/-- Removes the store of a class that has no other and at most one read, if that is possible. -/
def removeStore? (a : Analysis) (stores : List StackStore) (reads : List StackRead)
    (x : LocalId) : Option Analysis :=
  match stores.filter (·.leader = x), reads.filter (·.leader = x) with
  | [store], [] => some (a.dropStore store)
  | [store], [read] =>
    if a.canInline store read then
      some ((a.setExpr read.leaf (a.expr store.value)).removeStatement store.block)
    else none
  | _, _ => none

/-- Removes one stack local, the first by number that can be. -/
def inlineOne? (a : Analysis) : Option Analysis :=
  let blocks := a.blocks.subtree (a.root a.entry)
  let stores := a.stackStores blocks
  let reads := a.stackReads (stores.map (·.target)) blocks
  let classes := (stores.map (·.leader)).mergeSort fun x y ↦ x.index ≤ y.index
  classes.findSome? (a.removeStore? stores reads)

def inlineWithin : Nat → Analysis → Analysis
  | 0, a => a
  | n + 1, a =>
    match a.inlineOne? with
    | some a => inlineWithin n a
    | none => a

/-- Removes stack locals that are stored once and read by the next statement, or never. Each goes
with a store, so that there are no more rounds than blocks. -/
def inlineStackLocals (a : Analysis) : Analysis := inlineWithin a.blocks.size a

end Analysis

end Decompile
