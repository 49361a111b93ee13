import Decompile.Expression.Basic
import Decompile.Variable.Basic

namespace Decompile.Expressions

def preorderWithin (t : Expressions) : Nat → ExprId → List ExprId
  | 0, _ => []
  | n + 1, e => e :: (t.get e).children.flatMap (t.preorderWithin n)

/-- The nodes below `root` in the order of their evaluation, parents before children. No path is
longer than the table. -/
def preorder (t : Expressions) (root : ExprId) : List ExprId := t.preorderWithin t.size root

/-- Free operands in the order of their evaluation. The last one reads the top of the stack. -/
def freeOperands (t : Expressions) (root : ExprId) : List ExprId :=
  (t.preorder root).filter fun e ↦ (t.get e).isFree

def freeWidth (t : Expressions) (e : ExprId) : Nat := (t.get e).freeWidth

def freeCount (t : Expressions) (root : ExprId) : Nat := (t.freeOperands root).length

def freeSlots (t : Expressions) (root : ExprId) : Nat :=
  (t.freeOperands root).foldl (fun n e ↦ n + t.freeWidth e) 0

def isPure (t : Expressions) (root : ExprId) : Bool :=
  (t.preorder root).all fun e ↦ (t.get e).computesOnly

def contains (t : Expressions) (root needle : ExprId) : Bool := (t.preorder root).contains needle

def localsIn (t : Expressions) (root : ExprId) : List LocalId :=
  (t.preorder root).filterMap fun e ↦ (t.get e).local?

def readsSlot (t : Expressions) (locals : Locals) (root : ExprId) (slot : Nat) : Bool :=
  (t.localsIn root).any fun x ↦ locals.slot x == some slot

def localSlot (t : Expressions) (locals : Locals) (e : ExprId) : Option Nat :=
  (t.get e).local?.bind locals.slot

def replaceWithin (old new : ExprId) : Nat → ExprId → Expressions → Option Expressions
  | 0, _, _ => none
  | n + 1, root, t =>
    let node := t.get root
    if node.children.contains old then
      some (t.set root (node.mapChildren fun e ↦ if e = old then new else e))
    else node.children.findSome? fun e ↦ replaceWithin old new n e t

/-- Points the first node above `old` below `root` at `new` instead. -/
def replaceChild? (t : Expressions) (root old new : ExprId) : Option Expressions :=
  replaceWithin old new t.size root t

/-- Everything that `root` evaluates before it comes to `leaf` is unaffected if `value` runs only
then. The target of an assignment is written after its value, not read before it. -/
def onlyOperandsBefore (t : Expressions) (root leaf value : ExprId) : Bool :=
  let writes := (t.preorder value).any fun e ↦ (t.get e).writes
  let nodes := t.preorder root
  let targets := nodes.filterMap fun e ↦
    match t.get e with
    | .assign target _ _ => some target
    | _ => none
  (nodes.takeWhile (· ≠ leaf)).all fun e ↦
    targets.contains e ||
      match t.get e with
      | .free _ | .const _ => true
      | .var _ => !writes
      | _ => t.contains e leaf

end Decompile.Expressions
