import Decompile.Statement.Basic

namespace Decompile.Blocks

def ancestorsWithin (t : Blocks) : Nat → BlockId → List BlockId
  | 0, _ => []
  | n + 1, b =>
    match t.outer b with
    | none => []
    | some parent => parent :: t.ancestorsWithin n parent

/-- Blocks around `b`, innermost first. No path is longer than the table. -/
def ancestors (t : Blocks) (b : BlockId) : List BlockId := t.ancestorsWithin t.size b

def isWithin (t : Blocks) (b ancestor : BlockId) : Bool :=
  b == ancestor || (t.ancestors b).contains ancestor

def rootOf (t : Blocks) (b : BlockId) : BlockId := (t.ancestors b).getLastD b

def fallsWithin (t : Blocks) (ancestor : BlockId) : Nat → BlockId → Bool
  | 0, b => b == ancestor
  | n + 1, b =>
    b == ancestor ||
      match t.outer b with
      | none => false
      | some parent =>
        (t.statement parent).endsWith b && (parent == ancestor || (t.jump parent).isNone) &&
          t.fallsWithin ancestor n parent

/-- Whether the normal end of `b`, its own jump aside, is the end of `ancestor`. A jump on a block
between the two would be taken first. -/
def fallsToEndOf (t : Blocks) (b ancestor : BlockId) : Bool := t.fallsWithin ancestor t.size b

def chainWithin (t : Blocks) : Nat → BlockId → List BlockId
  | 0, b => [b]
  | n + 1, b =>
    match t.statement b with
    | .sequence first second => first :: t.chainWithin n second
    | _ => [b]

def chain (t : Blocks) (b : BlockId) : List BlockId := t.chainWithin t.size b

def chainHead (t : Blocks) (b : BlockId) : BlockId := (t.chain b).headD b

def chainTail (t : Blocks) (b : BlockId) : BlockId := (t.chain b).getLastD b

def prevStatement (t : Blocks) (b : BlockId) : Option BlockId := do
  let parent ← t.outer b
  let .sequence first second := t.statement parent | none
  if second = b then return first
  let grandparent ← t.outer parent
  let .sequence first second := t.statement grandparent | none
  if second = parent then return first else none

def nextStatement (t : Blocks) (b : BlockId) : Option BlockId := do
  let parent ← t.outer b
  let .sequence first second := t.statement parent | none
  if first = b then
    match t.statement second with
    | .sequence next _ => return next
    | _ => return second
  else none

def precedingWithin (t : Blocks) : Nat → BlockId → List BlockId → Option (List BlockId)
  | 0, _, run => some run
  | n + 1, b, run => do
    let prev ← t.prevStatement b
    t.precedingWithin n prev (prev :: run)

def preceding (t : Blocks) (b : BlockId) (count : Nat) : Option (List BlockId) :=
  t.precedingWithin count b []

def innermostBreakable (t : Blocks) (b : BlockId) : Option BlockId :=
  (t.ancestors b).find? fun x ↦ (t.statement x).isBreakable

def innermostLoop (t : Blocks) (b : BlockId) : Option BlockId :=
  (t.ancestors b).find? fun x ↦ (t.statement x).isLoop

/-- The closest block around `b` that is a statement of some chain. -/
def enclosingStatement (t : Blocks) (b : BlockId) : Option BlockId :=
  (t.ancestors b).find? fun x ↦ !(t.statement x).isSequence

def subtreeWithin (t : Blocks) : Nat → BlockId → List BlockId
  | 0, _ => []
  | n + 1, b => b :: (t.statement b).children.flatMap (t.subtreeWithin n)

def subtree (t : Blocks) (b : BlockId) : List BlockId := t.subtreeWithin t.size b

def commonAncestor (t : Blocks) (a b : BlockId) : BlockId :=
  ((a :: t.ancestors a).find? (t.isWithin b)).getD a

end Decompile.Blocks
