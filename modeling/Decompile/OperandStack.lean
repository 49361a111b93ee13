import Decompile.Instruction
import Decompile.Variable.Basic

namespace Decompile

inductive StackError
  | underflow (needed available : Nat)
  | widthMismatch (expected actual : Nat)
  | splitsWideValue (op : StackOp)
  | mergeMismatch (left right : Nat)
  deriving DecidableEq, Inhabited

def StackError.message : StackError → String
  | underflow needed available =>
    s!"Stack underflow: {needed} slots needed, {available} available"
  | widthMismatch expected actual =>
    s!"Operand of width {expected} reads a value of width {actual}"
  | splitsWideValue op => op.text ++ " splits a two-slot value"
  | mergeMismatch left right =>
    s!"Stacks of different shapes meet at a join ({left} vs {right} slots)"

structure StackEntry where
  value : LocalId
  width : Nat
  deriving DecidableEq, Inhabited

/-- The operand stack, bottom first: each value is known by the local that stands for it. -/
structure OperandStack where
  entries : List StackEntry := []
  deriving DecidableEq, Inhabited

namespace OperandStack

def size (s : OperandStack) : Nat := s.entries.length

def isEmpty (s : OperandStack) : Bool := s.entries.isEmpty

def slots (s : OperandStack) : Nat := s.entries.foldl (fun n entry ↦ n + entry.width) 0

def push (s : OperandStack) (value : LocalId) (width : Nat) : OperandStack :=
  ⟨s.entries ++ [⟨value, width⟩]⟩

def dropTop (s : OperandStack) (count : Nat) : OperandStack := ⟨s.entries.take (s.size - count)⟩

def top (s : OperandStack) (count : Nat) : List StackEntry := s.entries.drop (s.size - count)

def peek (s : OperandStack) (count : Nat) : Except StackError (List StackEntry) :=
  if count ≤ s.size then .ok (s.top count) else .error (.underflow count s.size)

def mismatch? : List StackEntry → List Nat → Option StackError
  | entry :: entries, expected :: widths =>
    if entry.width = expected then mismatch? entries widths
    else some (.widthMismatch expected entry.width)
  | _, _ => none

/-- Pops one entry per operand. Operands are listed in the order of their evaluation, which is
bottom to top, and so are the locals returned. -/
def pop (s : OperandStack) (widths : List Nat) :
    Except StackError (OperandStack × List LocalId) := do
  let popped ← s.peek widths.length
  match mismatch? popped widths with
  | some e => .error e
  | none => .ok (s.dropTop widths.length, popped.map (·.value))

def popPush (s : OperandStack) (widths : List Nat) (result : Option (LocalId × Nat)) :
    Except StackError (OperandStack × List LocalId) := do
  let (rest, popped) ← s.pop widths
  return (result.elim rest fun (value, width) ↦ rest.push value width, popped)

/-- Joins the locals of two rows of entries from the bottom up to the first two entries of
different widths, and returns whether there are none such. -/
def mergeEntries : List StackEntry → List StackEntry → Locals → Locals × Bool
  | x :: xs, y :: ys, locals =>
    if x.width = y.width then mergeEntries xs ys (locals.merge x.value y.value).1
    else (locals, false)
  | _, _, locals => (locals, true)

/-- Joins the locals of two stacks that reach the same point, after which the first stands for
both. -/
def merge (s t : OperandStack) (locals : Locals) : Locals × Option StackError :=
  let e := .mergeMismatch s.slots t.slots
  if s.size = t.size then
    match mergeEntries s.entries t.entries locals with
    | (locals, true) => (locals, none)
    | (locals, false) => (locals, some e)
  else (locals, some e)

/-- How many of the entries, listed from the top, are needed to cover the slots, and the slots
they cover. -/
def cover (slots : Nat) : List StackEntry → Option (Nat × Nat)
  | [] => if slots = 0 then some (0, 0) else none
  | entry :: rest =>
    if slots = 0 then some (0, 0)
    else (cover (slots - entry.width) rest).map fun (count, covered) ↦
      (count + 1, entry.width + covered)

/-- How many entries below the top `above` ones make up exactly the slots. -/
def countFor (s : OperandStack) (op : StackOp) (above slots : Nat) : Except StackError Nat :=
  match cover slots (s.dropTop above).entries.reverse with
  | none => .error (.underflow (slots + above) s.size)
  | some (count, covered) => if covered = slots then .ok count else .error (.splitsWideValue op)

/-- A shuffle acts by position. A duplicated value keeps its local, so that it is read twice. -/
def shuffle (s : OperandStack) (op : StackOp) : Except StackError OperandStack := do
  match op.poppedSlots, op.dupShape with
  | some slots, _ => return s.dropTop (← s.countFor op 0 slots)
  | none, some (copied, skipped) =>
    let above ← s.countFor op 0 copied
    let under ← if skipped = 0 then pure 0 else s.countFor op above skipped
    return ⟨(s.dropTop (above + under)).entries ++ s.top above ++ s.top (above + under)⟩
  | none, none =>
    let pair ← s.peek 2
    if pair.any (·.width ≠ 1) then .error (.splitsWideValue op)
    else return ⟨(s.dropTop 2).entries ++ pair.reverse⟩

end OperandStack

end Decompile
