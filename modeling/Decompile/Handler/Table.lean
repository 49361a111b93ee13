import Decompile.Instruction

namespace Decompile.ExceptionRow

/-- The row goes on where `row` ends, with the same handler for the same exceptions. -/
def continues (next row : ExceptionRow) : Bool :=
  row.stop == next.start && row.handler == next.handler && row.type == next.type

def coalesceFrom (row : ExceptionRow) : List ExceptionRow → List ExceptionRow
  | [] => [row]
  | next :: rest =>
    if next.continues row then coalesceFrom { row with stop := next.stop } rest
    else row :: coalesceFrom next rest

def coalesce : List ExceptionRow → List ExceptionRow
  | [] => []
  | row :: rest => coalesceFrom row rest

def protects (row : ExceptionRow) (address : Nat) : Bool :=
  row.start ≤ address && address < row.stop

/-- Inner ranges come before outer ones. -/
def innerFirst (x y : ExceptionRow) : Bool :=
  y.start < x.start || x.start == y.start && x.stop ≤ y.stop

/-- Rows innermost first, joined where one continues another, without those that protect their own
handler. -/
def normalize (rows : List ExceptionRow) : List ExceptionRow :=
  ((coalesce rows).filter fun row ↦ !row.protects row.handler).mergeSort innerFirst

/-- The first address beyond the handler where one of the outer rows starts or is handled. -/
def boundary (row : ExceptionRow) (outer : List ExceptionRow) : Nat :=
  ((outer.flatMap fun r ↦ [r.start, r.handler]).filter (row.handler < ·)).min?.getD 4294967295

end Decompile.ExceptionRow
