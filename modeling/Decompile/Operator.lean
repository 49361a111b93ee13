namespace Decompile

inductive BinaryOp
  | add | sub | mul | div | rem | and | or | xor | shl | shr | ushr
  deriving DecidableEq, Inhabited

namespace BinaryOp

def symbol : BinaryOp → String
  | add => "+"
  | sub => "-"
  | mul => "*"
  | div => "/"
  | rem => "%"
  | and => "&"
  | or => "|"
  | xor => "^"
  | shl => "<<"
  | shr => ">>"
  | ushr => ">>>"

def isShift : BinaryOp → Bool
  | shl | shr | ushr => true
  | _ => false

def canThrow : BinaryOp → Bool
  | div | rem => true
  | _ => false

end BinaryOp

inductive CompareOp
  | eq | ne | lt | ge | gt | le
  deriving DecidableEq, Inhabited

namespace CompareOp

def symbol : CompareOp → String
  | eq => "=="
  | ne => "!="
  | lt => "<"
  | ge => ">="
  | gt => ">"
  | le => "<="

def negate : CompareOp → CompareOp
  | eq => ne
  | ne => eq
  | lt => ge
  | ge => lt
  | gt => le
  | le => gt

@[simp] theorem negate_negate (op : CompareOp) : op.negate.negate = op := by cases op <;> rfl

end CompareOp

inductive LogicalOp
  | and | or
  deriving DecidableEq, Inhabited

namespace LogicalOp

def symbol : LogicalOp → String
  | and => "&&"
  | or => "||"

def dual : LogicalOp → LogicalOp
  | and => or
  | or => and

@[simp] theorem dual_dual (op : LogicalOp) : op.dual.dual = op := by cases op <;> rfl

end LogicalOp

inductive StepOp
  | increment | decrement
  deriving DecidableEq, Inhabited

def StepOp.symbol : StepOp → String
  | increment => "++"
  | decrement => "--"

end Decompile
