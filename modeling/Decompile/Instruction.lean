import Decompile.Constant
import Decompile.Operator

namespace Decompile

inductive ValueKind
  | int | long | float | double | reference | byte | char | short
  deriving DecidableEq, Inhabited

namespace ValueKind

def text : ValueKind → String
  | int => "int"
  | long => "long"
  | float => "float"
  | double => "double"
  | reference => "reference"
  | byte => "byte"
  | char => "char"
  | short => "short"

def width : ValueKind → Nat
  | long | double => 2
  | _ => 1

end ValueKind

/-- Raw shuffles of the operand stack. -/
inductive StackOp
  | pop | pop2 | dup | dupX1 | dupX2 | dup2 | dup2X1 | dup2X2 | swap
  deriving DecidableEq, Inhabited

namespace StackOp

def text : StackOp → String
  | pop => "POP"
  | pop2 => "POP2"
  | dup => "DUP"
  | dupX1 => "DUP_X1"
  | dupX2 => "DUP_X2"
  | dup2 => "DUP2"
  | dup2X1 => "DUP2_X1"
  | dup2X2 => "DUP2_X2"
  | swap => "SWAP"

/-- For a duplication, the slots copied and the slots skipped below the copy. -/
def dupShape : StackOp → Option (Nat × Nat)
  | dup => some (1, 0)
  | dupX1 => some (1, 1)
  | dupX2 => some (1, 2)
  | dup2 => some (2, 0)
  | dup2X1 => some (2, 1)
  | dup2X2 => some (2, 2)
  | pop | pop2 | swap => none

def poppedSlots : StackOp → Option Nat
  | pop => some 1
  | pop2 => some 2
  | _ => none

end StackOp

inductive BranchOperand
  | zero
  | null
  | value (kind : ValueKind)
  deriving DecidableEq, Inhabited

inductive InvokeKind
  | static | virtual | special | interface
  deriving DecidableEq, Inhabited

structure MemberRef where
  owner : Name
  name : Name
  descriptor : Name
  deriving DecidableEq, Inhabited

inductive Opcode
  | nop
  | const (value : Constant)
  | load (kind : ValueKind) (slot : Nat)
  | store (kind : ValueKind) (slot : Nat)
  | iinc (slot : Nat) (delta : Int)
  | arrayLoad (kind : ValueKind)
  | arrayStore (kind : ValueKind)
  | stack (op : StackOp)
  | binary (op : BinaryOp) (kind : ValueKind)
  | negate (kind : ValueKind)
  | convert (source target : ValueKind)
  | compare (kind : ValueKind) (nanGreater : Bool)
  | branch (op : CompareOp) (operand : BranchOperand) (target : Nat)
  | goto (target : Nat)
  | jsr (target : Nat)
  | ret (slot : Nat)
  | switch (cases : List (Int × Nat)) (fallback : Nat)
  | returns (kind : Option ValueKind)
  | throws
  | getField (isStatic : Bool) (field : MemberRef)
  | putField (isStatic : Bool) (field : MemberRef)
  | invoke (kind : InvokeKind) (method : MemberRef)
  | new (type : Name)
  | newArray (element : Name) (dimensions : Nat)
  | arrayLength
  | checkCast (type : Name)
  | instanceOf (type : Name)
  | monitorEnter
  | monitorExit
  deriving DecidableEq, Inhabited

structure ControlFlow where
  targets : List Nat
  fallsThrough : Bool
  deriving DecidableEq, Inhabited

/-- Control just goes on to the next instruction. -/
def ControlFlow.isNormal (c : ControlFlow) : Bool := c.targets.isEmpty && c.fallsThrough

namespace Opcode

/-- A subroutine call resumes at the next instruction once the subroutine returns. -/
def controlFlow : Opcode → ControlFlow
  | returns _ | throws | ret _ => ⟨[], false⟩
  | goto target => ⟨[target], false⟩
  | branch _ _ target | jsr target => ⟨[target], true⟩
  | switch cases fallback => ⟨fallback :: cases.map (·.2), false⟩
  | _ => ⟨[], true⟩

def localSlot : Opcode → Option Nat
  | load kind slot | store kind slot => some (slot + kind.width - 1)
  | iinc slot _ | ret slot => some slot
  | _ => none

end Opcode

structure Instruction where
  address : Nat
  length : Nat
  opcode : Opcode
  deriving DecidableEq, Inhabited

def Instruction.nextAddress (i : Instruction) : Nat := i.address + i.length

/-- A row of the exception table: the handler runs for exceptions of the type, or for all, that
leave an address from `start` up to `stop`. -/
structure ExceptionRow where
  start : Nat
  stop : Nat
  handler : Nat
  type : Option Name
  deriving DecidableEq, Inhabited

end Decompile
