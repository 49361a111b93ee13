import Decompile.Name

namespace Decompile

/-- Floating-point constants are kept as their bits. -/
inductive Constant
  | null
  | bool (value : Bool)
  | int (value : Int)
  | long (value : Int)
  | float (bits : UInt32)
  | double (bits : UInt64)
  | string (value : Name)
  | classRef (value : Name)
  deriving DecidableEq, Inhabited

namespace Constant

def width : Constant → Nat
  | long _ | double _ => 2
  | _ => 1

def isOne : Constant → Bool
  | int n | long n => n == 1
  | float bits => bits == 0x3F800000
  | double bits => bits == 0x3FF0000000000000
  | _ => false

def floatIsNaN (bits : UInt32) : Bool := 0x7F800000 < bits &&& 0x7FFFFFFF

def doubleIsNaN (bits : UInt64) : Bool := 0x7FF0000000000000 < bits &&& 0x7FFFFFFFFFFFFFFF

/-- Equality of the values denoted: a NaN differs from itself, and both zeros are equal. -/
def sameValue : Constant → Constant → Bool
  | float x, float y =>
    !floatIsNaN x && !floatIsNaN y && (x == y || (x ||| y) &&& 0x7FFFFFFF == 0)
  | double x, double y =>
    !doubleIsNaN x && !doubleIsNaN y && (x == y || (x ||| y) &&& 0x7FFFFFFFFFFFFFFF == 0)
  | x, y => x == y

end Constant

end Decompile
