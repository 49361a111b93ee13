import Decompile.Text.ModifiedUtf8

namespace Decompile

/-- A class, member or descriptor name as it is stored: modified UTF-8. Two names are equal if
their bytes are, although a character from U+0001 to U+0040 can be stored in one byte or in two. -/
structure Name where
  bytes : List UInt8
  wellFormed : (ModifiedUtf8.decode bytes).isSome
  deriving DecidableEq

namespace Name

instance : Inhabited Name := ⟨⟨[], rfl⟩⟩

def ofBytes? (bytes : List UInt8) : Option Name :=
  if h : (ModifiedUtf8.decode bytes).isSome then some ⟨bytes, h⟩ else none

def units (n : Name) : List UInt16 := (ModifiedUtf8.decode n.bytes).get n.wellFormed

def chars (n : Name) : List Char := ModifiedUtf8.chars n.units

def text (n : Name) : String := String.ofList n.chars

/-- The name reads as `s`, however its characters are stored. -/
def spells (n : Name) (s : String) : Bool := n.chars == s.toList

def isConstructor (n : Name) : Bool := n.spells "<init>"

/-- The source form of an internal class name, `java.lang.Object` for `java/lang/Object`. -/
def dotted (n : Name) : String :=
  String.ofList (n.chars.map fun c ↦ if c = '/' then '.' else c)

end Name

end Decompile
