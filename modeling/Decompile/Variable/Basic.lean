import Decompile.Ids
import Decompile.Partition

namespace Decompile

/-- Where a variable comes from, weakest first: the strongest kind in a class names the class. -/
inductive LocalKind
  | selector | stack | returnAddress | slot | exception | parameter | this
  deriving DecidableEq, Inhabited

namespace LocalKind

def text : LocalKind → String
  | selector => "selector"
  | stack => "stack"
  | returnAddress => "return address"
  | slot => "slot"
  | exception => "exception"
  | parameter => "parameter"
  | this => "this"

def strength : LocalKind → Nat
  | selector => 0
  | stack => 1
  | returnAddress => 2
  | slot => 3
  | exception => 4
  | parameter => 5
  | this => 6

def strongest (a b : LocalKind) : LocalKind := if a.strength ≤ b.strength then b else a

end LocalKind

structure LocalInfo where
  kind : LocalKind
  slot : Option Nat
  deriving DecidableEq, Inhabited

/-- Every access to a local variable is a local of its own. Locals found to be one variable form a
class. -/
structure Locals where
  infos : Table LocalInfo := {}
  classes : Partition := {}
  deriving Inhabited

namespace Locals

def size (t : Locals) : Nat := t.infos.size

def ids (t : Locals) : List LocalId := (List.range t.size).map LocalId.mk

def add (t : Locals) (kind : LocalKind) (slot : Option Nat) : Locals × LocalId :=
  let (classes, key) := t.classes.add
  (⟨t.infos.push ⟨kind, slot⟩, classes⟩, ⟨key⟩)

def slot (t : Locals) (x : LocalId) : Option Nat := (t.infos.get x.index).slot

def classOf (t : Locals) (x : LocalId) : LocalId := ⟨t.classes.find x.index⟩

def kind (t : Locals) (x : LocalId) : LocalKind := (t.infos.get (t.classOf x).index).kind

def same (t : Locals) (x y : LocalId) : Bool := t.classes.same x.index y.index

def sameSlot (t : Locals) (x y : LocalId) : Bool := (t.slot x).isSome && t.slot x == t.slot y

def merge (t : Locals) (x y : LocalId) : Locals × Bool :=
  let kind := (t.kind x).strongest (t.kind y)
  let (classes, merged) := t.classes.merge x.index y.index
  if merged then
    let (classes, leader) := classes.resolve x.index
    (⟨t.infos.modify leader fun info ↦ { info with kind := kind }, classes⟩, true)
  else ({ t with classes := classes }, false)

end Locals

end Decompile
