import Decompile.Variable.Basic

namespace Decompile

/-- Local slots, ascending and without repetition. -/
structure SlotSet where
  slots : List Nat := []
  deriving DecidableEq, Inhabited

namespace SlotSet

def insertSlot (slot : Nat) : List Nat → List Nat
  | [] => [slot]
  | s :: rest =>
    if slot < s then slot :: s :: rest
    else if slot = s then s :: rest
    else s :: insertSlot slot rest

def insert (s : SlotSet) (slot : Nat) : SlotSet := ⟨insertSlot slot s.slots⟩

def contains (s : SlotSet) (slot : Nat) : Bool := s.slots.contains slot

def isEmpty (s : SlotSet) : Bool := s.slots.isEmpty

def union (s t : SlotSet) : SlotSet := t.slots.foldl insert s

def inter (s t : SlotSet) : SlotSet := ⟨s.slots.filter t.contains⟩

def ofList (slots : List Nat) : SlotSet := slots.foldl insert {}

def kills (s : SlotSet) (locals : Locals) (x : LocalId) : Bool :=
  (locals.slot x).any s.contains

end SlotSet

/-- Locals without repetition, in the order in which they were added. -/
structure VariableSet where
  members : List LocalId := []
  deriving DecidableEq, Inhabited

namespace VariableSet

def contains (s : VariableSet) (x : LocalId) : Bool := s.members.contains x

def isEmpty (s : VariableSet) : Bool := s.members.isEmpty

def size (s : VariableSet) : Nat := s.members.length

def add (s : VariableSet) (x : LocalId) : VariableSet :=
  if s.contains x then s else ⟨s.members ++ [x]⟩

def union (s t : VariableSet) : VariableSet := t.members.foldl add s

def ofList (xs : List LocalId) : VariableSet := xs.foldl add {}

def withSlotOf (s : VariableSet) (locals : Locals) (x : LocalId) : List LocalId :=
  s.members.filter (locals.sameSlot x)

def withoutKilled (s : VariableSet) (kill : SlotSet) (locals : Locals) : VariableSet :=
  ⟨s.members.filter fun x ↦ !kill.kills locals x⟩

end VariableSet

end Decompile
