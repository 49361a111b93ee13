namespace Decompile

/-- Numbered entries, handed out densely from zero and never removed. A number that was never
handed out reads as the default entry, and writing to it changes nothing. -/
structure Table (α : Type) where
  entries : Array α := #[]
  deriving Inhabited

namespace Table

variable {α : Type}

def size (t : Table α) : Nat := t.entries.size

def push (t : Table α) (x : α) : Table α := ⟨t.entries.push x⟩

def get [Inhabited α] (t : Table α) (i : Nat) : α := t.entries.getD i default

def modify (t : Table α) (i : Nat) (f : α → α) : Table α := ⟨t.entries.modify i f⟩

def set (t : Table α) (i : Nat) (x : α) : Table α := ⟨t.entries.setIfInBounds i x⟩

def toList (t : Table α) : List α := t.entries.toList

@[simp] theorem size_push (t : Table α) (x : α) : (t.push x).size = t.size + 1 := by
  simp [size, push]

@[simp] theorem size_modify (t : Table α) (i : Nat) (f : α → α) :
    (t.modify i f).size = t.size := by
  simp [size, modify]

@[simp] theorem size_set (t : Table α) (i : Nat) (x : α) : (t.set i x).size = t.size := by
  simp [size, set]

theorem get_of_size_le [Inhabited α] (t : Table α) {i : Nat} (h : t.size ≤ i) :
    t.get i = default := by
  rw [get, Array.getD_eq_getD_getElem?, Array.getElem?_eq_none h]
  rfl

theorem get_push [Inhabited α] (t : Table α) (x : α) (i : Nat) :
    (t.push x).get i = if i = t.size then x else t.get i := by
  simp only [get, push, size, Array.getD_eq_getD_getElem?, Array.getElem?_push]
  split <;> rfl

theorem get_modify [Inhabited α] (t : Table α) (i j : Nat) (f : α → α) :
    (t.modify i f).get j = if i = j ∧ j < t.size then f (t.get j) else t.get j := by
  simp only [get, modify, size, Array.getD_eq_getD_getElem?, Array.getElem?_modify]
  by_cases h : i = j <;> by_cases hj : j < t.entries.size <;> simp [h, hj]

theorem get_set [Inhabited α] (t : Table α) (i j : Nat) (x : α) :
    (t.set i x).get j = if i = j ∧ j < t.size then x else t.get j := by
  simp only [get, set, size, Array.getD_eq_getD_getElem?, Array.getElem?_setIfInBounds]
  by_cases h : i = j
  · subst h
    by_cases hi : i < t.entries.size <;> simp [hi]
  · simp [h]

end Table

end Decompile
