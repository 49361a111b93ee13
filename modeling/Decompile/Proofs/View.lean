import Mathlib.Data.Option.Basic
import Decompile.Analysis.Edit
import Decompile.Proofs.Operands

namespace Decompile

section Lookup

variable {α β : Type} [DecidableEq α] {a b : α}

theorem lookup_filter_ne (h : a ≠ b) (l : List (α × β)) :
    (l.filter (·.1 ≠ b)).lookup a = l.lookup a := by
  induction l with
  | nil => rfl
  | cons x l ih =>
    obtain ⟨u, v⟩ := x
    by_cases hu : u = b
    · have hau : (a == u) = false := beq_false_of_ne (hu ▸ h)
      simpa [List.filter_cons, hu, List.lookup_cons, hu ▸ hau] using ih
    · simp only [List.filter_cons, hu, ne_eq, not_false_eq_true, decide_true, if_true,
        List.lookup_cons, ih]

theorem lookup_filter_self (l : List (α × β)) : (l.filter (·.1 ≠ b)).lookup b = none := by
  rw [List.lookup_eq_none_iff]
  intro x hx
  have hne : x.1 ≠ b := by simpa using (List.mem_filter.mp hx).2
  simpa using Ne.symm hne

end Lookup

theorem guard_bind_eq_some {α : Type} {p : Prop} [Decidable p] {x : Unit → Option α} {y : α} :
    ((guard p : Option Unit).bind x) = some y ↔ p ∧ x () = some y := by
  by_cases h : p
  · rw [show (guard p : Option Unit) = some () from if_pos h]
    simp [h]
  · rw [show (guard p : Option Unit) = none from if_neg h]
    simp [h]

namespace Blocks

variable (t : Blocks) (b x : BlockId)

theorem get_modify (k : Block → Block) :
    (t.modify b k).get x = if x = b ∧ b.index < t.size then k (t.get x) else t.get x := by
  obtain ⟨i⟩ := b
  obtain ⟨j⟩ := x
  simp only [get, modify, size, Table.get_modify, BlockId.mk.injEq]
  by_cases h : j = i
  · simp [h]
  · simp [h, Ne.symm h]

@[simp] theorem size_modify (k : Block → Block) : (t.modify b k).size = t.size :=
  Table.size_modify ..

theorem get_of_size_le {b : BlockId} (h : t.size ≤ b.index) : t.get b = default :=
  t.table.get_of_size_le h

theorem statement_setStatement (hb : b.index < t.size) (s : Statement) :
    (t.setStatement b s).statement x = if x = b then s else t.statement x := by
  rw [statement, setStatement, get_modify]
  by_cases h : x = b <;> simp [h, hb, statement]

@[simp] theorem outer_setStatement (s : Statement) : (t.setStatement b s).outer x = t.outer x := by
  rw [outer, setStatement, get_modify]
  split <;> rfl

@[simp] theorem jump_setStatement (s : Statement) : (t.setStatement b s).jump x = t.jump x := by
  rw [jump, setStatement, get_modify]
  split <;> rfl

@[simp] theorem statement_setOuter (o : Option BlockId) :
    (t.setOuter b o).statement x = t.statement x := by
  rw [statement, setOuter, get_modify]
  split <;> rfl

theorem outer_setOuter (hb : b.index < t.size) (o : Option BlockId) :
    (t.setOuter b o).outer x = if x = b then o else t.outer x := by
  rw [outer, setOuter, get_modify]
  by_cases h : x = b <;> simp [h, hb, outer]

@[simp] theorem jump_setOuter (o : Option BlockId) : (t.setOuter b o).jump x = t.jump x := by
  rw [jump, setOuter, get_modify]
  split <;> rfl

@[simp] theorem statement_setJump (j : Option JumpId) :
    (t.setJump b j).statement x = t.statement x := by
  rw [statement, setJump, get_modify]
  split <;> rfl

@[simp] theorem outer_setJump (j : Option JumpId) : (t.setJump b j).outer x = t.outer x := by
  rw [outer, setJump, get_modify]
  split <;> rfl

theorem jump_setJump (hb : b.index < t.size) (j : Option JumpId) :
    (t.setJump b j).jump x = if x = b then j else t.jump x := by
  rw [jump, setJump, get_modify]
  by_cases h : x = b <;> simp [h, hb, jump]

@[simp] theorem size_setStatement (s : Statement) : (t.setStatement b s).size = t.size :=
  size_modify ..

@[simp] theorem size_setOuter (o : Option BlockId) : (t.setOuter b o).size = t.size :=
  size_modify ..

@[simp] theorem size_setJump (j : Option JumpId) : (t.setJump b j).size = t.size :=
  size_modify ..

end Blocks

end Decompile
