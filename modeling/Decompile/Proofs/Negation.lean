import Decompile.Expression.Condition
import Mathlib.Algebra.Order.Group.Nat

namespace Decompile.Expressions

variable {t t' t'' : Expressions} {c c' e : ExprId}

/-- New nodes have come, and the old ones are as they were. -/
structure Extends (t t' : Expressions) : Prop where
  size_le : t.size ≤ t'.size
  get : ∀ e, e.index < t.size → t'.get e = t.get e

theorem Extends.refl (t : Expressions) : Extends t t := ⟨le_rfl, fun _ _ ↦ rfl⟩

theorem Extends.of_eq (h : t' = t) : Extends t t' := h ▸ .refl t

theorem Extends.trans (h : Extends t t') (h' : Extends t' t'') : Extends t t'' :=
  ⟨h.size_le.trans h'.size_le, fun e he ↦
    (h'.get e (he.trans_le h.size_le)).trans (h.get e he)⟩

theorem extends_alloc (t : Expressions) (x : Expression) : Extends t (t.alloc x).1 := by
  refine ⟨by simp [alloc, size], fun e he ↦ ?_⟩
  rw [get, alloc, Table.get_push, if_neg (show e.index ≠ t.nodes.size from he.ne)]
  rfl

@[simp] theorem get_alloc_self (t : Expressions) (x : Expression) :
    (t.alloc x).1.get (t.alloc x).2 = x := by
  simp [get, alloc, Table.get_push, size]

theorem lt_size_of_get (h : t.get e ≠ default) : e.index < t.size := by
  by_contra hlt
  exact h (Table.get_of_size_le _ (Nat.le_of_not_lt hlt))

theorem Extends.get_eq (h : Extends t t') {x : Expression} (he : t.get e = x)
    (hx : x ≠ default) : t'.get e = x := by
  subst he
  exact h.get e (lt_size_of_get hx)

/-- One condition is the negation of the other. -/
inductive Negates (t : Expressions) : ExprId → ExprId → Prop
  | compare {c c' lhs rhs : ExprId} {op : CompareOp} :
    t.get c = .compare op lhs rhs → t.get c' = .compare op.negate lhs rhs → Negates t c c'
  | ofNot {c c' : ExprId} : t.get c = .not c' → Negates t c c'
  | toNot {c c' : ExprId} : t.get c' = .not c → Negates t c c'
  | logical {c c' lhs rhs lhs' rhs' : ExprId} {op : LogicalOp} :
    t.get c = .logical op lhs rhs → t.get c' = .logical op.dual lhs' rhs' →
    Negates t lhs lhs' → Negates t rhs rhs' → Negates t c c'
  | const {c c' : ExprId} {value : Bool} :
    t.get c = .const (.bool value) → t.get c' = .const (.bool !value) → Negates t c c'

theorem Negates.mono (h : Negates t c c') (ht : Extends t t') : Negates t' c c' := by
  have hne : ∀ {x : Expression}, (∀ w, x ≠ .free w) → x ≠ default := fun hx ↦ hx 0
  induction h with
  | compare h₁ h₂ =>
    exact .compare (ht.get_eq h₁ (hne (by simp))) (ht.get_eq h₂ (hne (by simp)))
  | ofNot h => exact .ofNot (ht.get_eq h (hne (by simp)))
  | toNot h => exact .toNot (ht.get_eq h (hne (by simp)))
  | logical h₁ h₂ _ _ ih₁ ih₂ =>
    exact .logical (ht.get_eq h₁ (hne (by simp))) (ht.get_eq h₂ (hne (by simp))) ih₁ ih₂
  | const h₁ h₂ => exact .const (ht.get_eq h₁ (hne (by simp))) (ht.get_eq h₂ (hne (by simp)))

theorem negateWithin_spec (n : Nat) (e : ExprId) (t : Expressions) :
    Extends t (negateWithin n e t).1 ∧ Negates (negateWithin n e t).1 e (negateWithin n e t).2 := by
  induction n generalizing e t with
  | zero => exact ⟨extends_alloc .., .toNot (get_alloc_self ..)⟩
  | succ n ih =>
    have hne : ∀ {x : Expression}, (∀ w, x ≠ .free w) → x ≠ default := fun hx ↦ hx 0
    rw [negateWithin]
    split
    next op lhs rhs h =>
      have hx := extends_alloc t (.compare op.negate lhs rhs)
      exact ⟨hx, .compare (hx.get_eq h (hne (by simp))) (get_alloc_self ..)⟩
    next value h => exact ⟨.refl t, .ofNot h⟩
    next op lhs rhs h =>
      obtain ⟨hx₁, hn₁⟩ := ih lhs t
      obtain ⟨hx₂, hn₂⟩ := ih rhs (negateWithin n lhs t).1
      dsimp only
      generalize negateWithin n lhs t = r₁ at *
      generalize negateWithin n rhs r₁.1 = r₂ at *
      have hx₃ := extends_alloc r₂.1 (.logical op.dual r₁.2 r₂.2)
      refine ⟨(hx₁.trans hx₂).trans hx₃, .logical ?_ (get_alloc_self ..)
        (hn₁.mono (hx₂.trans hx₃)) (hn₂.mono hx₃)⟩
      exact ((hx₁.trans hx₂).trans hx₃).get_eq h (hne (by simp))
    next value h =>
      have hx := extends_alloc t (.const (.bool !value))
      exact ⟨hx, .const (hx.get_eq h (hne (by simp))) (get_alloc_self ..)⟩
    next => exact ⟨extends_alloc .., .toNot (get_alloc_self ..)⟩

theorem extends_negate (t : Expressions) (e : ExprId) : Extends t (t.negate e).1 :=
  (negateWithin_spec ..).1

theorem negates_negate (t : Expressions) (e : ExprId) : Negates (t.negate e).1 e (t.negate e).2 :=
  (negateWithin_spec ..).2

end Decompile.Expressions
