import Decompile.Expression.Condition

namespace Decompile.Expressions

variable {t t' : Expressions} {e f : ExprId} {n m : Nat}

theorem get_set (t : Expressions) (e : ExprId) (x : Expression) (f : ExprId) :
    (t.set e x).get f = if e = f ∧ f.index < t.size then x else t.get f := by
  cases e
  cases f
  simp [get, set, size, Table.get_set]

@[simp] theorem size_set (t : Expressions) (e : ExprId) (x : Expression) :
    (t.set e x).size = t.size := by
  simp [size, set]

theorem get_alloc (t : Expressions) (x : Expression) (f : ExprId) :
    (t.alloc x).1.get f = if f.index = t.size then x else t.get f :=
  t.nodes.get_push x f.index

@[simp] theorem size_alloc (t : Expressions) (x : Expression) : (t.alloc x).1.size = t.size + 1 := by
  simp [size, alloc]

/-- No path down from `e` is longer than `n` nodes. -/
def nestsWithin (t : Expressions) : Nat → ExprId → Bool
  | 0, _ => false
  | n + 1, e => (t.get e).children.all (t.nestsWithin n)

theorem mem_preorderWithin_self (t : Expressions) (n : Nat) (e : ExprId) :
    e ∈ t.preorderWithin (n + 1) e := by
  simp [preorderWithin]

theorem preorderWithin_congr (h : t.nestsWithin n e) (hnm : n ≤ m)
    (hget : ∀ f ∈ t.preorderWithin n e, (t'.get f).children = (t.get f).children) :
    t'.preorderWithin m e = t.preorderWithin n e := by
  induction n generalizing m e with
  | zero => simp [nestsWithin] at h
  | succ n ih =>
    obtain ⟨m, rfl⟩ : ∃ k, m = k + 1 := ⟨m - 1, by omega⟩
    simp only [nestsWithin, List.all_eq_true] at h
    simp only [preorderWithin, List.mem_cons, List.mem_flatMap, forall_eq_or_imp,
      forall_exists_index, and_imp] at hget ⊢
    obtain ⟨hself, hbelow⟩ := hget
    rw [hself]
    have hchildren : ∀ c ∈ (t.get e).children,
        t'.preorderWithin m c = t.preorderWithin n c := fun c hc ↦
      ih (h c hc) (by omega) fun f hf ↦ hbelow f c hc hf
    rw [List.flatMap_def, List.flatMap_def, List.map_congr_left hchildren]

theorem freeOperands_congr (h : t.nestsWithin t.size e) (hsize : t.size ≤ t'.size)
    (hget : ∀ f ∈ t.preorder e, t'.get f = t.get f) : t'.freeOperands e = t.freeOperands e := by
  unfold freeOperands preorder
  rw [preorderWithin_congr h hsize fun f hf ↦ by rw [hget f hf]]
  exact List.filter_congr fun f hf ↦ by rw [hget f hf]

theorem mem_freeOperands : f ∈ t.freeOperands e ↔ f ∈ t.preorder e ∧ (t.get f).isFree := by
  simp [freeOperands]

end Decompile.Expressions
