import Decompile.Proofs.ConditionFolding
import Decompile.Proofs.Negation

/-!
The negation of a condition tests the opposite: it runs the same operands in the same order and goes
on to the right side of a connective just if the condition does. Operands are run by an arbitrary
evaluation, which is free to record which of them it is asked for.
-/

namespace Decompile

theorem CompareOp.holds_negate (op : CompareOp) {o : Option Ordering} (ho : o ≠ none) :
    op.negate.holds o = !op.holds o := by
  obtain ⟨o, rfl⟩ := Option.ne_none_iff_exists'.mp ho
  cases op <;> cases o <;> rfl

theorem LogicalOp.goesOn_dual (op : LogicalOp) (b : Bool) : op.dual.goesOn (!b) = op.goesOn b := by
  cases op <;> cases b <;> rfl

namespace Expressions

variable {V W C : Type} (m : Platform V W) (t : Expressions) (run : ExprId → Evaluation V W C V)

def testWithin : Nat → ExprId → Evaluation V W C Bool
  | 0, _ => Platform.stuck
  | n + 1, e =>
    match t.get e with
    | .compare op lhs rhs => do
      let v ← run lhs
      let w ← run rhs
      return op.holds (m.order v w)
    | .not value => do return !(← testWithin n value)
    | .logical op lhs rhs => do
      let b ← testWithin n lhs
      if op.goesOn b then testWithin n rhs else return b
    | .const (.bool b) => return b
    | _ => do return m.truth (← run e)

/-- Whether a condition holds. Its operands are the sides of its comparisons, and all that is
neither a comparison nor a truth value, a negation or a connective. -/
def test (e : ExprId) : Evaluation V W C Bool := testWithin m t run t.size e

def orderedWithin : Nat → ExprId → Store V W C → Prop
  | 0, _, _ => True
  | n + 1, e, s =>
    match t.get e with
    | .compare _ lhs rhs => ∀ v s', (run lhs).outcome s = some (.ok v, s') →
        ∀ w s'', (run rhs).outcome s' = some (.ok w, s'') → m.order v w ≠ none
    | .not value => orderedWithin n value s
    | .logical op lhs rhs => orderedWithin n lhs s ∧
        ∀ b s', (testWithin m t run n lhs).outcome s = some (.ok b, s') → op.goesOn b →
          orderedWithin n rhs s'
    | _ => True

/-- Where the condition is tested from the store, no operands are compared that are unordered. -/
def Ordered (e : ExprId) (s : Store V W C) : Prop := orderedWithin m t run t.size e s

variable {m t run} {t' : Expressions} {c c' e e' : ExprId} {n k : Nat}

theorem testWithin_mono (h : t.nestsWithin n e) (hnk : n ≤ k) :
    testWithin m t run k e = testWithin m t run n e := by
  induction n generalizing k e with
  | zero => simp [nestsWithin] at h
  | succ n ih =>
    obtain _ | k := k
    · omega
    have hchild : ∀ c ∈ (t.get e).children,
        testWithin m t run k c = testWithin m t run n c := fun c hc ↦
      ih (nestsWithin_child h hc) (by omega)
    rw [testWithin, testWithin]
    split
    next => rfl
    next value he => rw [hchild value (by simp [he, Expression.children])]
    next op lhs rhs he =>
      rw [hchild lhs (by simp [he, Expression.children]),
        hchild rhs (by simp [he, Expression.children])]
    next => rfl
    next => rfl

/-- The second condition has the free operands of the first and tests the opposite. -/
structure Opposes (m : Platform V W) (run : ExprId → Evaluation V W C V) (t : Expressions)
    (n k : Nat) (c c' : ExprId) : Prop where
  nests : t.nestsWithin k c'
  frees : t.freesWithin k c' = t.freesWithin n c
  test : ∀ s, orderedWithin m t run n c s →
    (testWithin m t run k c').outcome s =
      (testWithin m t run n c >>= fun b ↦ pure !b).outcome s

theorem opposes_of_not (hc : t.get c = .not c') (hn : t.nestsWithin n c) (hk : n ≤ k) :
    Opposes m run t n k c c' := by
  obtain _ | n := n
  · simp [nestsWithin] at hn
  have hn' := nestsWithin_child hn (c := c') (by simp [hc, Expression.children])
  refine ⟨nestsWithin_mono hn' (by omega), ?_, fun s _ ↦ ?_⟩
  · rw [freesWithin_succ (by rw [hc]; rfl), hc, freesWithin_mono hn' (by omega)]
    simp [Expression.children]
  · rw [testWithin_mono hn' (by omega), testWithin, hc]
    simp

theorem Negates.opposes (h : Negates t c c') (hn : t.nestsWithin n c) (hk : n < k) :
    Opposes m run t n k c c' := by
  induction h generalizing n k with
  | ofNot hc => exact opposes_of_not hc hn hk.le
  | @toNot c c' hc' =>
    obtain _ | k := k
    · omega
    refine ⟨?_, ?_, fun s _ ↦ ?_⟩
    · simpa [nestsWithin, hc', Expression.children] using nestsWithin_mono hn (by omega)
    · rw [freesWithin_succ (by rw [hc']; rfl), hc', ← freesWithin_mono hn (show n ≤ k by omega)]
      simp [Expression.children]
    · rw [testWithin, hc', ← testWithin_mono hn (show n ≤ k by omega)]
  | @compare c c' lhs rhs op hc hc' =>
    obtain _ | k := k
    · omega
    obtain _ | n := n
    · simp [nestsWithin] at hn
    simp only [nestsWithin, hc, Expression.children, List.all_eq_true] at hn
    refine ⟨?_, ?_, fun s hs ↦ ?_⟩
    · simp only [nestsWithin, hc', Expression.children, List.all_eq_true]
      exact fun d hd ↦ nestsWithin_mono (hn d hd) (by omega)
    · rw [freesWithin_succ (by rw [hc']; rfl), freesWithin_succ (by rw [hc]; rfl), hc, hc']
      exact List.flatMap_congr fun d hd ↦ freesWithin_mono (hn d hd) (by omega)
    · rw [testWithin, hc', testWithin, hc]
      rw [orderedWithin, hc] at hs
      simp only [bind_assoc, pure_bind]
      refine Platform.outcome_bind_congr fun v s' hv ↦ Platform.outcome_bind_congr fun w s'' hw ↦ ?_
      rw [CompareOp.holds_negate op (hs v s' hv w s'' hw)]
  | @logical c c' lhs rhs lhs' rhs' op hc hc' _ _ ihl ihr =>
    obtain _ | k := k
    · omega
    obtain _ | n := n
    · simp [nestsWithin] at hn
    have hkn : n < k := Nat.lt_of_succ_lt_succ hk
    have hl := ihl (nestsWithin_child hn (by simp [hc, Expression.children])) hkn
    have hr := ihr (nestsWithin_child hn (by simp [hc, Expression.children])) hkn
    refine ⟨?_, ?_, fun s hs ↦ ?_⟩
    · simp [nestsWithin, hc', Expression.children, hl.nests, hr.nests]
    · rw [freesWithin_succ (by rw [hc']; rfl), freesWithin_succ (by rw [hc]; rfl), hc, hc']
      simp [Expression.children, hl.frees, hr.frees]
    · rw [testWithin, hc', testWithin, hc]
      rw [orderedWithin, hc] at hs
      rw [Evaluation.outcome_bind, hl.test s hs.1, ← Evaluation.outcome_bind]
      simp only [bind_assoc, pure_bind]
      refine Platform.outcome_bind_congr fun b s' hb ↦ ?_
      rw [LogicalOp.goesOn_dual]
      split
      next hon => exact hr.test s' (hs.2 b s' hb hon)
      next => rfl
  | const hc hc' =>
    obtain _ | k := k
    · omega
    obtain _ | n := n
    · simp [nestsWithin] at hn
    refine ⟨by simp [nestsWithin, hc', Expression.children], ?_, fun s _ ↦ ?_⟩
    · rw [freesWithin_succ (by rw [hc']; rfl), freesWithin_succ (by rw [hc]; rfl), hc, hc']
      rfl
    · rw [testWithin, hc', testWithin, hc]
      rfl

theorem size_lt_negateWithin (n : Nat) (e : ExprId) (t : Expressions) :
    t.size < (negateWithin n e t).1.size ∨ t.get e = .not (negateWithin n e t).2 := by
  obtain _ | n := n
  · exact .inl (by simp [negateWithin])
  rw [negateWithin]
  split
  case h_2 value he => exact .inr he
  case h_3 op lhs rhs _ =>
    have hl := (negateWithin_spec n lhs t).1.size_le
    have hr := (negateWithin_spec n rhs (negateWithin n lhs t).1).1.size_le
    exact .inl (by simp; omega)
  all_goals exact .inl (by simp)

section Truth

variable [DecidableEq C]

theorem truth_evalWithin {cell : LocalId → C} {operand : ExprId → V} (hm : m.Lawful)
    (h : t.nestsWithin n e) (h' : t.nestsWithin t.size e) :
    (evalWithin m t cell operand n e >>= fun v ↦ pure (m.truth v)) =
      testWithin m t (t.eval m cell operand) n e := by
  induction n generalizing e with
  | zero => rfl
  | succ n ih =>
    have hchild : ∀ c ∈ (t.get e).children, t.nestsWithin n c ∧ t.nestsWithin t.size c :=
      fun c hc ↦ ⟨nestsWithin_child h hc, nests_of_child h' hc⟩
    rw [testWithin]
    split
    next op lhs rhs he =>
      have hl := hchild lhs (by simp [he, Expression.children])
      have hr := hchild rhs (by simp [he, Expression.children])
      rw [evalWithin, he, evalNode_compare, evalWithin_eq_eval hl.1 hl.2,
        evalWithin_eq_eval hr.1 hr.2]
      simp [hm.truth_ofBool]
    next value he =>
      have hv := hchild value (by simp [he, Expression.children])
      rw [evalWithin, he, evalNode_not, ← ih hv.1 hv.2]
      simp [hm.truth_ofBool]
    next op lhs rhs he =>
      have hl := hchild lhs (by simp [he, Expression.children])
      have hr := hchild rhs (by simp [he, Expression.children])
      rw [evalWithin, he, evalNode, ← ih hl.1 hl.2, ← ih hr.1 hr.2]
      simp only [bind_assoc, pure_bind]
      congr 1
      funext v
      split <;> simp [hm.truth_ofBool]
    next b he =>
      rw [evalWithin, he, evalNode_const, hm.constant_bool]
      simp [hm.truth_ofBool]
    next => rw [evalWithin_eq_eval h h']

/-- The negation of a condition comes of new nodes alone, takes the same operands from the stack,
and its test is the opposite of the condition's, whatever its operands do: in particular, so is its
truth. -/
theorem negate_opposes (hm : m.Lawful) (hn : t.nestsWithin t.size e)
    (hin : ∀ f ∈ t.preorder e, f.index < t.size) (ht : t.negate e = (t', e')) :
    Extends t t' ∧ t'.freeOperands e' = t.freeOperands e ∧
      (∀ (run : ExprId → Evaluation V W C V) s, t'.Ordered m run e s →
        (t'.test m run e').outcome s = (t'.test m run e >>= fun b ↦ pure !b).outcome s) ∧
      ∀ (cell : LocalId → C) operand, t'.eval m cell operand e = t.eval m cell operand e ∧
        ∀ s, t'.Ordered m (t'.eval m cell operand) e s →
          (t'.eval m cell operand e' >>= fun v ↦ pure (m.truth v)).outcome s =
            (t'.eval m cell operand e >>= fun v ↦ pure !m.truth v).outcome s := by
  have hx := extends_negate t e
  have hneg := negates_negate t e
  have hsize := size_lt_negateWithin t.size e t
  rw [ht] at hx hneg
  rw [show negateWithin t.size e t = (t', e') from ht] at hsize
  have hget : ∀ f ∈ t.preorder e, t'.get f = t.get f := fun f hf ↦ hx.get f (hin f hf)
  have hn₁ : t'.nestsWithin t.size e := nestsWithin_congr hn hget
  have hn₂ := nestsWithin_mono hn₁ hx.size_le
  have hop : Opposes m (fun _ ↦ (Platform.stuck : Evaluation V W C V)) t' t.size t'.size e e' := by
    rcases hsize with hlt | hnot
    · exact hneg.opposes hn₁ hlt
    · exact opposes_of_not (hx.get_eq hnot (by simp)) hn₁ hx.size_le
  have htest (run : ExprId → Evaluation V W C V) s (hs : t'.Ordered m run e s) :
      (t'.test m run e').outcome s = (t'.test m run e >>= fun b ↦ pure !b).outcome s := by
    rw [test, ← testWithin_mono hop.nests (Nat.le_succ _)]
    exact (hneg.opposes hn₂ (Nat.lt_succ_self _)).test s hs
  refine ⟨hx, ?_, htest, fun cell operand ↦ ⟨?_, fun s hs ↦ ?_⟩⟩
  · rw [← freeOperands_congr hn hx.size_le hget]
    exact hop.frees.trans (freesWithin_mono hn₁ hx.size_le).symm
  · exact evalWithin_congr hn hx.size_le hget fun _ _ _ ↦ rfl
  · have h := htest _ s hs
    rw [test, test, ← truth_evalWithin hm hop.nests hop.nests, ← truth_evalWithin hm hn₂ hn₂] at h
    simp only [bind_assoc, pure_bind] at h
    exact h

/-- The test whether one local is less than another and a third one is zero. -/
def lessAndZero : Expressions :=
  ⟨⟨#[.var ⟨0⟩, .var ⟨1⟩, .compare .lt ⟨0⟩ ⟨1⟩, .var ⟨2⟩, .not ⟨3⟩, .logical .and ⟨2⟩ ⟨4⟩]⟩⟩

theorem negate_opposes_lessAndZero :
    let t' := (lessAndZero.negate ⟨5⟩).1
    let s : Store (Option Int) (MemberRef → Option Int) LocalId :=
      ⟨fun x ↦ some x.index, fun _ ↦ none⟩
    t'.get ⟨7⟩ = .logical .or ⟨6⟩ ⟨3⟩ ∧ Extends lessAndZero t' ∧
      (t'.eval truths id (fun _ ↦ none) ⟨7⟩ >>= fun v ↦ pure (truths.truth v)).outcome s =
        some (.ok true, s) := by
  intro t' s
  obtain ⟨hx, -, -, h⟩ := negate_opposes (e := ⟨5⟩) (C := LocalId) truths_lawful
    (by decide +kernel : lessAndZero.nestsWithin lessAndZero.size ⟨5⟩) (by decide +kernel)
    (show _ = (t', ⟨7⟩) from rfl)
  refine ⟨by decide +kernel, hx, ((h id fun _ ↦ none).2 s ⟨?_, fun b s' _ _ ↦ trivial⟩).trans rfl⟩
  intro v s₁ hv w s₂ hw hnone
  cases hv
  cases hw
  cases hnone

end Truth

end Expressions

end Decompile
