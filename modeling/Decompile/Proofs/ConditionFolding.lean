import Decompile.Proofs.FoldEvaluation

/-!
Folding tests against zero keeps the value and the effects of an expression, as long as unordered
values pass each folded test just if the sign that stands for them does.
-/

namespace Decompile

namespace CompareOp

/-- The sign that stands for unordered values passes the test just if unordered values themselves
pass it. -/
def matchesUnordered (op : CompareOp) (nanGreater : Bool) : Bool :=
  op.holds (some (if nanGreater then .gt else .lt)) == op.holds none

theorem holds_sign {op : CompareOp} {o : Option Ordering} {nanGreater : Bool}
    (h : o = none → op.matchesUnordered nanGreater) :
    op.holds (some (o.getD (if nanGreater then .gt else .lt))) = op.holds o := by
  cases o with
  | none => exact beq_iff_eq.mp (h rfl)
  | some o => rfl

end CompareOp

namespace Platform

variable {V W C : Type}

/-- Truth values and signs compare with zero as numbers do, and a type test yields a truth value. -/
structure Lawful (m : Platform V W) : Prop where
  order_ofOrdering : ∀ o, m.order (m.ofOrdering o) (m.constant (.int 0)) = some o
  order_ofBool : ∀ b, m.order (m.ofBool b) (m.constant (.int 0)) = some (if b then .gt else .eq)
  truth_ofBool : ∀ b, m.truth (m.ofBool b) = b
  constant_bool : ∀ b, m.constant (.bool b) = m.ofBool b
  instanceOf : ∀ v type w, ∃ b, (m.answer (.instanceOf v type) w).1 = .ok (m.ofBool b)

/-- The evaluation ends with a truth value if it ends with a value. -/
def YieldsBool (m : Platform V W) (x : Evaluation V W C V) : Prop :=
  ∀ s v s', x.outcome s = some (.ok v, s') → ∃ b, v = m.ofBool b

variable {m : Platform V W} {x : Evaluation V W C V}

theorem yieldsBool_ofBool (b : Bool) : m.YieldsBool (pure (m.ofBool b) : Evaluation V W C V) := by
  intro s v s' h
  rw [Evaluation.outcome_pure] at h
  cases h
  exact ⟨b, rfl⟩

theorem yieldsBool_bind {α : Type} {y : Evaluation V W C α} {k : α → Evaluation V W C V}
    (h : ∀ v, m.YieldsBool (k v)) : m.YieldsBool (y >>= k) := by
  intro s v s' hv
  rw [Evaluation.outcome_bind, Option.bind_eq_some_iff] at hv
  obtain ⟨⟨r, s₁⟩, -, hv⟩ := hv
  cases r with
  | error fault => cases hv
  | ok u => exact h u s₁ v s' hv

/-- Two ways to go on from an evaluation come to the same if they do so on the value that it
yields. -/
theorem outcome_bind_congr {α β : Type} {y : Evaluation V W C α} {k k' : α → Evaluation V W C β}
    {s : Store V W C}
    (h : ∀ v s', y.outcome s = some (.ok v, s') → (k v).outcome s' = (k' v).outcome s') :
    (y >>= k).outcome s = (y >>= k').outcome s := by
  rw [Evaluation.outcome_bind, Evaluation.outcome_bind]
  cases hy : y.outcome s with
  | none => rfl
  | some r =>
    obtain ⟨r, s'⟩ := r
    cases r with
    | error fault => rfl
    | ok v => exact h v s' hy

theorem YieldsBool.ne_zero (hm : m.Lawful) (hx : m.YieldsBool x) :
    (x >>= fun v ↦ pure (m.ofBool (CompareOp.ne.holds (m.order v (m.constant (.int 0)))))) = x := by
  refine Eq.trans ?_ (bind_pure x)
  refine Evaluation.ext fun s ↦ outcome_bind_congr fun v s' h ↦ ?_
  obtain ⟨b, rfl⟩ := hx s v s' h
  rw [hm.order_ofBool]
  cases b <;> rfl

theorem YieldsBool.eq_zero (hm : m.Lawful) (hx : m.YieldsBool x) :
    (x >>= fun v ↦ pure (m.ofBool (CompareOp.eq.holds (m.order v (m.constant (.int 0)))))) =
      x >>= fun v ↦ pure (m.ofBool !m.truth v) := by
  refine Evaluation.ext fun s ↦ outcome_bind_congr fun v s' h ↦ ?_
  obtain ⟨b, rfl⟩ := hx s v s' h
  rw [hm.order_ofBool, hm.truth_ofBool]
  cases b <;> rfl

end Platform

namespace Expressions

variable {V W C : Type} [DecidableEq C] {m : Platform V W} {t t' : Expressions}
  {cell : LocalId → C} {operand : ExprId → V} {eval : ExprId → Evaluation V W C V}
  {e lhs rhs : ExprId} {op : CompareOp} {n : Nat}

section Nodes

theorem evalNode_compare : evalNode m t cell operand eval e (.compare op lhs rhs) =
    eval lhs >>= fun v ↦ eval rhs >>= fun w ↦ pure (m.ofBool (op.holds (m.order v w))) := by
  simp [evalNode, Expression.children, Platform.operate]

theorem evalNode_threeWay {nanGreater : Bool} :
    evalNode m t cell operand eval e (.threeWay lhs rhs nanGreater) =
      eval lhs >>= fun v ↦ eval rhs >>= fun w ↦
        pure (m.ofOrdering ((m.order v w).getD (if nanGreater then .gt else .lt))) := by
  simp [evalNode, Expression.children, Platform.operate]

theorem evalNode_not : evalNode m t cell operand eval e (.not lhs) =
    eval lhs >>= fun v ↦ pure (m.ofBool !m.truth v) := by
  simp [evalNode, Expression.children, Platform.operate]

theorem evalNode_const (c : Constant) :
    evalNode m t cell operand eval e (.const c) = pure (m.constant c) := by
  simp [evalNode, Expression.children, Platform.operate]

theorem yieldsBool_evalNode (hm : m.Lawful) {x : Expression} (hx : x.isBoolean) :
    m.YieldsBool (evalNode m t cell operand eval e x) := by
  cases x with
  | compare op lhs rhs =>
    rw [evalNode_compare]
    exact Platform.yieldsBool_bind fun v ↦ Platform.yieldsBool_bind fun w ↦
      Platform.yieldsBool_ofBool _
  | logical op lhs rhs =>
    rw [evalNode]
    refine Platform.yieldsBool_bind fun v ↦ ?_
    split
    · exact Platform.yieldsBool_bind fun w ↦ Platform.yieldsBool_ofBool _
    · exact Platform.yieldsBool_ofBool _
  | not value =>
    rw [evalNode_not]
    exact Platform.yieldsBool_bind fun v ↦ Platform.yieldsBool_ofBool _
  | const c =>
    cases c with
    | bool b =>
      rw [evalNode_const, hm.constant_bool]
      exact Platform.yieldsBool_ofBool b
    | _ => cases hx
  | instanceOf object type =>
    simp only [evalNode, Expression.children, List.mapM_cons, List.mapM_nil, bind_assoc, pure_bind]
    refine Platform.yieldsBool_bind fun v s r s' h ↦ ?_
    obtain ⟨b, hb⟩ := hm.instanceOf v type s.world
    have hr : (m.answer (.instanceOf v type) s.world).1 = .ok r :=
      (Prod.mk.inj (Option.some.inj h)).1
    exact ⟨b, Except.ok.inj (hr.symm.trans hb)⟩
  | _ => cases hx

end Nodes

section Exchange

/-- A node that may take the place of `e`: its operands are nested below `e`, neither of the two
names a place, and both do the same. -/
structure StandsFor (m : Platform V W) (cell : LocalId → C) (operand : ExprId → V) (t : Expressions)
    (e : ExprId) (x : Expression) : Prop where
  nests : ∀ {n}, t.nestsWithin (n + 1) e → ∀ c ∈ x.children, t.nestsWithin n c
  locate_new : ∀ eval : ExprId → Evaluation V W C V, locate cell eval x = Platform.stuck
  locate_old : ∀ eval : ExprId → Evaluation V W C V, locate cell eval (t.get e) = Platform.stuck
  evalNode_eq : ∀ {n}, t.nestsWithin (n + 1) e →
    evalNode m t cell operand (evalWithin m t cell operand n) e x =
      evalNode m t cell operand (evalWithin m t cell operand n) e (t.get e)

variable {x : Expression}

theorem get_set_cases (t : Expressions) (e : ExprId) (x : Expression) (f : ExprId) :
    (t.set e x).get f = t.get f ∨ f = e ∧ (t.set e x).get f = x := by
  rw [get_set]
  split
  next h => exact .inr ⟨h.1.symm, rfl⟩
  next => exact .inl rfl

theorem StandsFor.evalWithin_set (h : StandsFor m cell operand t e x) {f : ExprId}
    (hf : t.nestsWithin n f) : (t.set e x).nestsWithin n f ∧
      evalWithin m (t.set e x) cell operand n f = evalWithin m t cell operand n f := by
  induction n generalizing f with
  | zero => simp [nestsWithin] at hf
  | succ n ih =>
    have hplace : ∀ c, t.nestsWithin n c →
        locate cell (evalWithin m (t.set e x) cell operand n) ((t.set e x).get c) =
          locate cell (evalWithin m t cell operand n) (t.get c) := by
      intro c hc
      rcases get_set_cases t e x c with hget | ⟨rfl, hget⟩
      · rw [hget]
        refine locate_congr fun d hd ↦ (ih ?_).2
        obtain _ | k := n
        · simp [nestsWithin] at hc
        · exact nestsWithin_mono (nestsWithin_child hc hd) (Nat.le_succ k)
      · rw [hget, h.locate_new, h.locate_old]
    rw [evalWithin_succ, evalWithin_succ]
    simp only [nestsWithin, List.all_eq_true]
    rcases get_set_cases t e x f with hget | ⟨rfl, hget⟩
    · have hchild : ∀ c ∈ (t.get f).children, t.nestsWithin n c :=
        fun c hc ↦ nestsWithin_child hf hc
      rw [hget]
      exact ⟨fun c hc ↦ (ih (hchild c hc)).1, evalNode_congr (fun _ ↦ rfl)
        (fun c hc ↦ (ih (hchild c hc)).2) fun c hc ↦ hplace c (hchild c hc)⟩
    · have hchild := h.nests hf
      rw [hget, ← h.evalNode_eq hf]
      exact ⟨fun c hc ↦ (ih (hchild c hc)).1, evalNode_congr (fun _ ↦ rfl)
        (fun c hc ↦ (ih (hchild c hc)).2) fun c hc ↦ hplace c (hchild c hc)⟩

end Exchange

section Folding

/-- The test of a three-way comparison against zero, if `e` is one, is passed by unordered values
just if their sign passes it, unless the two values are never unordered. -/
def Settles (m : Platform V W) (cell : LocalId → C) (operand : ExprId → V) (t : Expressions)
    (e : ExprId) : Prop :=
  ∀ ⦃op lhs rhs a b nanGreater⦄, t.get e = .compare op lhs rhs →
    t.get lhs = .threeWay a b nanGreater → t.get rhs = .const (.int 0) →
    op.matchesUnordered nanGreater ∨ ∀ ⦃s v s' w s''⦄,
      (t.eval m cell operand a).outcome s = some (.ok v, s') →
      (t.eval m cell operand b).outcome s' = some (.ok w, s'') → m.order v w ≠ none

theorem evalWithin_eq_eval (h : t.nestsWithin n e) (h' : t.nestsWithin t.size e) :
    evalWithin m t cell operand n e = t.eval m cell operand e := by
  have hn : evalWithin m t cell operand (max n t.size) e = evalWithin m t cell operand n e :=
    evalWithin_congr h (Nat.le_max_left _ _) (fun _ _ ↦ rfl) fun _ _ _ ↦ rfl
  rw [← hn]
  exact evalWithin_congr h' (Nat.le_max_right _ _) (fun _ _ ↦ rfl) fun _ _ _ ↦ rfl

theorem nests_of_child {c : ExprId} (h : t.nestsWithin n e) (hc : c ∈ (t.get e).children) :
    t.nestsWithin n c := by
  obtain _ | k := n
  · simp [nestsWithin] at h
  · exact nestsWithin_mono (nestsWithin_child h hc) (Nat.le_succ k)

theorem standsFor_sign (hm : m.Lawful) {a b : ExprId} {nanGreater : Bool}
    (hn : t.nestsWithin t.size e) (h : t.Settles m cell operand e)
    (he : t.get e = .compare op lhs rhs) (hl : t.get lhs = .threeWay a b nanGreater)
    (hr : t.get rhs = .const (.int 0)) : StandsFor m cell operand t e (.compare op a b) := by
  have hlhs : lhs ∈ (t.get e).children := by simp [he, Expression.children]
  have hrhs : rhs ∈ (t.get e).children := by simp [he, Expression.children]
  have ha : a ∈ (t.get lhs).children := by simp [hl, Expression.children]
  have hb : b ∈ (t.get lhs).children := by simp [hl, Expression.children]
  have hbelow {n : Nat} {c : ExprId} (hc : c ∈ (t.get lhs).children)
      (hne : t.nestsWithin (n + 1) e) :
      ∃ k, n = k + 1 ∧ t.nestsWithin k c := by
    obtain _ | k := n
    · exact absurd (nestsWithin_child hne hlhs) (by simp [nestsWithin])
    · exact ⟨k, rfl, nestsWithin_child (nestsWithin_child hne hlhs) hc⟩
  refine ⟨fun hne c hc ↦ ?_, fun _ ↦ rfl, fun _ ↦ by rw [he]; rfl, fun hne ↦ ?_⟩
  · obtain ⟨k, rfl, hk⟩ := hbelow (by simpa [hl, Expression.children] using hc) hne
    exact nestsWithin_mono hk (Nat.le_succ k)
  · obtain ⟨k, rfl, hka⟩ := hbelow ha hne
    have hkb : t.nestsWithin k b := nestsWithin_child (nestsWithin_child hne hlhs) hb
    have hna : t.nestsWithin t.size a := nests_of_child (nests_of_child hn hlhs) ha
    have hnb : t.nestsWithin t.size b := nests_of_child (nests_of_child hn hlhs) hb
    rw [he, evalNode_compare, evalNode_compare, evalWithin_succ m t cell operand k lhs,
      evalWithin_succ m t cell operand k rhs, hl, hr, evalNode_threeWay, evalNode_const,
      evalWithin_eq_eval (nestsWithin_mono hka (Nat.le_succ k)) hna,
      evalWithin_eq_eval (nestsWithin_mono hkb (Nat.le_succ k)) hnb, evalWithin_eq_eval hka hna,
      evalWithin_eq_eval hkb hnb]
    simp only [bind_assoc, pure_bind, hm.order_ofOrdering]
    refine Evaluation.ext fun s ↦ Platform.outcome_bind_congr fun v s₁ hv ↦
      Platform.outcome_bind_congr fun w s₂ hw ↦ ?_
    have hsign : m.order v w = none → op.matchesUnordered nanGreater := by
      intro hnone
      rcases h he hl hr with hop | hordered
      · exact hop
      · exact absurd hnone (hordered hv hw)
    rw [CompareOp.holds_sign hsign]

/-- What a boolean that is compared with zero stands for. -/
theorem standsFor_boolean (hm : m.Lawful) (he : t.get e = .compare op lhs rhs)
    (hl : (t.get lhs).isBoolean) (hr : t.get rhs = .const (.int 0)) :
    (op = .ne → StandsFor m cell operand t e (t.get lhs)) ∧
      (op = .eq → StandsFor m cell operand t e (.not lhs)) := by
  have hlhs : lhs ∈ (t.get e).children := by simp [he, Expression.children]
  have hold : ∀ eval : ExprId → Evaluation V W C V,
      locate cell eval (t.get e) = Platform.stuck := by
    intro eval
    rw [he]
    rfl
  have hbool {k : Nat} : m.YieldsBool (evalWithin m t cell operand (k + 1) lhs) := by
    rw [evalWithin_succ]
    exact yieldsBool_evalNode hm hl
  have hsucc {n : Nat} (hne : t.nestsWithin (n + 1) e) : ∃ k, n = k + 1 := by
    obtain _ | k := n
    · exact absurd (nestsWithin_child hne hlhs) (by simp [nestsWithin])
    · exact ⟨k, rfl⟩
  have hrhs {k : Nat} : evalWithin m t cell operand (k + 1) rhs = pure (m.constant (.int 0)) := by
    rw [evalWithin_succ, hr, evalNode_const]
  constructor
  · rintro rfl
    refine ⟨fun hne c hc ↦ ?_, fun eval ↦ ?_, hold, fun hne ↦ ?_⟩
    · exact nests_of_child (nestsWithin_child hne hlhs) hc
    · cases hx : t.get lhs <;> simp [hx, Expression.isBoolean] at hl <;> rfl
    · obtain ⟨k, rfl⟩ := hsucc hne
      rw [he, evalNode_compare, hrhs]
      simp only [pure_bind]
      rw [Platform.YieldsBool.ne_zero hm hbool, evalWithin_succ]
      have hdeep {c : ExprId} (hc : t.nestsWithin k c) :
          evalWithin m t cell operand (k + 1) c = evalWithin m t cell operand k c :=
        evalWithin_congr hc (Nat.le_succ k) (fun _ _ ↦ rfl) fun _ _ _ ↦ rfl
      have hchild : ∀ c ∈ (t.get lhs).children, t.nestsWithin k c := fun c hc ↦
        nestsWithin_child (nestsWithin_child hne hlhs) hc
      refine evalNode_congr (fun hfree ↦ ?_) (fun c hc ↦ hdeep (hchild c hc)) fun c hc ↦
        locate_congr fun d hd ↦ hdeep (nests_of_child (hchild c hc) hd)
      cases hx : t.get lhs <;> simp [hx, Expression.isBoolean, Expression.isFree] at hl hfree
  · rintro rfl
    refine ⟨fun hne c hc ↦ ?_, fun _ ↦ rfl, hold, fun hne ↦ ?_⟩
    · obtain rfl : c = lhs := by simpa [Expression.children] using hc
      exact nestsWithin_child hne hlhs
    · obtain ⟨k, rfl⟩ := hsucc hne
      rw [he, evalNode_compare, evalNode_not, hrhs]
      simp only [pure_bind]
      rw [Platform.YieldsBool.eq_zero hm hbool]

theorem foldZeroTest_cases (t : Expressions) (e : ExprId) : t.foldZeroTest e = t ∨
    ∃ op lhs rhs, t.get e = .compare op lhs rhs ∧ t.get rhs = .const (.int 0) ∧
      ((∃ a b nanGreater, t.get lhs = .threeWay a b nanGreater ∧
          t.foldZeroTest e = t.set e (.compare op a b)) ∨
        ((t.get lhs).isBoolean ∧ op = .ne ∧ t.foldZeroTest e = t.set e (t.get lhs)) ∨
        ((t.get lhs).isBoolean ∧ op = .eq ∧ t.foldZeroTest e = t.set e (.not lhs))) := by
  unfold foldZeroTest
  split
  next op lhs rhs he =>
    split
    next hr =>
      split
      next a b g hl => exact .inr ⟨op, lhs, rhs, he, hr, .inl ⟨a, b, g, hl, rfl⟩⟩
      next =>
        split
        next h =>
          simp only [Bool.and_eq_true, beq_iff_eq] at h
          exact .inr ⟨op, lhs, rhs, he, hr, .inr (.inl ⟨h.1, h.2, rfl⟩)⟩
        next =>
          split
          next h =>
            simp only [Bool.and_eq_true, beq_iff_eq] at h
            exact .inr ⟨op, lhs, rhs, he, hr, .inr (.inr ⟨h.1, h.2, rfl⟩)⟩
          next => exact .inl rfl
    next => exact .inl rfl
  next => exact .inl rfl

/-- What folding some of the nodes comes to: nothing evaluates differently, and no node has become a
three-way comparison or a number. -/
structure Simplified (m : Platform V W) (cell : LocalId → C) (operand : ExprId → V)
    (t t' : Expressions) (folded : List ExprId) : Prop where
  size_eq : t'.size = t.size
  get_eq : ∀ {f}, f ∉ folded → t'.get f = t.get f
  sign : ∀ {f a b nanGreater}, t'.get f = .threeWay a b nanGreater →
    t.get f = .threeWay a b nanGreater
  number : ∀ {f k}, t'.get f = .const (.int k) → t.get f = .const (.int k)
  evalWithin_eq : ∀ {n f}, t.nestsWithin n f → t'.nestsWithin n f ∧
    evalWithin m t' cell operand n f = evalWithin m t cell operand n f

namespace Simplified

variable {t'' : Expressions} {l l' : List ExprId}

theorem refl (t : Expressions) : Simplified m cell operand t t l :=
  ⟨rfl, fun _ ↦ rfl, fun h ↦ h, fun h ↦ h, fun h ↦ ⟨h, rfl⟩⟩

theorem trans (h : Simplified m cell operand t t' l) (h' : Simplified m cell operand t' t'' l') :
    Simplified m cell operand t t'' (l ++ l') where
  size_eq := h'.size_eq.trans h.size_eq
  get_eq hf := by
    rw [List.mem_append, not_or] at hf
    rw [h'.get_eq hf.2, h.get_eq hf.1]
  sign hf := h.sign (h'.sign hf)
  number hf := h.number (h'.number hf)
  evalWithin_eq hf := by
    obtain ⟨hn, he⟩ := h.evalWithin_eq hf
    obtain ⟨hn', he'⟩ := h'.evalWithin_eq hn
    exact ⟨hn', he'.trans he⟩

theorem mono (h : Simplified m cell operand t t' l) (hl : ∀ f ∈ l, f ∈ l') :
    Simplified m cell operand t t' l' :=
  { h with get_eq := fun hf ↦ h.get_eq fun hf' ↦ hf (hl _ hf') }

theorem of_standsFor {x : Expression} (h : StandsFor m cell operand t e x)
    (hsign : ∀ a b g, x ≠ .threeWay a b g) (hnumber : ∀ k, x ≠ .const (.int k)) :
    Simplified m cell operand t (t.set e x) [e] where
  size_eq := size_set t e x
  get_eq {f} hf := by
    rcases get_set_cases t e x f with hget | ⟨rfl, -⟩
    · exact hget
    · simp at hf
  sign {f _ _ _} hf := by
    rcases get_set_cases t e x f with hget | ⟨rfl, hget⟩
    · rw [← hget, hf]
    · exact absurd (hget.symm.trans hf) (hsign _ _ _)
  number {f _} hf := by
    rcases get_set_cases t e x f with hget | ⟨rfl, hget⟩
    · rw [← hget, hf]
    · exact absurd (hget.symm.trans hf) (hnumber _)
  evalWithin_eq hf := h.evalWithin_set hf

theorem settles (h : Simplified m cell operand t t' l) (he : e ∉ l) (hn : t.nestsWithin t.size e)
    (hs : t.Settles m cell operand e) : t'.Settles m cell operand e := by
  intro op lhs rhs a b g hget hl hr
  rw [h.get_eq he] at hget
  have hl' := h.sign hl
  have hlhs : t.nestsWithin t.size lhs := nests_of_child hn (by simp [hget, Expression.children])
  have ha : t.nestsWithin t.size a := nests_of_child hlhs (by simp [hl', Expression.children])
  have hb : t.nestsWithin t.size b := nests_of_child hlhs (by simp [hl', Expression.children])
  rw [eval, eval, h.size_eq, (h.evalWithin_eq ha).2, (h.evalWithin_eq hb).2]
  exact hs hget hl' (h.number hr)

end Simplified

theorem simplified_foldZeroTest (hm : m.Lawful) (hn : t.nestsWithin t.size e)
    (h : t.Settles m cell operand e) : Simplified m cell operand t (t.foldZeroTest e) [e] := by
  rcases foldZeroTest_cases t e with heq | ⟨op, lhs, rhs, he, hr, hcases⟩
  · rw [heq]
    exact .refl t
  · rcases hcases with ⟨a, b, g, hl, heq⟩ | ⟨hl, hop, heq⟩ | ⟨hl, hop, heq⟩ <;> rw [heq]
    · exact .of_standsFor (standsFor_sign hm hn h he hl hr) (by simp) (by simp)
    · refine .of_standsFor ((standsFor_boolean hm he hl hr).1 hop) ?_ ?_ <;>
        intros <;> intro hx <;> simp [hx, Expression.isBoolean] at hl
    · exact .of_standsFor ((standsFor_boolean hm he hl hr).2 hop) (by simp) (by simp)

end Folding

section Trees

/-- Folding one operand after another. -/
theorem simplified_foldl {fold : ExprId → Expressions → Expressions}
    (hfold : ∀ {c t}, t.nestsWithin n c → t.nestsWithin t.size c → (t.preorderWithin n c).Nodup →
      (∀ e ∈ t.preorderWithin n c, t.Settles m cell operand e) →
      Simplified m cell operand t (fold c t) (t.preorderWithin n c))
    (cs : List ExprId) (t : Expressions) (hn : ∀ c ∈ cs, t.nestsWithin n c ∧ t.nestsWithin t.size c)
    (hnodup : (cs.flatMap (t.preorderWithin n)).Nodup)
    (h : ∀ e ∈ cs.flatMap (t.preorderWithin n), t.Settles m cell operand e) :
    Simplified m cell operand t (cs.foldl (fun t c ↦ fold c t) t)
      (cs.flatMap (t.preorderWithin n)) := by
  induction cs generalizing t with
  | nil => exact .refl t
  | cons c cs ih =>
    rw [List.flatMap_cons, List.nodup_append] at hnodup
    obtain ⟨hfirst, hrest, hdisjoint⟩ := hnodup
    simp only [List.mem_cons, forall_eq_or_imp] at hn
    simp only [List.flatMap_cons, List.mem_append] at h
    have hstep := hfold hn.1.1 hn.1.2 hfirst fun e he ↦ h e (.inl he)
    -- The operands still to come share no node with those folded.
    have hsame : ∀ d ∈ cs, (fold c t).preorderWithin n d = t.preorderWithin n d := by
      intro d hd
      refine preorderWithin_congr (hn.2 d hd).1 (Nat.le_refl n) fun f hf ↦ ?_
      rw [hstep.get_eq fun hc ↦ hdisjoint f hc f (List.mem_flatMap.mpr ⟨d, hd, hf⟩) rfl]
    have hflat : cs.flatMap ((fold c t).preorderWithin n) = cs.flatMap (t.preorderWithin n) := by
      rw [List.flatMap, List.map_congr_left hsame, List.flatMap]
    have hnext := ih (fold c t) (fun d hd ↦ ?_) (hflat.symm ▸ hrest) ?_
    · rw [hflat] at hnext
      exact hstep.trans hnext
    · exact ⟨(hstep.evalWithin_eq (hn.2 d hd).1).1, hstep.size_eq.symm ▸
        (hstep.evalWithin_eq (hn.2 d hd).2).1⟩
    · intro e he
      rw [hflat] at he
      obtain ⟨d, hd, hed⟩ := List.mem_flatMap.mp he
      exact hstep.settles (fun hc ↦ hdisjoint e hc e he rfl)
        (nestsWithin_of_mem (hn.2 d hd).2 hed) (h e (.inr he))

/-- By induction on the depth: the operands are folded first, and the test at the root is then still
the one it was. -/
theorem simplified_simplifyWithin (hm : m.Lawful) (n : Nat) {root : ExprId} {t : Expressions}
    (hn : t.nestsWithin n root) (hsize : t.nestsWithin t.size root)
    (hnodup : (t.preorderWithin n root).Nodup)
    (h : ∀ e ∈ t.preorderWithin n root, t.Settles m cell operand e) :
    Simplified m cell operand t (simplifyWithin n root t) (t.preorderWithin n root) := by
  induction n generalizing root t with
  | zero => exact .refl t
  | succ n ih =>
    simp only [preorderWithin, List.nodup_cons, List.mem_cons, forall_eq_or_imp] at hnodup h
    have hchildren : Simplified m cell operand t
        ((t.get root).children.foldl (fun t c ↦ simplifyWithin n c t) t)
        ((t.get root).children.flatMap (t.preorderWithin n)) :=
      simplified_foldl (fun hn hsize hnodup h ↦ ih hn hsize hnodup h) _ t
        (fun c hc ↦ ⟨nestsWithin_child hn hc, nests_of_child hsize hc⟩) hnodup.2 h.2
    have hroot := hchildren.settles hnodup.1 hsize h.1
    have hfolded := simplified_foldZeroTest hm
      (hchildren.size_eq.symm ▸ (hchildren.evalWithin_eq hsize).1) hroot
    rw [simplifyWithin]
    refine (hchildren.trans hfolded).mono fun f hf ↦ ?_
    simp only [List.mem_append, List.mem_cons, List.not_mem_nil, or_false] at hf
    exact List.mem_cons.mpr hf.symm

/-- Simplifying a tree of conditions leaves its value and its effects alone, wherever the tests it
folds come out on unordered values as their signs do. -/
theorem simplify_eval (hm : m.Lawful) {t : Expressions} {root : ExprId}
    (hn : t.nestsWithin t.size root) (htree : (t.preorder root).Nodup)
    (h : ∀ e ∈ t.preorder root, t.Settles m cell operand e) :
    (t.simplify root).eval m cell operand root = t.eval m cell operand root := by
  have hs := simplified_simplifyWithin hm t.size hn hn htree h
  rw [eval, simplify, hs.size_eq]
  exact (hs.evalWithin_eq hn).2

/-- The numbers with truth values among them. -/
def truths : Platform (Option Int) (MemberRef → Option Int) where
  __ := numbers
  constant
    | .bool b => numbers.ofBool b
    | c => numbers.constant c
  answer
    | .instanceOf .., fields => (.ok (numbers.ofBool false), fields)
    | request, fields => numbers.answer request fields

theorem truths_lawful : truths.Lawful where
  order_ofOrdering o := by cases o <;> decide
  order_ofBool b := by cases b <;> decide
  truth_ofBool b := by cases b <;> decide
  constant_bool _ := rfl
  instanceOf _ _ _ := ⟨false, rfl⟩

/-- A test of the sign of two locals, and a test whether that one fails. -/
def signTest (op : CompareOp) (nanGreater : Bool) : Expressions :=
  ⟨⟨#[.var ⟨0⟩, .var ⟨1⟩, .threeWay ⟨0⟩ ⟨1⟩ nanGreater, .const (.int 0), .compare op ⟨2⟩ ⟨3⟩,
    .const (.int 0), .compare .eq ⟨4⟩ ⟨5⟩]⟩⟩

theorem simplify_eval_less :
    let t := signTest .lt true
    (t.simplify ⟨6⟩).get ⟨6⟩ = .not ⟨4⟩ ∧ (t.simplify ⟨6⟩).get ⟨4⟩ = .compare .lt ⟨0⟩ ⟨1⟩ ∧
      (t.simplify ⟨6⟩).eval truths id (fun _ ↦ none) ⟨6⟩ =
        t.eval truths id (fun _ ↦ none) ⟨6⟩ := by
  intro t
  refine ⟨by decide +kernel, by decide +kernel,
    simplify_eval truths_lawful (by decide +kernel) (by decide +kernel) fun e he ↦ ?_⟩
  have hnodes : t.preorder ⟨6⟩ = [⟨6⟩, ⟨4⟩, ⟨2⟩, ⟨0⟩, ⟨1⟩, ⟨3⟩, ⟨5⟩] := by decide +kernel
  rw [hnodes] at he
  simp only [List.mem_cons, List.not_mem_nil, or_false] at he
  intro op lhs rhs a b nanGreater hget hl hr
  rcases he with rfl | rfl | rfl | rfl | rfl | rfl | rfl <;> cases hget <;> cases hl
  exact .inl (by decide)

/-- Of two unordered values, the sign that stands for them is less than zero, but neither is less
than the other. -/
theorem simplify_drops_unordered :
    let t := signTest .lt false
    ∃ s : Store (Option Int) (MemberRef → Option Int) LocalId,
      (t.eval truths id (fun _ ↦ none) ⟨4⟩).outcome s = some (.ok (truths.ofBool true), s) ∧
      ((t.simplify ⟨4⟩).eval truths id (fun _ ↦ none) ⟨4⟩).outcome s =
        some (.ok (truths.ofBool false), s) :=
  ⟨⟨fun _ ↦ none, fun _ ↦ none⟩, rfl, rfl⟩

end Trees

end Expressions

end Decompile
