import Decompile.Proofs.Edits

/-!
What a rule does when it matches. Each of the rules changes expressions on the side and then edits
the tree in one of a few ways, from which everything that all of them keep follows.
-/

namespace Decompile

/-- Statements that only work on the operand stack. -/
def Kind.Simple : Kind → Prop
  | .evaluate .. | .shuffle _ | .empty => True
  | _ => False

/-- Statements that evaluate an expression or do nothing. -/
def Kind.Evaluates : Kind → Prop
  | .evaluate .. | .empty => True
  | _ => False

theorem Kind.Evaluates.simple {k : Kind} (h : k.Evaluates) : k.Simple := by
  cases k with
  | evaluate | empty => trivial
  | _ => exact h.elim

namespace Expressions

variable {t t' t'' : Expressions} {e x root value : ExprId} {width : Nat}

/-- What is a boolean literal stays that literal. -/
def KeepsLiterals (t t' : Expressions) : Prop :=
  ∀ e v, t.get e = .const (.bool v) → t'.get e = .const (.bool v)

theorem KeepsLiterals.trans (h : KeepsLiterals t t') (h' : KeepsLiterals t' t'') :
    KeepsLiterals t t'' :=
  fun e v he ↦ h' e v (h e v he)

theorem Extends.keepsLiterals (h : Extends t t') : KeepsLiterals t t' :=
  fun _ _ he ↦ h.get_eq he fun hd ↦ nomatch hd

theorem KeepsLiterals.set (hx : ∀ v, t.get x ≠ .const (.bool v)) (y : Expression) :
    KeepsLiterals t (t.set x y) := by
  intro e v he
  have hne : x ≠ e := by
    rintro rfl
    exact hx v he
  rw [get, Expressions.set, Table.get_set, if_neg]
  · exact he
  · rintro ⟨hi, -⟩
    exact hne (congrArg ExprId.mk hi)

theorem keepsLiterals_foldZeroTest (t : Expressions) (e : ExprId) :
    KeepsLiterals t (t.foldZeroTest e) := by
  have hrefl : KeepsLiterals t t := (Extends.refl t).keepsLiterals
  have hset (he : ∃ op lhs rhs, t.get e = .compare op lhs rhs) (y : Expression) :
      KeepsLiterals t (t.set e y) := by
    obtain ⟨op, lhs, rhs, he⟩ := he
    exact .set (fun v hv ↦ by simp [he] at hv) y
  rw [foldZeroTest]
  split
  next op lhs rhs he =>
    have hc := hset ⟨op, lhs, rhs, he⟩
    split
    · split
      · exact hc _
      · split
        · exact hc _
        · split
          · exact hc _
          · exact hrefl
    · exact hrefl
  next => exact hrefl

theorem keepsLiterals_simplifyWithin (n : Nat) (e : ExprId) (t : Expressions) :
    KeepsLiterals t (simplifyWithin n e t) := by
  induction n generalizing e t with
  | zero => exact (Extends.refl t).keepsLiterals
  | succ n ih =>
    rw [simplifyWithin]
    refine .trans ?_ (keepsLiterals_foldZeroTest _ _)
    generalize (t.get e).children = l
    induction l generalizing t with
    | nil => exact (Extends.refl t).keepsLiterals
    | cons c l ihl => exact (ih c t).trans (ihl _)

theorem keepsLiterals_fillLastFree? (h : t.fillLastFree? root value width = some t') :
    KeepsLiterals t t' := by
  rw [fillLastFree?] at h
  split at h
  next leaf hleaf =>
    split at h
    · cases h
      refine .trans (.set (fun v hv ↦ ?_) _) (keepsLiterals_simplifyWithin _ _ _)
      have := List.mem_of_getLast? hleaf
      rw [freeOperands, List.mem_filter] at this
      simp [hv, Expression.isFree] at this
    · cases h
  next => cases h

end Expressions

namespace Analysis

variable {a a' a'' : Analysis} {b : BlockId} {s : Statement} {r : Analysis × BlockId}

section Views

/-- The statement works on the operand stack only. -/
def OnStack (a : Analysis) (b : BlockId) : Prop := (a.statement b).kind.Simple

theorem children_of_simple (h : s.kind.Simple) : s.children = [] := by
  cases s with
  | empty | evaluate | shuffle => rfl
  | _ => exact h.elim

theorem origin_of_simple (h : s.kind.Simple) : s.origin = none := by
  cases s with
  | switch | jsr => exact h.elim
  | _ => rfl

theorem statement_of_pushed? {x : ExprId × Nat} (h : a.pushed? b = some x) :
    a.statement b = .evaluate x.1 x.2 ∧ 0 < x.2 := by
  rw [pushed?] at h
  split at h
  next hs =>
    split at h
    next hw => cases h; exact ⟨hs, hw.1⟩
    next => cases h
  next => cases h

theorem onStack_of_pushed? {x : ExprId × Nat} (h : a.pushed? b = some x) : a.OnStack b := by
  rw [OnStack, (statement_of_pushed? h).1]
  trivial

theorem statement_of_statementExpr? {e : ExprId} (h : a.statementExpr? b = some e) :
    a.statement b = .evaluate e 0 := by
  rw [statementExpr?] at h
  split at h
  next hs => rw [hs, Option.some.inj h]
  next => cases h

theorem statement_of_shuffle? {op : StackOp} (h : a.shuffle? b = some op) :
    a.statement b = .shuffle op := by
  rw [shuffle?] at h
  split at h
  next hs => rw [hs, Option.some.inj h]
  next => cases h

theorem onStack_of_shuffle? {op : StackOp} (h : a.shuffle? b = some op) :
    a.OnStack b ∧ a.statement b ≠ .empty := by
  rw [OnStack, statement_of_shuffle? h]
  exact ⟨trivial, by simp⟩

theorem onStack_of_dupShape? {x : Nat × Nat} (h : a.dupShape? b = some x) : a.OnStack b := by
  rw [dupShape?, Option.bind_eq_some_iff] at h
  obtain ⟨op, hop, -⟩ := h
  exact (onStack_of_shuffle? hop).1

theorem onStack_of_duplicates {n m : Nat} (h : a.duplicates b n m = true) : a.OnStack b :=
  onStack_of_dupShape? (beq_iff_eq.mp h)

theorem onStack_of_statementExpr? {e : ExprId} (h : a.statementExpr? b = some e) :
    a.OnStack b ∧ a.statement b ≠ .empty := by
  rw [OnStack, statement_of_statementExpr? h]
  exact ⟨trivial, by simp⟩

theorem eq_of_assignedBinary? {e : ExprId} {x : ExprId × BinaryOp × ExprId × ExprId}
    (h : a.assignedBinary? e = some x) :
    ∃ value, a.expr e = .assign x.1 none value ∧ a.expr value = .binary x.2.1 x.2.2.1 x.2.2.2 := by
  rw [assignedBinary?] at h
  split at h
  case h_2 => cases h
  next target value he =>
    split at h
    case h_2 => cases h
    next op lhs rhs hv =>
      cases h
      exact ⟨value, he, hv⟩

theorem mergePlaces_eq (a : Analysis) (x y : ExprId) :
    a.mergePlaces x y = { a with locals := (a.mergePlaces x y).locals } := by
  rw [mergePlaces]
  generalize (a.exprs.localsIn x).zip (a.exprs.localsIn y) = l
  induction l generalizing a with
  | nil => rfl
  | cons p l ih => exact ih _

end Views

/-- Only expressions and locals differ, and no literal is lost. -/
structure Besides (a a' : Analysis) : Prop where
  edits : Edits a a'
  eq : a' = { a with exprs := a'.exprs, locals := a'.locals }
  literal : a.exprs.KeepsLiterals a'.exprs

namespace Besides

theorem refl (a : Analysis) : Besides a a :=
  ⟨.refl a, rfl, (Expressions.Extends.refl _).keepsLiterals⟩

theorem trans (h : Besides a a') (h' : Besides a' a'') : Besides a a'' where
  edits := h.edits.trans h'.edits
  eq := by
    rw [h'.eq, h.eq]
  literal := h.literal.trans h'.literal

theorem allocExpr (a : Analysis) (x : Expression) : Besides a (a.allocExpr x).1 :=
  ⟨(Edits.refl a).allocExpr x, rfl, (Expressions.extends_alloc ..).keepsLiterals⟩

theorem negate (a : Analysis) (e : ExprId) : Besides a (a.negate e).1 :=
  ⟨(Edits.refl a).negate e, rfl, (Expressions.extends_negate ..).keepsLiterals⟩

theorem mergePlaces {x y : ExprId} (h : Edits a (a.mergePlaces x y)) :
    Besides a (a.mergePlaces x y) := by
  rw [mergePlaces_eq] at h ⊢
  exact ⟨h, rfl, (Expressions.Extends.refl _).keepsLiterals⟩

theorem setExpr {e : ExprId} (he : ∀ v, a.expr e ≠ .const (.bool v)) (x : Expression) :
    Besides a (a.setExpr e x) :=
  ⟨(Edits.refl a).setExpr e x, rfl, .set he x⟩

theorem fill {root value : ExprId} {width : Nat} {exprs : Expressions}
    (h : a.exprs.fillLastFree? root value width = some exprs) : Besides a { a with exprs } :=
  ⟨(Edits.refl a).step (.exprs exprs (Expressions.size_of_fillLastFree? h).ge), rfl,
    Expressions.keepsLiterals_fillLastFree? h⟩

variable (h : Besides a a')
include h

theorem blocks : a'.blocks = a.blocks := by rw [h.eq]

theorem graph : a'.graph = a.graph := by rw [h.eq]

theorem frame : a'.frame = a.frame := by rw [h.eq]; rfl

end Besides

/-- Statements on the operand stack that stand right before `b`, where they can be dropped. -/
structure Ahead (a : Analysis) (b : BlockId) (n : Nat) (run : List BlockId) : Prop where
  preceding : a.blocks.preceding b n = some run
  onStack : ∀ p ∈ run, a.OnStack p
  removable : a.removable run = true

theorem Ahead.zero (a : Analysis) (b : BlockId) : a.Ahead b 0 [] :=
  ⟨rfl, by simp, rfl⟩

theorem Ahead.one {prev : BlockId} (h : a.blocks.prevStatement b = some prev) (hs : a.OnStack prev)
    (hr : a.removable [prev] = true) : a.Ahead b 1 [prev] :=
  ⟨by simp [Blocks.preceding, Blocks.precedingWithin, h], by simpa using hs, hr⟩

/-- A statement around others comes to name a value that was computed before it. -/
inductive Completes : Statement → Statement → Prop
  | initializer {cond init : ExprId} {o : Option ExprId} {incr : Option BlockId} {body : BlockId}
      {labeled : Bool} : Completes (.loop .possibleFor cond o incr body labeled)
    (.loop .forLoop cond (some init) incr body labeled)
  | object {monitor : LocalId} {value : ExprId} {body : BlockId} :
    Completes (.synchronized monitor none body) (.synchronized monitor (some value) body)

theorem Completes.origin {s' : Statement} (h : Completes s s') : s'.origin = none := by
  cases h <;> rfl

/-- The assignment at a node is written in a shorter form. -/
inductive Shortens (t : Expressions) : Expression → Expression → Prop
  | compound {target value lhs rhs : ExprId} {op : BinaryOp} : t.get value = .binary op lhs rhs →
    Shortens t (.assign target none value) (.assign target (some op) rhs)
  | step {target value : ExprId} {op : Option BinaryOp} (step : StepOp) (before : Bool) :
    Shortens t (.assign target op value) (.step target step before)

/-- What rules make of a state at the statement `b`. -/
inductive Rewrites (a : Analysis) (b : BlockId) : Analysis × BlockId → Prop
  | drop {a₁ : Analysis} {n : Nat} {run : List BlockId} : Besides a a₁ → a.Ahead b (n + 1) run →
    Rewrites a b (a₁.removeStatements run, b)
  | fold {a₁ : Analysis} {n : Nat} {run : List BlockId} {s : Statement} : Besides a a₁ →
    a.Ahead b n run → a.OnStack b ∧ a.statement b ≠ .empty → s.kind.Evaluates →
    n ≠ 0 ∨ (a.shuffle? b).isSome → Rewrites a b (a₁.replaceRun run b s)
  | construct {e object : ExprId} {ref : MemberRef} {type : Name} {arguments : List ExprId} :
    a.statementExpr? b = some e → a.expr e = .call .special ref (some object) arguments →
    a.expr object = .newObject type →
    Rewrites a b ((a.allocExpr (.construct ref.owner ref.descriptor arguments)).1.replaceRun [] b
      (.evaluate ⟨a.exprs.size⟩ 0))
  | shorten {a₁ : Analysis} {e : ExprId} {width : Nat} {x : Expression} :
    a.statement b = .evaluate e width → Besides a a₁ → a₁.exprs = a.exprs →
    Shortens a.exprs (a.expr e) x → Rewrites a b (a₁.setExpr e x, b)
  | ternary {a₁ : Analysis} {cond e : ExprId} {onTrue onFalse : BlockId} {x y : ExprId × Nat} :
    a.statement b = .ifElse cond onTrue (some onFalse) → a.pushed? onTrue = some x →
    a.pushed? onFalse = some y → Besides a a₁ →
    Rewrites a b (a₁.replaceRun [] b (.evaluate e x.2))
  | combine {a₁ : Analysis} {f : FlowId} {prev : BlockId} {x y : ExprId × JumpId} (combined : ExprId) :
    a.conditionalJump? b = some x → a.blocks.prevStatement b = some prev →
    a.conditionalJump? prev = some y → a.removable [prev] → a.flowOf b = some f →
    (a.jump y.2).destination = (a.jump x.2).destination ∨
      (∃ k, a.jumpOf b = some k ∧ (a.jump y.2).destination = (a.jump k).destination) →
    Besides a a₁ →
    Rewrites a b (((a₁.removeJump f y.2).removeStatement prev).setCondition b combined, b)
  | complete {n : Nat} {run : List BlockId} {s : Statement} : a.Ahead b (n + 1) run →
    Completes (a.statement b) s → Rewrites a b ((a.removeStatements run).setStatement b s, b)
  | empty {q survivor : BlockId} : a.statement b = .empty → (a.jumpOf b).isNone →
    a.canRemoveStatement b → a.sibling? b = some (q, survivor) →
    Rewrites a b (a.removeStatement b, survivor)
  | swap {first second : BlockId} {x y : ExprId} : a.shuffle? b = some .swap →
    a.blocks.preceding b 2 = some [first, second] → a.pushed? first = some (x, 1) →
    a.pushed? second = some (y, 1) → a.canRemoveStatement b →
    Rewrites a b (((a.setStatement first (.evaluate y 1)).setStatement second
      (.evaluate x 1)).removeStatement b, second)

theorem Rewrites.edits (h : Rewrites a b r) : Edits a r.1 := by
  cases h with
  | drop ha => exact ha.edits.removeStatements _
  | fold ha _ _ hs => exact ha.edits.replaceRun _ _ (origin_of_simple hs.simple)
  | construct => exact ((Edits.refl a).allocExpr _).replaceRun _ _ rfl
  | shorten _ ha => exact ha.edits.setExpr _ _
  | ternary _ _ _ ha => exact ha.edits.replaceRun _ _ rfl
  | combine _ _ _ _ _ _ _ ha => exact ((ha.edits.removeJump _ _).removeStatement _).setCondition _ _
  | complete _ hs => exact ((Edits.refl a).removeStatements _).setStatement b hs.origin
  | empty => exact (Edits.refl a).removeStatement b
  | swap => exact (((Edits.refl a).setStatement _ rfl).setStatement _ rfl).removeStatement b

section Rules

open Offers (test)

theorem offers_createExpression : Offers (Rewrites a b) (a.createExpression b) := by
  refine .bind fun root _ ↦ .bind fun leaf _ ↦ .bind fun prev hprev ↦ .bind fun pushed hpushed ↦
    test fun h ↦ test fun _ ↦ .bind fun exprs hfill ↦ .some ?_
  exact .drop (.fill hfill) (.one hprev (onStack_of_pushed? hpushed) h.2)

theorem offers_removeEmpty : Offers (Rewrites a b) (a.removeEmpty b) :=
  test fun h ↦ .bind fun _ hs ↦ .some (.empty h.1 h.2.1 h.2.2 hs)

theorem offers_foldConstructor : Offers (Rewrites a b) (a.foldConstructor b) := by
  refine .bind fun expr he ↦ ?_
  split
  case h_2 => exact .none
  next hx =>
  refine test fun _ ↦ ?_
  dsimp only
  split
  next ho => exact test fun _ ↦ .some (.construct he hx ho)
  · refine test fun _ ↦ .bind fun run hrun ↦ ?_
    split
    case h_2 => exact .none
    refine test fun hdup ↦ .bind fun _ hnew ↦ test fun h ↦
      .some (.fold (.allocExpr a _) ⟨hrun, ?_, h.2⟩ (onStack_of_statementExpr? he) trivial
        (.inl two_ne_zero))
    simpa using ⟨onStack_of_pushed? hnew, (onStack_of_shuffle? hdup).1⟩

theorem offers_foldArrayLiteral : Offers (Rewrites a b) (a.foldArrayLiteral b) := by
  refine .bind fun expr he ↦ ?_
  split
  case h_2 => exact .none
  split
  case h_2 => exact .none
  split
  case h_2 => exact .none
  refine test fun _ ↦ .bind fun run hrun ↦ ?_
  split
  case h_2 => exact .none
  refine test fun hdup ↦ .bind fun _ hnew ↦ .bind fun _ _ ↦ test fun h ↦
    .some (.fold (.allocExpr a _) ⟨hrun, ?_, h.2.2⟩ (onStack_of_statementExpr? he) trivial
      (.inl two_ne_zero))
  simpa using ⟨onStack_of_pushed? hnew, (onStack_of_shuffle? hdup).1⟩

theorem offers_foldDupStore : Offers (Rewrites a b) (a.foldDupStore b) := by
  refine .bind fun expr he ↦ ?_
  split
  case h_2 => exact .none
  split
  case h_2 => exact .none
  refine .bind fun run hrun ↦ ?_
  split
  case h_2 => exact .none
  refine .bind fun _ hdup ↦ .bind fun pushed hpush ↦ test fun h ↦
    .some (.fold ?_ ⟨hrun, ?_, h.2.2.2⟩
      (onStack_of_statementExpr? he) trivial (.inl two_ne_zero))
  · cases hfill : a.exprs.fillLastFree? expr pushed.1 _ with
    | none => exact .refl a
    | some exprs => exact .fill hfill
  · simpa using ⟨onStack_of_pushed? hpush, onStack_of_dupShape? hdup⟩

theorem offers_removePop : Offers (Rewrites a b) (a.removePop b) := by
  refine .bind fun op hop ↦ .bind fun popped _ ↦ .bind fun prev hprev ↦ .bind fun pushed hpushed ↦
    test fun h ↦ .some (.fold (.refl a) (.one hprev (onStack_of_pushed? hpushed) h.2)
      (onStack_of_shuffle? hop) ?_ (.inl one_ne_zero))
  split <;> trivial

theorem offers_removeSwap : Offers (Rewrites a b) (a.removeSwap b) := by
  refine test fun hop ↦ .bind fun run hrun ↦ ?_
  split
  case h_2 => exact .none
  refine .bind fun x hx ↦ ?_
  split
  case h_2 => exact .none
  refine .bind fun y hy ↦ ?_
  split
  case h_2 => exact .none
  exact test fun h ↦ .some (.swap hop hrun hx hy h.2.2)

theorem offers_removeDup : Offers (Rewrites a b) (a.removeDup b) :=
  .bind fun _ hop ↦ test fun _ ↦ .bind fun _ _ ↦ .bind fun _ _ ↦ test fun _ ↦
    .some (.fold (.allocExpr a _) (.zero a b) (onStack_of_shuffle? hop) trivial
      (.inr (by rw [hop]; rfl)))

theorem offers_foldCompound : Offers (Rewrites a b) (a.foldCompound b) := by
  unfold foldCompound
  split
  case h_2 => exact .none
  next hs =>
  refine .bind fun _ hx ↦ test fun h ↦
    .some (.shorten hs (.mergePlaces ((Edits.refl a).mergePlaces h.1)) ?_ ?_)
  · rw [mergePlaces_eq]
  · obtain ⟨value, he, hv⟩ := eq_of_assignedBinary? hx
    rw [he]
    exact .compound hv

theorem offers_foldCompoundThroughDup : Offers (Rewrites a b) (a.foldCompoundThroughDup b) := by
  unfold foldCompoundThroughDup
  split
  case h_2 => exact .none
  refine .bind fun _ hx ↦ test fun _ ↦ .bind fun prev hprev ↦ test fun h ↦
    .some (.drop (.setExpr (fun v ↦ ?_) _) (.one hprev (onStack_of_duplicates h.1) h.2))
  obtain ⟨value, he, -⟩ := eq_of_assignedBinary? hx
  simp [he]

theorem offers_foldPostIncrement : Offers (Rewrites a b) (a.foldPostIncrement b) := by
  refine .bind fun expr he ↦ ?_
  split
  case h_2 => exact .none
  exact .bind fun _ _ ↦ .bind fun prev hprev ↦ .bind fun _ hpushed ↦ test fun h ↦
    .some (.fold ((Besides.mergePlaces ((Edits.refl a).mergePlaces_swap h.2.1)).trans
      (.allocExpr _ _)) (.one hprev (onStack_of_pushed? hpushed) h.2.2)
      (onStack_of_statementExpr? he) trivial (.inl one_ne_zero))

theorem offers_foldPostIncrementThroughDup :
    Offers (Rewrites a b) (a.foldPostIncrementThroughDup b) := by
  refine .bind fun expr he ↦ .bind fun _ _ ↦ .bind fun _ _ ↦ ?_
  dsimp only
  split
  case h_2 => exact .none
  refine test fun _ ↦ .bind fun run hrun ↦ ?_
  split
  case h_2 => exact .none
  next dup push location hrev =>
  refine test fun hdup ↦ .bind fun _ hpush ↦ test fun h ↦ test fun hloc ↦ test fun hr ↦
    .some (.fold ((Besides.mergePlaces ((Edits.refl a).mergePlaces_swap h.2)).trans
      (.allocExpr _ _)) ⟨hrun, fun p hp ↦ ?_, hr⟩ (onStack_of_statementExpr? he) trivial
      (.inl (by split <;> decide)))
  have hp' : p ∈ dup :: push :: location := hrev ▸ List.mem_reverse.mpr hp
  rcases List.mem_cons.mp hp' with rfl | hp'
  · exact onStack_of_dupShape? hdup
  · rcases List.mem_cons.mp hp' with rfl | hp'
    · exact onStack_of_pushed? hpush
    · exact onStack_of_duplicates (List.all_eq_true.mp hloc p hp')

theorem offers_foldPreIncrement : Offers (Rewrites a b) (a.foldPreIncrement b) := by
  unfold foldPreIncrement
  split
  case h_2 => exact .none
  next expr push hs =>
  refine test fun _ ↦ ?_
  split
  next hx => exact .bind fun step _ ↦ .some (.shorten hs (.refl a) rfl (hx ▸ .step step true))
  · refine .bind fun prev hprev ↦ .bind fun update hupdate ↦ ?_
    split
    case h_2 => exact .none
    refine .bind fun _ _ ↦ test fun h ↦
      .some (.fold ((Besides.mergePlaces ((Edits.refl a).mergePlaces_swap h.1)).trans
        (.allocExpr _ _)) (.one hprev (onStack_of_statementExpr? hupdate).1 h.2) ?_ trivial
        (.inl one_ne_zero))
    rw [OnStack, hs]
    exact ⟨trivial, by simp⟩
  · exact .none

theorem offers_foldTernary : Offers (Rewrites a b) (a.foldTernary b) := by
  unfold foldTernary
  split
  case h_2 => exact .none
  next hs =>
  refine .bind fun _ hx ↦ .bind fun _ hy ↦ test fun _ ↦ .some (.ternary hs hx hy ?_)
  split
  · exact .refl a
  · exact .negate a _
  · exact .allocExpr a _

theorem offers_combineConditions : Offers (Rewrites a b) (a.combineConditions b) := by
  refine .bind fun _ hx ↦ .bind fun prev hprev ↦ .bind fun y hy ↦ test fun h ↦
    .bind fun f hf ↦ ?_
  dsimp only
  split
  next hd => exact .some (.combine _ hx hprev hy h.2 hf (.inl hd) (.allocExpr a _))
  split
  next hd =>
    rw [Option.any_eq_true] at hd
    obtain ⟨k, hk, hd⟩ := hd
    exact .some (.combine _ hx hprev hy h.2 hf (.inr ⟨k, hk, (of_decide_eq_true hd).symm⟩)
      ((Besides.negate a _).trans (.allocExpr _ _)))
  · exact .none

theorem offers_foldForInitializer : Offers (Rewrites a b) (a.foldForInitializer b) := by
  unfold foldForInitializer
  split
  case h_2 => exact .none
  next hs =>
  refine .bind fun prev hprev ↦ .bind fun init hinit ↦ ?_
  split
  case h_2 => exact .none
  refine .bind fun slot _ ↦ ?_
  split
  case h_2 => exact .none
  exact .bind fun _ _ ↦ test fun h ↦
    .some (.complete (.one hprev (onStack_of_statementExpr? hinit).1 h.2.2.2) (hs ▸ .initializer))

theorem offers_completeSynchronized : Offers (Rewrites a b) (a.completeSynchronized b) := by
  unfold completeSynchronized
  split
  case h_2 => exact .none
  next hs =>
  refine .bind fun enter henter ↦ .bind fun expr he ↦ ?_
  have hstack := (onStack_of_statementExpr? he).1
  split
  case h_2 => exact .none
  refine test fun _ ↦ ?_
  dsimp only
  split
  · refine .bind fun _ hv ↦ test fun h ↦ ?_
    obtain ⟨value, -, rfl⟩ := Option.map_eq_some_iff.mp hv
    exact .some (.complete (.one henter hstack h) (hs ▸ .object))
  · refine test fun _ ↦ .bind fun store hstore ↦ .bind fun stored hstored ↦ .bind fun _ hv ↦
      test fun h ↦ ?_
    obtain ⟨value, -, rfl⟩ := Option.map_eq_some_iff.mp hv
    refine .some (.complete (n := 1) ⟨?_, ?_, h⟩ (hs ▸ .object))
    · simp [Blocks.preceding, Blocks.precedingWithin, henter, hstore]
    · simpa using ⟨(onStack_of_statementExpr? hstored).1, hstack⟩
  · exact .none

theorem offers_apply (a : Analysis) (b : BlockId) (rule : Rule) :
    Offers (Rewrites a b) (rule.apply a b) := by
  cases rule with
  | createExpression => exact offers_createExpression
  | constructor => exact offers_foldConstructor
  | arrayLiteral => exact offers_foldArrayLiteral
  | dupStore => exact offers_foldDupStore
  | pop => exact offers_removePop
  | swap => exact offers_removeSwap
  | compound => exact offers_foldCompound
  | compoundThroughDup => exact offers_foldCompoundThroughDup
  | postIncrement => exact offers_foldPostIncrement
  | postIncrementThroughDup => exact offers_foldPostIncrementThroughDup
  | preIncrement => exact offers_foldPreIncrement
  | ternary => exact offers_foldTernary
  | combineConditions => exact offers_combineConditions
  | forInitializer => exact offers_foldForInitializer
  | synchronizedObject => exact offers_completeSynchronized
  | removeEmpty => exact offers_removeEmpty
  | dup => exact offers_removeDup

end Rules

end Analysis

end Decompile
