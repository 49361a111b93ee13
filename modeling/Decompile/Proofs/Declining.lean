import Mathlib.Data.Option.Basic
import Decompile.Rule.Fixpoint

/-!
A rule that declines has written nothing. Its tests stand between its edits, and a test that fails
takes no edit back; so each rule is run test by test and found to do what it does as a function, which
has no state to leave behind where it yields none.
-/

namespace Decompile

namespace Rewrite

variable {α β : Type} {a : Analysis} {b : BlockId}

theorem exec_bind (x : Rewrite α) (f : α → Rewrite β) (a : Analysis) :
    (x >>= f).exec a = match x.exec a with
      | (some v, a') => (f v).exec a'
      | (none, a') => (none, a') := by
  unfold exec
  simp only [OptionT.run_bind, Option.elimM, StateT.run_bind]
  generalize x.run.run a = r
  obtain ⟨_ | v, a'⟩ := r <;> rfl

theorem exec_orElse (x y : Rewrite α) (a : Analysis) :
    (x <|> y).exec a = match x.exec a with
      | (some v, a') => (some v, a')
      | (none, a') => y.exec a' := by
  unfold exec
  simp only [OptionT.run_orElse, Option.elimM, StateT.run_bind]
  generalize x.run.run a = r
  obtain ⟨_ | v, a'⟩ := r <;> rfl

theorem exec_look (q : Analysis → Option α) (a : Analysis) : (look q).exec a = (q a, a) := rfl

theorem exec_view_bind (q : Analysis → α) (f : α → Rewrite β) (a : Analysis) :
    (view q >>= f).exec a = (f (q a)).exec a :=
  exec_bind ..

/-- What is left of a state: a rule that declines leaves it as it was. -/
def outcome (a : Analysis) : Option (Analysis × α) → Option α × Analysis
  | some (a', v) => (some v, a')
  | none => (none, a)

theorem exec_look_bind {q : Analysis → Option α} {f : α → Rewrite β}
    {g : α → Option (Analysis × β)} (h : ∀ v, q a = some v → (f v).exec a = outcome a (g v)) :
    (look q >>= f).exec a = outcome a (q a >>= g) := by
  rw [exec_bind, exec_look]
  cases hq : q a with
  | none => rfl
  | some v => exact h v hq

theorem exec_require_bind {p : Analysis → Bool} {P : Prop} [Decidable P] {f : Unit → Rewrite β}
    {g : Unit → Option (Analysis × β)} (hp : p a = decide P)
    (h : P → (f ()).exec a = outcome a (g ())) :
    (require p >>= f).exec a = outcome a (guard P >>= g) := by
  have hguard : (guard P : Option Unit) = if p a then some () else none := by
    rw [hp]
    by_cases hP : P
    · exact (if_pos hP).trans (if_pos (decide_eq_true hP)).symm
    · exact (if_neg hP).trans (if_neg (by simpa using hP)).symm
  rw [hguard]
  refine exec_look_bind fun _ hv ↦ h ?_
  simpa [hp] using hv

theorem exec_fillLastFree (root value : ExprId) (width : Nat) (a : Analysis) :
    (fillLastFree root value width).exec a =
      match a.exprs.fillLastFree? root value width with
      | some exprs => (some (), { a with exprs })
      | none => (none, a) := by
  rw [fillLastFree, exec_bind, exec_look, Expressions.fillLastFree?]
  cases (a.exprs.freeOperands root).getLast? with
  | none => rfl
  | some leaf =>
    dsimp only
    rw [exec_bind, require, exec_look]
    by_cases hw : a.exprs.freeWidth leaf = width
    · simp only [hw, decide_true, ↓reduceIte]
      rfl
    · simp [hw]

theorem exec_createExpression : (createExpression b).exec a = outcome a (a.createExpression b) := by
  refine exec_look_bind fun root _ ↦ exec_look_bind fun leaf _ ↦ exec_look_bind fun prev _ ↦
    exec_look_bind fun p _ ↦ ?_
  obtain ⟨value, width⟩ := p
  refine exec_require_bind rfl fun _ ↦ exec_require_bind Bool.decide_eq_true.symm fun _ ↦ ?_
  rw [exec_bind, exec_fillLastFree]
  cases a.exprs.fillLastFree? root value width <;> rfl

theorem exec_removeEmpty : (removeEmpty b).exec a = outcome a (a.removeEmpty b) :=
  exec_require_bind rfl fun _ ↦ exec_look_bind fun _ _ ↦ rfl

theorem exec_removePop : (removePop b).exec a = outcome a (a.removePop b) := by
  refine exec_look_bind fun op _ ↦ exec_look_bind fun popped _ ↦ exec_look_bind fun prev _ ↦
    exec_look_bind fun p _ ↦ ?_
  obtain ⟨expr, width⟩ := p
  exact exec_require_bind rfl fun _ ↦ rfl

theorem exec_removeSwap : (removeSwap b).exec a = outcome a (a.removeSwap b) := by
  refine exec_require_bind rfl fun _ ↦ exec_look_bind fun run _ ↦ ?_
  obtain _ | ⟨first, _ | ⟨second, _ | ⟨third, rest⟩⟩⟩ := run
  · rfl
  · rfl
  · refine exec_look_bind fun p _ ↦ ?_
    obtain ⟨x, _ | _ | _⟩ := p
    · rfl
    · refine exec_look_bind fun p _ ↦ ?_
      obtain ⟨y, _ | _ | _⟩ := p
      · rfl
      · exact exec_require_bind rfl fun _ ↦ rfl
      · rfl
    · rfl
  · rfl

theorem exec_foldConstructor : (foldConstructor b).exec a = outcome a (a.foldConstructor b) := by
  refine exec_look_bind fun expr _ ↦ ?_
  dsimp only
  rw [exec_view_bind]
  cases he : a.expr expr with
  | call kind ref object arguments =>
    cases kind with
    | special =>
      cases object with
      | none => rfl
      | some object =>
        refine exec_require_bind Bool.decide_eq_true.symm fun _ ↦ ?_
        rw [exec_view_bind]
        by_cases ho : ∃ created, a.expr object = .newObject created
        · obtain ⟨created, ho⟩ := ho
          rw [ho]
          exact exec_require_bind rfl fun _ ↦ rfl
        · split
          next created h => exact absurd ⟨created, h⟩ ho
          -- one split settles both sides where they share their case analysis
          try (split; next created h => exact absurd ⟨created, h⟩ ho)
          refine exec_require_bind rfl fun _ ↦ exec_look_bind fun run _ ↦ ?_
          obtain _ | ⟨new, _ | ⟨dup, _ | ⟨third, rest⟩⟩⟩ := run
          · rfl
          · rfl
          · refine exec_require_bind rfl fun _ ↦ exec_look_bind fun p _ ↦ ?_
            exact exec_require_bind rfl fun _ ↦ rfl
          · rfl
    | _ => rfl
  | _ => rfl

theorem exec_foldArrayLiteral : (foldArrayLiteral b).exec a = outcome a (a.foldArrayLiteral b) := by
  refine exec_look_bind fun expr _ ↦ ?_
  dsimp only
  rw [exec_view_bind]
  cases he : a.expr expr with
  | assign target op value =>
    cases op with
    | some op => rfl
    | none =>
      dsimp only
      rw [exec_view_bind]
      cases ht : a.expr target with
      | element array index =>
        dsimp only
        rw [exec_view_bind]
        cases hi : a.expr index with
        | const c =>
          cases c with
          | int n =>
            dsimp only
            refine exec_require_bind rfl fun _ ↦ exec_look_bind fun run _ ↦ ?_
            obtain _ | ⟨new, _ | ⟨dup, _ | ⟨third, rest⟩⟩⟩ := run
            · rfl
            · rfl
            · refine exec_require_bind rfl fun _ ↦ exec_look_bind fun p _ ↦
                exec_look_bind fun underway _ ↦ ?_
              exact exec_require_bind rfl fun _ ↦ rfl
            · rfl
          | _ => rfl
        | _ => rfl
      | _ => rfl
  | _ => rfl

theorem exec_removeDup : (removeDup b).exec a = outcome a (a.removeDup b) := by
  refine exec_look_bind fun op _ ↦ exec_require_bind rfl fun _ ↦ exec_look_bind fun prev _ ↦
    exec_look_bind fun p _ ↦ ?_
  exact exec_require_bind rfl fun _ ↦ rfl

theorem exec_foldDupStore : (foldDupStore b).exec a = outcome a (a.foldDupStore b) := by
  refine exec_look_bind fun expr _ ↦ ?_
  dsimp only
  rw [exec_view_bind]
  cases he : a.expr expr with
  | assign target op value =>
    dsimp only
    rw [exec_view_bind]
    cases hv : a.expr value with
    | free width =>
      refine exec_look_bind fun run _ ↦ ?_
      obtain _ | ⟨push, _ | ⟨dup, _ | ⟨third, rest⟩⟩⟩ := run
      · rfl
      · rfl
      · refine exec_look_bind fun shape _ ↦ exec_look_bind fun p _ ↦
          exec_require_bind rfl fun _ ↦ ?_
        rw [exec_bind, exec_orElse, exec_fillLastFree]
        cases a.exprs.fillLastFree? expr p.1 width <;> rfl
      · rfl
    | _ => rfl
  | _ => rfl

theorem exec_foldCompound : (foldCompound b).exec a = outcome a (a.foldCompound b) := by
  rw [foldCompound, Analysis.foldCompound, exec_view_bind]
  cases hs : a.statement b with
  | evaluate expr push =>
    refine exec_look_bind fun parts _ ↦ ?_
    exact exec_require_bind rfl fun _ ↦ rfl
  | _ => rfl

theorem exec_foldCompoundThroughDup :
    (foldCompoundThroughDup b).exec a = outcome a (a.foldCompoundThroughDup b) := by
  rw [foldCompoundThroughDup, Analysis.foldCompoundThroughDup, exec_view_bind]
  cases hs : a.statement b with
  | evaluate expr push =>
    refine exec_look_bind fun parts _ ↦ ?_
    rw [exec_view_bind]
    refine exec_require_bind rfl fun _ ↦ exec_look_bind fun prev _ ↦ ?_
    exact exec_require_bind rfl fun _ ↦ rfl
  | _ => rfl

theorem exec_foldPostIncrement :
    (foldPostIncrement b).exec a = outcome a (a.foldPostIncrement b) := by
  refine exec_look_bind fun expr _ ↦ ?_
  dsimp only
  rw [exec_view_bind]
  cases he : a.expr expr with
  | assign target op value =>
    refine exec_look_bind fun step _ ↦ exec_look_bind fun prev _ ↦ exec_look_bind fun p _ ↦ ?_
    exact exec_require_bind rfl fun _ ↦ rfl
  | _ => rfl

theorem exec_foldPostIncrementThroughDup :
    (foldPostIncrementThroughDup b).exec a = outcome a (a.foldPostIncrementThroughDup b) := by
  refine exec_look_bind fun expr _ ↦ exec_look_bind fun parts _ ↦ exec_look_bind fun step _ ↦ ?_
  dsimp only
  rw [exec_view_bind]
  cases hl : a.expr parts.2.2.1 with
  | free width =>
    rw [exec_view_bind]
    refine exec_require_bind rfl fun _ ↦ exec_look_bind fun run _ ↦ ?_
    cases hr : run.reverse with
    | nil => rfl
    | cons dup rest =>
      cases rest with
      | nil => rfl
      | cons push location =>
        refine exec_require_bind rfl fun _ ↦ exec_look_bind fun p _ ↦
          exec_require_bind rfl fun _ ↦ exec_require_bind Bool.decide_eq_true.symm fun _ ↦ ?_
        exact exec_require_bind Bool.decide_eq_true.symm fun _ ↦ rfl
  | _ => rfl

theorem exec_foldPreIncrement : (foldPreIncrement b).exec a = outcome a (a.foldPreIncrement b) := by
  rw [foldPreIncrement, Analysis.foldPreIncrement, exec_view_bind]
  cases hs : a.statement b with
  | evaluate expr push =>
    refine exec_require_bind rfl fun _ ↦ ?_
    rw [exec_view_bind]
    cases he : a.expr expr with
    | assign target op value => exact exec_look_bind fun step _ ↦ rfl
    | var x =>
      refine exec_look_bind fun prev _ ↦ exec_look_bind fun update _ ↦ ?_
      dsimp only
      rw [exec_view_bind]
      cases hu : a.expr update with
      | assign target op value =>
        refine exec_look_bind fun step _ ↦ ?_
        exact exec_require_bind rfl fun _ ↦ rfl
      | _ => rfl
    | _ => rfl
  | _ => rfl

theorem exec_foldTernary : (foldTernary b).exec a = outcome a (a.foldTernary b) := by
  rw [foldTernary, Analysis.foldTernary, exec_view_bind]
  cases hs : a.statement b with
  | ifElse cond onTrue onFalse =>
    cases onFalse with
    | none => rfl
    | some onFalse =>
      refine exec_look_bind fun p _ ↦ exec_look_bind fun q _ ↦ exec_require_bind rfl fun _ ↦ ?_
      rw [exec_view_bind, exec_view_bind]
      generalize a.expr p.1 = x
      generalize a.expr q.1 = y
      dsimp only
      split
      next => rfl
      next => rfl
      next h₁ h₀ =>
        first
          | rfl
          | split
            · exact absurd rfl (h₁ rfl)
            · exact absurd rfl (h₀ rfl)
            · rfl
  | _ => rfl

theorem exec_combineConditions :
    (combineConditions b).exec a = outcome a (a.combineConditions b) := by
  refine exec_look_bind fun p _ ↦ exec_look_bind fun prev _ ↦ exec_look_bind fun q _ ↦
    exec_require_bind rfl fun _ ↦ exec_look_bind fun f _ ↦ ?_
  rw [exec_view_bind, exec_view_bind]
  dsimp only
  split
  next => rfl
  next =>
    rw [exec_bind, require, exec_look]
    by_cases hown : (a.jumpOf b).any fun j ↦ (a.jump j).destination = (a.jump q.2).destination
    · simp only [hown, ↓reduceIte]
      rfl
    · simp only [hown, Bool.false_eq_true, ↓reduceIte]
      rfl

theorem exec_foldForInitializer :
    (foldForInitializer b).exec a = outcome a (a.foldForInitializer b) := by
  rw [foldForInitializer, Analysis.foldForInitializer, exec_view_bind]
  cases hs : a.statement b with
  | loop kind cond init incr body labeled =>
    cases kind with
    | possibleFor =>
      cases incr with
      | none => rfl
      | some incr =>
        refine exec_look_bind fun prev _ ↦ exec_look_bind fun init _ ↦ ?_
        rw [exec_view_bind]
        cases he : a.expr init with
        | assign target op value =>
          cases op with
          | some op => rfl
          | none =>
            refine exec_look_bind fun slot _ ↦ ?_
            rw [exec_view_bind]
            cases hi : a.statement incr with
            | evaluate update push =>
              refine exec_look_bind fun updated _ ↦ ?_
              exact exec_require_bind rfl fun _ ↦ rfl
            | _ => rfl
        | _ => rfl
    | _ => rfl
  | _ => rfl

theorem exec_completeSynchronized :
    (completeSynchronized b).exec a = outcome a (a.completeSynchronized b) := by
  rw [completeSynchronized, Analysis.completeSynchronized, exec_view_bind]
  cases hs : a.statement b with
  | synchronized monitor object body =>
    cases object with
    | some object => rfl
    | none =>
      refine exec_look_bind fun enter _ ↦ exec_look_bind fun expr _ ↦ ?_
      dsimp only
      rw [exec_view_bind]
      cases he : a.expr expr with
      | monitorEnter object =>
        refine exec_require_bind rfl fun _ ↦ ?_
        rw [exec_view_bind]
        cases ho : a.expr object with
        | assign target op value =>
          refine exec_look_bind fun p _ ↦ ?_
          exact exec_require_bind Bool.decide_eq_true.symm fun _ ↦ rfl
        | var copy =>
          refine exec_require_bind Bool.decide_eq_true.symm fun _ ↦ exec_look_bind fun store _ ↦
            exec_look_bind fun stored _ ↦ exec_look_bind fun p _ ↦ ?_
          exact exec_require_bind Bool.decide_eq_true.symm fun _ ↦ rfl
        | _ => rfl
      | _ => rfl
  | _ => rfl

end Rewrite

open Rewrite

theorem Rule.exec_program (rule : Rule) (b : BlockId) (a : Analysis) :
    (rule.program b).exec a = outcome a (rule.apply a b) := by
  cases rule with
  | createExpression => exact exec_createExpression
  | constructor => exact exec_foldConstructor
  | arrayLiteral => exact exec_foldArrayLiteral
  | dupStore => exact exec_foldDupStore
  | pop => exact exec_removePop
  | swap => exact exec_removeSwap
  | compound => exact exec_foldCompound
  | compoundThroughDup => exact exec_foldCompoundThroughDup
  | postIncrement => exact exec_foldPostIncrement
  | postIncrementThroughDup => exact exec_foldPostIncrementThroughDup
  | preIncrement => exact exec_foldPreIncrement
  | ternary => exact exec_foldTernary
  | combineConditions => exact exec_combineConditions
  | forInitializer => exact exec_foldForInitializer
  | synchronizedObject => exact exec_completeSynchronized
  | removeEmpty => exact exec_removeEmpty
  | dup => exact exec_removeDup

namespace Analysis

variable {a a' : Analysis} {b new : BlockId} {rules : List Rule}

theorem exec_firstM (rules : List Rule) (b : BlockId) (a : Analysis) :
    Rewrite.exec (rules.firstM (·.program b)) a = outcome a (rules.findSome? (Rule.apply a b)) := by
  induction rules with
  | nil => rfl
  | cons rule rules ih =>
    change Rewrite.exec (rule.program b <|> rules.firstM (·.program b)) a = _
    rw [exec_orElse, rule.exec_program, List.findSome?_cons]
    cases rule.apply a b with
    | none => exact ih
    | some r => rfl

theorem applyRules_eq (a : Analysis) (rules : List Rule) (b : BlockId) :
    a.applyRules rules b = outcome a (a.applyFirst rules b) := by
  rw [applyRules, applyFirst, exec_bind, exec_firstM]
  cases rules.findSome? (Rule.apply a b) with
  | none => rfl
  | some r => rfl

theorem applyFirst_of_applyRules (h : a.applyRules rules b = (some new, a')) :
    a.applyFirst rules b = some (a', new) := by
  rw [applyRules_eq] at h
  cases hr : a.applyFirst rules b with
  | none => rw [hr] at h; cases h
  | some r => rw [hr] at h; cases h; rfl

theorem declined_of_applyRules (h : a.applyRules rules b = (none, a')) :
    a.applyFirst rules b = none ∧ a' = a := by
  rw [applyRules_eq] at h
  cases hr : a.applyFirst rules b with
  | none => rw [hr] at h; exact ⟨rfl, (Prod.mk.inj h).2.symm⟩
  | some r => rw [hr] at h; cases h

end Analysis

/-- A rule that declines, and a list of rules all of which decline, leave the state as it was. -/
theorem Rule.unchanged_of_declined (b : BlockId) (a a' : Analysis) :
    (∀ rule : Rule, (rule.program b).exec a = (none, a') → a' = a) ∧
      ∀ rules : List Rule, a.applyRules rules b = (none, a') → a' = a := by
  constructor
  · intro rule h
    rw [rule.exec_program] at h
    cases hr : rule.apply a b with
    | none => rw [hr] at h; exact (Prod.mk.inj h).2.symm
    | some r => rw [hr] at h; cases h
  · intro rules h
    exact (Analysis.declined_of_applyRules h).2

/-- A push of one slot before a store of two. -/
def mismatched : Analysis where
  exprs := [.const (.int 1), .var ⟨0⟩, .free 2, .assign ⟨1⟩ none ⟨2⟩].foldl
    (fun t x ↦ (t.alloc x).1) {}
  blocks := [.evaluate ⟨0⟩ 1, .evaluate ⟨3⟩ 0, .sequence ⟨0⟩ ⟨1⟩].foldl
    (fun t s ↦ (t.alloc s).1) {}
  checked := true
  fuel := 0

theorem Rule.unchanged_of_declined_mismatched :
    mismatched.blocks.preceding ⟨1⟩ 1 = some [⟨0⟩] ∧
      ((createExpression.program ⟨1⟩).exec mismatched).1 = none ∧
      ((createExpression.program ⟨1⟩).exec mismatched).2 = mismatched := by
  have h : ((createExpression.program ⟨1⟩).exec mismatched).1 = none := by decide
  exact ⟨by decide, h, (unchanged_of_declined ⟨1⟩ mismatched _).1 createExpression (Prod.ext h rfl)⟩

end Decompile
