import Mathlib.Logic.Basic
import Decompile.Method
import Decompile.Proofs.Resembling

/-!
Nothing but the taking of a step looks at the budget: every edit of the state does the same
whatever the budget is, and keeps it.
-/

namespace Decompile

variable {α β γ β' ε : Type}

theorem map_bind_of {φ : α → γ} {o : Option β} {k : β → Option α} {k' : β → Option γ}
    (h : ∀ x, k' x = (k x).map φ) : (o >>= k') = (o >>= k).map φ := by
  cases o with
  | none => rfl
  | some x => exact h x

theorem map_ite_of {φ : α → γ} {p : Prop} [Decidable p] {x y : Option α} {x' y' : Option γ}
    (hx : p → x' = x.map φ) (hy : ¬ p → y' = y.map φ) :
    (if p then x' else y') = (if p then x else y).map φ := by
  by_cases h : p
  · rw [if_pos h, if_pos h, hx h]
  · rw [if_neg h, if_neg h, hy h]

theorem map_orElse (φ : α → β) (x y : Option α) : (x.map φ <|> y.map φ) = (x <|> y).map φ := by
  cases x <;> rfl

theorem map_except_bind_of {α' : Type} {φ : α → α'} {ψ : β → β'} {o : Except ε α}
    {o' : Except ε α'} {k : α → Except ε β} {k' : α' → Except ε β'} (ho : o' = o.map φ)
    (hk : ∀ x, k' (φ x) = (k x).map ψ) : (o' >>= k') = (o >>= k).map ψ := by
  cases o with
  | error e =>
    rw [ho]
    rfl
  | ok x =>
    rw [ho]
    exact hk x

theorem map_except_of {ψ : β → β'} {o : Except ε α} {k : α → Except ε β} {k' : α → Except ε β'}
    (hk : ∀ x, k' x = (k x).map ψ) : (o >>= k') = (o >>= k).map ψ := by
  cases o with
  | error e => rfl
  | ok x => exact hk x

namespace Analysis

/-- The state with its budget changed by `u`. -/
def refuel (u : Nat → Nat) (a : Analysis) : Analysis := { a with fuel := u a.fuel }

/-- A state and what has come with it, with the budget changed by `u`. -/
def fueled {α : Type} (u : Nat → Nat) (r : Analysis × α) : Analysis × α := (r.1.refuel u, r.2)

@[simp] theorem fueled_mk (u : Nat → Nat) (a : Analysis) (x : α) :
    fueled u (a, x) = (a.refuel u, x) := rfl

@[simp] theorem fst_fueled (u : Nat → Nat) (r : Analysis × α) : (fueled u r).1 = r.1.refuel u := rfl

@[simp] theorem snd_fueled (u : Nat → Nat) (r : Analysis × α) : (fueled u r).2 = r.2 := rfl

section Reading

variable (u : Nat → Nat) (a : Analysis) (b : BlockId) (e : ExprId) (f : FlowId) (j : JumpId)

@[simp] theorem fuel_refuel : (a.refuel u).fuel = u a.fuel := rfl

@[simp] theorem exprs_refuel : (a.refuel u).exprs = a.exprs := rfl

@[simp] theorem blocks_refuel : (a.refuel u).blocks = a.blocks := rfl

@[simp] theorem locals_refuel : (a.refuel u).locals = a.locals := rfl

@[simp] theorem graph_refuel : (a.refuel u).graph = a.graph := rfl

@[simp] theorem checked_refuel : (a.refuel u).checked = a.checked := rfl

@[simp] theorem entry_refuel : (a.refuel u).entry = a.entry := rfl

@[simp] theorem parameters_refuel : (a.refuel u).parameters = a.parameters := rfl

@[simp] theorem returnsVoid_refuel : (a.refuel u).returnsVoid = a.returnsVoid := rfl

@[simp] theorem broken_refuel : (a.refuel u).broken = a.broken := rfl

@[simp] theorem expr_refuel : (a.refuel u).expr e = a.expr e := rfl

@[simp] theorem statement_refuel : (a.refuel u).statement b = a.statement b := rfl

@[simp] theorem outer_refuel : (a.refuel u).outer b = a.outer b := rfl

@[simp] theorem jumpOf_refuel : (a.refuel u).jumpOf b = a.jumpOf b := rfl

@[simp] theorem flow_refuel : (a.refuel u).flow f = a.flow f := rfl

@[simp] theorem jump_refuel : (a.refuel u).jump j = a.jump j := rfl

@[simp] theorem root_refuel : (a.refuel u).root f = a.root f := rfl

@[simp] theorem placeOf_refuel : (a.refuel u).placeOf b = a.placeOf b := rfl

@[simp] theorem sibling?_refuel : (a.refuel u).sibling? b = a.sibling? b := rfl

@[simp] theorem canRemoveStatement_refuel :
    (a.refuel u).canRemoveStatement b = a.canRemoveStatement b := rfl

@[simp] theorem fallsToEnd_refuel : (a.refuel u).fallsToEnd f b = a.fallsToEnd f b := rfl

@[simp] theorem removable_refuel (bs : List BlockId) :
    (a.refuel u).removable bs = a.removable bs := rfl

@[simp] theorem checkConsistency_refuel : (a.refuel u).checkConsistency = a.checkConsistency := rfl

end Reading

section Parts

variable (u : Nat → Nat) (a : Analysis) (b : BlockId) (e : ExprId) (f : FlowId) (j : JumpId)

@[simp] theorem setExpr_refuel (x : Expression) :
    (a.refuel u).setExpr e x = (a.setExpr e x).refuel u := rfl

@[simp] theorem allocExpr_refuel (x : Expression) :
    (a.refuel u).allocExpr x = ((a.allocExpr x).1.refuel u, (a.allocExpr x).2) := rfl

@[simp] theorem negate_refuel :
    (a.refuel u).negate e = ((a.negate e).1.refuel u, (a.negate e).2) := rfl

@[simp] theorem alloc_refuel (s : Statement) :
    (a.refuel u).alloc s = ((a.alloc s).1.refuel u, (a.alloc s).2) := rfl

@[simp] theorem addLocal_refuel (kind : LocalKind) (slot : Option Nat) :
    (a.refuel u).addLocal kind slot =
      ((a.addLocal kind slot).1.refuel u, (a.addLocal kind slot).2) := rfl

@[simp] theorem setStatement_refuel (s : Statement) :
    (a.refuel u).setStatement b s = (a.setStatement b s).refuel u := rfl

@[simp] theorem modifyStatement_refuel (k : Statement → Statement) :
    (a.refuel u).modifyStatement b k = (a.modifyStatement b k).refuel u := rfl

@[simp] theorem setOuter_refuel (outer : Option BlockId) :
    (a.refuel u).setOuter b outer = (a.setOuter b outer).refuel u := rfl

@[simp] theorem setJumpOf_refuel (jump : Option JumpId) :
    (a.refuel u).setJumpOf b jump = (a.setJumpOf b jump).refuel u := rfl

@[simp] theorem modifyFlow_refuel (k : Flow → Flow) :
    (a.refuel u).modifyFlow f k = (a.modifyFlow f k).refuel u := rfl

@[simp] theorem modifyJump_refuel (k : Jump → Jump) :
    (a.refuel u).modifyJump j k = (a.modifyJump j k).refuel u := rfl

@[simp] theorem setRoot_refuel : (a.refuel u).setRoot f b = (a.setRoot f b).refuel u := rfl

@[simp] theorem setGrowth_refuel : (a.refuel u).setGrowth f b = (a.setGrowth f b).refuel u := rfl

@[simp] theorem setLabeled_refuel : (a.refuel u).setLabeled b = (a.setLabeled b).refuel u := rfl

@[simp] theorem setCondition_refuel :
    (a.refuel u).setCondition b e = (a.setCondition b e).refuel u := rfl

theorem foldl_refuel {k : Analysis → α → Analysis} (hk : ∀ a x, k (a.refuel u) x = (k a x).refuel u)
    (l : List α) (a : Analysis) : l.foldl k (a.refuel u) = (l.foldl k a).refuel u := by
  induction l generalizing a with
  | nil => rfl
  | cons x l ih => rw [List.foldl_cons, List.foldl_cons, hk, ih]

theorem elim_refuel {o : Option α} {a a' : Analysis} {k k' : α → Analysis} (ha : a' = a.refuel u)
    (hk : ∀ x, k' x = (k x).refuel u) : o.elim a' k' = (o.elim a k).refuel u := by
  cases o with
  | none => exact ha
  | some x => exact hk x

@[simp] theorem put_refuel (place : Place) (old new : BlockId) :
    (a.refuel u).put place old new = (a.put place old new).refuel u := by
  cases place <;> rfl

@[simp] theorem replaceBlock_refuel (new : BlockId) :
    (a.refuel u).replaceBlock b new = (a.replaceBlock b new).refuel u := by
  simp [replaceBlock]

@[simp] theorem removeJump_refuel : (a.refuel u).removeJump f j = (a.removeJump f j).refuel u := by
  unfold removeJump
  by_cases h : a.jumpOf (a.jump j).source = some j
  · simp only [jump_refuel, jumpOf_refuel, h]
    rfl
  · simp only [jump_refuel, jumpOf_refuel, h]
    rfl

@[simp] theorem removeJumps_refuel : (a.refuel u).removeJumps f = (a.removeJumps f).refuel u := by
  refine foldl_refuel u (fun a d ↦ ?_) _ a
  exact foldl_refuel u (fun a j ↦ removeJump_refuel u a f j) _ a

@[simp] theorem moveJump_refuel (target : BlockId) :
    (a.refuel u).moveJump b target = (a.moveJump b target).refuel u := by
  simp only [moveJump, jumpOf_refuel]
  cases a.jumpOf b <;> simp

@[simp] theorem wrapSequential_refuel (next : BlockId) : (a.refuel u).wrapSequential b next =
    ((a.wrapSequential b next).1.refuel u, (a.wrapSequential b next).2) := by
  simp [wrapSequential]

@[simp] theorem replaceJumpWith_refuel :
    (a.refuel u).replaceJumpWith f j b = (a.replaceJumpWith f j b).refuel u := by
  simp [replaceJumpWith, apply_ite (refuel u)]

@[simp] theorem insertBefore_refuel (new : BlockId) :
    (a.refuel u).insertBefore b new = (a.insertBefore b new).refuel u := by
  simp [insertBefore]

@[simp] theorem retargetGrowth_refuel (old : List BlockId) :
    (a.refuel u).retargetGrowth old b = (a.retargetGrowth old b).refuel u :=
  foldl_refuel u (fun a f ↦ by simp [apply_ite (refuel u)]) _ a

@[simp] theorem removeStatement_refuel :
    (a.refuel u).removeStatement b = (a.removeStatement b).refuel u := by
  simp only [removeStatement, sibling?_refuel]
  cases a.sibling? b <;> simp

@[simp] theorem replaceStatement_refuel (new : BlockId) :
    (a.refuel u).replaceStatement b new = (a.replaceStatement b new).refuel u := by
  simp [replaceStatement]

@[simp] theorem discardStatement_refuel :
    (a.refuel u).discardStatement b = (a.discardStatement b).refuel u := by
  simp [discardStatement, apply_ite (refuel u)]

@[simp] theorem dropIfEmpty_refuel : (a.refuel u).dropIfEmpty b = (a.dropIfEmpty b).refuel u := by
  simp [dropIfEmpty, apply_ite (refuel u)]

@[simp] theorem checkpoint_refuel : (a.refuel u).checkpoint = a.checkpoint.refuel u := by
  simp only [checkpoint, checkConsistency_refuel,
    apply_ite (refuel u)]
  cases a.checkConsistency <;> rfl

@[simp] theorem mergeBySlot_refuel (reads writes : VariableSet) :
    (a.refuel u).mergeBySlot reads writes = (a.mergeBySlot reads writes).refuel u := by
  refine foldl_refuel u (fun a read ↦ ?_) _ a
  exact foldl_refuel u (fun _ _ ↦ rfl) _ a

theorem takeEdge_refuel (succ : FlowId) (edge : Edge) (out : FlowId × Edge) :
    takeEdge f succ edge (a.refuel u) out = (takeEdge f succ edge a out).refuel u := by
  unfold takeEdge
  simp only [locals_refuel, flow_refuel, graph_refuel]
  generalize a.graph.inheritEdge f succ _ _ _ = g
  rfl

@[simp] theorem absorb_refuel (succ : FlowId) (edge : Edge) :
    (a.refuel u).absorb f succ edge = (a.absorb f succ edge).refuel u := by
  simp only [absorb, mergeBySlot_refuel, modifyFlow_refuel]
  rw [foldl_refuel u fun a out ↦ takeEdge_refuel u a f succ edge out]
  rfl

@[simp] theorem mergeBackEdge_refuel (backEdge : Edge) :
    (a.refuel u).mergeBackEdge f backEdge = (a.mergeBackEdge f backEdge).refuel u := by
  simp [mergeBackEdge]

end Parts

section Rules

variable (u : Nat → Nat) (a : Analysis) (b : BlockId)

@[simp] theorem removeStatements_refuel (bs : List BlockId) :
    (a.refuel u).removeStatements bs = (a.removeStatements bs).refuel u :=
  foldl_refuel u (fun a b ↦ removeStatement_refuel u a b) bs a

@[simp] theorem replaceRun_refuel (run : List BlockId) (s : Statement) :
    (a.refuel u).replaceRun run b s = fueled u (a.replaceRun run b s) := by
  simp [replaceRun]

@[simp] theorem mergePlaces_refuel (x y : ExprId) :
    (a.refuel u).mergePlaces x y = (a.mergePlaces x y).refuel u :=
  foldl_refuel u (fun _ _ ↦ rfl) _ a

end Rules

/-- What the second attempt offers, so does the first, and where the two states differ in their
budgets only, so do the offers. -/
def Follows (a a' : Analysis) (r r' : Option (Analysis × BlockId)) : Prop :=
  r' = none ∨ ∃ x y, r = some x ∧ r' = some y ∧ ∀ u, a' = a.refuel u → y = fueled u x

namespace Follows

variable {a a' : Analysis} {r r' : Option (Analysis × BlockId)}

theorem none : Follows a a' r none := .inl rfl

theorem some {x y : Analysis × BlockId} (h : ∀ u, a' = a.refuel u → y = fueled u x) :
    Follows a a' (some x) (some y) := .inr ⟨x, y, rfl, rfl, h⟩

theorem bind {o : Option γ} {k k' : γ → Option (Analysis × BlockId)}
    (h : ∀ x, Follows a a' (k x) (k' x)) : Follows a a' (o >>= k) (o >>= k') := by
  cases o with
  | none => exact none
  | some x => exact h x

theorem test {p p' : Prop} [Decidable p] [Decidable p'] (hp : p' → p) (h : Follows a a' r r') :
    Follows a a' (guard p >>= fun _ ↦ r) (guard p' >>= fun _ ↦ r') := by
  by_cases h' : p'
  · simp only [hp h', h']
    exact h
  · exact .inl (by simp [h'])

theorem eq_none (h : Follows a a' r r') (hr : r = Option.none) : r' = Option.none := by
  obtain h | ⟨x, y, hx, -⟩ := h
  · exact h
  · cases hr.symm.trans hx

end Follows

namespace Resembles

variable {a a' : Analysis} (h : Resembles a a')
include h

theorem createExpression (b : BlockId) :
    Follows a a' (a.createExpression b) (a'.createExpression b) := by
  simp only [Analysis.createExpression, h.statement, h.exprs, h.blocks.prevStatement, h.pushed?]
  refine .bind fun root ↦ .bind fun leaf ↦ .bind fun prev ↦ .bind fun v ↦
    .test (fun hp ↦ ⟨hp.1, h.removable hp.2⟩) (.bind fun _ ↦ .bind fun exprs ↦ .some ?_)
  rintro u rfl
  exact congrArg (·, b) (removeStatement_refuel u { a with exprs } prev)

theorem foldConstructor (b : BlockId) :
    Follows a a' (a.foldConstructor b) (a'.foldConstructor b) := by
  simp only [Analysis.foldConstructor, h.statementExpr?, h.expr, h.exprs, h.blocks.preceding,
    h.shuffle?, h.pushed?]
  refine .bind fun expr ↦ ?_
  split
  case h_2 => exact .none
  refine .bind fun _ ↦ ?_
  split
  · exact .bind fun _ ↦ .some fun u hu ↦ by simp [hu]
  · refine .bind fun _ ↦ .bind fun run ↦ ?_
    split
    case h_2 => exact .none
    exact .bind fun _ ↦ .bind fun _ ↦ .test (fun hp ↦ ⟨hp.1, h.removable hp.2⟩)
      (.some fun u hu ↦ by simp [hu])

theorem foldArrayLiteral (b : BlockId) :
    Follows a a' (a.foldArrayLiteral b) (a'.foldArrayLiteral b) := by
  simp only [Analysis.foldArrayLiteral, h.statementExpr?, h.expr, h.exprs, h.blocks.preceding,
    h.shuffle?, h.pushed?, h.arrayUnderway?]
  refine .bind fun expr ↦ ?_
  split
  case h_2 => exact .none
  split
  case h_2 => exact .none
  split
  case h_2 => exact .none
  refine .bind fun _ ↦ .bind fun run ↦ ?_
  split
  case h_2 => exact .none
  exact .bind fun _ ↦ .bind fun _ ↦ .bind fun _ ↦
    .test (fun hp ↦ ⟨hp.1, hp.2.1, h.removable hp.2.2⟩) (.some fun u hu ↦ by simp [hu])

theorem foldDupStore (b : BlockId) : Follows a a' (a.foldDupStore b) (a'.foldDupStore b) := by
  simp only [Analysis.foldDupStore, h.statementExpr?, h.expr, h.exprs, h.blocks.preceding,
    h.dupShape?, h.pushed?]
  refine .bind fun expr ↦ ?_
  split
  case h_2 => exact .none
  split
  case h_2 => exact .none
  refine .bind fun run ↦ ?_
  split
  case h_2 => exact .none
  refine .bind fun _ ↦ .bind fun _ ↦
    .test (fun hp ↦ ⟨hp.1, hp.2.1, hp.2.2.1, h.removable hp.2.2.2⟩) (.some ?_)
  rintro u rfl
  exact replaceRun_refuel u { a with exprs := _ } ..

theorem removePop (b : BlockId) : Follows a a' (a.removePop b) (a'.removePop b) := by
  simp only [Analysis.removePop, h.shuffle?, h.blocks.prevStatement, h.pushed?]
  refine .bind fun _ ↦ .bind fun _ ↦ .bind fun _ ↦ .bind fun _ ↦
    .test (fun hp ↦ ⟨hp.1, h.removable hp.2⟩) (.some ?_)
  rintro u rfl
  exact replaceRun_refuel ..

theorem removeSwap (b : BlockId) : Follows a a' (a.removeSwap b) (a'.removeSwap b) := by
  simp only [Analysis.removeSwap, h.shuffle?, h.blocks.preceding, h.pushed?, h.expr,
    h.canRemoveStatement]
  refine .bind fun _ ↦ .bind fun run ↦ ?_
  split
  case h_2 => exact .none
  refine .bind fun x ↦ ?_
  split
  case h_2 => exact .none
  refine .bind fun y ↦ ?_
  split
  case h_2 => exact .none
  exact .bind fun _ ↦ .some fun u hu ↦ by simp [hu]

theorem removeDup (b : BlockId) : Follows a a' (a.removeDup b) (a'.removeDup b) := by
  simp only [Analysis.removeDup, h.shuffle?, h.blocks.prevStatement, h.pushed?, h.expr]
  exact .bind fun _ ↦ .bind fun _ ↦ .bind fun _ ↦ .bind fun _ ↦ .bind fun _ ↦
    .some fun u hu ↦ by simp [hu]

theorem removeEmpty (b : BlockId) : Follows a a' (a.removeEmpty b) (a'.removeEmpty b) := by
  simp only [Analysis.removeEmpty, h.statement, h.jumpOf, h.canRemoveStatement, h.sibling?]
  exact .bind fun _ ↦ .bind fun _ ↦ .some fun u hu ↦ by simp [hu]

theorem foldCompound (b : BlockId) : Follows a a' (a.foldCompound b) (a'.foldCompound b) := by
  simp only [Analysis.foldCompound, h.statement, h.assignedBinary?, h.samePlace, h.exprs]
  split
  case h_2 => exact .none
  exact .bind fun _ ↦ .bind fun _ ↦ .some fun u hu ↦ by simp [hu]

theorem foldCompoundThroughDup (b : BlockId) :
    Follows a a' (a.foldCompoundThroughDup b) (a'.foldCompoundThroughDup b) := by
  simp only [Analysis.foldCompoundThroughDup, h.statement, h.assignedBinary?, h.samePlace,
    h.exprs, h.blocks.prevStatement, h.duplicates]
  split
  case h_2 => exact .none
  exact .bind fun _ ↦ .bind fun _ ↦ .bind fun _ ↦
    .test (fun hp ↦ ⟨hp.1, h.removable hp.2⟩) (.some fun u hu ↦ by simp [hu])

theorem foldPostIncrement (b : BlockId) :
    Follows a a' (a.foldPostIncrement b) (a'.foldPostIncrement b) := by
  simp only [Analysis.foldPostIncrement, h.statementExpr?, h.expr, h.exprs, h.blocks.prevStatement,
    h.pushed?, h.samePlace]
  refine .bind fun expr ↦ ?_
  split
  case h_2 => exact .none
  exact .bind fun _ ↦ .bind fun _ ↦ .bind fun _ ↦
    .test (fun hp ↦ ⟨hp.1, hp.2.1, h.removable hp.2.2⟩) (.some fun u hu ↦ by simp [hu])

theorem foldPostIncrementThroughDup (b : BlockId) :
    Follows a a' (a.foldPostIncrementThroughDup b) (a'.foldPostIncrementThroughDup b) := by
  simp only [Analysis.foldPostIncrementThroughDup, h.statementExpr?, h.assignedBinary?, h.expr,
    h.exprs, h.blocks.preceding, h.dupShape?, h.pushed?, h.samePlace, h.duplicates]
  refine .bind fun expr ↦ .bind fun parts ↦ .bind fun step ↦ ?_
  split
  case h_2 => exact .none
  refine .bind fun _ ↦ .bind fun run ↦ ?_
  split
  case h_2 => exact .none
  exact .bind fun _ ↦ .bind fun _ ↦ .bind fun _ ↦ .bind fun _ ↦ .test (h.removable ·)
    (.some fun u hu ↦ by simp [hu])

theorem foldPreIncrement (b : BlockId) :
    Follows a a' (a.foldPreIncrement b) (a'.foldPreIncrement b) := by
  simp only [Analysis.foldPreIncrement, h.statement, h.statementExpr?, h.expr, h.exprs,
    h.blocks.prevStatement, h.samePlace]
  split
  case h_2 => exact .none
  refine .bind fun _ ↦ ?_
  split
  · exact .bind fun _ ↦ .some fun u hu ↦ by simp [hu]
  · refine .bind fun _ ↦ .bind fun update ↦ ?_
    split
    case h_2 => exact .none
    exact .bind fun _ ↦ .test (fun hp ↦ ⟨hp.1, h.removable hp.2⟩) (.some fun u hu ↦ by simp [hu])
  · exact .none

theorem foldTernary (b : BlockId) : Follows a a' (a.foldTernary b) (a'.foldTernary b) := by
  simp only [Analysis.foldTernary, h.statement, h.pushed?, h.exprs, h.expr]
  split
  case h_2 => exact .none
  refine .bind fun _ ↦ .bind fun _ ↦ .test (fun hp ↦
    ⟨hp.1, hp.2.1, hp.2.2.1, h.bare _ hp.2.2.2.1, h.bare _ hp.2.2.2.2⟩) (.some ?_)
  rintro u rfl
  split <;> simp

theorem combineConditions (b : BlockId) :
    Follows a a' (a.combineConditions b) (a'.combineConditions b) := by
  simp only [Analysis.combineConditions, h.conditionalJump?, h.blocks.prevStatement, h.exprs,
    h.flowOf, h.jump, h.jumpOf]
  refine .bind fun _ ↦ .bind fun _ ↦ .bind fun _ ↦
    .test (fun hp ↦ ⟨hp.1, h.removable hp.2⟩) (.bind fun _ ↦ ?_)
  split
  · exact .some fun u hu ↦ by simp [hu]
  · split
    · exact .some fun u hu ↦ by simp [hu]
    · exact .none

theorem foldForInitializer (b : BlockId) :
    Follows a a' (a.foldForInitializer b) (a'.foldForInitializer b) := by
  simp only [Analysis.foldForInitializer, h.statement, h.blocks.prevStatement, h.statementExpr?,
    h.expr, h.localSlot, h.updated?, h.readsSlot]
  split
  case h_2 => exact .none
  refine .bind fun _ ↦ .bind fun _ ↦ ?_
  split
  case h_2 => exact .none
  refine .bind fun _ ↦ ?_
  split
  case h_2 => exact .none
  refine .bind fun _ ↦ .test (fun hp ↦ ⟨hp.1, hp.2.1, ?_, h.removable hp.2.2.2⟩)
    (.some fun u hu ↦ by simp [hu])
  exact h.exprs ▸ hp.2.2.1

theorem completeSynchronized (b : BlockId) :
    Follows a a' (a.completeSynchronized b) (a'.completeSynchronized b) := by
  simp only [Analysis.completeSynchronized, h.statement, h.blocks.prevStatement, h.statementExpr?,
    h.expr, h.exprs, h.assignedTo?, h.sameSlot]
  split
  case h_2 => exact .none
  refine .bind fun _ ↦ .bind fun _ ↦ ?_
  split
  case h_2 => exact .none
  refine .bind fun _ ↦ ?_
  split
  · exact .bind fun _ ↦ .test (h.removable ·) (.some fun u hu ↦ by simp [hu])
  · exact .bind fun _ ↦ .bind fun _ ↦ .bind fun _ ↦ .bind fun _ ↦ .test (h.removable ·)
      (.some fun u hu ↦ by simp [hu])
  · exact .none

theorem follows (b : BlockId) (rule : Rule) : Follows a a' (rule.apply a b) (rule.apply a' b) := by
  cases rule with
  | createExpression => exact h.createExpression b
  | constructor => exact h.foldConstructor b
  | arrayLiteral => exact h.foldArrayLiteral b
  | dupStore => exact h.foldDupStore b
  | pop => exact h.removePop b
  | swap => exact h.removeSwap b
  | compound => exact h.foldCompound b
  | compoundThroughDup => exact h.foldCompoundThroughDup b
  | postIncrement => exact h.foldPostIncrement b
  | postIncrementThroughDup => exact h.foldPostIncrementThroughDup b
  | preIncrement => exact h.foldPreIncrement b
  | ternary => exact h.foldTernary b
  | combineConditions => exact h.combineConditions b
  | forInitializer => exact h.foldForInitializer b
  | synchronizedObject => exact h.completeSynchronized b
  | removeEmpty => exact h.removeEmpty b
  | dup => exact h.removeDup b

end Resembles

section Rules

variable (u : Nat → Nat) (a : Analysis) (b : BlockId)

theorem apply_refuel (r : Rule) : r.apply (a.refuel u) b = (r.apply a b).map (fueled u) := by
  have h : Resembles a (a.refuel u) := ⟨rfl, rfl, .refl _, fun _ h ↦ h, fun _ ↦ rfl⟩
  have h' : Resembles (a.refuel u) a := ⟨rfl, rfl, .refl _, fun _ h ↦ h, fun _ ↦ rfl⟩
  obtain hnone | ⟨x, y, hx, hy, hxy⟩ := h.follows b r
  · rw [hnone, (h'.follows b r).eq_none hnone]
    rfl
  · rw [hx, hy, hxy u rfl]
    rfl

@[simp] theorem applyFirst_refuel (rules : List Rule) :
    (a.refuel u).applyFirst rules b = (a.applyFirst rules b).map (fueled u) := by
  unfold applyFirst
  induction rules with
  | nil => rfl
  | cons r rules ih =>
    rw [List.findSome?_cons, List.findSome?_cons, apply_refuel]
    cases r.apply a b with
    | none => exact ih
    | some x => rfl

end Rules

end Analysis

end Decompile
