import Decompile.Proofs.View
import Decompile.Rule.Fixpoint

/-!
What a declaration in a block, a join of locals and the budget leave alone: almost all that the
passes look at.
-/

namespace Decompile

namespace Blocks

variable {t t' : Blocks}

/-- The same blocks apart from what they declare. -/
structure Redeclares (t t' : Blocks) : Prop where
  size : t'.size = t.size
  statement : ∀ b, t'.statement b = t.statement b
  outer : ∀ b, t'.outer b = t.outer b
  jump : ∀ b, t'.jump b = t.jump b

namespace Redeclares

theorem refl (t : Blocks) : Redeclares t t := ⟨rfl, fun _ ↦ rfl, fun _ ↦ rfl, fun _ ↦ rfl⟩

variable (h : Redeclares t t')
include h

theorem setDeclares (b : BlockId) (d : VariableSet) : Redeclares t (t'.setDeclares b d) := by
  have hget {α : Type} {k : Block → α} (hk : ∀ x : Block, k { x with declares := d } = k x)
      (c : BlockId) : k ((t'.setDeclares b d).get c) = k (t'.get c) := by
    rw [Blocks.setDeclares, get_modify]
    split
    · exact hk _
    · rfl
  exact ⟨(size_modify ..).trans h.size, fun c ↦ (hget (fun _ ↦ rfl) c).trans (h.statement c),
    fun c ↦ (hget (fun _ ↦ rfl) c).trans (h.outer c),
    fun c ↦ (hget (fun _ ↦ rfl) c).trans (h.jump c)⟩

theorem clear (bs : List BlockId) : Redeclares t (bs.foldl (·.setDeclares · {}) t') := by
  induction bs generalizing t' with
  | nil => exact h
  | cons b bs ih => exact ih (h.setDeclares b {})

theorem prevStatement (b : BlockId) : t'.prevStatement b = t.prevStatement b := by
  simp only [Blocks.prevStatement, h.statement, h.outer]

theorem preceding (b : BlockId) (n : Nat) : t'.preceding b n = t.preceding b n := by
  have hwithin (n : Nat) (b : BlockId) (run : List BlockId) :
      t'.precedingWithin n b run = t.precedingWithin n b run := by
    induction n generalizing b run with
    | zero => rfl
    | succ n ih => simp only [precedingWithin, h.prevStatement, ih]
  exact hwithin n b []

theorem ancestors (b : BlockId) : t'.ancestors b = t.ancestors b := by
  have hwithin (n : Nat) (b : BlockId) : t'.ancestorsWithin n b = t.ancestorsWithin n b := by
    induction n generalizing b with
    | zero => rfl
    | succ n ih => simp only [ancestorsWithin, h.outer, ih]
  rw [Blocks.ancestors, h.size, hwithin, Blocks.ancestors]

theorem isWithin (b c : BlockId) : t'.isWithin b c = t.isWithin b c := by
  rw [Blocks.isWithin, h.ancestors, Blocks.isWithin]

theorem commonAncestor (b c : BlockId) : t'.commonAncestor b c = t.commonAncestor b c := by
  rw [Blocks.commonAncestor, h.ancestors, funext (h.isWithin c), Blocks.commonAncestor]

theorem subtree (b : BlockId) : t'.subtree b = t.subtree b := by
  have hwithin (n : Nat) (b : BlockId) : t'.subtreeWithin n b = t.subtreeWithin n b := by
    induction n generalizing b with
    | zero => rfl
    | succ n ih => rw [subtreeWithin, h.statement, funext ih, subtreeWithin]
  rw [Blocks.subtree, h.size, hwithin, Blocks.subtree]

end Redeclares

end Blocks

namespace Analysis

variable {a a' : Analysis}

/-- Two states that look alike to a rule, apart from blocks that declare locals in the second
state alone. -/
structure Resembles (a a' : Analysis) : Prop where
  exprs : a'.exprs = a.exprs
  graph : a'.graph = a.graph
  blocks : a.blocks.Redeclares a'.blocks
  bare : ∀ b, (a'.blocks.get b).declares.isEmpty → (a.blocks.get b).declares.isEmpty
  slot : ∀ x, a'.locals.slot x = a.locals.slot x

namespace Resembles

variable (h : Resembles a a')
include h

theorem expr (e : ExprId) : a'.expr e = a.expr e := by rw [Analysis.expr, h.exprs, Analysis.expr]

theorem statement (b : BlockId) : a'.statement b = a.statement b := h.blocks.statement b

theorem jumpOf (b : BlockId) : a'.jumpOf b = a.jumpOf b := h.blocks.jump b

theorem jump (j : JumpId) : a'.jump j = a.jump j := by rw [Analysis.jump, h.graph, Analysis.jump]

theorem pushed? (b : BlockId) : a'.pushed? b = a.pushed? b := by
  simp only [Analysis.pushed?, h.statement, h.jumpOf]

theorem statementExpr? (b : BlockId) : a'.statementExpr? b = a.statementExpr? b := by
  simp only [Analysis.statementExpr?, h.statement]

theorem shuffle? (b : BlockId) : a'.shuffle? b = a.shuffle? b := by
  simp only [Analysis.shuffle?, h.statement]

theorem dupShape? (b : BlockId) : a'.dupShape? b = a.dupShape? b := by
  simp only [Analysis.dupShape?, h.shuffle?]

theorem duplicates (b : BlockId) (copied skipped : Nat) :
    a'.duplicates b copied skipped = a.duplicates b copied skipped := by
  simp only [Analysis.duplicates, h.dupShape?]

theorem flowOf (b : BlockId) : a'.flowOf b = a.flowOf b := by
  rw [Analysis.flowOf, h.graph, Blocks.rootOf, h.blocks.ancestors, Analysis.flowOf, Blocks.rootOf]

theorem sibling? (b : BlockId) : a'.sibling? b = a.sibling? b := by
  simp only [Analysis.sibling?, Analysis.outer, h.blocks.outer, h.statement]

theorem canRemoveStatement (b : BlockId) : a'.canRemoveStatement b = a.canRemoveStatement b := by
  simp only [Analysis.canRemoveStatement, h.sibling?, h.jumpOf]

theorem removable {bs : List BlockId} (hbs : a'.removable bs) : a.removable bs := by
  simp only [Analysis.removable, List.all_eq_true, Bool.and_eq_true, h.jumpOf,
    h.canRemoveStatement] at hbs ⊢
  intro b hb
  obtain ⟨⟨hjump, hbare⟩, hcan⟩ := hbs b hb
  exact ⟨⟨hjump, h.bare b hbare⟩, hcan⟩

theorem sameSlot (x y : LocalId) : a'.locals.sameSlot x y = a.locals.sameSlot x y := by
  rw [Locals.sameSlot, h.slot, h.slot, Locals.sameSlot]

theorem samePlace (x y : ExprId) (free : Bool) : a'.samePlace x y free = a.samePlace x y free := by
  have hwithin (n : Nat) (x y : ExprId) :
      a.exprs.samePlaceWithin a'.locals free n x y =
        a.exprs.samePlaceWithin a.locals free n x y := by
    induction n generalizing x y with
    | zero => rfl
    | succ n ih => simp only [Expressions.samePlaceWithin, ih, h.sameSlot]
  rw [Analysis.samePlace, Expressions.samePlace, h.exprs, hwithin, Analysis.samePlace,
    Expressions.samePlace]

theorem localSlot (e : ExprId) : a'.exprs.localSlot a'.locals e = a.exprs.localSlot a.locals e := by
  rw [Expressions.localSlot, h.exprs, funext h.slot, Expressions.localSlot]

theorem readsSlot (e : ExprId) (slot : Nat) :
    a'.exprs.readsSlot a'.locals e slot = a.exprs.readsSlot a.locals e slot := by
  simp only [Expressions.readsSlot, h.exprs, h.slot]

theorem assignedBinary? (e : ExprId) : a'.assignedBinary? e = a.assignedBinary? e := by
  simp only [Analysis.assignedBinary?, h.expr]

theorem conditionalJump? (b : BlockId) : a'.conditionalJump? b = a.conditionalJump? b := by
  simp only [Analysis.conditionalJump?, h.statement, h.jumpOf]

theorem arrayUnderway? (e : ExprId) : a'.arrayUnderway? e = a.arrayUnderway? e := by
  simp only [Analysis.arrayUnderway?, h.expr]

theorem updated? (e : ExprId) : a'.updated? e = a.updated? e := by
  simp only [Analysis.updated?, h.expr]

theorem assignedTo? (e : ExprId) (x : LocalId) : a'.assignedTo? e x = a.assignedTo? e x := by
  simp only [Analysis.assignedTo?, h.expr, h.sameSlot]

end Resembles

end Analysis

end Decompile
