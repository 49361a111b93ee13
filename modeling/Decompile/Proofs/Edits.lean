import Mathlib.Logic.Relation
import Decompile.Handler.Structure
import Decompile.Inlining
import Decompile.Proofs.Negation
import Decompile.Proofs.Partition
import Decompile.Proofs.TreeEdit

/-!
All work on the trees of a method is made of a few edits. An invariant that each of them keeps is
kept by every rule and by every way to turn a jump into structure.
-/

namespace Decompile

namespace Statement

/-- What only the code of a method brings about: a subroutine call, or a switch with its
selector. -/
def origin : Statement → Option (Option ExprId)
  | jsr _ => some none
  | switch selector _ _ => some (some selector)
  | _ => none

theorem origin_mapChildren (f : BlockId → BlockId) (s : Statement) :
    (s.mapChildren f).origin = s.origin := by
  cases s <;> rfl

end Statement

theorem Locals.sameSlot_symm {t : Locals} {x y : LocalId} (h : t.sameSlot x y = true) :
    t.sameSlot y x = true := by
  simp only [sameSlot, Bool.and_eq_true, beq_iff_eq] at h ⊢
  exact ⟨h.2 ▸ h.1, h.2.symm⟩

namespace Expressions

variable {t : Expressions} {locals : Locals} {free : Bool}

theorem size_foldZeroTest (t : Expressions) (e : ExprId) : (t.foldZeroTest e).size = t.size := by
  unfold foldZeroTest
  split
  · split
    · split
      · exact size_set ..
      · split
        · exact size_set ..
        · split
          · exact size_set ..
          · rfl
    · rfl
  · rfl

theorem size_simplifyWithin (n : Nat) (e : ExprId) (t : Expressions) :
    (simplifyWithin n e t).size = t.size := by
  induction n generalizing e t with
  | zero => rfl
  | succ n ih =>
    rw [simplifyWithin, size_foldZeroTest]
    induction (t.get e).children generalizing t with
    | nil => rfl
    | cons c cs ihcs => rw [List.foldl_cons, ihcs, ih]

theorem size_of_fillLastFree? {t' : Expressions} {root value : ExprId} {width : Nat}
    (h : t.fillLastFree? root value width = some t') : t'.size = t.size := by
  rw [fillLastFree?] at h
  split at h
  · split at h
    · cases h
      exact (size_simplifyWithin ..).trans (size_set ..)
    · cases h
  · cases h

/-- Expressions of the same place name locals of the same slots, in the same order. -/
theorem forall₂_of_samePlaceWithin (n : Nat) {x y : ExprId}
    (h : t.samePlaceWithin locals free n x y = true) :
    List.Forall₂ (fun u v ↦ locals.sameSlot u v = true)
      ((t.preorderWithin n x).filterMap fun e ↦ (t.get e).local?)
      ((t.preorderWithin n y).filterMap fun e ↦ (t.get e).local?) := by
  induction n generalizing x y with
  | zero => cases h
  | succ n ih =>
    have hnode (z : ExprId) : (t.preorderWithin (n + 1) z).filterMap (fun e ↦ (t.get e).local?) =
        (t.get z).local?.toList ++ (t.get z).children.flatMap fun c ↦
          (t.preorderWithin n c).filterMap fun e ↦ (t.get e).local? := by
      rw [preorderWithin, List.filterMap_cons, List.filterMap_flatMap]
      cases (t.get z).local? <;> rfl
    rw [hnode, hnode]
    rw [samePlaceWithin] at h
    split at h
    next u v hu hv =>
      rw [hu, hv]
      exact .cons h .nil
    next hu hv =>
      rw [hu, hv]
      exact .nil
    next hu hv =>
      rw [hu, hv]
      exact .nil
    next o r o' r' hu hv =>
      rw [hu, hv]
      cases o <;> cases o' <;> simp_all [Expression.local?, Expression.children]
    next a i a' i' hu hv =>
      rw [hu, hv]
      obtain ⟨ha, hi⟩ := (Bool.and_eq_true _ _).mp h
      simpa [Expression.local?, Expression.children] using List.rel_append (ih ha) (ih hi)
    next => cases h

end Expressions

namespace Analysis

/-- One edit. None of them moves code from one flow block to another, makes a subroutine call or a
switch, drops expressions or joins locals of different slots. -/
inductive Edit (a : Analysis) : Analysis → Prop
  | exprs (t : Expressions) : a.exprs.size ≤ t.size → Edit a { a with exprs := t }
  | alloc (s : Statement) : s.origin = none → Edit a (a.alloc s).1
  | statement (b : BlockId) (s : Statement) :
    (∀ o, s.origin = some o → (a.statement b).origin = some o) → Edit a (a.setStatement b s)
  | outer (b : BlockId) (o : Option BlockId) : Edit a (a.setOuter b o)
  | hold (b : BlockId) (j : Option JumpId) : Edit a (a.setJumpOf b j)
  | source (j : JumpId) (b : BlockId) : Edit a (a.modifyJump j ({ · with source := b }))
  | unlink (f : FlowId) (j : JumpId) : Edit a { a with graph := a.graph.unlinkJump f j }
  | dropEdge (f d : FlowId) : Edit a { a with graph := a.graph.removeEdge f d }
  | outline (f : FlowId) (k : Flow → Flow) : (∀ x, (k x).outline = x.outline) →
    Edit a (a.modifyFlow f k)
  | join (x y : LocalId) : a.locals.sameSlot x y = true → Edit a (a.mergeLocals x y)
  | catches : Edit a (a.addLocal .exception none).1
  | count (n : Nat) : Edit a { a with applied := n }
  | fail (e : Option Inconsistency) : Edit a { a with broken := e }
  | refuel (n : Nat) : Edit a { a with fuel := n }

def Edits : Analysis → Analysis → Prop := Relation.ReflTransGen Edit

variable {a a' a'' : Analysis} {b : BlockId} {f succ : FlowId} {j : JumpId}

namespace Edits

theorem refl (a : Analysis) : Edits a a := Relation.ReflTransGen.refl

theorem trans (h : Edits a a') (h' : Edits a' a'') : Edits a a'' := Relation.ReflTransGen.trans h h'

theorem step (h : Edits a a') (h' : Edit a' a'') : Edits a a'' := Relation.ReflTransGen.tail h h'

theorem foldl {α : Type} {k : Analysis → α → Analysis} (h : Edits a a')
    (hk : ∀ a x, Edits a (k a x)) (l : List α) : Edits a (l.foldl k a') :=
  List.foldlRecOn l k h fun a' h x _ ↦ h.trans (hk a' x)

theorem ite {p : Prop} [Decidable p] (h : p → Edits a a') (h' : ¬ p → Edits a a'') :
    Edits a (if p then a' else a'') := by
  split
  · exact h ‹_›
  · exact h' ‹_›

section Parts

variable (h : Edits a a')
include h

theorem setExpr (e : ExprId) (x : Expression) : Edits a (a'.setExpr e x) :=
  h.step (.exprs _ (Expressions.size_set ..).ge)

theorem allocExpr (x : Expression) : Edits a (a'.allocExpr x).1 :=
  h.step (.exprs _ (Expressions.extends_alloc ..).size_le)

theorem negate (e : ExprId) : Edits a (a'.negate e).1 :=
  h.step (.exprs _ (Expressions.extends_negate ..).size_le)

theorem alloc {s : Statement} (hs : s.origin = none) : Edits a (a'.alloc s).1 :=
  h.step (.alloc s hs)

theorem setStatement (b : BlockId) {s : Statement} (hs : s.origin = none) :
    Edits a (a'.setStatement b s) :=
  h.step (.statement b s (by simp [hs]))

theorem modifyStatement (b : BlockId) {k : Statement → Statement}
    (hk : ∀ s, (k s).origin = s.origin) : Edits a (a'.modifyStatement b k) :=
  h.step (.statement b _ (by simp [hk]))

theorem setOuter (b : BlockId) (o : Option BlockId) : Edits a (a'.setOuter b o) :=
  h.step (.outer b o)

theorem setJumpOf (b : BlockId) (j : Option JumpId) : Edits a (a'.setJumpOf b j) :=
  h.step (.hold b j)

theorem setSource (j : JumpId) (b : BlockId) : Edits a (a'.modifyJump j ({ · with source := b })) :=
  h.step (.source j b)

theorem removeEdge (f d : FlowId) : Edits a { a' with graph := a'.graph.removeEdge f d } :=
  h.step (.dropEdge f d)

theorem setRoot (f : FlowId) (b : BlockId) : Edits a (a'.setRoot f b) :=
  h.step (.outline f _ fun _ ↦ rfl)

theorem setGrowth (f : FlowId) (b : BlockId) : Edits a (a'.setGrowth f b) :=
  h.step (.outline f _ fun _ ↦ rfl)

theorem put (place : Place) (old new : BlockId) : Edits a (a'.put place old new) := by
  cases place with
  | child parent =>
    let s := (a'.statement parent).mapChildren fun b ↦ if b = old then new else b
    have hs : Edits a (a'.setStatement parent s) :=
      h.step (.statement parent s (by simp [s, Statement.origin_mapChildren]))
    simp only [Analysis.put, Blocks.replaceChild]
    split
    · exact (hs.setOuter old none).setOuter new (some parent)
    · exact hs.setOuter new (some parent)
  | root f => exact (h.setOuter _ _).step (.outline f _ fun _ ↦ rfl)
  | detached => exact h

theorem replaceBlock (old new : BlockId) : Edits a (a'.replaceBlock old new) := h.put _ _ _

theorem removeJump (f : FlowId) (j : JumpId) : Edits a (a'.removeJump f j) := by
  have hset : Edits a (if a'.jumpOf (a'.jump j).source = some j
      then a'.setJumpOf (a'.jump j).source none else a') :=
    ite (fun _ ↦ h.setJumpOf _ _) fun _ ↦ h
  exact hset.step (.unlink f j)

theorem removeJumps (f : FlowId) : Edits a (a'.removeJumps f) :=
  h.foldl (fun a _ ↦ (refl a).foldl (fun a j ↦ (refl a).removeJump f j) _) _

theorem moveJump (source target : BlockId) : Edits a (a'.moveJump source target) := by
  unfold Analysis.moveJump
  split
  · exact ((h.setJumpOf _ _).setJumpOf _ _).setSource _ _
  · exact h

theorem wrapSequential (b next : BlockId) : Edits a (a'.wrapSequential b next).1 :=
  (h.alloc rfl).put _ _ _

theorem replaceJumpWith (f : FlowId) (j : JumpId) (b : BlockId) :
    Edits a (a'.replaceJumpWith f j b) := by
  have hr := h.removeJump f j
  unfold Analysis.replaceJumpWith
  exact ite (fun _ ↦ hr.replaceBlock _ _) fun _ ↦ ite (fun _ ↦ hr) fun _ ↦ hr.wrapSequential _ _

theorem insertBefore (b new : BlockId) : Edits a (a'.insertBefore b new) := (h.alloc rfl).put _ _ _

theorem retargetGrowth (old : List BlockId) (new : BlockId) : Edits a (a'.retargetGrowth old new) :=
  h.foldl (fun a f ↦ ite (fun _ ↦ (refl a).setGrowth f new) fun _ ↦ refl a) _

theorem removeStatement (b : BlockId) : Edits a (a'.removeStatement b) := by
  unfold Analysis.removeStatement
  split
  · exact h
  · exact ((((h.moveJump _ _).moveJump _ _).setOuter _ _).put _ _ _).retargetGrowth _ _

theorem replaceStatement (old new : BlockId) : Edits a (a'.replaceStatement old new) :=
  ((h.moveJump _ _).replaceBlock _ _).retargetGrowth _ _

theorem discardStatement (b : BlockId) : Edits a (a'.discardStatement b) := by
  unfold Analysis.discardStatement
  exact ite (fun _ ↦ h.removeStatement b) fun _ ↦ (h.alloc rfl).replaceStatement _ _

theorem dropIfEmpty (b : BlockId) : Edits a (a'.dropIfEmpty b) := by
  unfold Analysis.dropIfEmpty
  exact ite (fun _ ↦ h.removeStatement b) fun _ ↦ h

theorem setLabeled (b : BlockId) : Edits a (a'.setLabeled b) :=
  h.modifyStatement b fun s ↦ by cases s <;> rfl

theorem setCondition (b : BlockId) (cond : ExprId) : Edits a (a'.setCondition b cond) :=
  h.modifyStatement b fun s ↦ by cases s <;> rfl

theorem checkpoint : Edits a a'.checkpoint := by
  unfold Analysis.checkpoint
  refine ite (fun _ ↦ ?_) fun _ ↦ h
  split
  · exact h
  · exact h.step (.fail _)

theorem tick (ht : a'.tick = some a'') : Edits a a'' := by
  unfold Analysis.tick at ht
  split at ht
  · cases ht
  · cases ht
    exact h.step (.refuel _)

end Parts

theorem removeStatements (h : Edits a a') (bs : List BlockId) : Edits a (a'.removeStatements bs) :=
  h.foldl (fun a b ↦ (refl a).removeStatement b) bs

theorem replaceRun (h : Edits a a') (run : List BlockId) (last : BlockId) {s : Statement}
    (hs : s.origin = none) : Edits a (a'.replaceRun run last s).1 :=
  ((h.alloc hs).removeStatements run).replaceStatement _ _

section Locals

theorem joinAll {l : List (LocalId × LocalId)} (h : Edits a a')
    (hl : ∀ p ∈ l, a'.locals.sameSlot p.1 p.2 = true) :
    Edits a (l.foldl (fun a p ↦ a.mergeLocals p.1 p.2) a') := by
  induction l generalizing a' with
  | nil => exact h
  | cons p l ih =>
    apply ih (h.step (.join _ _ (hl p List.mem_cons_self)))
    intro q hq
    simpa [Locals.sameSlot, mergeLocals] using hl q (List.mem_cons_of_mem _ hq)

theorem mergePlaces {x y : ExprId} {free : Bool} (h : Edits a a')
    (hs : a'.samePlace x y free = true) : Edits a (a'.mergePlaces x y) := by
  apply h.joinAll
  intro p hp
  exact (List.forall₂_iff_zip.mp (Expressions.forall₂_of_samePlaceWithin _ hs)).2 hp

theorem mergePlaces_swap {x y : ExprId} {free : Bool} (h : Edits a a')
    (hs : a'.samePlace y x free = true) : Edits a (a'.mergePlaces x y) := by
  apply h.joinAll
  intro p hp
  refine Locals.sameSlot_symm ?_
  exact (List.forall₂_iff_zip.mp (Expressions.forall₂_of_samePlaceWithin _ hs).flip).2 hp

theorem mergeBySlot (h : Edits a a') (reads writes : VariableSet) :
    Edits a (a'.mergeBySlot reads writes) := by
  refine h.foldl (fun a read ↦ ?_) _
  have hone (a a' : Analysis) (h : Edits a a') (hslot : ∀ z, a'.locals.slot z = a.locals.slot z)
      (l : List LocalId) (hl : ∀ w ∈ l, a.locals.sameSlot read w = true) :
      Edits a (l.foldl (fun a write ↦ a.mergeLocals read write) a') := by
    induction l generalizing a' with
    | nil => exact h
    | cons w l ih =>
      refine ih (a'.mergeLocals read w) (h.step (.join _ _ ?_)) ?_
        fun w hw ↦ hl w (List.mem_cons_of_mem _ hw)
      · simpa [Locals.sameSlot, hslot] using hl w List.mem_cons_self
      · intro z
        simp [mergeLocals, hslot]
  apply hone a a (refl a) fun _ ↦ rfl
  intro w hw
  exact (List.mem_filter.mp hw).2

end Locals

end Edits

/-- The result, if there is one, is as described. -/
def Offers {α : Type} (P : α → Prop) (r : Option α) : Prop := ∀ x, r = some x → P x

namespace Offers

variable {α β : Type} {P : α → Prop}

theorem none : Offers P none := fun _ h ↦ by cases h

theorem some {x : α} (h : P x) : Offers P (some x) := fun _ h' ↦ by
  cases h'
  exact h

theorem bind {o : Option β} {k : β → Option α} (h : ∀ x, o = Option.some x → Offers P (k x)) :
    Offers P (o >>= k) := by
  cases o with
  | none => exact none
  | some x => exact h x rfl

theorem test {p : Prop} [Decidable p] {r : Option α} (h : p → Offers P r) :
    Offers P (guard p >>= fun _ ↦ r) := by
  intro x hx
  obtain ⟨hp, hr⟩ := guard_bind_eq_some.mp hx
  exact h hp x hr

theorem orElse {r s : Option α} (h : Offers P r) (h' : Offers P s) : Offers P (r <|> s) := by
  cases r with
  | none => exact h'
  | some x => exact h

end Offers

end Analysis

end Decompile
