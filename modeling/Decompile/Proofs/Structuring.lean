import Decompile.Method
import Decompile.Proofs.Advancing
import Decompile.Proofs.StackShape

/-!
The states on the way from the flow graph of the instructions to one tree, with the rows of the
exception table that are still to be structured.
-/

namespace Decompile

open Analysis

namespace Analysis

variable {a a' : Analysis} {row : ExceptionRow} {outer : List ExceptionRow} {body handler : FlowId}

theorem startingAt_eq_ok {address : Nat} {f : FlowId} (h : a.startingAt address = .ok f) :
    f ∈ a.graph.live ∧ (a.flow f).addr = address ∧ address < (a.flow f).stop := by
  unfold startingAt at h
  split at h
  next g hg =>
    cases h
    obtain ⟨hat, haddr⟩ := Option.filter_eq_some_iff.mp hg
    have hcover := List.find?_some hat
    simp only [Bool.and_eq_true, decide_eq_true_eq] at haddr hcover
    exact ⟨List.mem_of_find?_eq_some hat, haddr, hcover.2⟩
  next => cases h

theorem exists_reduceRow (h : a.reduceRow row outer = .ok (a', body, handler)) :
    ∃ a₁, a.startingAt row.start = .ok body ∧
      a₁ = (a.reduce body ⟨row.start, max row.stop row.handler⟩).1 ∧
      row.stop ≤ (a₁.flow body).stop ∧ a₁.startingAt row.handler = .ok handler ∧
      (a₁.flow handler).predecessors = [] ∧
      a' = (a₁.reduce handler ⟨row.handler, row.boundary outer⟩).1 ∧
      (a'.flow handler).addr = (a'.flow body).stop := by
  obtain ⟨f, hf, h⟩ := ok_of_bind h
  dsimp only at h
  generalize ha₁ : (a.reduce f ⟨row.start, max row.stop row.handler⟩).1 = a₁ at h
  split at h
  next => cases h
  next hstop =>
  obtain ⟨g, hg, h⟩ := ok_of_bind h
  split at h
  next => cases h
  next hpred =>
  generalize ha₂ : (a₁.reduce g ⟨row.handler, row.boundary outer⟩).1 = a₂ at h
  split at h
  next => cases h
  next hadj =>
  obtain ⟨rfl, hrest⟩ := Prod.mk.inj (Except.ok.inj h)
  obtain ⟨rfl, rfl⟩ := Prod.mk.inj hrest
  exact ⟨a₁, hf, ha₁.symm, by omega, hg, by simpa using hpred, ha₂.symm, not_not.mp hadj⟩

/-- An edit, or one flow block takes over another. -/
inductive Rework (a : Analysis) : Analysis → Prop
  | edit {a' : Analysis} : Edit a a' → Rework a a'
  | absorb (f s : FlowId) (edge : Edge) : Rework a (a.absorb f s edge)

def Reworks : Analysis → Analysis → Prop := Relation.ReflTransGen Rework

theorem Edits.reworks (h : Edits a a') : Reworks a a' := by
  induction h with
  | refl => exact Relation.ReflTransGen.refl
  | tail _ h' ih => exact Relation.ReflTransGen.tail ih (.edit h')

namespace Reworks

variable {a'' : Analysis}

theorem refl (a : Analysis) : Reworks a a := Relation.ReflTransGen.refl

theorem trans (h : Reworks a a') (h' : Reworks a' a'') : Reworks a a'' :=
  Relation.ReflTransGen.trans h h'

theorem edits (h : Reworks a a') (h' : Edits a' a'') : Reworks a a'' := h.trans h'.reworks

theorem absorb (h : Reworks a a') (f s : FlowId) (edge : Edge) : Reworks a (a'.absorb f s edge) :=
  Relation.ReflTransGen.tail h (.absorb f s edge)

theorem absorbHandler (h : Reworks a a') (f s : FlowId) : Reworks a (a'.absorbHandler f s) :=
  (h.absorb f s _).edits ((Edits.refl _).setGrowth f _)

end Reworks

/-- The entry stays, and flow blocks are only ever taken out of the graph. -/
def Thins (a a' : Analysis) : Prop :=
  a'.entry = a.entry ∧ ∀ g, (a'.flow g).alive = true → (a.flow g).alive = true

namespace Thins

variable {a'' : Analysis}

theorem refl (a : Analysis) : Thins a a := ⟨rfl, fun _ ↦ id⟩

theorem trans (h : Thins a a') (h' : Thins a' a'') : Thins a a'' :=
  ⟨h'.1.trans h.1, fun g hg ↦ h.2 g (h'.2 g hg)⟩

theorem modifyFlow (a : Analysis) (f : FlowId) {k : Flow → Flow}
    (hk : ∀ x, (k x).alive = true → x.alive = true) : Thins a (a.modifyFlow f k) :=
  ⟨rfl, fun _ hg ↦ alive_of_modifyFlow hg hk⟩

theorem guarded {P : FlowId → Prop} (h : Thins a a') (ha : Guarded P a) : Guarded P a' :=
  fun g hg ↦ ha g (h.2 g hg)

end Thins

theorem Rework.thins (h : Rework a a') : Thins a a' := by
  cases h with
  | edit h =>
    refine ⟨by cases h <;> rfl, fun g hg ↦ ?_⟩
    rwa [((Edits.refl a).step h).alive_eq] at hg
  | absorb f s edge =>
    exact ⟨by rw [absorb_eq], fun g ↦ alive_of_absorb⟩

theorem Reworks.thins (h : Reworks a a') : Thins a a' := by
  induction h with
  | refl => exact .refl a
  | tail _ h' ih => exact ih.trans h'.thins

/-- What lasts through edits and through changes of a flow block that bring none to life lasts through
the removal of the unreachable ones. -/
theorem removeUnreachable_induction {M : Analysis → Prop} (handlers : List Nat) (ha : M a)
    (hedits : ∀ a a', Edits a a' → M a → M a')
    (hflow : ∀ a f k, (∀ x : Flow, (k x).alive = true → x.alive = true) → M a → M (a.modifyFlow f k)) :
    M (a.removeUnreachable handlers) := by
  refine hedits _ _ (Edits.refl _).checkpoint ?_
  refine List.foldlRecOn _ _ (List.foldlRecOn _ _ (List.foldlRecOn _ _ ha fun a ha f _ ↦ ?_)
    fun a ha f _ ↦ ?_) fun a ha f _ ↦ ?_
  · exact hflow _ f _ (fun _ hx ↦ by cases hx) (hedits _ _ ((Edits.refl a).removeJumps f) ha)
  · refine hflow _ f _ (fun _ ↦ id) (List.foldlRecOn _ _ ha fun a ha pred _ ↦ ?_)
    split
    · exact ha
    · exact hflow a pred _ (fun _ ↦ id) ha
  · unfold yieldRange
    dsimp only
    split
    · exact hflow a _ _ (fun _ ↦ id) ha
    · split
      · exact hflow a _ _ (fun _ ↦ id) ha
      · exact ha

theorem thins_removeUnreachable (a : Analysis) (handlers : List Nat) :
    Thins a (a.removeUnreachable handlers) :=
  removeUnreachable_induction handlers (.refl a) (fun _ _ he h ↦ h.trans he.reworks.thins)
    fun _ f _ hk h ↦ h.trans (.modifyFlow _ f hk)

theorem Advances.reworks {P : FlowId → Prop} {lo : Nat} (h : Advances P lo a a') :
    Reworks a a' := by
  induction h with
  | refl => exact .refl a
  | tail _ h' ih =>
    obtain h' | ⟨f, s, -, a₁, a₂, edge, h₁, h₂, h₃⟩ := h'.edits_or_absorbs
    · exact ih.edits h'
    · exact ((ih.edits ((h₁.removeEdge f s).trans h₂)).absorb f s edge).edits h₃

theorem reworks_reduce (a : Analysis) (f : FlowId) (w : Window) : Reworks a (a.reduce f w).1 :=
  (advances_reduce (P := fun _ ↦ True) (fun _ _ ↦ trivial) trivial (Nat.zero_le _)
    (Nat.zero_le _)).reworks

theorem reworks_reduceRow (h : a.reduceRow row outer = .ok (a', body, handler)) : Reworks a a' := by
  obtain ⟨a₁, -, rfl, -, -, -, rfl, -⟩ := exists_reduceRow h
  exact (reworks_reduce _ _ _).trans (reworks_reduce _ _ _)

theorem reworks_makeFinally (h : a.makeFinally body handler = .ok (some a')) : Reworks a a' := by
  unfold makeFinally at h
  split at h
  next => cases h
  next sub _ =>
  have hred := reworks_reduce a sub ⟨(a.flow sub).addr, everywhere.stop⟩
  dsimp only at h
  generalize (a.reduce sub ⟨(a.flow sub).addr, everywhere.stop⟩).1 = a₁ at h hred
  split at h
  next => cases h
  next head tail _ =>
  split at h
  next => cases h
  next =>
  obtain rfl := Option.some.inj (Except.ok.inj h)
  have hcalls := ((edits_removeCalls a₁ sub).discardStatement tail).discardStatement head
  exact (((hred.edits ((((hcalls.alloc rfl).alloc rfl).setRoot body _).discardTree
    handler)).absorbHandler body handler).absorbHandler body sub).edits (Edits.refl _).checkpoint

theorem reworks_makeSynchronized (h : a.makeSynchronized body handler = some a') :
    Reworks a a' := by
  have hoffer : Offers (Reworks a) (a.makeSynchronized body handler) := by
    unfold makeSynchronized
    refine .bind fun monitor _ ↦ .some ?_
    have hrel := edits_removeReleases a (a.root body) monitor
    exact ((((((hrel.alloc rfl).setRoot body _).reworks.trans
      (advances_foldWithin (fun _ ↦ True) 0 _ _ _).reworks).edits
        ((Edits.refl _).discardTree handler)).absorbHandler body handler).edits
          (Edits.refl _).checkpoint)
  exact hoffer a' h

end Analysis

namespace Structuring

variable {s s' : Structuring} {row : ExceptionRow} {outer : List ExceptionRow}

theorem addRow_cases (h : s.addRow row outer = .ok s') :
    ∃ a body handler, s.analysis.reduceRow row outer = .ok (a, body, handler) ∧
      ((∃ a', a.makeFinally body handler = .ok (some a') ∧ s' = { s with analysis := a' }) ∨
        (∃ a', a.makeSynchronized body handler = some a' ∧ s' = { s with analysis := a' }) ∨
        ∃ existing, s' = { s with analysis := a }.addCatch row body handler existing) := by
  obtain ⟨⟨a, body, handler⟩, hred, h⟩ := ok_of_bind h
  refine ⟨a, body, handler, hred, ?_⟩
  dsimp only at h
  split at h
  next =>
    obtain ⟨found, hfin, h⟩ := ok_of_bind h
    split at h
    next a' => exact .inl ⟨a', hfin, (Except.ok.inj h).symm⟩
    next =>
      split at h
      next a' hsync => exact .inr (.inl ⟨a', hsync, (Except.ok.inj h).symm⟩)
      next => exact .inr (.inr ⟨_, (Except.ok.inj h).symm⟩)
  next => exact .inr (.inr ⟨_, (Except.ok.inj h).symm⟩)

theorem reworks_addCatch (s : Structuring) (row : ExceptionRow) (body handler : FlowId)
    (existing : Bool) : Reworks s.analysis (s.addCatch row body handler existing).analysis := by
  have hcatch := (edits_makeCatch s.analysis handler row.type).reworks
  unfold addCatch
  dsimp only
  split
  next => 
    exact ((hcatch.edits (((Edits.refl _).setStatement _ rfl).setOuter _ _)).absorbHandler body
      handler).edits (Edits.refl _).checkpoint
  next =>
    exact ((hcatch.edits (((Edits.refl _).alloc rfl).setRoot body _)).absorbHandler body
      handler).edits (Edits.refl _).checkpoint

theorem reworks_addRow (h : s.addRow row outer = .ok s') : Reworks s.analysis s'.analysis := by
  obtain ⟨a, body, handler, hred, h⟩ := addRow_cases h
  have hrow := reworks_reduceRow hred
  obtain ⟨a', hfin, rfl⟩ | ⟨a', hsync, rfl⟩ | ⟨existing, rfl⟩ := h
  · exact hrow.trans (reworks_makeFinally hfin)
  · exact hrow.trans (reworks_makeSynchronized hsync)
  · exact hrow.trans (reworks_addCatch { s with analysis := a } row body handler existing)

theorem reworks_addRows (h : s.addRows outer = .ok s') : Reworks s.analysis s'.analysis := by
  induction outer generalizing s with
  | nil => exact Except.ok.inj h ▸ .refl _
  | cons row outer ih =>
    obtain ⟨s₁, h₁, h⟩ := ok_of_bind h
    exact (reworks_addRow h₁).trans (ih h)

end Structuring

/-- The states of the analysis of a method up to its last flow block, with the rows of the exception
table to come. -/
inductive Structures (P : FlowId → Prop) (m : MethodInfo) (code : List Instruction)
    (rows : List ExceptionRow) (o : Options) : List ExceptionRow → Structuring → Prop
  | build {a : Analysis} : build m code o = .ok a → Structures P m code rows o [] ⟨a, []⟩
  | prune {a : Analysis} : Analysis.build m code o = .ok a →
    Structures P m code rows o (ExceptionRow.normalize rows)
      ⟨a.removeUnreachable (rows.map (·.handler)), []⟩
  | advance {rest : List ExceptionRow} {s : Structuring} {a : Analysis} :
    Structures P m code rows o rest s → Advance P 0 s.analysis a →
    Structures P m code rows o rest { s with analysis := a }
  | row {row : ExceptionRow} {outer : List ExceptionRow} {s s' : Structuring} :
    Structures P m code rows o (row :: outer) s → s.addRow row outer = .ok s' →
    Structures P m code rows o outer s'

namespace Structures

variable {P : FlowId → Prop} {m : MethodInfo} {code : List Instruction} {rows : List ExceptionRow}
  {o : Options} {rest : List ExceptionRow} {s s' : Structuring} {a : Analysis}

theorem advances (h : Structures P m code rows o rest s) (ha : Advances P 0 s.analysis a) :
    Structures P m code rows o rest { s with analysis := a } := by
  induction ha with
  | refl => exact h
  | tail _ h' ih => exact ih.advance h'

theorem addRows (h : Structures P m code rows o rest s) (hs : s.addRows rest = .ok s') :
    Structures P m code rows o [] s' := by
  induction rest generalizing s with
  | nil => exact Except.ok.inj hs ▸ h
  | cons row rest ih =>
    obtain ⟨s₁, h₁, hs⟩ := ok_of_bind hs
    exact ih (h.row h₁) hs

theorem of_structureAll {b : Analysis} {n : Nat} {degraded : Bool}
    (hb : Analysis.build m code o = .ok a) (hP : Guarded P a) (hentry : P a.entry)
    (hs : a.structureAll rows n = .ok (b, degraded)) :
    ∃ s, Structures P m code rows o [] s ∧
      b = if degraded then { s.analysis.degrade with fuel := n } else s.analysis := by
  have hthins := thins_removeUnreachable a (rows.map (·.handler))
  obtain ⟨a₁, h₁, hs⟩ := ok_of_bind hs
  cases hh : (a.removeUnreachable (rows.map (·.handler))).structureHandlers rows with
  | error e => rw [hh] at h₁; cases h₁
  | ok a₂ =>
    rw [hh] at h₁
    obtain rfl : a₂ = a₁ := Except.ok.inj h₁
    obtain ⟨s, hrows, hh⟩ := ok_of_bind hh
    obtain rfl : s.analysis = a₂ := by
      split at hh
      · cases hh
      · exact Except.ok.inj hh
    have hs' := hthins.trans (Structuring.reworks_addRows hrows).thins
    have hred := advances_reduceAll (hs'.guarded hP) (hs'.1 ▸ hentry)
    refine ⟨_, ((Structures.prune hb).addRows hrows).advances hred, ?_⟩
    dsimp only at hs
    generalize s.analysis.reduceAll = r at hs ⊢
    split at hs
    next => cases hs
    next =>
      split at hs
      · cases Except.ok.inj hs; rfl
      · cases Except.ok.inj hs; rfl

end Structures

end Decompile
