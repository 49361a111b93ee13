import Mathlib
import Decompile.Method
import Decompile.Proofs.Building
import Decompile.Proofs.Pruning

namespace Decompile

open Proc

theorem Tree.MergesCase.exists_plug {destination : JumpId → FlowId} {s : FlowId} {S T T' : Tree}
    (h : MergesCase destination s S T T') : ∃ C, T' = Decompile.plug C S := by
  cases h with
  | @alone C w c _ e selector l before after v through =>
    exact ⟨⟨c, none, .switchCase v through, [], []⟩ ::
      ⟨w, e, .switch selector l, before, after⟩ :: C, rfl⟩
  | @fallIn C w c _ p e selector l before after u v into _ _ _ P' =>
    refine ⟨⟨c, none, .switchCase v true, [], []⟩ :: ⟨w, e, .switch selector l,
      before ++ [.node p none (.switchCase u into) [P']], after⟩ :: C, ?_⟩
    simp [Decompile.plug, Frame.fill]

namespace Analysis

variable {m : MethodInfo} {code : List Instruction} {o : Options} {a a' : Analysis}
  {f g s : FlowId} {σ ε : Type} {I : Interp σ ε}

/-- The states that the analysis of a method without handlers comes to, from the graph of its
instructions on until nothing more can be reduced. -/
inductive Reached (m : MethodInfo) (code : List Instruction) (o : Options) : Analysis → Prop
  | build {a : Analysis} : build m code o = .ok a → Reached m code o a
  | prune {a : Analysis} : Analysis.build m code o = .ok a →
    Reached m code o (a.removeUnreachable [])
  | step {a a' : Analysis} : Reached m code o a → Step a a' → Reached m code o a'

theorem Reached.sound (h : Reached m code o a) : a.Sound := by
  induction h with
  | build hb => exact sound_of_build hb
  | prune hb => exact (sound_of_build hb).removeUnreachable []
  | step _ hs ih => exact hs.sound ih

theorem Reached.reduces (h : Reached m code o a) (hr : Reduces a a') : Reached m code o a' := by
  induction hr with
  | refl => exact h
  | tail _ hs ih => exact ih.step hs

theorem structureHandlers_nil_eq_ok (h : a.structureHandlers [] = .ok a') : a' = a := by
  have hrows : ExceptionRow.normalize [] = [] := by
    simp [ExceptionRow.normalize, ExceptionRow.coalesce]
  simp only [structureHandlers, hrows, Structuring.addRows, bind, Except.bind] at h
  split at h
  next => cases h
  next => exact (Except.ok.inj h).symm

theorem reached_of_structureAll {b : Analysis} {n : Nat} {degraded : Bool}
    (h : build m code o = .ok a) (hs : a.structureAll [] n = .ok (b, degraded)) :
    ∃ r, Reached m code o r ∧ b = if degraded then { r.degrade with fuel := n } else r := by
  simp only [structureAll, List.map_nil, bind, Except.bind] at hs
  split at hs
  next => cases hs
  next a₁ h₁ =>
  have ha₁ : a₁ = a.removeUnreachable [] := by
    cases hh : (a.removeUnreachable []).structureHandlers [] with
    | error e => rw [hh] at h₁; cases h₁
    | ok a₂ =>
      rw [hh] at h₁
      rw [← structureHandlers_nil_eq_ok hh]
      exact (Except.ok.inj h₁).symm
  subst ha₁
  refine ⟨_, (Reached.prune h).reduces ((Reached.prune h).sound.reduceAll), ?_⟩
  generalize (a.removeUnreachable []).reduceAll = r at hs
  split at hs
  next => cases hs
  next =>
    split at hs
    · cases Except.ok.inj hs; rfl
    · cases Except.ok.inj hs; rfl

section Built

variable {p : Analysis → Bool}

theorem of_build (ha : build m code o = .ok a) (h : (build m code o).toOption.any p = true) :
    p a = true := by
  rw [ha] at h
  exact h

theorem exists_build (h : (build m code o).toOption.any p = true) :
    ∃ a, build m code o = .ok a ∧ p a = true := by
  cases hb : build m code o with
  | error e => rw [hb] at h; cases h
  | ok a => exact ⟨a, rfl, of_build hb h⟩

end Built

/-- A static method that takes an int and returns nothing. -/
def takesInt : MethodInfo := ⟨true, ⟨[40, 73, 41, 86], rfl⟩, 1⟩

section Runs

/-- Joining a flow with its only successor keeps the runs. -/
theorem runFrom_joinSuccessor (h : Reached m code o a) (hf : a.Live f) (hs : a.Live s) (hfs : f ≠ s)
    (hpred : (a.flow s).predecessors = [f]) (hI : I.Fits (a.joinSuccessor f s).1.exprs) :
    (∀ g, (a.joinSuccessor f s).1.Live g ↔ a.Live g ∧ g ≠ s) ∧
      ∀ g, a.Live g → g ≠ s → (a.joinSuccessor f s).1.runFrom I g = a.runFrom I g := by
  have hj := h.sound.wellFormed.joinSuccessor hf hs hfs hpred
  refine ⟨hj.live, fun g hg hgs ↦ ?_⟩
  exact hj.runFrom_eq h.sound.wellFormed hs hfs hpred (hj.run_eq h.sound hf hfs hI) hg hgs

/-- Counts its argument down to zero. -/
def countdown : List Instruction :=
  [⟨0, 1, .load .int 0⟩, ⟨1, 3, .branch .eq .zero 10⟩, ⟨4, 3, .iinc 0 (-1)⟩, ⟨7, 3, .goto 0⟩,
    ⟨10, 1, .returns none⟩]

theorem runFrom_joinSuccessor_countdown : ∃ a, build takesInt countdown {} = .ok a ∧
    (a.Live ⟨4⟩ ∧ a.Live ⟨5⟩ ∧ (a.flow ⟨5⟩).predecessors = [⟨4⟩]) ∧
    let a' := (a.joinSuccessor ⟨4⟩ ⟨5⟩).1
    (lax a'.exprs).Fits a'.exprs ∧ ¬ a'.Live ⟨5⟩ ∧
      ∀ g, a.Live g → g ≠ ⟨5⟩ → a'.runFrom (lax a'.exprs) g = a.runFrom (lax a'.exprs) g := by
  have hb : (build takesInt countdown {}).toOption.any (fun a ↦
      a.Live ⟨4⟩ ∧ a.Live ⟨5⟩ ∧ (a.flow ⟨5⟩).predecessors = [⟨4⟩]) = true := by cbv
  obtain ⟨a, ha, hfacts⟩ := exists_build hb
  obtain ⟨hf, hs, hpred⟩ := of_decide_eq_true hfacts
  have hI : (lax (a.joinSuccessor ⟨4⟩ ⟨5⟩).1.exprs).Fits _ := fits_lax fun _ _ ↦ id
  obtain ⟨hlive, hruns⟩ := runFrom_joinSuccessor (.build ha) hf hs (by decide) hpred hI
  exact ⟨a, ha, ⟨hf, hs, hpred⟩, hI, fun h ↦ ((hlive _).mp h).2 rfl, hruns⟩

/-- Closing a loop keeps the runs. -/
theorem runFrom_loopBack (h : Reached m code o a) (hf : a.Live f)
    (hI : I.Fits (a.loopBack f).1.exprs) (hloop : ∀ c, I.loop c = I.branch c) :
    (a.loopBack f).1.graph.jumpsTo f f = [] ∧
      ∀ g, a.Live g → (a.loopBack f).1.Live g ∧ (a.loopBack f).1.runFrom I g = a.runFrom I g := by
  have hl := h.sound.wellFormed.loopBack hf (h.sound.orderly f hf).branching
  refine ⟨hl.self, fun g hg ↦ ⟨?_, hl.runFrom_eq hf ?_ hg⟩⟩
  · exact hl.wellFormed.planted.live g hg
  · rw [show (fun j ↦ ((a.loopBack f).1.jump j).destination) = _ from funext hl.destination]
    exact (hl.goes h.sound hf hI).run_eq hloop fun c hc ↦ hI.literal c true hc

/-- Waits for its argument to be zero. -/
def spin : List Instruction :=
  [⟨0, 1, .load .int 0⟩, ⟨1, 3, .branch .ne .zero 0⟩, ⟨4, 1, .returns none⟩]

def noLiterals (t : Expressions) : Bool :=
  (List.range t.size).all fun i ↦ (t.literal? ⟨i⟩).isNone

theorem loop_lax_eq_branch {t : Expressions} (h : noLiterals t) (c : ExprId) :
    (lax t).loop c = (lax t).branch c := by
  have hc : t.literal? c = none := by
    by_cases hlt : c.index < t.size
    · simpa using List.all_eq_true.mp h c.index (List.mem_range.mpr hlt)
    · rw [Expressions.literal?, Expressions.get, t.nodes.get_of_size_le (Nat.le_of_not_lt hlt)]
      rfl
  change (t.literal? c).elim free pure = free
  rw [hc, Option.elim_none]

theorem runFrom_loopBack_spin : ∃ a, Reached takesInt spin { checked := false } a ∧
    a.Live ⟨3⟩ ∧ a.isLoopHead ⟨3⟩ ⟨0, 5⟩ ∧ let a' := (a.loopBack ⟨3⟩).1
    (lax a'.exprs).Fits a'.exprs ∧
      (∀ c, (lax a'.exprs).loop c = (lax a'.exprs).branch c) ∧
      ∀ g, a.Live g → a'.runFrom (lax a'.exprs) g = a.runFrom (lax a'.exprs) g := by
  have hb : (build takesInt spin { checked := false }).toOption.any (fun a ↦ a.Live ⟨3⟩ ∧
      a.Live ⟨4⟩ ∧ (a.flow ⟨4⟩).predecessors = [⟨3⟩]) = true := by cbv
  have hhead : (build takesInt spin { checked := false }).toOption.any (fun a ↦
      (a.joinSuccessor ⟨3⟩ ⟨4⟩).1.isLoopHead ⟨3⟩ ⟨0, 5⟩) = true := by cbv
  have hlit : (build takesInt spin { checked := false }).toOption.any (fun a ↦
      noLiterals ((a.joinSuccessor ⟨3⟩ ⟨4⟩).1.loopBack ⟨3⟩).1.exprs) = true := by cbv
  obtain ⟨a, ha, hfacts⟩ := exists_build hb
  obtain ⟨hf, hs, hpred⟩ := of_decide_eq_true hfacts
  replace hhead := of_build ha hhead
  replace hlit := of_build ha hlit
  have hr := (Reached.build ha).step (.join hf hs (by decide) hpred)
  have hj := (sound_of_build ha).wellFormed.joinSuccessor hf hs (by decide) hpred
  have hlive := (hj.live ⟨3⟩).mpr ⟨hf, by decide⟩
  generalize (a.joinSuccessor ⟨3⟩ ⟨4⟩).1 = a₁ at *
  have hloop := loop_lax_eq_branch hlit
  have hI : (lax (a₁.loopBack ⟨3⟩).1.exprs).Fits _ := fits_lax fun _ _ ↦ id
  obtain ⟨_, hruns⟩ := runFrom_loopBack hr hlive hI hloop
  exact ⟨a₁, hr, hlive, hhead, hI, hloop, fun g hg ↦ (hruns g hg).2⟩

end Runs

section Switch

variable {w c b : BlockId} {j : JumpId}

theorem runFrom_checkpoint (a : Analysis) : a.checkpoint.runFrom I g = a.runFrom I g := by
  have hstep : a.checkpoint.flowStep I = a.flowStep I := by
    funext g
    simp only [flowStep, goOn, tree_checkpoint, jump_checkpoint, live_checkpoint]
  rw [runFrom, hstep, runFrom]

/-- Moving the target of a case into its switch keeps the runs. -/
theorem runFrom_mergeCase (h : Reached m code o a) (hf : a.Live f) (hs : a.Live s)
    (hready : a.CaseReady f s w c b j) (hI : I.Fits a.exprs) :
    let a' := a.mergeCase f w c b j s ((a.graph.jumpsTo f s).filter (· ≠ j))
    (∀ g, a'.Live g ↔ a.Live g ∧ g ≠ s) ∧
      (∀ g, a.Live g → g ≠ s → a'.runFrom I g = a.runFrom I g) ∧
      ∃! x : FlowId × List Frame, a'.Live x.1 ∧ a'.tree x.1 = plug x.2 (a.tree s) := by
  obtain ⟨a', hm, heq⟩ := hready.merged h.sound hf hs
  simp only [heq, runFrom_checkpoint, live_checkpoint, tree_checkpoint]
  have hfs := hready.ne.symm
  refine ⟨hm.live, fun g hg hgs ↦ ?_, ?_⟩
  · exact hm.runFrom_eq h.sound.wellFormed hs hfs hready.pred
      (hm.run_eq h.sound hf hs hfs (hm.same ▸ hI)) hg hgs
  · obtain ⟨C, hC⟩ := hm.merges.exists_plug
    have hf' := (hm.live f).mpr ⟨hf, hfs⟩
    refine ⟨(f, C), ⟨hf', hC⟩, ?_⟩
    rintro ⟨g, D⟩ ⟨hg, hD⟩
    have hp := hm.wellFormed.planted
    by_cases hgf : g = f
    · subst hgf
      simp only at hD
      rw [(plug_inj (hC ▸ hp.nodup g ⟨hf, hfs⟩) (hC.symm.trans hD) rfl).1]
    · have hmem (C : List Frame) : (a.tree s).id ∈ (plug C (a.tree s)).ids :=
        mem_ids_plug.mpr (.inl (a.tree s).id_mem_ids)
      refine absurd (hD ▸ hmem D) ?_
      exact hp.apart f g ⟨hf, hfs⟩ ((hm.live g).mp hg) (Ne.symm hgf) (hC ▸ hmem C)

/-- Adds three to 0 and two to 1, by a case that runs into the next one. -/
def twoCases : List Instruction :=
  [⟨0, 1, .load .int 0⟩, ⟨1, 9, .switch [(0, 10), (1, 13)] 16⟩, ⟨10, 3, .iinc 0 1⟩,
    ⟨13, 3, .iinc 0 2⟩, ⟨16, 1, .returns none⟩]

/-- Decides whether a case can take in its target, between given cases of its switch. -/
def readyBetween (a : Analysis) (f s : FlowId) (w c b : BlockId) (j : JumpId) (selector : ExprId)
    (before after : List BlockId) : Bool :=
  w ∈ (a.tree f).ids ∧ a.pendingCase? c = some (b, j, s) ∧ s ≠ f ∧
    (a.flow s).predecessors = [f] ∧ a.statement w = .switch selector (before ++ c :: after) false ∧
      ∀ i ∈ a.graph.jumpsTo f s, i ≠ j →
        before.getLast?.any fun p ↦ a.blocks.fallsToEndOf (a.jump i).source p

theorem caseReady_of_readyBetween {selector : ExprId} {before after : List BlockId}
    (h : a.readyBetween f s w c b j selector before after) : a.CaseReady f s w c b j := by
  obtain ⟨hmem, hpending, hne, hpred, hstmt, hfalls⟩ := of_decide_eq_true h
  refine ⟨hmem, hpending, hne, hpred, selector, before, after, false, hstmt, fun i hi hij ↦ ?_⟩
  exact (Option.any_eq_true ..).mp (hfalls i hi hij)

theorem runFrom_mergeCase_twoCases : ∃ a, Reached takesInt twoCases { checked := false } a ∧
    a.Live ⟨4⟩ ∧ a.Live ⟨6⟩ ∧ a.CaseReady ⟨4⟩ ⟨6⟩ ⟨10⟩ ⟨7⟩ ⟨6⟩ ⟨2⟩ ∧ (lax a.exprs).Fits a.exprs ∧
      let a' := a.mergeCase ⟨4⟩ ⟨10⟩ ⟨7⟩ ⟨6⟩ ⟨2⟩ ⟨6⟩ ((a.graph.jumpsTo ⟨4⟩ ⟨6⟩).filter (· ≠ ⟨2⟩))
      (∀ g, a.Live g → g ≠ ⟨6⟩ → a'.runFrom (lax a.exprs) g = a.runFrom (lax a.exprs) g) ∧
      ∃! x : FlowId × List Frame, a'.Live x.1 ∧ a'.tree x.1 = plug x.2 (a.tree ⟨6⟩) := by
  have hb : (build takesInt twoCases { checked := false }).toOption.any (fun a ↦ a.Live ⟨4⟩ ∧
      a.Live ⟨5⟩ ∧ a.Live ⟨6⟩) = true := by cbv
  have hfirst : (build takesInt twoCases { checked := false }).toOption.any (fun a ↦
      a.readyBetween ⟨4⟩ ⟨5⟩ ⟨10⟩ ⟨5⟩ ⟨4⟩ ⟨1⟩ ⟨1⟩ [] [⟨7⟩, ⟨9⟩]) = true := by cbv
  have hsecond : (build takesInt twoCases { checked := false }).toOption.any (fun a ↦
      (a.mergeCase ⟨4⟩ ⟨10⟩ ⟨5⟩ ⟨4⟩ ⟨1⟩ ⟨5⟩
        ((a.graph.jumpsTo ⟨4⟩ ⟨5⟩).filter (· ≠ ⟨1⟩))).readyBetween ⟨4⟩ ⟨6⟩ ⟨10⟩ ⟨7⟩ ⟨6⟩ ⟨2⟩ ⟨1⟩
          [⟨5⟩] [⟨9⟩]) = true := by cbv
  obtain ⟨a, ha, hfacts⟩ := exists_build hb
  obtain ⟨h₄, h₅, h₆⟩ := of_decide_eq_true hfacts
  replace hfirst := caseReady_of_readyBetween (of_build ha hfirst)
  replace hsecond := caseReady_of_readyBetween (of_build ha hsecond)
  have hr := (Reached.build ha).step (.merge h₄ h₅ hfirst)
  obtain ⟨a₁, hm, heq⟩ := hfirst.merged (sound_of_build ha) h₄ h₅
  rw [heq] at hr hsecond
  have hf : a₁.checkpoint.Live ⟨4⟩ := live_checkpoint.mpr ((hm.live _).mpr ⟨h₄, by decide⟩)
  have hs : a₁.checkpoint.Live ⟨6⟩ := live_checkpoint.mpr ((hm.live _).mpr ⟨h₆, by decide⟩)
  have hI : (lax a₁.checkpoint.exprs).Fits _ := fits_lax fun _ _ ↦ id
  obtain ⟨_, hruns⟩ := runFrom_mergeCase hr hf hs hsecond hI
  exact ⟨_, hr, hf, hs, hsecond, hI, hruns⟩

end Switch

end Analysis

end Decompile
