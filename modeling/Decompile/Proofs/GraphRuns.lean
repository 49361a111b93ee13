import Decompile.Proofs.CaseRuns
import Decompile.Proofs.LoopRuns

namespace Decompile.Analysis

open Proc

variable {σ ε : Type} {I : Interp σ ε} {a a' : Analysis} {f g s d : FlowId} {x : Outcome}

/-- Where an exit of a flow block leads. -/
def goOn (a : Analysis) : Outcome → FlowId ⊕ Outcome
  | .jumps d => if a.Live d then .inl d else .inr (.jumps d)
  | x => .inr x

/-- One flow block runs. -/
def flowStep (a : Analysis) (I : Interp σ ε) (f : FlowId) : Proc σ ε (FlowId ⊕ Outcome) :=
  (a.tree f).run I (fun j ↦ (a.jump j).destination) >>= fun x ↦ pure (a.goOn x)

/-- The method runs from a flow block on. -/
def runFrom (a : Analysis) (I : Interp σ ε) (f : FlowId) : Proc σ ε Outcome := iterate (a.flowStep I) f

theorem goOn_eq_inl : a.goOn x = .inl d ↔ x = .jumps d ∧ a.Live d := by
  cases x with
  | jumps d' =>
    rw [goOn]
    split
    next h =>
      constructor
      · rintro ⟨⟩
        exact ⟨rfl, h⟩
      · rintro ⟨⟨⟩, -⟩
        rfl
    next h =>
      constructor
      · nofun
      · rintro ⟨⟨⟩, hd⟩
        exact absurd hd h
  | completes | breaks | continues | leaves => simp [goOn]

theorem yields_flowStep (h : (a.flowStep I f).Yields (.inl d)) :
    ((a.tree f).run I fun j ↦ (a.jump j).destination).Yields (.jumps d) ∧ a.Live d := by
  obtain ⟨x, hx, hd⟩ := h.of_bind
  obtain ⟨rfl, hlive⟩ := goOn_eq_inl.mp (yields_pure hd).symm
  exact ⟨hx, hlive⟩

theorem WellFormed.pred_of_yields {L : FlowId → Prop} (h : a.WellFormed L) (hf : L f)
    (hx : ((a.tree f).run I fun j ↦ (a.jump j).destination).Yields (.jumps d)) :
    f ∈ (a.flow d).predecessors := by
  obtain ⟨b, j, hj, rfl⟩ := held_of_yields hx
  have hlisted := ((h.holding f hf b j).mp hj).1
  exact h.pred_of_jumpsTo (List.ne_nil_of_mem (h.linked.toChained.mem_listed.mp hlisted))

/-- What follows on a flow block that has been taken over runs where the jumps to it were. -/
theorem Merged.runFrom_eq (hm : Merged a.Live f s a a') (h : a.WellFormed a.Live) (hs : a.Live s)
    (hfs : f ≠ s) (hpred : (a.flow s).predecessors = [f])
    (hrun : (a'.tree f).run I (fun j ↦ (a'.jump j).destination) =
      (a.tree f).run I (fun j ↦ (a.jump j).destination) >>=
        handle s ((a.tree s).run I fun j ↦ (a.jump j).destination))
    (hg : a.Live g) (hgs : g ≠ s) : a'.runFrom I g = a.runFrom I g := by
  have hdest : (fun j ↦ (a'.jump j).destination) = fun j ↦ (a.jump j).destination :=
    funext hm.destination
  have hnone : ∀ g, a.Live g → g ≠ f →
      ¬ ((a.tree g).run I fun j ↦ (a.jump j).destination).Yields (.jumps s) := fun g hg hgf hy ↦
    hgf (by simpa [hpred] using h.pred_of_yields hg hy)
  have hgo : ∀ x, x ≠ .jumps s → a'.goOn x = a.goOn x := by
    intro x hx
    cases x with
    | jumps d =>
      have hd : d ≠ s := fun hd ↦ hx (congrArg Outcome.jumps hd)
      simp [goOn, hm.live, hd]
    | completes | breaks | continues | leaves => rfl
  have hself := hnone s hs hfs.symm
  refine iterate_inline (p := a.Live) (z := s) (fun g _ d hd ↦ (yields_flowStep hd).2)
    (fun hy ↦ hself (yields_flowStep hy).1) hs (fun g hg hgs ↦ ?_) hg hgs
  have hcont : ∀ x, x ≠ .jumps s → (pure (a.goOn x) : Proc σ ε (FlowId ⊕ Outcome)) >>= Sum.elim
      (fun b ↦ if b = s then a.flowStep I s else pure (.inl b)) (pure ∘ .inr) = pure (a'.goOn x) := by
    intro x hx
    rw [pure_bind, hgo x hx]
    cases hx' : a.goOn x with
    | inl d =>
      obtain ⟨rfl, -⟩ := goOn_eq_inl.mp hx'
      rw [Sum.elim_inl, if_neg fun hd ↦ hx (congrArg Outcome.jumps hd)]
    | inr y => rfl
  by_cases hgf : g = f
  · subst hgf
    rw [flowStep, flowStep, hrun, bind_assoc, bind_assoc]
    congr 1
    funext x
    by_cases hx : x = .jumps s
    · subst hx
      rw [handle_jump, pure_bind, goOn, if_pos hs, Sum.elim_inl, if_pos rfl, flowStep]
      refine bind_eq_bind fun y hy ↦ ?_
      rw [hgo]
      rintro rfl
      exact hself hy
    · rw [handle_of_ne hx, pure_bind, hcont x hx]
  · rw [flowStep, flowStep, hm.other g hg hgf hgs, hdest, bind_assoc]
    refine bind_eq_bind fun x hx ↦ (hcont x ?_).symm
    rintro rfl
    exact hnone g hg hgf hx

/-- A flow block may come back to itself on its own. -/
theorem Evolved.runFrom_eq (he : Evolved a.Live f f a a') (hf : a.Live f)
    (hrun : (a'.tree f).run I (fun j ↦ (a'.jump j).destination) =
      selfLoop f ((a.tree f).run I fun j ↦ (a.jump j).destination)) (hg : a.Live g) :
    a'.runFrom I g = a.runFrom I g := by
  obtain ⟨T, hm⟩ := he.moves
  have hdest : (fun j ↦ (a'.jump j).destination) = fun j ↦ (a.jump j).destination :=
    funext he.destination
  have hgo : a'.goOn = a.goOn := by
    funext x
    cases x with
    | jumps d => simp [goOn, hm.live]
    | completes | breaks | continues | leaves => rfl
  have hself : a'.flowStep I f = iterate (fun _ : Unit ↦ a.flowStep I f >>= Sum.elim
      (fun d ↦ pure (if d = f then .inl () else .inr (.inl d))) (pure ∘ .inr ∘ .inr)) () := by
    rw [flowStep, hrun, selfLoop, iterate_bind]
    congr 1
    funext _
    rw [flowStep, bind_assoc, bind_assoc]
    congr 1
    funext x
    rw [pure_bind, pure_bind]
    by_cases hx : x = .jumps f
    · subst hx
      rw [if_pos rfl, goOn, if_pos hf, Sum.elim_inl, Sum.elim_inl, if_pos rfl]
      rfl
    · rw [if_neg hx, Sum.elim_inr, map_pure, hgo]
      cases hx' : a.goOn x with
      | inl d =>
        obtain ⟨rfl, -⟩ := goOn_eq_inl.mp hx'
        rw [Sum.elim_inl, if_neg fun hd ↦ hx (congrArg Outcome.jumps hd)]
      | inr y => rfl
  -- The trees of dead flow blocks may have changed, but no run gets there.
  let step (g : FlowId) := if a.Live g then a'.flowStep I g else a.flowStep I g
  have hstep : ∀ g, g ≠ f → step g = a.flowStep I g := by
    intro g hgf
    by_cases hg : a.Live g
    · simp only [step, if_pos hg, flowStep, hm.other g hg hgf, hdest, hgo]
    · exact if_neg hg
  have hself' : step f = _ := (if_pos hf).trans hself
  calc
    iterate (a'.flowStep I) g = iterate step g :=
      (iterate_congr_on (p := a.Live) (fun g _ d hd ↦ (hm.live d).mp (yields_flowStep hd).2)
        (fun g hg ↦ if_pos hg) hg).symm
    _ = iterate (a.flowStep I) g := iterate_unroll hself' hstep g

end Decompile.Analysis
