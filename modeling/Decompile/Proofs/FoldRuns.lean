import Decompile.Proofs.Lax
import Decompile.Proofs.SuccessorRuns

namespace Decompile

open Proc

section Lax

variable {t t' : Expressions} {destination : JumpId → FlowId}

theorem sim_of_yields {P M : Proc Unit Empty Outcome} (h : ∀ x, P.Yields x → M.Yields x) :
    Sim Eq P M where
  cut {s es} _ := by
    cases es with
    | nil => exact M.idle s
    | cons e => exact e.elim
  ends {s es x s'} hx := by
    obtain ⟨_, es', _, hM⟩ := h x ⟨s, es, s', hx⟩
    cases es with
    | cons e => exact e.elim
    | nil =>
      cases es' with
      | cons e => exact e.elim
      | nil => exact ⟨x, rfl, hM⟩

theorem Tree.Closed.mono {T : Tree} (h : T.Closed t destination) (ht : t.KeepsLiterals t') :
    T.Closed t' destination :=
  fun _ hx ↦ h.isOut (fits_lax ht).within hx

end Lax

namespace Tree

variable {t : Expressions} {destination : JumpId → FlowId} {T T' P B B' : Tree} {C : List Frame}

theorem run_simple {b : BlockId} {e : Option JumpId} {k : Kind} (hk : k.Simple) :
    (node b e k []).run (lax t) destination = pure (Outcome.completes.via (e.map destination)) := by
  cases k with
  | empty => exact run_empty
  | evaluate | shuffle =>
    rw [run_node, act]
    change Outcome.via (e.map destination) <$> (pure () >>= fun _ ↦ pure .completes) = _
    rw [pure_bind, map_pure]
  | _ => exact hk.elim

theorem Simple.run (h : P.Simple) : P.run (lax t) destination = skip := by
  obtain ⟨b, e, k, l⟩ := P
  obtain ⟨he, hk, hl⟩ := h
  change e = none at he
  change k.Simple at hk
  change l = [] at hl
  subst he hl
  rw [run_simple hk, Option.map_none, Outcome.via_none, skip]

theorem sim_plug_lax (ho : (Decompile.plug C B).Orderly) (hB : ¬ B.IsCase)
    (h : Sim Eq (B'.run (lax t) destination) (B.run (lax t) destination)) :
    Sim Eq ((Decompile.plug C B').run (lax t) destination)
      ((Decompile.plug C B).run (lax t) destination) :=
  sim_plug (fun _ ↦ rfl) (sameCase_of_orderly ho hB B').symm (fun _ _ _ _ hx ↦ .inl hx) h

theorem not_isCase_of_kind {b : BlockId} {e : Option JumpId} {k : Kind} {l : List Tree}
    (hk : ∀ v through, k ≠ .switchCase v through) : ¬ (node b e k l).IsCase := by
  rintro ⟨_, v, through, _, he⟩
  cases he
  exact hk v through rfl

/-- What a rule makes of a tree leaves it only where the tree did. -/
theorem Folds.sim (h : Folds destination T T') (ho : T.Orderly) :
    Sim Eq (T'.run (lax t) destination) (T.run (lax t) destination) := by
  have hrefl (M : Proc Unit Empty Outcome) : Sim Eq M M := .refl (fun _ ↦ rfl) M
  induction h with
  | refl => exact hrefl _
  | trans h _ ih ih' =>
    exact (ih' (h.upholds (J := fun _ ↦ False) ho).orderly).trans (ih ho) fun _ _ _ ↦ Eq.trans
  | dropFirst hP =>
    refine sim_plug_lax ho (not_isCase_of_kind fun _ _ h ↦ by cases h) ?_
    rw [run_sequence, hP.run, skip_andThen]
    exact hrefl _
  | @dropLast C q b e k P hk hP =>
    refine sim_plug_lax ho (not_isCase_of_kind fun _ _ h ↦ by cases h) ?_
    rw [run_sequence, run_simple hk, andThen_pure, run_withJump, ← hP.1, withJump_self]
    exact hrefl _
  | @leaf C b n e k k' hk hne hk' =>
    refine sim_plug_lax ho (not_isCase_of_kind fun v through he ↦ ?_) ?_
    · subst he
      exact hk
    · rw [run_simple hk, run_simple hk']
      exact hrefl _
  | @ternary C b n e c k P Q hP hQ hk =>
    refine sim_plug_lax ho (not_isCase_of_kind fun _ _ h ↦ by cases h) (sim_of_yields fun x hx ↦ ?_)
    rw [run_simple hk] at hx
    obtain rfl := yields_pure hx
    rw [run_node]
    refine Yields.bind (x := .completes) (Yields.bind (yields_free true) ?_) (pure_yields _)
    change (P.run (lax t) destination).Yields .completes
    rw [hP.run]
    exact pure_yields _
  | @combine C D q p t' b u e i j c c' c'' hD hd =>
    refine sim_plug_lax ho (not_isCase_of_kind fun _ _ h ↦ by cases h) (sim_of_yields fun x hx ↦ ?_)
    have hsame : (Decompile.plug D (node b e (.conditional c'')
        [node u (some j) .empty []])).run (lax t) destination =
        (Decompile.plug D (node b e (.conditional c') [node u (some j) .empty []])).run (lax t)
          destination := run_plug_congr (fun _ _ _ ↦ rfl) (by rw [run_test, run_test]; rfl)
    rw [hsame] at hx
    rw [run_sequence, run_conditional]
    refine Yields.bind (x := .completes) (Yields.bind (yields_free false) (pure_yields _)) ?_
    rwa [if_pos rfl]
  | @header C b e c o init l ch =>
    refine sim_plug_lax ho (not_isCase_of_kind fun _ _ h ↦ by cases h) ?_
    have hstart (o : Option ExprId) : o.elim (pure ()) (lax t).start = pure () := by
      cases o <;> rfl
    rw [run_node, run_node, act, act, hstart, hstart]
    exact hrefl _
  | object =>
    exact sim_plug_lax ho (not_isCase_of_kind fun _ _ h ↦ by cases h) (by
      rw [run_node, run_node]
      exact hrefl _)

theorem Folds.closed (h : Folds destination T T') (ho : T.Orderly) (hT : T.Closed t destination) :
    T'.Closed t destination := by
  rintro x ⟨s, es, s', hx⟩
  obtain ⟨_, rfl, hx⟩ := (h.sim ho).ends hx
  exact hT x ⟨_, _, _, hx⟩

end Tree

end Decompile
