import Decompile.Proofs.Running

namespace Decompile

open Proc

/-- Whatever there is may come up. -/
def Proc.free {α : Type} : Proc Unit Empty α := ⟨fun _ _ _ ↦ True, fun _ ↦ trivial, fun _ ↦ trivial⟩

/-- The value of a boolean literal. -/
def Expressions.literal? (t : Expressions) (c : ExprId) : Option Bool :=
  match t.get c with
  | .const (.bool v) => some v
  | _ => none

/-- Nothing shows and everything may come up, but for literal conditions of loops. -/
def lax (t : Expressions) : Interp Unit Empty where
  leaf _ _ := pure ()
  start _ := pure ()
  branch _ := free
  loop c := (t.literal? c).elim free pure
  select _ := free

/-- Control does not come to the end of the tree, nor break out of it. -/
def Tree.Closed (t : Expressions) (destination : JumpId → FlowId) (T : Tree) : Prop :=
  ∀ x, (T.run (lax t) destination).Yields x → x.IsOut

section

variable {α β : Type} {P : Proc Unit Empty α} {k : α → Proc Unit Empty β} {x : α} {y : β}

theorem yields_free (x : α) : (free : Proc Unit Empty α).Yields x := ⟨(), [], (), trivial⟩

theorem pure_yields {σ ε : Type} [Inhabited σ] (x : α) : (pure x : Proc σ ε α).Yields x :=
  ⟨default, [], default, rfl, .inr rfl⟩

theorem Proc.Yields.bind (h : P.Yields x) (hk : (k x).Yields y) : (P >>= k).Yields y := by
  obtain ⟨_, es, _, h⟩ := h
  obtain ⟨_, es', s, hk⟩ := hk
  exact ⟨(), es ++ es', s, .next h hk⟩

end

theorem Expressions.literal?_eq {t : Expressions} {c : ExprId} {v : Bool} :
    t.literal? c = some v ↔ t.get c = .const (.bool v) := by
  rw [literal?]
  split
  next w h => simp [h]
  next h => exact ⟨nofun, fun hv ↦ absurd hv (h v)⟩

theorem loop_lax {t : Expressions} {c : ExprId} {v : Bool} (h : t.get c = .const (.bool v)) :
    (lax t).loop c = pure v := by
  change (t.literal? c).elim free pure = pure v
  rw [Expressions.literal?_eq.mpr h, Option.elim_some]

theorem branch_lax (t : Expressions) (c c' : ExprId) :
    (lax t).branch c' = not <$> (lax t).branch c := by
  refine Proc.ext fun s es r ↦ ⟨fun _ ↦ ?_, fun _ ↦ trivial⟩
  cases r with
  | none => exact .cut trivial
  | some r =>
    obtain ⟨v, s⟩ := r
    exact Then.last (x := !v) trivial ⟨rfl, .inr (by simp; rfl)⟩

section Fits

variable {σ ε : Type} {I : Interp σ ε} {t t' : Expressions}

/-- Conditions come out the other way than their negations, and literals as they say. -/
structure Interp.Fits (I : Interp σ ε) (t : Expressions) : Prop where
  negates : ∀ c c', t.Negates c c' → I.branch c' = not <$> I.branch c
  literal : ∀ c v, t.get c = .const (.bool v) → I.loop c = pure v

theorem Interp.Fits.of_extends (h : I.Fits t') (ht : t.Extends t') : I.Fits t where
  negates c c' hc := h.negates c c' (hc.mono ht)
  literal c v hc := h.literal c v (ht.keepsLiterals c v hc)

theorem fits_lax (h : t.KeepsLiterals t') : (lax t').Fits t where
  negates c c' _ := branch_lax t' c c'
  literal c v hc := loop_lax (h c v hc)

theorem Interp.Fits.within (h : I.Fits t) : I.Within (lax t) where
  leaf _ _ _ _ s := ⟨[], s, rfl, .inr rfl⟩
  start _ _ _ s := ⟨[], s, rfl, .inr rfl⟩
  branch _ _ _ s := ⟨[], s, trivial⟩
  select _ _ _ s := ⟨[], s, trivial⟩
  loop c v hv s := by
    cases hc : t.literal? c with
    | none =>
      refine ⟨[], s, ?_⟩
      change ((t.literal? c).elim free pure).does s [] _
      rw [hc]
      trivial
    | some u =>
      have hu := Expressions.literal?_eq.mp hc
      rw [h.literal c u hu] at hv
      obtain rfl := yields_pure hv
      rw [loop_lax hu]
      exact ⟨[], s, rfl, .inr rfl⟩

end Fits

theorem Tree.Closed.isOut {σ ε : Type} {I : Interp σ ε} {t : Expressions}
    {destination : JumpId → FlowId} {T : Tree} (h : T.Closed t destination) (hI : I.Within (lax t))
    {x : Outcome} (hx : (T.run I destination).Yields x) : x.IsOut := by
  obtain ⟨es, s, hx⟩ := within_run hI destination T x hx ()
  exact h x ⟨(), es, s, hx⟩

end Decompile
