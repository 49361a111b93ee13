import Decompile.Proofs.Running
import Decompile.Proofs.Upholding

namespace Decompile

open Proc

namespace Outcome

/-- The exits of a flow block with its successor `s` in mind: to end is to go on there. -/
def joined (s : FlowId) (x : Outcome) : Outcome := if x = jumps s then completes else x

def Joins (s : FlowId) (x y : Outcome) : Prop := x.joined s = y.joined s

/-- One of two exits may stand for the other. -/
def Swaps (u v x y : Outcome) : Prop := x = y ∨ x = u ∧ y = v ∨ x = v ∧ y = u

variable {s : FlowId} {x y : Outcome}

theorem joins_refl (s : FlowId) (x : Outcome) : Joins s x x := rfl

theorem Joins.symm (h : Joins s x y) : Joins s y x := Eq.symm h

theorem Joins.cases (h : Joins s x y) : x = y ∨ x = completes ∧ y = jumps s ∨
    x = jumps s ∧ y = completes := by
  simp only [Joins, joined] at h
  split at h <;> split at h <;> simp_all

theorem joins_completes (s : FlowId) : Joins s completes (jumps s) := by simp [Joins, joined]

theorem joins_via (s : FlowId) (x : Outcome) : Joins s (x.via (some s)) x := by
  by_cases h : x = completes
  · subst h
    exact (joins_completes s).symm
  · rw [via_of_ne h]
    exact joins_refl s x

end Outcome

namespace Tree

variable {σ ε : Type} {I : Interp σ ε} {destination : JumpId → FlowId} {R : Outcome → Outcome → Prop}
  {T T' B B' N P S : Tree} {F : Frame} {C D : List Frame} {s : FlowId} {j : JumpId}
  {negates : ExprId → ExprId → Prop} {isFalse : ExprId → Prop} {isNew : BlockId → Prop}

theorem sameCase_of_orderly (h : (Decompile.plug C B).Orderly) (hB : ¬ B.IsCase) (B' : Tree) :
    SameCase C B B' := by
  intro F hF hk
  obtain ⟨C, rfl⟩ : ∃ C', C = F :: C' := by
    cases C with
    | nil => cases hF
    | cons G C =>
      cases hF
      exact ⟨C, rfl⟩
  have hfits := (Orderly.of_plug (C := C) h) _ (mem_nodes_self _)
  exact absurd (hfits.1 hk B (mem_children_fill.mpr (.inl rfl))) hB

section Falls

theorem alike_fallsOut (hC : FallsOut C) (hv : SameCase C B B')
    (h : Alike (Outcome.Joins s) (B.run I destination) (B'.run I destination)) :
    Alike (Outcome.Joins s) ((Decompile.plug C B).run I destination)
      ((Decompile.plug C B').run I destination) := by
  refine alike_plug (Outcome.joins_refl s) hv (fun F hF x y hxy ↦ ?_) h
  obtain ⟨hends, hjump⟩ := hC F hF
  have hvia (z : Outcome) : z.via (F.jump.map destination) = z := by simp [hjump]
  rcases hxy.cases with rfl | ⟨rfl, rfl⟩ | ⟨rfl, rfl⟩
  · exact .inl rfl
  · exact .inr ⟨_, _, ⟨hends, rfl⟩, rfl, by simpa only [hvia] using Outcome.joins_completes s⟩
  · exact .inr ⟨_, _, rfl, ⟨hends, rfl⟩, by simpa only [hvia] using (Outcome.joins_completes s).symm⟩

theorem alike_withJump (hB : B.jump = some j) (hj : destination j = s) :
    Alike (Outcome.Joins s) (B.run I destination) ((B.withJump none).run I destination) := by
  rw [run_jump, hB, Option.map_some, hj, map_eq]
  have hpure : (B.withJump none).run I destination =
      (B.withJump none).run I destination >>= pure := (bind_pure _).symm
  rw [hpure, bind_assoc]
  refine .bind_right _ fun x _ ↦ ?_
  rw [pure_bind]
  exact .pure (Outcome.joins_via s x) (Outcome.joins_via s x).symm

theorem Trims.run_eq (h : Trims C B T) (ho : (Decompile.plug C B).Orderly) :
    (Decompile.plug C B).run I destination = T.run I destination := by
  have hseq {q : BlockId} {l : List Tree} : ¬ (node q none .sequence l).IsCase := by
    rintro ⟨_, _, _, _, he⟩
    cases he
  cases h with
  | keep => rfl
  | first q b Y C =>
    refine run_plug_congr (sameCase_of_orderly (C := C) ho hseq Y) ?_
    rw [Frame.fill, List.nil_append, run_sequence, run_empty, Option.map_none, Outcome.via_none]
    exact skip_andThen _
  | rest q b Y C =>
    refine run_plug_congr (sameCase_of_orderly (C := C) ho hseq Y) ?_
    rw [Frame.fill, List.singleton_append, run_sequence, run_empty, Option.map_none, Outcome.via_none]
    exact andThen_skip _

theorem not_isCase_of_jump (hB : B.jump = some j) : ¬ B.IsCase := by
  rintro ⟨_, _, _, _, rfl⟩
  cases hB

theorem alike_dropJump (ho : (Decompile.plug C B).Orderly) (hC : FallsOut C) (hB : B.jump = some j)
    (hj : destination j = s) (ht : Trims C (B.withJump none) T) :
    Alike (Outcome.Joins s) ((Decompile.plug C B).run I destination) (T.run I destination) := by
  have ho' : (Decompile.plug C (B.withJump none)).Orderly :=
    ((reforms_withJump (J := fun _ ↦ False) (Orderly.of_plug (C := C) ho) hB not_false).plug ho).orderly
  rw [← ht.run_eq ho']
  exact alike_fallsOut hC (sameCase_of_orderly ho (not_isCase_of_jump hB) _) (alike_withJump hB hj)

end Falls

variable {labeled : Bool} {c : ExprId}

section Resolve

theorem joins_trans (s : FlowId) (x y z : Outcome) (h : Outcome.Joins s x y) (h' : Outcome.Joins s y z) :
    Outcome.Joins s x z :=
  Eq.trans h h'

variable {p t n q : BlockId}

theorem alike_invertExit {i : JumpId} {c' : ExprId} (hj : destination j = s)
    (hn : I.branch c' = not <$> I.branch c) :
    Alike (Outcome.Joins s)
      ((node p (some i) (.conditional c) [node t (some j) .empty []]).run I destination)
      ((node p none (.conditional c') [node t (some i) .empty []]).run I destination) := by
  rw [run_test, run_conditional, hn, map_eq, bind_assoc]
  refine .bind_right _ fun v _ ↦ ?_
  cases v
  · exact .of_eq (Outcome.joins_refl s) (by simp [skip])
  · simp only [if_true, run_empty, map_pure, pure_bind, Bool.not_true, Bool.false_eq_true, if_false,
      skip]
    refine .pure ?_ ?_ <;> simp [Outcome.Joins, Outcome.joined, Outcome.via, hj]

theorem alike_invertRest {c' : ExprId} {Y : Tree} (hj : destination j = s)
    (hn : I.branch c' = not <$> I.branch c) :
    Alike (Outcome.Joins s)
      ((node q none .sequence
        [node p none (.conditional c) [node t (some j) .empty []], Y]).run I destination)
      ((node n none (.ifElse c') [Y]).run I destination) := by
  rw [run_sequence, run_conditional, run_if, hn, andThen, map_eq, bind_assoc, bind_assoc]
  refine .bind_right _ fun v _ ↦ ?_
  cases v
  · refine .of_eq (Outcome.joins_refl s) ?_
    simp [skip]
  · simp only [if_true, run_empty, pure_bind, Bool.not_true, Bool.false_eq_true, if_false, skip]
    rw [if_neg (by simp)]
    refine .pure ?_ ?_ <;> simp [Outcome.Joins, Outcome.joined, hj]

theorem not_completes_of_rest (hD : ∀ F ∈ D, F.IsRest ∧ F.jump = none)
    (hB : ¬ (B.run I destination).Yields .completes) :
    ¬ ((Decompile.plug D B).run I destination).Yields .completes := by
  induction D generalizing B with
  | nil => exact hB
  | cons F D ih =>
    obtain ⟨⟨hk, ha, P, hb⟩, hj⟩ := hD F List.mem_cons_self
    refine ih (fun G hG ↦ hD G (List.mem_cons_of_mem F hG)) fun hy ↦ ?_
    rw [Frame.fill, hj, hk, hb, ha, List.singleton_append, run_sequence] at hy
    obtain ⟨y, -, hy⟩ := hy.of_bind
    split at hy
    · exact hB hy
    next hne => exact hne (yields_pure hy).symm

theorem not_completes_of_jump (hB : B.jump = some j) :
    ¬ (B.run I destination).Yields .completes := by
  rw [run_jump, hB]
  intro hy
  obtain ⟨x, -, hx⟩ := Yields.of_map hy
  by_cases hc : x = .completes
  · subst hc
    simp at hx
  · exact hc (Outcome.via_of_ne hc _ ▸ hx).symm

theorem andThen_of_not_completes {M K : Proc σ ε Outcome} (h : ¬ M.Yields .completes) :
    M.andThen K = M := by
  have hp : M >>= pure = M := bind_pure M
  rw [andThen]
  conv_rhs => rw [← hp]
  refine bind_eq_bind fun x hx ↦ if_neg ?_
  rintro rfl
  exact h hx

theorem alike_toElse {i : BlockId} {A Y : Tree} (ho : (Decompile.plug D B).Orderly)
    (hD : ∀ F ∈ D, F.IsRest ∧ F.jump = none) (hB : B.jump = some j) (hj : destination j = s)
    (ht : Trims D (B.withJump none) A) :
    Alike (Outcome.Joins s)
      ((node q none .sequence [node i none (.ifElse c) [Decompile.plug D B], Y]).run I destination)
      ((node i none (.ifElse c) [A, Y]).run I destination) := by
  have hout : FallsOut D := fun F hF ↦ by
    obtain ⟨⟨hk, ha, -⟩, hj⟩ := hD F hF
    exact ⟨by rw [Frame.Ends, hk]; exact ha, hj⟩
  rw [run_sequence, run_if, run_ifElse, andThen, bind_assoc]
  refine .bind_right _ fun v _ ↦ ?_
  cases v
  · exact .of_eq (Outcome.joins_refl s) (by simp [skip])
  · have hnot : ¬ ((Decompile.plug D B).run I destination).Yields .completes :=
      not_completes_of_rest hD (not_completes_of_jump hB)
    have := andThen_of_not_completes (K := Y.run I destination) hnot
    rw [andThen] at this
    simp only [if_true, this]
    exact alike_dropJump ho hout hB hj ht

theorem swaps_refl (u v x : Outcome) : Outcome.Swaps u v x x := .inl rfl

theorem alike_swaps {u v : Outcome} (hu : u ≠ .completes) (hv : v ≠ .completes)
    (hC : ∀ G ∈ C, G.Hands u u ∧ G.Hands v v) (hcase : SameCase C B B')
    (h : Alike (Outcome.Swaps u v) (B.run I destination) (B'.run I destination)) :
    Alike (Outcome.Swaps u v) ((Decompile.plug C B).run I destination)
      ((Decompile.plug C B').run I destination) := by
  refine alike_plug (swaps_refl u v) hcase (fun G hG x y hxy ↦ ?_) h
  obtain ⟨hGu, hGv⟩ := hC G hG
  rcases hxy with rfl | ⟨rfl, rfl⟩ | ⟨rfl, rfl⟩
  · exact .inl rfl
  · exact .inr ⟨_, _, hGu, hGv, .inr (.inl ⟨Outcome.via_of_ne hu _, Outcome.via_of_ne hv _⟩)⟩
  · exact .inr ⟨_, _, hGv, hGu, .inr (.inr ⟨Outcome.via_of_ne hv _, Outcome.via_of_ne hu _⟩)⟩

theorem alike_inPlaceOf {k : Kind} {x : Outcome} (h : InPlaceOf (node n none k []) B P)
    (hB : B.jump = some j) (hk : (node n none k []).run I destination = pure x) (hR : ∀ y, R y y)
    (hx : R (.jumps (destination j)) x) (hx' : R x (.jumps (destination j))) :
    Alike R (B.run I destination) (P.run I destination) := by
  cases h with
  | instead hkind hch =>
    obtain ⟨b, e, k', l⟩ := B
    subst hkind hch
    change e = some j at hB
    subst hB
    rw [hk]
    rw [run_empty]
    exact .pure hx hx'
  | after q hne =>
    rw [run_sequence, hk, run_jump B, hB, map_eq, andThen]
    refine .bind_right _ fun y _ ↦ ?_
    by_cases hy : y = .completes
    · subst hy
      exact .pure hx hx'
    · rw [if_neg hy, Outcome.via_of_ne hy]
      exact .pure (hR y) (hR y)

theorem alike_breaks {C₁ C₂ : List Frame} (ho : (Decompile.plug (C₁ ++ F :: C₂) B).Orderly)
    (hF : F.kind.isBreakable) (hend : F.jump.elim (FallsOut C₂) fun i ↦ destination i = s)
    (hB : B.jump = some j) (hj : destination j = s) (hne : ∀ G ∈ C₁, G.id ≠ F.id)
    (hp : InPlaceOf (node n none (.breakTo F.id labeled) []) B P) :
    Alike (Outcome.Joins s) ((Decompile.plug (C₁ ++ F :: C₂) B).run I destination)
      ((Decompile.plug (C₁ ++ F :: C₂) P).run I destination) := by
  have hbreak : (node n none (.breakTo F.id labeled) []).run I destination =
      pure (.breaks F.id) := by
    rw [run_node, act, map_pure, Option.map_none, Outcome.via_none]
  have hP : Alike (Outcome.Swaps (.jumps s) (.breaks F.id)) (B.run I destination)
      (P.run I destination) := by
    refine alike_inPlaceOf hp hB hbreak (swaps_refl _ _) ?_ ?_
    · exact .inr (.inl ⟨by rw [hj], rfl⟩)
    · exact .inr (.inr ⟨rfl, by rw [hj]⟩)
  have hcase := sameCase_of_orderly ho (not_isCase_of_jump hB) P
  have hC₁ := alike_swaps (u := .jumps s) (v := .breaks F.id) (by simp) (by simp)
    (fun G hG ↦ ⟨rfl, (if_neg fun h ↦ hne G hG h.2.symm).symm⟩) hcase.left hP
  have hF' : ∀ (R : Outcome → Outcome → Prop) (e : Option FlowId), (∀ x, R x x) → F.jump.map destination = e →
      R ((Outcome.jumps s).via e) (Outcome.completes.via e) →
      R (Outcome.completes.via e) ((Outcome.jumps s).via e) →
      Alike R ((F.fill (Decompile.plug C₁ B)).run I destination)
        ((F.fill (Decompile.plug C₁ P)).run I destination) := by
    intro R e hR he h h'
    refine alike_fill hR (hcase.right F rfl) hC₁ fun x y hxy ↦ ?_
    have hcaught : F.Hands (.breaks F.id) .completes := (if_pos ⟨hF, rfl⟩).symm
    rw [Frame.Allows, he]
    rcases hxy with rfl | ⟨rfl, rfl⟩ | ⟨rfl, rfl⟩
    · exact .inl rfl
    · exact .inr ⟨_, _, rfl, hcaught, h⟩
    · exact .inr ⟨_, _, hcaught, rfl, h'⟩
  rw [plug_append, plug_cons, plug_append, plug_cons]
  have hfill : SameCase C₂ (F.fill (Decompile.plug C₁ B)) (F.fill (Decompile.plug C₁ P)) := .tail F _ _
  cases hjump : F.jump with
  | none =>
    rw [hjump] at hend
    exact alike_fallsOut hend hfill (hF' _ none (Outcome.joins_refl s) (by rw [hjump]; rfl)
      (Outcome.joins_completes s).symm (Outcome.joins_completes s))
  | some i =>
    rw [hjump] at hend
    have hend : destination i = s := hend
    refine .of_eq (Outcome.joins_refl s) (run_plug_congr hfill (Alike.eq ?_))
    exact hF' Eq (some s) (fun _ ↦ rfl) (by rw [hjump, Option.map_some, hend]) rfl rfl

variable (hn : ∀ c c', negates c c' → I.branch c' = not <$> I.branch c)

include hn in
theorem Resolves.alike (h : Resolves destination negates s j T T') (ho : T.Orderly)
    (hj : destination j = s) :
    Alike (Outcome.Joins s) (T.run I destination) (T'.run I destination) := by
  have hcase {C : List Frame} {b : BlockId} {e : Option JumpId} {k : Kind} {l : List Tree}
      (ho : (Decompile.plug C (node b e k l)).Orderly) (hk : ∀ v t, k ≠ .switchCase v t) (B' : Tree) :
      SameCase C (node b e k l) B' := by
    refine sameCase_of_orderly ho ?_ B'
    rintro ⟨_, v, t, _, he⟩
    cases he
    exact hk v t rfl
  cases h with
  | fall hC hB ht => exact alike_dropJump ho hC hB hj ht
  | invertExit hC hi hneg =>
    exact alike_fallsOut hC (hcase ho (fun _ _ ↦ nofun) _) (alike_invertExit hj (hn _ _ hneg))
  | invertRest hC hneg =>
    exact alike_fallsOut hC (hcase ho (fun _ _ ↦ nofun) _) (alike_invertRest hj (hn _ _ hneg))
  | @toElse C D q i c B A Y hC hD hB ht =>
    refine alike_fallsOut hC (hcase ho (fun _ _ ↦ nofun) _) (alike_toElse ?_ hD hB hj ht)
    exact Orderly.of_plug (C := ⟨i, none, .ifElse c, [], []⟩ :: ⟨q, none, .sequence, [], [Y]⟩ :: C) ho
  | @breaks C₁ C₂ F n labeled B P hF hend hl hB hne hp =>
    refine (alike_breaks ho hF hend hB hj hne hp).trans ?_ (joins_trans s)
    refine .of_eq (Outcome.joins_refl s) ?_
    rw [plug_append, plug_cons, plug_append, plug_cons]
    refine run_plug_congr (fun G _ _ ↦ ?_) run_label.symm
    obtain ⟨id, jump, kind, before, after⟩ := F
    cases labeled <;> cases kind <;> rfl

end Resolve

section Join

variable (hn : ∀ c c', negates c c' → I.branch c' = not <$> I.branch c)
  (hf : ∀ c, isFalse c → I.loop c = pure false)

include hf in
theorem run_wrap {w : BlockId} (hc : isFalse c)
    (hT : ∀ t, ¬ (T.run I destination).Yields (.breaks t) ∧ ¬ (T.run I destination).Yields (.continues t)) :
    (node w none (.loop .doWhile c none labeled) [T]).run I destination = T.run I destination := by
  rw [run_node, act, Option.map_none, via_none_map, Option.elim_none, pure_bind, looping, iterate_eq,
    if_pos rfl, hf c hc]
  change (T.run I destination >>= next w (again (pure false))) >>= _ = _
  have hp : T.run I destination >>= pure = T.run I destination := bind_pure _
  rw [bind_assoc]
  conv_rhs => rw [← hp]
  refine bind_eq_bind fun x hx ↦ ?_
  cases x with
  | completes => simp [next, Outcome.GoesOn, again]
  | breaks t => exact absurd hx (hT t).1
  | continues t => exact absurd hx (hT t).2
  | jumps | leaves => simp [next, Outcome.GoesOn, Outcome.caught]

include hn hf in
theorem Yields.alike (h : Tree.Yields destination negates isFalse isNew s T T') (ho : T.Orderly)
    (hT : ∀ x, (T.run I destination).Yields x → x.IsOut) :
    Alike (Outcome.Joins s) (T.run I destination) (T'.run I destination) := by
  induction h with
  | refl => exact .of_eq (Outcome.joins_refl s) rfl
  | resolve hy hj hr ih =>
    exact ih.trans (hr.alike hn (hy.upholds ho).orderly hj) (joins_trans s)
  | @wrap T' w c _ hc _ ih =>
    refine ih.trans (.of_eq (Outcome.joins_refl s) (run_wrap hf hc fun t ↦ ?_).symm)
      (joins_trans s)
    have hout {x : Outcome} (hx : (T'.run I destination).Yields x) : ∃ y, x.Joins s y ∧ y.IsOut := by
      obtain ⟨σ, es, σ', hx⟩ := hx
      obtain ⟨y, hy, hx⟩ := ih.back.ends hx
      exact ⟨y, hy, hT y ⟨_, _, _, hx⟩⟩
    refine ⟨fun hx ↦ ?_, fun hx ↦ ?_⟩
    · obtain ⟨y, hy, hout⟩ := hout hx
      rcases hy.cases with rfl | ⟨h, -⟩ | ⟨h, -⟩
      · exact hout
      · cases h
      · cases h
    · obtain ⟨y, hy, hout⟩ := hout hx
      rcases hy.cases with rfl | ⟨h, -⟩ | ⟨h, -⟩
      · exact hout
      · cases h
      · cases h

theorem FollowedBy.run_eq (h : FollowedBy B S N) (hB : B.jump = none) :
    N.run I destination = (B.run I destination).andThen (S.run I destination) := by
  cases h with
  | void hk hch =>
    obtain ⟨b, e, k, l⟩ := S
    subst hk hch
    rw [run_withJump, ← hB, withJump_self, run_empty, andThen_pure]
    rfl
  | sequence q => rw [run_sequence]

theorem run_plug_rest (hC : ∀ F ∈ C, F.IsRest ∧ F.jump = none)
    (h : N.run I destination = (B.run I destination).andThen (S.run I destination)) :
    (Decompile.plug C N).run I destination =
      ((Decompile.plug C B).run I destination).andThen (S.run I destination) := by
  induction C generalizing N B with
  | nil => exact h
  | cons F C ih =>
    obtain ⟨⟨hk, ha, P, hb⟩, hj⟩ := hC F List.mem_cons_self
    refine ih (fun G hG ↦ hC G (List.mem_cons_of_mem F hG)) ?_
    rw [Frame.fill, Frame.fill, hj, hk, hb, ha, List.singleton_append, List.singleton_append,
      run_sequence, run_sequence, h, andThen_assoc]

theorem jump_of_tidy (h : (Decompile.plug C N).Tidy) (hF : F ∈ C) (hk : F.kind = .sequence) :
    F.jump = none := by
  obtain ⟨D, E, rfl⟩ := List.append_of_mem hF
  rw [plug_append, plug_cons] at h
  exact (h _ mem_nodes_plug hk).1

include hn hf in
theorem Yields.run_eq (h : Tree.Yields destination negates isFalse isNew s T (Decompile.plug C B))
    (ho : T.Orderly) (hT : ∀ x, (T.run I destination).Yields x → x.IsOut) (hC : ∀ F ∈ C, F.IsRest)
    (hB : B.jump = none) (hN : FollowedBy B S N) (htidy : (Decompile.plug C N).Tidy)
    (hheld : ∀ b j, (b, j) ∈ (Decompile.plug C B).held → destination j ≠ s) :
    (Decompile.plug C N).run I destination =
      T.run I destination >>= handle s (S.run I destination) := by
  have hrest : ∀ F ∈ C, F.IsRest ∧ F.jump = none := fun F hF ↦
    ⟨hC F hF, jump_of_tidy htidy hF (hC F hF).1⟩
  rw [run_plug_rest hrest (hN.run_eq hB), andThen]
  refine ((h.alike hn hf ho hT).symm.bind_eq (fun x y ↦ Outcome.Joins.symm) fun x y hx hy hxy ↦ ?_)
  have hout := hT y hy
  rcases hxy.cases with rfl | ⟨rfl, rfl⟩ | ⟨rfl, rfl⟩
  · have hxs : x ≠ .jumps s := by
      rintro rfl
      obtain ⟨b, j, hj, hd⟩ := held_of_yields hx
      exact hheld b j hj hd
    have hxc : x ≠ .completes := by
      rintro rfl
      exact hout
    rw [handle_of_ne hxs, if_neg hxc]
  · rw [if_pos rfl, handle_jump]
  · exact hout.elim

end Join

end Tree

end Decompile
