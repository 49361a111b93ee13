import Decompile.Proofs.SuccessorRuns

namespace Decompile

open Proc

namespace Tree

variable {σ ε : Type} {I : Interp σ ε} {destination : JumpId → FlowId} {T T' P P' S : Tree}
  {C : List Frame} {s : FlowId} {j : JumpId}

section Shed

theorem Sheds.caseValue (h : Sheds j T T') (hT : T.IsCase) : T.caseValue = T'.caseValue := by
  cases h with
  | here hj => exact absurd hT (not_isCase_of_jump hj)
  | drop =>
    obtain ⟨_, _, _, _, he⟩ := hT
    cases he
  | inside => exact caseValue_fill ..

theorem Sheds.alike (h : Sheds j T T') (ho : T.Orderly) (hj : destination j = s) :
    Alike (Outcome.Joins s) (T.run I destination) (T'.run I destination) := by
  induction h with
  | here hT => exact alike_withJump hT hj
  | @drop q b Y =>
    have hp : Y.run I destination = Y.run I destination >>= pure := (bind_pure _).symm
    rw [run_sequence, run_empty, andThen_pure, map_eq, Option.map_some, hj]
    conv => rhs; rw [hp]
    exact .bind_right _ fun x _ ↦ .pure (Outcome.joins_via s x) (Outcome.joins_via s x).symm
  | @inside F B B' hends hjump hB ih =>
    have hcase : F.kind.isSwitch → B.caseValue = B'.caseValue := fun hk ↦
      hB.caseValue ((ho _ (mem_nodes_self _)).1 hk B (mem_children_fill.mpr (.inl rfl)))
    have hout : FallsOut [F] := fun G hG ↦ List.mem_singleton.mp hG ▸ ⟨hends, hjump⟩
    exact alike_fallsOut hout (fun G hG hk ↦ hcase (Option.some.inj hG ▸ hk)) (ih ho.of_fill)

theorem ShedsAll.alike (h : ShedsAll destination s T T') (ho : T.Orderly) :
    Alike (Outcome.Joins s) (T.run I destination) (T'.run I destination) := by
  induction h with
  | refl => exact .of_eq (Outcome.joins_refl s) rfl
  | step hj hs _ ih =>
    have hr := hs.reforms (J := fun i ↦ destination i ≠ s) ho fun hne ↦ hne hj
    exact (hs.alike ho hj).trans (ih hr.orderly) (joins_trans s)

theorem andThen_of_joins {M M' : Proc σ ε Outcome} (h : Alike (Outcome.Joins s) M M') :
    M.andThen (pure (.jumps s)) = M'.andThen (pure (.jumps s)) := by
  refine h.bind_eq (fun x y ↦ Outcome.Joins.symm) fun x y _ _ hxy ↦ ?_
  rcases hxy.cases with rfl | ⟨rfl, rfl⟩ | ⟨rfl, rfl⟩
  · rfl
  · rw [if_pos rfl, if_neg (by simp)]
  · rw [if_pos rfl, if_neg (by simp)]

theorem inOrder_drop_congr {bs as : List (Proc σ ε Outcome)} {M M' L : Proc σ ε Outcome}
    (h : M.andThen L = M'.andThen L) (n : Nat) :
    inOrder ((bs ++ M :: L :: as).drop n) = inOrder ((bs ++ M' :: L :: as).drop n) := by
  rcases Nat.lt_or_ge bs.length n with hn | hn
  · obtain ⟨m, rfl⟩ := Nat.exists_eq_add_of_lt hn
    have hdrop (Q : Proc σ ε Outcome) :
        (bs ++ Q :: L :: as).drop (bs.length + m + 1) = (L :: as).drop m := by
      rw [Nat.add_assoc, List.drop_append]
      simp
    rw [hdrop, hdrop]
  · rw [List.drop_append_of_le_length hn, List.drop_append_of_le_length hn, inOrder_append,
      inOrder_append]
    simp only [inOrder_cons]
    rw [← andThen_assoc M, h, andThen_assoc]

end Shed

section Merge

theorem run_mergeCase {w c b : BlockId} {e : Option JumpId} {selector : ExprId} {l : Bool}
    {before after : List Tree} {v : CaseValue} {through through' : Bool} (hj : destination j = s)
    (hS : ∀ x, (S.run I destination).Yields x → x.IsOut)
    (hheld : ∀ b j, (b, j) ∈ (Decompile.plug C (node w e (.switch selector l)
      (before ++ node c none (.switchCase v through') [S] :: after))).held → destination j ≠ s) :
    (Decompile.plug C (node w e (.switch selector l)
        (before ++ node c none (.switchCase v through') [S] :: after))).run I destination =
      (Decompile.plug C (node w e (.switch selector l) (before ++
        node c none (.switchCase v through) [node b (some j) .empty []] :: after))).run I
          destination >>= handle s (S.run I destination) := by
  refine run_plug_of_held (C := ⟨w, e, .switch selector l, before, after⟩ :: C)
    (B := node c none (.switchCase v through) [node b (some j) .empty []])
    (fun F _ x hx ↦ (hS x hx).clears F.id) (fun b j hb ↦ hheld b j ?_) (fun _ _ _ ↦ rfl) ?_
  · exact mem_held_plug (C := ⟨w, e, .switch selector l, before, after⟩ :: C)
      (T := node c none (.switchCase v through') [S]) |>.mpr (.inr hb)
  · rw [run_case, run_case, run_empty, Option.map_some, hj]
    exact (handle_jump.symm.trans (pure_bind _ _).symm :)

theorem MergesCase.run_eq (h : MergesCase destination s S T T') (ho : T.Orderly)
    (hS : ∀ x, (S.run I destination).Yields x → x.IsOut)
    (hheld : ∀ b j, (b, j) ∈ T'.held → destination j ≠ s) :
    T'.run I destination = T.run I destination >>= handle s (S.run I destination) := by
  cases h with
  | alone hj => exact run_mergeCase hj hS hheld
  | @fallIn C w c b p e selector l before after u v into through j P P' hj hP =>
    have hPo : P.Orderly := Orderly.of_plug (C := ⟨p, none, .switchCase u into, [], []⟩ ::
      ⟨w, e, .switch selector l, before, node c none (.switchCase v through)
        [node b (some j) .empty []] :: after⟩ :: C) ho
    have hfall : (Decompile.plug C (node w e (.switch selector l)
          (before ++ node p none (.switchCase u into) [P] ::
            node c none (.switchCase v through) [node b (some j) .empty []] :: after))).run I
            destination =
        (Decompile.plug C (node w e (.switch selector l)
          (before ++ node p none (.switchCase u into) [P'] ::
            node c none (.switchCase v through) [node b (some j) .empty []] :: after))).run I
            destination := by
      refine run_plug_congr (fun _ _ _ ↦ rfl) ?_
      rw [run_node, run_node]
      simp only [List.map_append, List.map_cons, act, run_case, run_empty, Option.map_some, hj]
      congr 2
      funext n
      congr 1
      exact inOrder_drop_congr (andThen_of_joins (hP.alike hPo)) _
    rw [hfall]
    have hlist (X : Tree) : before ++ node p none (.switchCase u into) [P'] :: X :: after =
        (before ++ [node p none (.switchCase u into) [P']]) ++ X :: after := by simp
    rw [hlist] at hheld
    rw [hlist, hlist]
    exact run_mergeCase hj hS hheld

end Merge

end Tree

end Decompile
