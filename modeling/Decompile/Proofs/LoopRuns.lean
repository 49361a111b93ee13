import Decompile.Proofs.Lax
import Decompile.Proofs.SuccessorRuns

namespace Decompile

open Proc

namespace Outcome

/-- The exits of the body of the loop `w`, with the jumps to its head `f` in mind. -/
def back (f : FlowId) (w : BlockId) (x : Outcome) : Outcome :=
  if x = jumps f ∨ x = continues w then completes else x

def Back (f : FlowId) (w : BlockId) (x y : Outcome) : Prop := x.back f w = y.back f w

variable {f : FlowId} {w : BlockId} {x y : Outcome}

theorem back_refl (f : FlowId) (w : BlockId) (x : Outcome) : Back f w x x := rfl

theorem Back.symm (h : Back f w x y) : Back f w y x := Eq.symm h

theorem back_trans (f : FlowId) (w : BlockId) (x y z : Outcome) (h : Back f w x y) (h' : Back f w y z) :
    Back f w x z :=
  Eq.trans h h'

theorem Joins.back (h : Joins f x y) (w : BlockId) : Back f w x y := by
  rcases h.cases with rfl | ⟨rfl, rfl⟩ | ⟨rfl, rfl⟩ <;> simp [Back, Outcome.back]

theorem Back.cases (h : Back f w x y) (hy : y.IsOut) (hx : x ≠ jumps f) :
    x.GoesOn w ∧ y = jumps f ∨ x = y ∧ y ≠ jumps f := by
  simp only [Back, Outcome.back] at h
  cases y with
  | completes | breaks | continues => exact hy.elim
  | leaves | jumps d => split at h <;> split at h <;> simp_all [GoesOn]

end Outcome

/-- Runs again as long as it comes back to `f`. -/
def selfLoop {σ ε : Type} (f : FlowId) (P : Proc σ ε Outcome) : Proc σ ε Outcome :=
  iterate (fun _ : Unit ↦ P >>= fun x ↦ pure (if x = .jumps f then .inl () else .inr x)) ()

section Loop

variable {σ ε : Type} {f : FlowId} {w : BlockId} {e : Option FlowId} {test : Proc σ ε Bool}
  {M M' K : Proc σ ε Outcome}

theorem next_out {K : Proc σ ε (Unit ⊕ Outcome)} {x : Outcome} (hx : x.IsOut) :
    next w K x = pure (.inr x) := by
  cases x with
  | completes | breaks | continues => exact hx.elim
  | jumps | leaves => simp [next, Outcome.GoesOn, Outcome.caught]

theorem via_out {x : Outcome} (hx : x.IsOut) : x.via e = x := by
  refine Outcome.via_of_ne ?_ e
  rintro rfl
  exact hx

theorem map_looping (kind : LoopKind) : Outcome.via e <$> looping w kind test M K =
    iterate (fun _ : Unit ↦ (if kind = .doWhile then doStep w test M else whileStep w test M K) >>=
      Sum.elim (pure ∘ .inl) fun x ↦ pure (.inr (x.via e))) () := by
  rw [map_eq, looping, iterate_bind]
  simp only [map_pure]

theorem skip_next : skip >>= next w (pure (.inl ())) = (pure (.inl ()) : Proc σ ε (Unit ⊕ Outcome)) := by
  rw [skip, pure_bind, next, if_pos (.inl rfl)]

theorem elim_ne_jumps (he : e ≠ some f) : e.elim Outcome.completes Outcome.jumps ≠ .jumps f := by
  cases e with
  | none => simp
  | some d => simpa using he

theorem while_eq (h : Alike (Outcome.Back f w) M M') (hM : ∀ x, M.Yields x → x.IsOut)
    (hM' : ¬ M'.Yields (.jumps f)) (he : e ≠ some f) :
    Outcome.via e <$> looping w .whileLoop test M' skip =
      selfLoop f (test >>= fun v ↦ if v then M else pure (Outcome.completes.via e)) := by
  rw [map_looping]
  congr 1
  funext _
  rw [if_neg (by simp), whileStep, bind_assoc, bind_assoc, skip_next]
  congr 1
  funext v
  cases v
  · simp [elim_ne_jumps he]
  · simp only [if_true, bind_assoc]
    refine h.symm.bind_eq (fun x y ↦ Outcome.Back.symm) fun x y hx hy hxy ↦ ?_
    have hxf : x ≠ .jumps f := by
      rintro rfl
      exact hM' hx
    rcases hxy.cases (hM y hy) hxf with ⟨hgo, rfl⟩ | ⟨rfl, hne⟩
    · rw [next, if_pos hgo, pure_bind, if_pos rfl]
      rfl
    · rw [next_out (hM x hy), pure_bind, Sum.elim_inr, via_out (hM x hy), if_neg hne]

theorem doWhile_eq (hM : ∀ x, M.Yields x → x = .completes ∨ x.IsOut) (hf : ¬ M.Yields (.jumps f))
    (he : e ≠ some f) : Outcome.via e <$> looping w .doWhile test M K = selfLoop f (M.andThen
      (test >>= fun v ↦ pure (if v then .jumps f else Outcome.completes.via e))) := by
  rw [map_looping]
  congr 1
  funext _
  rw [if_pos rfl, doStep, andThen, bind_assoc, bind_assoc]
  refine bind_eq_bind fun x hx ↦ ?_
  rcases hM x hx with rfl | hout
  · rw [next, if_pos (.inl rfl), if_pos rfl, again, bind_assoc, bind_assoc]
    congr 1
    funext v
    cases v <;> simp [elim_ne_jumps he]
  · have hxc : x ≠ .completes := by
      rintro rfl
      exact hout
    have hxf : x ≠ .jumps f := by
      rintro rfl
      exact hf hx
    rw [next_out hout, if_neg hxc, pure_bind, pure_bind, Sum.elim_inr, via_out hout, if_neg hxf]

theorem split_eq {X : Proc σ ε Outcome} (h : ¬ M.Yields (.continues w)) :
    looping w .possibleFor test M X = looping w .whileLoop test (M.andThen X) skip := by
  rw [looping]
  congr 1
  funext _
  rw [if_neg (by simp), whileStep, whileStep, skip_next]
  congr 1
  funext v
  cases v
  · rfl
  · simp only [andThen, bind_assoc]
    refine bind_eq_bind fun x hx ↦ ?_
    by_cases hc : x = .completes
    · subst hc
      rw [next, if_pos (.inl rfl), if_pos rfl]
    · have hgo : ¬ x.GoesOn w := by
        rintro (hx' | rfl)
        · exact hc hx'
        · exact h hx
      rw [if_neg hc, pure_bind, next, next, if_neg hgo, if_neg hgo]

end Loop

namespace Tree

variable {destination : JumpId → FlowId} {negates : ExprId → ExprId → Prop} {isTrue : ExprId → Prop}
  {f : FlowId} {w : BlockId} {j : JumpId} {T T' X : Tree}

variable {continues : Bool}

section Close

variable {B N A : Tree} {C : List Frame}

theorem Bodied.run_eq {σ ε : Type} {I : Interp σ ε} {leaves : JumpId → Prop}
    (h : Bodied leaves N B) : B.run I destination = N.run I destination := by
  cases h with
  | whole => rfl
  | apart q x j hj hl =>
    rw [run_sequence, run_empty, andThen_pure, ← hj, ← run_jump]

theorem Bodied.jump (h : Bodied (destination · ≠ f) N B) (i : JumpId) (hi : B.jump = some i) :
    destination i = f := by
  cases h with
  | whole hN => exact not_not.mp (hN i hi)
  | apart => cases hi

variable {σ ε : Type} {I : Interp σ ε} {continued : Bool} {e : Option JumpId} {k : Kind}

/-- The body of a loop, as far as its back jumps are closed. -/
structure Body (destination : JumpId → FlowId) (f : FlowId) (X : Tree) : Prop where
  orderly : X.Orderly
  tidy : X.Tidy
  jump : ∀ i, X.jump = some i → destination i = f

theorem jump_plug (hC : C ≠ []) (B B' : Tree) :
    (Decompile.plug C B).jump = (Decompile.plug C B').jump := by
  induction C generalizing B B' with
  | nil => exact absurd rfl hC
  | cons F C ih =>
    cases C with
    | nil => rfl
    | cons G C => exact ih nofun (F.fill B) (F.fill B')

theorem falls_concat {D : List Frame} {G : Frame} (h : Falls (D ++ [G])) : FallsOut D ∧ G.Ends := by
  induction D with
  | nil => exact ⟨fun _ hF ↦ (List.not_mem_nil hF).elim, h.1⟩
  | cons F D ih =>
    obtain ⟨hends, hjump, hrest⟩ := h
    refine ⟨fun F' hF' ↦ ?_, (ih hrest).2⟩
    rcases List.mem_cons.mp hF' with rfl | hF'
    · exact ⟨hends, hjump.resolve_left (by simp)⟩
    · exact (ih hrest).1 F' hF'

theorem alike_falls (hX : Body destination f (Decompile.plug C B)) (hC : Falls C)
    (hB : B.jump = some j) (hj : destination j = f) (ht : Trims C (B.withJump none) A) :
    Alike (Outcome.Joins f) ((Decompile.plug C B).run I destination) (A.run I destination) := by
  by_cases hout : C = [] ∨ (Decompile.plug C B).jump = none
  · exact alike_dropJump hX.orderly (fallsOut_iff.mpr ⟨hC, hout⟩) hB hj ht
  obtain ⟨hne, hjump⟩ := not_or.mp hout
  obtain ⟨i, hi⟩ := Option.ne_none_iff_exists'.mp hjump
  obtain ⟨D, G, rfl⟩ := (List.eq_nil_or_concat' C).resolve_left hne
  obtain ⟨hD, hG⟩ := falls_concat hC
  have hcase := sameCase_of_orderly hX.orderly (not_isCase_of_jump hB) (B.withJump none)
  have ho : (Decompile.plug (D ++ [G]) (B.withJump none)).Orderly :=
    ((reforms_withJump (J := fun _ ↦ False) (Orderly.of_plug hX.orderly) hB not_false).plug
      hX.orderly).orderly
  have hGi : G.jump.map destination = some f := by
    have hi' : G.jump = some i := by simpa using hi
    rw [hi', Option.map_some, hX.jump i hi]
  -- The jump of the body leads back as well, so the two do just the same.
  refine .of_eq (Outcome.joins_refl f) ?_
  rw [← ht.run_eq ho, plug_append, plug_append]
  refine Alike.eq (alike_fill (fun _ ↦ rfl) (hcase.right G rfl)
    (alike_fallsOut hD hcase.left (alike_withJump hB hj)) fun x y hxy ↦ ?_)
  rw [Frame.Allows, hGi]
  rcases hxy.cases with rfl | ⟨rfl, rfl⟩ | ⟨rfl, rfl⟩
  · exact .inl rfl
  · exact .inr ⟨_, _, ⟨hG, rfl⟩, rfl, rfl⟩
  · exact .inr ⟨_, _, rfl, ⟨hG, rfl⟩, rfl⟩

theorem Body.falls (hX : Body destination f (Decompile.plug C B)) (hC : Falls C)
    (hB : B.jump = some j) (ht : Trims C (B.withJump none) A) : Body destination f A := by
  have hr := (reforms_withJump (J := fun _ ↦ False) (Orderly.of_plug hX.orderly) hB
    not_false).plug hX.orderly
  have htidy : (Decompile.plug C (B.withJump none)).Tidy :=
    hX.tidy.plug (Tidy.of_plug hX.tidy).withJump_none fun hp ↦ absurd hp.1 (by simp [hB])
  refine ⟨(ht.reforms hr.orderly (J := fun _ ↦ False)).orderly, ht.tidy htidy, fun i hi ↦ ?_⟩
  generalize hN : B.withJump none = N at ht
  cases ht with
  | keep =>
    cases C with
    | nil =>
      subst hN
      simp at hi
    | cons F C => exact hX.jump i (jump_plug (C := F :: C) nofun _ _ ▸ hi)
  | first => exact nomatch hC.1
  | rest q b Y C =>
    cases C with
    | nil =>
      obtain ⟨-, x, y, hl, hx⟩ := hX.tidy _ (mem_nodes_self _) rfl
      obtain rfl : Y = x := (List.cons.inj hl).1
      exact absurd hi (by simp [hx.1])
    | cons F C => exact hX.jump i (jump_plug (C := F :: C) nofun _ _ ▸ hi)

theorem inPlaceOf_tidy {n : BlockId} {P : Tree} (h : InPlaceOf (node n none k []) B P)
    (hB : B.jump = some j) (ht : B.Tidy) (hk : k ≠ .sequence) : P.Tidy ∧ P.jump = none := by
  cases h with
  | instead => exact ⟨tidy_leaf hk, rfl⟩
  | after q =>
    refine ⟨tidy_node.mpr ⟨fun _ ↦ ⟨rfl, _, _, rfl, by simp, fun hs ↦ ?_⟩, ?_⟩, rfl⟩
    · have := (ht B (mem_nodes_self _) (by simpa using hs)).1
      exact absurd this (by simp [hB])
    · simpa using ⟨ht.withJump_none, tidy_leaf hk⟩

theorem Returns.body (h : Returns w j continued (node w e k [X]) T') (hX : Body destination f X)
    (hj : destination j = f) : ∃ labeled X', T' = node w e (k.labelIf labeled) [X'] ∧
      Body destination f X' ∧
      (∀ {σ ε : Type} (I : Interp σ ε), Alike (Outcome.Back f w) (X.run I destination)
        (X'.run I destination)) ∧
      (continued = false → ∀ {σ ε : Type} (I : Interp σ ε), Alike (Outcome.Joins f)
        (X.run I destination) (X'.run I destination)) := by
  have hback {σ ε : Type} {M M' : Proc σ ε Outcome} (h : Alike (Outcome.Joins f) M M') :
      Alike (Outcome.Back f w) M M' :=
    ⟨h.there.mono fun x y _ _ hxy ↦ hxy.back w, h.back.mono fun x y _ _ hxy ↦ hxy.back w⟩
  cases h with
  | @falls C B A e k hC hB ht =>
    refine ⟨false, A, rfl, hX.falls hC hB ht, fun I ↦ hback (alike_falls hX hC hB hj ht),
      fun _ _ _ I ↦ alike_falls hX hC hB hj ht⟩
  | @continues C B P e k n labeled hl hB hne hp =>
    obtain ⟨htidy, hjump⟩ := inPlaceOf_tidy hp hB (Tidy.of_plug hX.tidy) (by simp)
    have hr := (hp.reforms (J := fun _ ↦ False) (Orderly.of_plug hX.orderly) hB not_false rfl
      fun _ ↦ nofun).plug hX.orderly
    refine ⟨labeled, Decompile.plug C P, rfl, ⟨hr.orderly, ?_, fun i hi ↦ ?_⟩, fun {σ ε} I ↦ ?_, nofun⟩
    · exact hX.tidy.plug htidy fun hp ↦ absurd hp.1 (by simp [hB])
    · cases C with
      | nil => exact absurd hi (by simp [hjump])
      | cons F C => exact hX.jump i (jump_plug (C := F :: C) nofun _ _ ▸ hi)
    · have hcontinue : (node n none (.continueTo w labeled) []).run I destination =
          pure (.continues w) := by
        rw [run_node, act, map_pure, Option.map_none, Outcome.via_none]
      have hP : Alike (Outcome.Swaps (.jumps f) (.continues w)) (B.run I destination)
          (P.run I destination) := by
        refine alike_inPlaceOf hp hB hcontinue (swaps_refl _ _) ?_ ?_
        · exact .inr (.inl ⟨by rw [hj], rfl⟩)
        · exact .inr (.inr ⟨rfl, by rw [hj]⟩)
      have hC := alike_swaps (u := .jumps f) (v := .continues w) (by simp) (by simp)
        (fun G hG ↦ ⟨rfl, fun h ↦ hne G hG h.2.symm, rfl⟩)
        (sameCase_of_orderly hX.orderly (not_isCase_of_jump hB) P) hP
      have hswap (x y : Outcome) (hxy : Outcome.Swaps (.jumps f) (.continues w) x y) : x.Back f w y := by
        rcases hxy with rfl | ⟨rfl, rfl⟩ | ⟨rfl, rfl⟩ <;> simp [Outcome.Back, Outcome.back]
      exact ⟨hC.there.mono fun x y _ _ ↦ hswap x y, hC.back.mono fun x y _ _ ↦ hswap x y⟩

theorem labelIf_labelIf (l l' : Bool) : (k.labelIf l).labelIf l' = k.labelIf (l || l') := by
  cases l <;> cases l' <;> cases k <;> rfl

theorem Closes.body (h : Closes destination f w continues T T') (hT : T = node w e k [X])
    (hX : Body destination f X) :
    ∃ labeled X', T' = node w e (k.labelIf labeled) [X'] ∧ Body destination f X' ∧
      (∀ {σ ε : Type} (I : Interp σ ε), Alike (Outcome.Back f w) (X.run I destination)
        (X'.run I destination)) ∧
      (continues = false → ∀ {σ ε : Type} (I : Interp σ ε), Alike (Outcome.Joins f)
        (X.run I destination) (X'.run I destination)) := by
  induction h generalizing k X with
  | refl =>
    subst hT
    exact ⟨false, X, rfl, hX, fun I ↦ .of_eq (Outcome.back_refl f w) rfl,
      fun _ _ _ I ↦ .of_eq (Outcome.joins_refl f) rfl⟩
  | @step j continued continues T T' T'' hj hr _ ih =>
    subst hT
    obtain ⟨l, Y, rfl, hY, hback, hjoin⟩ := hr.body hX hj
    obtain ⟨l', Z, rfl, hZ, hback', hjoin'⟩ := ih rfl hY
    refine ⟨l || l', Z, by rw [labelIf_labelIf], hZ,
      fun I ↦ (hback I).trans (hback' I) (Outcome.back_trans f w), fun hc _ _ I ↦ ?_⟩
    obtain ⟨hc, hc'⟩ := Bool.or_eq_false_iff.mp hc
    exact (hjoin hc I).trans (hjoin' hc' I) (joins_trans f)

end Close

section Back

variable {T₁ T₂ : Tree} {e : Option JumpId} {kind : LoopKind}

theorem Loops.doWhile_run (h : Loops destination negates isTrue f w .doWhile T T') (ht : T.Tidy) :
    ∃ e c X, T' = node w e (.loop .doWhile c none false) [X] ∧
      ∀ {σ ε : Type} (I : Interp σ ε), T.run I destination = (X.run I destination).andThen
        (I.branch c >>= fun v ↦ pure (if v then .jumps f else
          Outcome.completes.via (e.map destination))) := by
  have htest {σ ε : Type} (I : Interp σ ε) {p t : BlockId} {e : Option JumpId} {c : ExprId}
      {j : JumpId} (hj : destination j = f) :
      (node p e (.conditional c) [node t (some j) .empty []]).run I destination =
        I.branch c >>= fun v ↦ pure (if v then .jumps f else
          Outcome.completes.via (e.map destination)) := by
    rw [run_test]
    congr 1
    funext v
    cases v
    · simp [skip]
    · simp [hj, Outcome.via]
  cases h with
  | @doWhileOnly p t n e c j hj =>
    refine ⟨e, c, _, rfl, fun I ↦ ?_⟩
    rw [htest I hj, run_empty]
    exact (skip_andThen _).symm
  | @doWhile C q p t e c j P hC hj =>
    refine ⟨e, c, _, rfl, fun I ↦ ?_⟩
    rw [← htest I hj]
    exact run_plug_rest (fun F hF ↦ ⟨hC F hF, jump_of_tidy ht hF (hC F hF).1⟩) run_sequence

theorem Loops.while_run (h : Loops destination negates isTrue f w .whileLoop T T') (ho : T.Orderly)
    (ht : T.Tidy) : ∃ e c X, T' = node w e (.loop .whileLoop c none false) [X] ∧
      Body destination f X ∧ e.map destination ≠ some f ∧
      ∀ {σ ε : Type} (I : Interp σ ε), (∀ c c', negates c c' → I.branch c' = not <$> I.branch c) →
        ∃ test, (test = I.branch c ∨ isTrue c ∧ test = pure true) ∧
          T.run I destination = test >>= fun v ↦
            if v then X.run I destination else pure (Outcome.completes.via (e.map destination)) := by
  have hbody {N B : Tree} (hb : Bodied (destination · ≠ f) N B) (ho : N.Orderly) (ht : N.Tidy) :
      Body destination f B :=
    ⟨(hb.upholds (J := fun _ ↦ False) ho).orderly, hb.tidy ht, hb.jump⟩
  cases h with
  | @whileOnly p t n e c c' i B hi hneg hb =>
    refine ⟨some i, c', B, rfl, hbody hb orderly_empty (tidy_leaf (by simp)), by simpa using hi,
      fun I hn ↦ ⟨_, .inl rfl, ?_⟩⟩
    rw [run_test, hn c c' hneg, map_eq, bind_assoc]
    congr 1
    funext v
    cases v
    · simp [skip, hb.run_eq]
    · simp [Outcome.via]
  | @«while» q p t c c' i Y B hi hneg hb =>
    have hYo : Y.Orderly := orderly_sequence.mp ho Y (by simp)
    have hYt : Y.Tidy := (tidy_node.mp ht).2 Y (by simp)
    refine ⟨some i, c', B, rfl, hbody hb hYo hYt, by simpa using hi, fun I hn ↦ ⟨_, .inl rfl, ?_⟩⟩
    rw [run_sequence, run_conditional, hn c c' hneg, map_eq, bind_assoc, andThen, bind_assoc]
    congr 1
    funext v
    cases v
    · simp [skip, hb.run_eq]
    · simp
  | @forever c T B hc hb =>
    refine ⟨none, c, B, rfl, hbody hb ho ht, by simp, fun I _ ↦ ⟨_, .inr ⟨hc, rfl⟩, ?_⟩⟩
    rw [pure_bind, if_pos rfl, hb.run_eq]

variable {σ ε : Type} {I : Interp σ ε} {t : Expressions}

/-- The loop does what the tree did that came back to its head. -/
def Goes (I : Interp σ ε) (destination : JumpId → FlowId) (isTrue : ExprId → Prop) (f : FlowId)
    (w : BlockId) (T T' : Tree) : Prop :=
  ∃ e kind c l ch test, T' = node w e (.loop kind c none l) ch ∧
    (test = I.branch c ∨ isTrue c ∧ test = pure true) ∧
    Outcome.via (e.map destination) <$> looping w kind test
      ((ch.map (run I destination)).getD 0 skip) ((ch.map (run I destination)).getD 1 skip) =
    selfLoop f (T.run I destination)

theorem Loops.goes_doWhile (hl : Loops destination negates isTrue f w .doWhile T T') (ht : T.Tidy)
    (hT : T.Closed t destination) (hI : I.Within (lax t))
    (hheld : ∀ b j, (b, j) ∈ T'.held → destination j ≠ f) : Goes I destination isTrue f w T T' := by
  obtain ⟨e, c, X, rfl, hrun⟩ := hl.doWhile_run ht
  refine ⟨e, .doWhile, c, false, [X], _, rfl, .inl rfl, ?_⟩
  rw [hrun I]
  refine doWhile_eq (fun x hx ↦ ?_) (fun hx ↦ ?_) fun he ↦ ?_
  · by_cases hc : x = .completes
    · exact .inl hc
    obtain ⟨es, s, hx⟩ := within_run hI destination X x hx ()
    refine .inr (hT x ?_)
    rw [hrun (lax t)]
    exact yields_andThen ⟨(), es, s, hx⟩ hc
  · obtain ⟨b, j, hj, hd⟩ := held_of_yields hx
    exact hheld b j (by simp [held, hj]) hd
  · obtain ⟨j, rfl, hd⟩ := Option.map_eq_some_iff.mp he
    exact hheld w j (by simp [held]) hd

theorem Loops.goes_while (hl : Loops destination negates isTrue f w .whileLoop T T₁)
    (hc : Closes destination f w continues T₁ T₂)
    (hs : T' = T₂ ∨ continues = false ∧ Splits w T₂ T') (ho : T.Orderly) (ht : T.Tidy)
    (hT : T.Closed t destination) (hI : I.Within (lax t))
    (hn : ∀ c c', negates c c' → I.branch c' = not <$> I.branch c)
    (hheld : ∀ b j, (b, j) ∈ T'.held → destination j ≠ f) : Goes I destination isTrue f w T T' := by
  obtain ⟨e, c, X, rfl, hX, he, hrun⟩ := hl.while_run ho ht
  obtain ⟨l, X₂, rfl, hX₂, hback, hjoin⟩ := hc.body rfl hX
  have hout : ∀ x, (X.run I destination).Yields x → x.IsOut := by
    intro x hx
    obtain ⟨es, s, hx⟩ := within_run hI destination X x hx ()
    obtain ⟨test, htest, hT'⟩ := hrun (lax t) fun c c' _ ↦ branch_lax t c c'
    refine hT x ?_
    rw [hT']
    refine Yields.bind (x := true) ?_ ⟨(), es, s, hx⟩
    rcases htest with rfl | ⟨-, rfl⟩
    · exact yields_free true
    · exact pure_yields true
  obtain ⟨test, htest, hTrun⟩ := hrun I hn
  rw [Kind.labelIf_loop] at hs
  rcases hs with rfl | ⟨hfalse, hsplit⟩
  · refine ⟨e, .whileLoop, c, _, [X₂], test, rfl, htest, ?_⟩
    rw [hTrun]
    refine while_eq (hback I) hout (fun hx ↦ ?_) he
    obtain ⟨b, j, hj, hd⟩ := held_of_yields hx
    exact hheld b j (by simp [held, hj]) hd
  cases hsplit with
  | @increment C _ _ expr _ q x P hC =>
    refine ⟨e, .possibleFor, c, _, [Decompile.plug C P, node x none (.evaluate expr 0) []], test, rfl,
      htest, ?_⟩
    have hseq : (Decompile.plug C (node q none .sequence [P, node x none (.evaluate expr 0) []])).run
        I destination = ((Decompile.plug C P).run I destination).andThen
          ((node x none (.evaluate expr 0) []).run I destination) :=
      run_plug_rest (fun F hF ↦ ⟨hC F hF, jump_of_tidy hX₂.tidy hF (hC F hF).1⟩) run_sequence
    have hstays : ¬ ((Decompile.plug C P).run I destination).Yields (.continues w) := by
      -- Nothing continues the loop, so nothing passes the last statement by.
      intro hx
      have hx' : ((Decompile.plug C (node q none .sequence
          [P, node x none (.evaluate expr 0) []])).run I destination).Yields (.continues w) := by
        rw [hseq]
        exact yields_andThen hx (by simp)
      obtain ⟨s, es, s', hx'⟩ := hx'
      obtain ⟨y, hy, hx'⟩ := (hjoin hfalse I).back.ends hx'
      have hout := hout y ⟨_, _, _, hx'⟩
      rcases hy.cases with rfl | ⟨h, -⟩ | ⟨h, -⟩
      · exact hout
      · cases h
      · cases h
    have hsplit : looping w .possibleFor test ((Decompile.plug C P).run I destination)
        ((node x none (.evaluate expr 0) []).run I destination) =
      looping w .whileLoop test (((Decompile.plug C P).run I destination).andThen
        ((node x none (.evaluate expr 0) []).run I destination)) skip := split_eq hstays
    rw [hTrun]
    refine Eq.trans (congrArg (Outcome.via (e.map destination) <$> ·) hsplit) ?_
    rw [← hseq]
    refine while_eq (hback I) hout (fun hx ↦ ?_) he
    obtain ⟨b, j, hj, hd⟩ := held_of_yields hx
    refine hheld b j ?_ hd
    rw [mem_held_plug] at hj
    have hj' : (b, j) ∈ (Decompile.plug C P).held := by
      rw [mem_held_plug]
      simpa [held] using hj
    simp [held, hj']

theorem looping_mono {kind : LoopKind} {test test' : Proc σ ε Bool} {M K : Proc σ ε Outcome}
    (h : test ≤ test') : looping w kind test M K ≤ looping w kind test' M K := by
  refine iterate_mono (fun _ ↦ ?_) ()
  split
  · exact bind_mono le_rfl fun x ↦ by
      rw [next, next]
      split
      · exact bind_mono h fun _ ↦ le_rfl
      · exact le_rfl
  · exact bind_mono h fun _ ↦ le_rfl

theorem Goes.run_le (h : Goes I destination isTrue f w T T') (hb : ∀ c, I.loop c ≤ I.branch c)
    (ht : ∀ c, isTrue c → I.loop c ≤ pure true) :
    T'.run I destination ≤ selfLoop f (T.run I destination) := by
  obtain ⟨e, kind, c, l, ch, test, rfl, htest, hrun⟩ := h
  rw [← hrun, run_node, act, Option.elim_none, pure_bind]
  refine bind_mono (looping_mono ?_) fun _ ↦ le_rfl
  rcases htest with rfl | ⟨hc, rfl⟩
  · exact hb c
  · exact ht c hc

theorem Goes.run_eq (h : Goes I destination isTrue f w T T') (hb : ∀ c, I.loop c = I.branch c)
    (ht : ∀ c, isTrue c → I.loop c = pure true) :
    T'.run I destination = selfLoop f (T.run I destination) := by
  obtain ⟨e, kind, c, l, ch, test, rfl, htest, hrun⟩ := h
  have htest : I.loop c = test := by
    rcases htest with rfl | ⟨hc, rfl⟩
    · exact hb c
    · exact ht c hc
  rw [← hrun, ← htest, run_node, act, Option.elim_none, pure_bind]

theorem selfLoop_yields {P : Proc σ ε Outcome} {x : Outcome} (h : (selfLoop f P).Yields x) :
    P.Yields x ∧ x ≠ .jumps f := by
  obtain ⟨_, h⟩ := h.of_iterate
  obtain ⟨y, hy, h⟩ := h.of_bind
  have hx := yields_pure h
  split at hx
  · cases hx
  next hne =>
    cases hx
    exact ⟨hy, hne⟩

end Back

end Tree

end Decompile
