import Decompile.Proofs.BackJumps
import Decompile.Proofs.Shape

namespace Decompile.Tree

variable {T T' B N P S Y : Tree} {C D : List Frame} {J : JumpId → Prop} {b q n w : BlockId}
  {e : Option JumpId} {j : JumpId} {k : Kind} {l : List Tree} {destination : JumpId → FlowId}
  {negates : ExprId → ExprId → Prop} {f s : FlowId}

/-- No switch is lost with the tree. -/
def Switchless (T : Tree) : Prop := ∀ s ∈ T.nodes, s.kind.isSwitch = false

theorem switchless_leaf (hk : k.isSwitch = false) : (node b e k []).Switchless := by
  intro s hs
  obtain rfl : s = node b e k [] := by simpa [nodes] using hs
  exact hk

theorem switchless_test {c : ExprId} {t : BlockId} {e' : Option JumpId} :
    (node b e (.conditional c) [node t e' .empty []]).Switchless := by
  intro s hs
  rcases mem_nodes.mp hs with rfl | ⟨x, hx, hs⟩
  · rfl
  · obtain rfl := List.mem_singleton.mp hx
    exact switchless_leaf rfl s hs

theorem isSwitch_of_simple (hk : k.Simple) : k.isSwitch = false := by
  cases k <;> first | rfl | exact hk.elim

theorem Simple.switchless (h : P.Simple) : P.Switchless := by
  obtain ⟨b, e, k, l⟩ := P
  obtain ⟨-, hk, rfl⟩ := h
  exact switchless_leaf (isSwitch_of_simple hk)

theorem upholds_withJump (h : B.Orderly) (e : Option JumpId) : Upholds J B (B.withJump e) := by
  refine .of_nodes ((orderly_withJump e).mpr h) fun s hs hk ↦ ?_
  rcases mem_nodes.mp hs with rfl | ⟨x, hx, hs⟩
  · exact ⟨_, mem_nodes_self _, by simp, by simpa using hk, by simp⟩
  · exact ⟨s, mem_nodes.mpr (.inr ⟨x, by simpa using hx, hs⟩), rfl, hk, rfl⟩

theorem reforms_withJump (h : B.Orderly) (hB : B.jump = some j) (hj : ¬ J j) :
    Reforms J B (B.withJump none) where
  toUpholds := upholds_withJump h none
  isCase hc := by
    obtain ⟨_, _, _, _, rfl⟩ := hc
    cases hB
  isBranch hb := ⟨by simpa using hb.1, .inr (by simp)⟩
  bare _ _ _ _ hb := by
    obtain ⟨_, _, rfl⟩ := hb
    cases hB
  leaf i hi b hb := by
    subst hb
    cases hB
    exact absurd hi hj

theorem upholds_part (h : (node q e .sequence l).Orderly) (hY : Y ∈ l)
    (hl : ∀ x ∈ l, x = Y ∨ x.Switchless) : Upholds J (node q e .sequence l) Y := by
  refine .of_nodes (orderly_sequence.mp h Y hY) fun s hs hk ↦ ?_
  rcases mem_nodes.mp hs with rfl | ⟨x, hx, hs⟩
  · cases hk
  · rcases hl x hx with rfl | hx
    · exact ⟨s, hs, rfl, hk, rfl⟩
    · exact absurd hk (by simp [hx s hs])

theorem reforms_part (h : (node q e .sequence l).Orderly) (hY : Y ∈ l)
    (hl : ∀ x ∈ l, x = Y ∨ x.Switchless) : Reforms J (node q e .sequence l) Y :=
  (upholds_part h hY hl).reforms (fun _ _ ↦ nofun) (List.ne_nil_of_mem hY)

theorem Trims.reforms (h : Trims C B T) (ho : (Decompile.plug C B).Orderly) :
    Reforms J (Decompile.plug C B) T := by
  have hempty {b : BlockId} : (node b none .empty []).Switchless := switchless_leaf rfl
  cases h with
  | keep => exact .refl ho
  | first q b Y C =>
    exact (reforms_part (Orderly.of_plug ho) (by simp) fun x hx ↦ by
      rcases List.mem_cons.mp hx with rfl | hx
      · exact .inr hempty
      · exact .inl (List.mem_singleton.mp hx)).plug ho
  | rest q b Y C =>
    exact (reforms_part (Orderly.of_plug ho) (by simp) fun x hx ↦ by
      rcases List.mem_cons.mp hx with rfl | hx
      · exact .inl rfl
      · exact .inr (List.mem_singleton.mp hx ▸ hempty)).plug ho

theorem InPlaceOf.reforms (h : InPlaceOf (node n none k []) B P) (ho : B.Orderly)
    (hB : B.jump = some j) (hj : ¬ J j) (hs : k.isSwitch = false) (hc : ∀ c, k ≠ .conditional c) :
    Reforms J B P := by
  have hnone : ¬ B.IsCase := by
    rintro ⟨_, _, _, _, rfl⟩
    cases hB
  have hleaf : ∀ i, J i → ∀ b, B ≠ node b (some i) .empty [] := by
    rintro i hi b rfl
    cases hB
    exact hj hi
  have hbare : ∀ i c b, ¬ B.Bare i c b := by
    rintro i c b ⟨_, _, rfl⟩
    cases hB
  cases h with
  | instead hk hch =>
    refine ⟨.of_nodes (orderly_leaf hs hc) fun s hs hsk ↦ ?_, fun h ↦ absurd h hnone,
      fun _ ↦ ⟨rfl, .inr rfl⟩, fun i _ c b h ↦ absurd h (hbare i c b),
      fun i hi b h ↦ absurd h (hleaf i hi b)⟩
    obtain ⟨b, e, k', l⟩ := B
    subst hk hch
    exact absurd hsk (by simp [switchless_leaf rfl s hs])
  | after q hne =>
    have horderly : (node q none .sequence [B.withJump none, node n none k []]).Orderly :=
      orderly_sequence.mpr (by simp [orderly_withJump, ho, orderly_leaf hs hc])
    refine ⟨.of_nodes horderly fun s hs hsk ↦ ?_, fun h ↦ absurd h hnone, fun h ↦ ?_,
      fun i _ c b h ↦ absurd h (hbare i c b), fun i hi b h ↦ absurd h (hleaf i hi b)⟩
    · rcases mem_nodes.mp hs with rfl | ⟨x, hx, hs⟩
      · exact ⟨_, mem_nodes.mpr (.inr ⟨_, List.mem_cons_self, mem_nodes_self _⟩), by simp,
          by simpa using hsk, by simp⟩
      · refine ⟨s, mem_nodes.mpr (.inr ⟨_, List.mem_cons_self, ?_⟩), rfl, hsk, rfl⟩
        exact mem_nodes.mpr (.inr ⟨x, by simpa using hx, hs⟩)
    · rcases h.2 with hk | hk
      · exact absurd ⟨hk, h.1⟩ hne
      · exact absurd hk (by simp [hB])

section Resolve

theorem isSwitch_labelIf (labeled : Bool) (k : Kind) : (k.labelIf labeled).isSwitch = k.isSwitch := by
  cases labeled <;> cases k <;> rfl

theorem fits_labelIf {labeled : Bool} : Fits (k.labelIf labeled) l ↔ Fits k l := by
  cases labeled
  · rfl
  · cases k <;> simp [Fits, Kind.labelIf, Kind.setLabeled, Kind.isSwitch]

theorem upholds_kind {k' : Kind} (h : (node b e k l).Orderly) (hf : Fits k' l)
    (hs : k.isSwitch → k'.isSwitch) : Upholds J (node b e k l) (node b e k' l) := by
  refine .of_nodes (orderly_node.mpr ⟨hf, (orderly_node.mp h).2⟩) fun s hmem hk ↦ ?_
  rcases mem_nodes.mp hmem with rfl | ⟨x, hx, hmem⟩
  · exact ⟨_, mem_nodes_self _, rfl, hs hk, rfl⟩
  · exact ⟨s, mem_nodes.mpr (.inr ⟨x, hx, hmem⟩), rfl, hk, rfl⟩

theorem upholds_label (labeled : Bool) (h : (node b e k l).Orderly) :
    Upholds J (node b e k l) (node b e (k.labelIf labeled) l) :=
  upholds_kind h (fits_labelIf.mpr (orderly_node.mp h).1) fun hk ↦ (isSwitch_labelIf labeled k).trans hk

theorem reforms_label (labeled : Bool) (h : (node b e k l).Orderly) (hk : k.isBreakable) :
    Reforms J (node b e k l) (node b e (k.labelIf labeled) l) := by
  refine ⟨upholds_label labeled h, ?_, fun hb ↦ ⟨hb.1, ?_⟩, ?_, ?_⟩
  · rintro ⟨_, _, _, _, he⟩
    cases he
    cases hk
  · rcases hb.2 with hk' | he
    · subst hk'
      cases hk
    · exact .inr he
  · rintro i - c b ⟨_, _, he⟩
    cases he
    cases hk
  · rintro i - b he
    cases he
    cases hk

theorem Resolves.reforms (h : Resolves destination negates s j T T') (ho : T.Orderly)
    (hj : destination j = s) : Reforms (destination · ≠ s) T T' := by
  have hJ : ¬ (fun i ↦ destination i ≠ s) j := fun hne ↦ hne hj
  cases h with
  | @fall C B T hC hB ht =>
    have hr := reforms_withJump (J := fun i ↦ destination i ≠ s) (Orderly.of_plug ho) hB hJ
    exact (hr.plug ho).trans (ht.reforms (hr.plug ho).orderly)
  | @invertExit C p t i c c' hC hi hn =>
    refine Reforms.plug (Upholds.reforms ?_ (fun _ _ ↦ nofun) nofun) ho
    exact .of_nodes orderly_test fun s hs hk ↦ absurd hk (by simp [switchless_test s hs])
  | @invertRest C q p t n c c' R hC hn =>
    have hR : R.Orderly := orderly_sequence.mp (Orderly.of_plug ho) R (by simp)
    refine Reforms.plug (Upholds.reforms ?_ (fun _ _ ↦ nofun) nofun) ho
    refine .of_nodes (by simpa using hR) fun s hs hk ↦ ?_
    rcases mem_nodes.mp hs with rfl | ⟨x, hx, hsx⟩
    · cases hk
    rcases List.mem_cons.mp hx with rfl | hx
    · exact absurd hk (by simp [switchless_test s hsx])
    · obtain rfl := List.mem_singleton.mp hx
      exact ⟨s, mem_nodes.mpr (.inr ⟨x, by simp, hsx⟩), rfl, hk, rfl⟩
  | @toElse C D q i c B A R hC hD hB ht =>
    have hq := orderly_sequence.mp (Orderly.of_plug ho)
    have hR : R.Orderly := hq R (by simp)
    have hDB : (Decompile.plug D B).Orderly :=
      orderly_ifElse.mp (hq _ List.mem_cons_self) _ List.mem_cons_self
    have hr := reforms_withJump (J := fun i ↦ destination i ≠ s) (Orderly.of_plug hDB) hB hJ
    have hA := (hr.plug hDB).trans (ht.reforms (hr.plug hDB).orderly)
    have hq' := hA.plug (C := ⟨i, none, .ifElse c, [], []⟩ :: ⟨q, none, .sequence, [], [R]⟩ :: C) ho
    refine hq'.trans (Reforms.plug (C := C) (Upholds.reforms ?_ (fun _ _ ↦ nofun) nofun) hq'.orderly)
    refine .of_nodes (by simpa using ⟨hA.orderly, hR⟩) fun s hs hk ↦ ?_
    rcases mem_nodes.mp hs with rfl | ⟨x, hx, hsx⟩
    · cases hk
    rcases List.mem_cons.mp hx with rfl | hx
    · rcases mem_nodes.mp hsx with rfl | ⟨y, hy, hsy⟩
      · cases hk
      · obtain rfl := List.mem_singleton.mp hy
        exact ⟨s, mem_nodes.mpr (.inr ⟨y, by simp, hsy⟩), rfl, hk, rfl⟩
    · obtain rfl := List.mem_singleton.mp hx
      exact ⟨s, mem_nodes.mpr (.inr ⟨x, by simp, hsx⟩), rfl, hk, rfl⟩
  | @breaks C₁ C₂ F n labeled B P hF hend hlabel hB hne hp =>
    rw [plug_append] at ho
    have hFo : (F.fill (Decompile.plug C₁ B)).Orderly := Orderly.of_plug ho
    have hr := hp.reforms (J := fun i ↦ destination i ≠ s) (Orderly.of_plug hFo.of_fill) hB
      hJ rfl fun _ ↦ nofun
    have hin := (hr.plug hFo.of_fill).fill hFo
    rw [plug_append, plug_append]
    exact Reforms.plug (hin.trans (reforms_label labeled hin.orderly hF)) ho

theorem Yields.upholds {isFalse : ExprId → Prop} {isNew : BlockId → Prop}
    (h : Yields destination negates isFalse isNew s T T') (ho : T.Orderly) :
    Upholds (destination · ≠ s) T T' := by
  induction h with
  | refl => exact .refl ho
  | resolve _ hj hr ih => exact ih.trans (hr.reforms ih.orderly hj).toUpholds
  | @wrap T' w c _ _ _ ih =>
    refine ih.trans (.of_nodes (by simpa using ih.orderly) fun s hs hk ↦ ?_)
    exact ⟨s, mem_nodes.mpr (.inr ⟨T', by simp, hs⟩), rfl, hk, rfl⟩

theorem FollowedBy.upholds (h : FollowedBy B S N) (hB : B.Orderly) (hS : S.Orderly) :
    Upholds J B N := by
  cases h with
  | void => exact upholds_withJump hB _
  | sequence q =>
    refine .of_nodes (by simpa using ⟨hB, hS⟩) fun s hs hk ↦ ?_
    exact ⟨s, mem_nodes.mpr (.inr ⟨B, by simp, hs⟩), rfl, hk, rfl⟩

end Resolve

theorem Upholds.under (h : Upholds J T T') (ho : (node b e k l).Orderly) (hm : T' ∈ l) :
    Upholds J T (node b e k l) := by
  refine h.trans (.of_nodes ho fun s hs hk ↦ ?_)
  exact ⟨s, mem_nodes.mpr (.inr ⟨T', hm, hs⟩), rfl, hk, rfl⟩

theorem Switchless.upholds (h : T.Switchless) (ho : T'.Orderly) : Upholds J T T' :=
  .of_nodes ho fun s hs hk ↦ absurd hk (by simp [h s hs])

section Loop

theorem Bodied.upholds {leaves : JumpId → Prop} (h : Bodied leaves N B) (ho : N.Orderly) :
    Upholds J N B := by
  cases h with
  | whole => exact .refl ho
  | apart q x j hj hl =>
    exact (upholds_withJump ho none).under (by simp [orderly_withJump, ho]) List.mem_cons_self

theorem Loops.upholds {isTrue : ExprId → Prop} {kind : LoopKind}
    (h : Loops destination negates isTrue f w kind T T') (ho : T.Orderly) : Upholds J T T' := by
  cases h with
  | doWhileOnly => exact switchless_test.upholds (by simp)
  | @doWhile C q p t e c j P hC hj =>
    have hP : Upholds J (node q none .sequence
        [P, node p e (.conditional c) [node t (some j) .empty []]]) P :=
      upholds_part (Orderly.of_plug ho) List.mem_cons_self fun x hx ↦ by
        rcases List.mem_cons.mp hx with rfl | hx
        · exact .inl rfl
        · exact .inr (List.mem_singleton.mp hx ▸ switchless_test)
    have hCP := hP.plug_rest ho hC
    exact hCP.under (by simpa using hCP.orderly) List.mem_cons_self
  | whileOnly hi hn hb => exact switchless_test.upholds (by simpa using (hb.upholds (J := J) orderly_empty).orderly)
  | @«while» q p t c c' i Y B hi hn hb =>
    have hY : Upholds J _ Y := upholds_part ho (by simp) fun x hx ↦ by
      rcases List.mem_cons.mp hx with rfl | hx
      · exact .inr switchless_test
      · exact .inl (List.mem_singleton.mp hx)
    have hB := hY.trans (hb.upholds hY.orderly)
    exact hB.under (by simpa using hB.orderly) List.mem_cons_self
  | forever hc hb =>
    have hB := hb.upholds (J := J) ho
    exact hB.under (by simpa using hB.orderly) List.mem_cons_self

theorem Returns.upholds {continued : Bool} (h : Returns w j continued T T') (ho : T.Orderly)
    (hj : ¬ J j) : Upholds J T T' := by
  cases h with
  | @falls C B A e k hC hB ht =>
    have hCB : (Decompile.plug C B).Orderly := (orderly_node.mp ho).2 _ List.mem_cons_self
    have hr := reforms_withJump (Orderly.of_plug hCB) hB hj
    have hA := (hr.plug hCB).trans (ht.reforms (hr.plug hCB).orderly)
    exact (hA.fill (F := ⟨w, e, k, [], []⟩) ho).toUpholds
  | @continues C B P e k n labeled hl hB hne hp =>
    have hCB : (Decompile.plug C B).Orderly := (orderly_node.mp ho).2 _ List.mem_cons_self
    have hP := hp.reforms (Orderly.of_plug hCB) hB hj rfl fun _ ↦ nofun
    have hF := (hP.plug hCB).fill (F := ⟨w, e, k, [], []⟩) ho
    exact hF.toUpholds.trans (upholds_label labeled hF.orderly)

theorem Closes.upholds {continues : Bool} (h : Closes destination f w continues T T')
    (ho : T.Orderly) : Upholds (destination · ≠ f) T T' := by
  induction h with
  | refl => exact .refl ho
  | step hj hr _ ih =>
    have hu := hr.upholds (J := fun i ↦ destination i ≠ f) ho fun hne ↦ hne hj
    exact hu.trans (ih hu.orderly)

theorem Splits.upholds (h : Splits w T T') (ho : T.Orderly) : Upholds J T T' := by
  cases h with
  | @increment C e c expr labeled q x P hC =>
    have hleaf : (node x none (.evaluate expr 0) []).Orderly := orderly_leaf rfl fun _ ↦ nofun
    have hCo : (Decompile.plug C _).Orderly := orderly_loop.mp ho _ List.mem_cons_self
    have hP : Upholds J (node q none .sequence [P, node x none (.evaluate expr 0) []]) P :=
      upholds_part (Orderly.of_plug hCo) List.mem_cons_self fun y hy ↦ by
        rcases List.mem_cons.mp hy with rfl | hy
        · exact .inl rfl
        · exact .inr (List.mem_singleton.mp hy ▸ switchless_leaf rfl)
    have hCP := hP.plug_rest hCo hC
    refine (hCP.fill (F := ⟨w, e, .loop .whileLoop c none labeled, [], []⟩) ho rfl
      fun _ ↦ nofun).trans (.of_nodes (by simpa using ⟨hCP.orderly, hleaf⟩) fun s hs hk ↦ ?_)
    rcases mem_nodes.mp hs with rfl | ⟨y, hy, hsy⟩
    · cases hk
    · obtain rfl := List.mem_singleton.mp hy
      exact ⟨s, mem_nodes.mpr (.inr ⟨_, List.mem_cons_self, hsy⟩), rfl, hk, rfl⟩

end Loop

section Merge

theorem Sheds.reforms (h : Sheds j T T') (ho : T.Orderly) (hj : ¬ J j) : Reforms J T T' := by
  induction h with
  | here hT => exact reforms_withJump ho hT hj
  | @drop q b Y =>
    refine reforms_part ho List.mem_cons_self fun x hx ↦ ?_
    rcases List.mem_cons.mp hx with rfl | hx
    · exact .inl rfl
    · exact .inr (List.mem_singleton.mp hx ▸ switchless_leaf rfl)
  | inside _ _ _ ih => exact (ih ho.of_fill).fill ho

theorem ShedsAll.reforms (h : ShedsAll destination s T T') (ho : T.Orderly) :
    Reforms (destination · ≠ s) T T' := by
  induction h with
  | refl => exact .refl ho
  | step hj hs _ ih =>
    have hr := hs.reforms (J := fun i ↦ destination i ≠ s) ho fun hne ↦ hne hj
    exact hr.trans (ih hr.orderly)

theorem reforms_case {c b : BlockId} {v : CaseValue} {through through' : Bool} (hS : S.Orderly)
    (hj : ¬ J j) : Reforms J (node c none (.switchCase v through) [node b (some j) .empty []])
      (node c none (.switchCase v through') [S]) where
  toUpholds := by
    refine .of_nodes (by simpa using hS) fun s hs hk ↦ ?_
    rcases mem_nodes.mp hs with rfl | ⟨x, hx, hs⟩
    · cases hk
    · obtain rfl := List.mem_singleton.mp hx
      exact absurd hk (by simp [switchless_leaf rfl s hs])
  isCase _ := ⟨⟨c, v, through', S, rfl⟩, rfl⟩
  isBranch h := nomatch h.1
  bare i hi c' b' := by
    rintro ⟨v', t', he⟩
    cases he
    exact absurd hi hj
  leaf _ _ _ h := nomatch h

theorem MergesCase.upholds (h : MergesCase destination s S T T') (ho : T.Orderly) (hS : S.Orderly) :
    Upholds (destination · ≠ s) T T' := by
  cases h with
  | @alone C w c b e selector l before after v through j hj =>
    have hr : Reforms (destination · ≠ s)
        (node c none (.switchCase v through) [node b (some j) .empty []])
        (node c none (.switchCase v through) [S]) := reforms_case hS fun hne ↦ hne hj
    exact (hr.plug (C := ⟨w, e, .switch selector l, before, after⟩ :: C) ho).toUpholds
  | @fallIn C w c b p e selector l before after u v into through j P P' hj hP =>
    have hr : Reforms (destination · ≠ s)
        (node c none (.switchCase v through) [node b (some j) .empty []])
        (node c none (.switchCase v true) [S]) := reforms_case hS fun hne ↦ hne hj
    have hPo : P.Orderly := Orderly.of_plug (C := ⟨p, none, .switchCase u into, [], []⟩ ::
      ⟨w, e, .switch selector l, before, node c none (.switchCase v through)
        [node b (some j) .empty []] :: after⟩ :: C) ho
    have hP' := (hP.reforms hPo).plug (C := ⟨p, none, .switchCase u into, [], []⟩ ::
      ⟨w, e, .switch selector l, before, node c none (.switchCase v through)
        [node b (some j) .empty []] :: after⟩ :: C) ho
    have hC : ∀ X, Decompile.plug (⟨w, e, .switch selector l, before ++
        [node p none (.switchCase u into) [P']], after⟩ :: C) X = Decompile.plug C (node w e
          (.switch selector l) (before ++ node p none (.switchCase u into) [P'] :: X :: after)) :=
      fun X ↦ by simp [Frame.fill]
    have hc := hr.plug (by rw [hC]; exact hP'.orderly)
    rw [hC, hC] at hc
    exact (hP'.trans hc).toUpholds

end Merge

section Fold

theorem reforms_header {k' : Kind} (h : (node b e k l).Orderly) (hs : k'.isSwitch = false)
    (hc : ∀ c, k' ≠ .conditional c) (hk : k.isSwitch = false) (hcase : ∀ v t, k ≠ .switchCase v t)
    (hempty : k ≠ .empty) : Reforms J (node b e k l) (node b e k' l) where
  toUpholds := upholds_kind h (fits_of_plain hs hc l) fun h ↦ absurd h (by simp [hk])
  isCase := by
    rintro ⟨_, v, t, _, he⟩
    cases he
    exact absurd rfl (hcase v t)
  isBranch hb := ⟨hb.1, hb.2.imp (absurd · hempty) fun h ↦ h⟩
  bare _ _ _ _ := by
    rintro ⟨v, t, he⟩
    cases he
    exact absurd rfl (hcase v t)
  leaf _ _ _ he := by
    cases he
    exact absurd rfl hempty

theorem ne_conditional_of_simple (hk : k.Simple) (c : ExprId) : k ≠ .conditional c := by
  rintro rfl
  exact hk

theorem reforms_leaf {k' : Kind} (hk : k.Simple) (hne : k ≠ .empty) (hk' : k'.Simple) :
    Reforms J (node b e k []) (node n e k' []) where
  toUpholds := (switchless_leaf (isSwitch_of_simple hk)).upholds
    (orderly_leaf (isSwitch_of_simple hk') (ne_conditional_of_simple hk'))
  isCase := by
    rintro ⟨_, _, _, _, he⟩
    cases he
  isBranch hb := ⟨rfl, hb.2.imp (absurd · hne) fun h ↦ h⟩
  bare _ _ _ _ := by
    rintro ⟨_, _, he⟩
    cases he
  leaf _ _ _ he := absurd (congrArg kind he) hne

theorem Folds.upholds (h : Folds destination T T') (ho : T.Orderly) : Upholds J T T' := by
  induction h with
  | refl => exact .refl ho
  | trans _ _ ih ih' => exact (ih ho).trans (ih' (ih ho).orderly)
  | @dropFirst C q P Y hP =>
    have hr : Reforms J (node q none .sequence [P, Y]) Y :=
      reforms_part (Orderly.of_plug ho) (by simp) fun x hx ↦ by
        rcases List.mem_cons.mp hx with rfl | hx
        · exact .inr hP.switchless
        · exact .inl (List.mem_singleton.mp hx)
    exact (hr.plug ho).toUpholds
  | @dropLast C q b e k P hk hP =>
    have hr : Upholds J (node q none .sequence [P, node b e k []]) P :=
      upholds_part (Orderly.of_plug ho) List.mem_cons_self fun x hx ↦ by
        rcases List.mem_cons.mp hx with rfl | hx
        · exact .inl rfl
        · exact .inr (List.mem_singleton.mp hx ▸ switchless_leaf (isSwitch_of_simple hk))
    exact (((hr.trans (upholds_withJump hr.orderly e)).reforms (fun _ _ ↦ nofun) nofun).plug
      ho).toUpholds
  | @leaf C b n e k k' hk hne hk' =>
    exact ((reforms_leaf hk hne hk').plug ho).toUpholds
  | @ternary C b n e c k P Q hP hQ hk =>
    have hr : Upholds J (node b e (.ifElse c) [P, Q]) (node n e k []) := by
      refine .of_nodes (orderly_leaf (isSwitch_of_simple hk) (ne_conditional_of_simple hk))
        fun s hs hsk ↦ ?_
      rcases mem_nodes.mp hs with rfl | ⟨x, hx, hsx⟩
      · cases hsk
      rcases List.mem_cons.mp hx with rfl | hx
      · exact absurd hsk (by simp [hP.switchless s hsx])
      · obtain rfl := List.mem_singleton.mp hx
        exact absurd hsk (by simp [hQ.switchless s hsx])
    exact ((hr.reforms (fun _ _ ↦ nofun) nofun).plug ho).toUpholds
  | @combine C D q p t b u e i j c c' c'' hD hd =>
    have hr : Upholds J (node q none .sequence
        [node p none (.conditional c) [node t (some i) .empty []],
          Decompile.plug D (node b e (.conditional c') [node u (some j) .empty []])])
        (Decompile.plug D (node b e (.conditional c') [node u (some j) .empty []])) :=
      upholds_part (Orderly.of_plug ho) (by simp) fun x hx ↦ by
        rcases List.mem_cons.mp hx with rfl | hx
        · exact .inr switchless_test
        · exact .inl (List.mem_singleton.mp hx)
    have ht : Reforms J (node b e (.conditional c') [node u (some j) .empty []])
        (node b e (.conditional c'') [node u (some j) .empty []]) :=
      (switchless_test.upholds orderly_test).reforms (fun _ _ ↦ nofun) nofun
    exact (((hr.trans (ht.plug hr.orderly).toUpholds).reforms (fun _ _ ↦ nofun) nofun).plug
      ho).toUpholds
  | @header C b e c o init l ch =>
    have hr : Reforms J (node b e (.loop .possibleFor c o l) ch)
        (node b e (.loop .forLoop c init l) ch) :=
      reforms_header (Orderly.of_plug ho) rfl (fun _ ↦ nofun) rfl (fun _ _ ↦ nofun) nofun
    exact (hr.plug ho).toUpholds
  | @object C b e m o ch =>
    have hr : Reforms J (node b e (.synchronized m none) ch) (node b e (.synchronized m o) ch) :=
      reforms_header (Orderly.of_plug ho) rfl (fun _ ↦ nofun) rfl (fun _ _ ↦ nofun) nofun
    exact (hr.plug ho).toUpholds

end Fold

end Decompile.Tree
