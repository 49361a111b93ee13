import Decompile.Proofs.CaseMerging
import Decompile.Proofs.Folding

namespace Decompile

def Kind.isSwitch : Kind → Bool
  | switch .. => true
  | _ => false

theorem Statement.isSwitch_kind (s : Statement) : s.kind.isSwitch = s.isSwitch := by
  cases s <;> rfl

namespace Tree

variable {T T' T'' B B' P S : Tree} {F : Frame} {C : List Frame} {J : JumpId → Prop}
  {i b w c : BlockId} {e : Option JumpId} {j : JumpId} {k k' : Kind} {l : List Tree}

/-- A case of a switch. -/
def IsCase (T : Tree) : Prop := ∃ b v through x, T = node b none (.switchCase v through) [x]

/-- What a conditional may hold: a lone jump, or a statement without one. -/
def IsBranch (T : Tree) : Prop := T.children = [] ∧ (T.kind = .empty ∨ T.jump = none)

/-- The parts of a switch are cases, and that of a conditional is a branch. -/
def Fits (k : Kind) (l : List Tree) : Prop :=
  (k.isSwitch → ∀ c ∈ l, c.IsCase) ∧ ∀ c, k = .conditional c → ∃ x, l = [x] ∧ x.IsBranch

def Orderly (T : Tree) : Prop := ∀ s ∈ T.nodes, Fits s.kind s.children

/-- A case that still is a bare jump. -/
def Bare (j : JumpId) (c b : BlockId) (T : Tree) : Prop :=
  ∃ v through, T = node c none (.switchCase v through) [node b (some j) .empty []]

/-- There is a switch with the given cases. -/
def HasSwitch (w : BlockId) (cases : List BlockId) (T : Tree) : Prop :=
  ∃ s ∈ T.nodes, s.id = w ∧ s.kind.isSwitch ∧ s.children.map id = cases

/-- One of the cases of a switch is a bare jump. -/
def Pends (j : JumpId) (w : BlockId) (cases : List BlockId) (c b : BlockId) (T : Tree) : Prop :=
  ∃ s ∈ T.nodes, s.id = w ∧ s.kind.isSwitch ∧ s.children.map id = cases ∧
    ∃ x ∈ s.children, x.Bare j c b

theorem fits_of_plain (hs : k.isSwitch = false) (hc : ∀ c, k ≠ .conditional c) (l : List Tree) :
    Fits k l :=
  ⟨fun h ↦ (Bool.false_ne_true (hs ▸ h)).elim, fun c h ↦ absurd h (hc c)⟩

theorem orderly_node : (node i e k l).Orderly ↔ Fits k l ∧ ∀ c ∈ l, c.Orderly := by
  simp only [Orderly, nodes, List.mem_cons, List.mem_flatMap]
  constructor
  · exact fun h ↦ ⟨h _ (.inl rfl), fun c hc s hs ↦ h s (.inr ⟨c, hc, hs⟩)⟩
  · rintro ⟨h, hl⟩ s (rfl | ⟨c, hc, hs⟩)
    · exact h
    · exact hl c hc s hs

theorem orderly_plain (hs : k.isSwitch = false) (hc : ∀ c, k ≠ .conditional c) :
    (node i e k l).Orderly ↔ ∀ c ∈ l, c.Orderly := by
  rw [orderly_node, and_iff_right (fits_of_plain hs hc l)]

@[simp] theorem orderly_sequence : (node i e .sequence l).Orderly ↔ ∀ c ∈ l, c.Orderly :=
  orderly_plain rfl fun _ ↦ nofun

@[simp] theorem orderly_ifElse {c : ExprId} : (node i e (.ifElse c) l).Orderly ↔ ∀ c ∈ l, c.Orderly :=
  orderly_plain rfl fun _ ↦ nofun

@[simp] theorem orderly_loop {kind : LoopKind} {c : ExprId} {o : Option ExprId} {labeled : Bool} :
    (node i e (.loop kind c o labeled) l).Orderly ↔ ∀ c ∈ l, c.Orderly :=
  orderly_plain rfl fun _ ↦ nofun

@[simp] theorem orderly_case {v : CaseValue} {through : Bool} :
    (node i e (.switchCase v through) l).Orderly ↔ ∀ c ∈ l, c.Orderly :=
  orderly_plain rfl fun _ ↦ nofun

theorem orderly_leaf (hs : k.isSwitch = false) (hc : ∀ c, k ≠ .conditional c) :
    (node i e k []).Orderly :=
  (orderly_plain hs hc).mpr (by simp)

@[simp] theorem orderly_empty : (node i e .empty []).Orderly := orderly_leaf rfl fun _ ↦ nofun

@[simp] theorem orderly_test {c : ExprId} {t : BlockId} {e' : Option JumpId} :
    (node i e (.conditional c) [node t e' .empty []]).Orderly :=
  orderly_node.mpr ⟨⟨fun h ↦ (Bool.false_ne_true h).elim, fun _ _ ↦ ⟨_, rfl, rfl, .inl rfl⟩⟩, by simp⟩

theorem Orderly.of_mem (h : T.Orderly) (hs : B ∈ T.nodes) : B.Orderly :=
  fun u hu ↦ h u (nodes_trans hs hu)

theorem Orderly.of_plug (h : (Decompile.plug C B).Orderly) : B.Orderly := h.of_mem mem_nodes_plug

theorem Orderly.of_fill (h : (F.fill B).Orderly) : B.Orderly := Orderly.of_plug (C := [F]) h

theorem Orderly.branching (h : T.Orderly) : T.Branching := by
  intro s hs c hc
  obtain ⟨x, hx, hx'⟩ := (h s hs).2 c hc
  exact ⟨x, hx, hx'.1, hx'.2⟩

theorem orderly_withJump (e : Option JumpId) : (T.withJump e).Orderly ↔ T.Orderly := by
  cases T
  rw [withJump_eq, orderly_node, orderly_node]
  rfl

/-- Nothing that a switch or a jump could wait for is lost. -/
structure Upholds (J : JumpId → Prop) (T T' : Tree) : Prop where
  orderly : T'.Orderly
  switches : ∀ w cases, T.HasSwitch w cases → T'.HasSwitch w cases
  pends : ∀ j, J j → ∀ w cases c b, T.Pends j w cases c b → T'.Pends j w cases c b

theorem Upholds.refl (h : T.Orderly) : Upholds J T T := ⟨h, fun _ _ h ↦ h, fun _ _ _ _ _ _ h ↦ h⟩

theorem Upholds.trans (h : Upholds J T T') (h' : Upholds J T' T'') : Upholds J T T'' where
  orderly := h'.orderly
  switches w cases hw := h'.switches w cases (h.switches w cases hw)
  pends j hj w cases c b hp := h'.pends j hj w cases c b (h.pends j hj w cases c b hp)

theorem Upholds.of_nodes (ho : T'.Orderly) (h : ∀ s ∈ T.nodes, s.kind.isSwitch →
      ∃ s' ∈ T'.nodes, s'.id = s.id ∧ s'.kind.isSwitch ∧ s'.children = s.children) :
    Upholds J T T' where
  orderly := ho
  switches w cases := by
    rintro ⟨s, hs, rfl, hk, hc⟩
    obtain ⟨s', hs', hid, hk', hch⟩ := h s hs hk
    exact ⟨s', hs', hid, hk', hch ▸ hc⟩
  pends j _ w cases c b := by
    rintro ⟨s, hs, rfl, hk, hc, x, hx, hb⟩
    obtain ⟨s', hs', hid, hk', hch⟩ := h s hs hk
    exact ⟨s', hs', hid, hk', hch ▸ hc, x, hch ▸ hx, hb⟩

/-- The same, and the tree may stand wherever the other may. -/
structure Reforms (J : JumpId → Prop) (B B' : Tree) : Prop extends Upholds J B B' where
  isCase : B.IsCase → B'.IsCase ∧ B'.id = B.id
  isBranch : B.IsBranch → B'.IsBranch
  bare : ∀ j, J j → ∀ c b, B.Bare j c b → B'.Bare j c b
  leaf : ∀ j, J j → ∀ b, B = node b (some j) .empty [] → B' = B

theorem Reforms.refl (h : T.Orderly) : Reforms J T T :=
  ⟨.refl h, fun h ↦ ⟨h, rfl⟩, fun h ↦ h, fun _ _ _ _ h ↦ h, fun _ _ _ _ ↦ rfl⟩

theorem Reforms.trans (h : Reforms J T T') (h' : Reforms J T' T'') : Reforms J T T'' where
  toUpholds := h.toUpholds.trans h'.toUpholds
  isCase hc := ⟨(h'.isCase (h.isCase hc).1).1, (h'.isCase (h.isCase hc).1).2.trans (h.isCase hc).2⟩
  isBranch hb := h'.isBranch (h.isBranch hb)
  bare j hj c b hb := h'.bare j hj c b (h.bare j hj c b hb)
  leaf j hj b hb := (h'.leaf j hj b ((h.leaf j hj b hb).trans hb)).trans (h.leaf j hj b hb)

theorem Upholds.reforms (h : Upholds J B B') (hk : ∀ v through, B.kind ≠ .switchCase v through)
    (hc : B.children ≠ []) : Reforms J B B' where
  toUpholds := h
  isCase hB := by
    obtain ⟨b, v, through, x, rfl⟩ := hB
    exact absurd rfl (hk v through)
  isBranch hB := absurd hB.1 hc
  bare j _ c b hB := by
    obtain ⟨v, through, rfl⟩ := hB
    exact absurd rfl (hk v through)
  leaf j _ b hB := by
    subst hB
    exact absurd rfl hc

theorem HasSwitch.of_mem {s : Tree} {cases : List BlockId} (hs : s ∈ T.nodes)
    (h : s.HasSwitch w cases) : T.HasSwitch w cases := by
  obtain ⟨u, hu, hw⟩ := h
  exact ⟨u, nodes_trans hs hu, hw⟩

theorem Pends.of_mem {s : Tree} {cases : List BlockId} (hs : s ∈ T.nodes)
    (h : s.Pends j w cases c b) : T.Pends j w cases c b := by
  obtain ⟨u, hu, hw⟩ := h
  exact ⟨u, nodes_trans hs hu, hw⟩

theorem mem_nodes_fill {s : Tree} : s ∈ (F.fill B).nodes ↔
    s = F.fill B ∨ s ∈ B.nodes ∨ ∃ x ∈ F.before ++ F.after, s ∈ x.nodes := by
  rw [mem_nodes]
  refine or_congr_right ⟨?_, ?_⟩
  · rintro ⟨x, hx, hs⟩
    rcases List.mem_append.mp hx with hx | hx
    · exact .inr ⟨x, List.mem_append_left _ hx, hs⟩
    · rcases List.mem_cons.mp hx with rfl | hx
      · exact .inl hs
      · exact .inr ⟨x, List.mem_append_right _ hx, hs⟩
  · rintro (hs | ⟨x, hx, hs⟩)
    · exact ⟨B, by simp [Frame.fill], hs⟩
    · refine ⟨x, ?_, hs⟩
      rcases List.mem_append.mp hx with hx | hx <;> simp [Frame.fill, hx]

theorem mem_children_fill {x : Tree} :
    x ∈ (F.fill B).children ↔ x = B ∨ x ∈ F.before ++ F.after := by
  simp only [Frame.fill, children_node, List.mem_append, List.mem_cons]
  tauto

section Fill

theorem Upholds.inside (h : Upholds J B B') (ho : (F.fill B').Orderly)
    (hcases : F.kind.isSwitch → (F.fill B').children.map id = (F.fill B).children.map id)
    (hs : F.kind.isSwitch → ∀ j, J j → ∀ w cases c b, (F.fill B).id = w →
      (F.fill B).children.map id = cases → (∃ x ∈ (F.fill B).children, x.Bare j c b) →
      (F.fill B').Pends j w cases c b) :
    Upholds J (F.fill B) (F.fill B') where
  orderly := ho
  switches w cases := by
    rintro ⟨s, hmem, hid, hk, hc⟩
    rcases mem_nodes_fill.mp hmem with rfl | hmem | ⟨x, hx, hmem⟩
    · exact ⟨_, mem_nodes_self _, hid, hk, (hcases hk).trans hc⟩
    · exact (h.switches w cases ⟨s, hmem, hid, hk, hc⟩).of_mem
        (mem_nodes_fill.mpr (.inr (.inl (mem_nodes_self _))))
    · exact ⟨s, mem_nodes_fill.mpr (.inr (.inr ⟨x, hx, hmem⟩)), hid, hk, hc⟩
  pends j hj w cases c b := by
    rintro ⟨s, hmem, hid, hk, hc, hx⟩
    rcases mem_nodes_fill.mp hmem with rfl | hmem | ⟨x, hx', hmem⟩
    · exact hs hk j hj w cases c b hid hc hx
    · exact (h.pends j hj w cases c b ⟨s, hmem, hid, hk, hc, hx⟩).of_mem
        (mem_nodes_fill.mpr (.inr (.inl (mem_nodes_self _))))
    · exact ⟨s, mem_nodes_fill.mpr (.inr (.inr ⟨x, hx', hmem⟩)), hid, hk, hc, hx⟩

theorem Reforms.fits (h : Reforms J B B') (hF : Fits F.kind (F.before ++ B :: F.after)) :
    Fits F.kind (F.before ++ B' :: F.after) := by
  refine ⟨fun hk x hx ↦ ?_, fun c hc ↦ ?_⟩
  · rcases mem_children_fill.mp hx with rfl | hx
    · exact (h.isCase (hF.1 hk B (by simp))).1
    · exact hF.1 hk x (mem_children_fill.mpr (.inr hx))
  · obtain ⟨x, hl, hx⟩ := hF.2 c hc
    rcases hb : F.before with _ | ⟨y, before⟩
    · obtain ⟨rfl, ha⟩ : B = x ∧ F.after = [] := by simpa [hb] using hl
      exact ⟨B', by simp [ha], h.isBranch hx⟩
    · simp [hb] at hl

theorem Reforms.fill (h : Reforms J B B') (hF : (F.fill B).Orderly) :
    Reforms J (F.fill B) (F.fill B') := by
  have ho : (F.fill B').Orderly := by
    rw [Frame.fill, orderly_node] at hF ⊢
    refine ⟨h.fits hF.1, fun x hx ↦ ?_⟩
    rcases mem_children_fill.mp hx with rfl | hx
    · exact h.orderly
    · exact hF.2 x (mem_children_fill.mpr (.inr hx))
  have hcases (hk : F.kind.isSwitch) : (F.fill B').children.map id = (F.fill B).children.map id := by
    have hB : B'.id = B.id := (h.isCase ((hF _ (mem_nodes_self _)).1 hk B (by simp [Frame.fill]))).2
    simp [Frame.fill, hB]
  refine ⟨h.toUpholds.inside ho hcases fun hk j hj w cases c b hid hc hx ↦ ?_, ?_, ?_, ?_, ?_⟩
  · obtain ⟨x, hx, hbare⟩ := hx
    refine ⟨_, mem_nodes_self _, hid, hk, (hcases hk).trans hc, ?_⟩
    rcases mem_children_fill.mp hx with rfl | hx
    · exact ⟨B', by simp [Frame.fill], h.bare j hj c b hbare⟩
    · exact ⟨x, mem_children_fill.mpr (.inr hx), hbare⟩
  · rintro ⟨b, v, through, x, he⟩
    rw [Frame.fill, node.injEq] at he
    obtain ⟨hid, hj, hk, hl⟩ := he
    rcases hb : F.before with _ | ⟨y, before⟩
    · obtain ⟨-, ha⟩ : B = x ∧ F.after = [] := by simpa [hb] using hl
      exact ⟨⟨b, v, through, B', by simp [Frame.fill, hid, hj, hk, hb, ha]⟩, rfl⟩
    · simp [hb] at hl
  · rintro ⟨hc, -⟩
    simp [Frame.fill] at hc
  · rintro j hj c b ⟨v, through, he⟩
    rw [Frame.fill, node.injEq] at he
    obtain ⟨hid, hj', hk, hl⟩ := he
    rcases hb : F.before with _ | ⟨y, before⟩
    · obtain ⟨hB, ha⟩ : B = node b (some j) .empty [] ∧ F.after = [] := by simpa [hb] using hl
      exact ⟨v, through, by simp [Frame.fill, hid, hj', hk, hb, ha, h.leaf j hj b hB, hB]⟩
    · simp [hb] at hl
  · intro j _ b he
    simp [Frame.fill] at he

theorem Reforms.plug (h : Reforms J B B') (hC : (Decompile.plug C B).Orderly) :
    Reforms J (Decompile.plug C B) (Decompile.plug C B') := by
  induction C generalizing B B' with
  | nil => exact h
  | cons F C ih => exact ih (h.fill (Orderly.of_plug (C := C) hC)) hC

theorem Upholds.fill (h : Upholds J B B') (hF : (F.fill B).Orderly) (hs : F.kind.isSwitch = false)
    (hc : ∀ c, F.kind ≠ .conditional c) : Upholds J (F.fill B) (F.fill B') := by
  refine h.inside ?_ (fun hk ↦ absurd hk (by simp [hs])) fun hk ↦ absurd hk (by simp [hs])
  rw [Frame.fill, orderly_plain hs hc] at hF ⊢
  intro x hx
  rcases mem_children_fill.mp hx with rfl | hx
  · exact h.orderly
  · exact hF x (mem_children_fill.mpr (.inr hx))

theorem Upholds.plug_rest (h : Upholds J B B') (hC : (Decompile.plug C B).Orderly)
    (hrest : ∀ F ∈ C, F.IsRest) : Upholds J (Decompile.plug C B) (Decompile.plug C B') := by
  induction C generalizing B B' with
  | nil => exact h
  | cons F C ih =>
    have hk := (hrest F List.mem_cons_self).1
    exact ih (h.fill (Orderly.of_plug (C := C) hC) (by rw [hk]; rfl) fun c hc ↦ nomatch hk.symm.trans hc) hC
      fun G hG ↦ hrest G (List.mem_cons_of_mem F hG)

end Fill

end Tree

end Decompile
