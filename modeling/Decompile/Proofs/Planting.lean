import Decompile.Proofs.JumpChain
import Decompile.Proofs.TreeWalk

namespace Decompile

namespace Blocks

@[simp] theorem id_tree (t : Blocks) (b : BlockId) : (t.tree b).id = b := by
  rw [tree]
  cases t.size <;> rfl

variable {t t' t₁ : Blocks} {X X' : BlockId → Prop} {o : Option BlockId} {T T' T'' B N Y : Tree}
  {C : List Frame} {b q x : BlockId} {s : Statement} {j : Option JumpId}

/-- The tree `T` has become `T'`, which may take in blocks of `X` and new ones. -/
structure Grafted (X : BlockId → Prop) (T T' : Tree) (t t' : Blocks) : Prop where
  off : Off (fun b ↦ b ∈ T.ids ∨ X b) t t'
  linked : t'.Linked
  holds : t'.Holds none T'
  nodup : T'.ids.Nodup
  fresh : ∀ b ∈ T'.ids, b ∈ T.ids ∨ X b ∨ t.size ≤ b.index

theorem Grafted.mono (h : Grafted X T T' t t') (hX : ∀ b, X b → X' b) : Grafted X' T T' t t' where
  off := h.off.mono fun b ↦ .imp_right (hX b)
  linked := h.linked
  holds := h.holds
  nodup := h.nodup
  fresh b hb := (h.fresh b hb).imp_right (·.imp_left (hX b))

theorem Grafted.trans (h : Grafted X T T' t t') (h' : Grafted X' T' T'' t' t'')
    (hX : ∀ b, X' b → b ∈ T.ids ∨ X b ∨ t.size ≤ b.index) : Grafted X T T'' t t'' where
  off := by
    refine ⟨h.off.size_le.trans h'.off.size_le, fun b hb hn ↦ ?_⟩
    rw [not_or] at hn
    obtain ⟨hs, hj, ho⟩ := h.off.same b hb (not_or.mpr hn)
    have hb' : ¬ (b ∈ T'.ids ∨ X' b) := by
      rintro (hbT | hbX)
      · rcases h.fresh b hbT with hb' | hb' | hb'
        · exact hn.1 hb'
        · exact hn.2 hb'
        · omega
      · rcases hX b hbX with hb' | hb' | hb'
        · exact hn.1 hb'
        · exact hn.2 hb'
        · omega
    obtain ⟨hs', hj', ho'⟩ := h'.off.same b (hb.trans_le h.off.size_le) hb'
    exact ⟨hs'.trans hs, hj'.trans hj, ho'.trans ho⟩
  linked := h'.linked
  holds := h'.holds
  nodup := h'.nodup
  fresh b hb := by
    rcases h'.fresh b hb with hb' | hb' | hb'
    · exact h.fresh b hb'
    · exact hX b hb'
    · exact .inr (.inr (h.off.size_le.trans hb'))

section Graft

variable (hat : t.At C B) (hl : t.Linked)

theorem mem_ids_of_part (hb : b ∈ B.ids) : b ∈ (plug C B).ids := mem_ids_plug.mpr (.inl hb)

theorem mem_ids_of_frame (hb : b ∈ C.flatMap Frame.ids) : b ∈ (plug C B).ids :=
  mem_ids_plug.mpr (.inr hb)

include hat in
theorem At.nodup_plug (hNn : N.ids.Nodup)
    (hN : ∀ b ∈ N.ids, b ∈ B.ids ∨ b ∉ C.flatMap Frame.ids) : (plug C N).ids.Nodup := by
  refine Decompile.nodup_plug.mpr ⟨hNn, hat.frames_nodup, fun b hb hb' ↦ ?_⟩
  rcases hN b hb with h | h
  · exact hat.disjoint h hb'
  · exact h hb'

include hat in
theorem Grafted.hang (hoff : Off (fun b ↦ b ∈ (plug C B).ids ∨ X b) t t₁) (hl : t₁.Linked)
    (haround : t₁.HoldsAround C B.id) (hN : t₁.Holds o N) (hNn : N.ids.Nodup)
    (hX : ∀ b, X b → b ∉ C.flatMap Frame.ids)
    (hfresh : ∀ b ∈ N.ids, b ∈ B.ids ∨ X b ∨ t.size ≤ b.index) :
    Grafted X (plug C B) (plug C N) t (t₁.hang C B.id N.id) := by
  have hn : (plug C N).ids.Nodup := by
    refine hat.nodup_plug hNn fun b hb ↦ (hfresh b hb).imp_right fun h hb ↦ ?_
    exact h.elim (hX b · hb) fun h ↦ absurd (hat.around.lt_of_mem_ids hb) (by omega)
  refine ⟨hoff.hang (fun b hb ↦ .inl (.inl (mem_ids_of_frame hb)))
    (.inl (.inl (mem_ids_of_part B.id_mem_ids)))
    (or_assoc.mpr ((hfresh _ N.id_mem_ids).imp_left mem_ids_of_part)), hl.hang haround _,
    holds_hang haround hN hn fun hb ↦ hat.disjoint B.id_mem_ids hb, hn, fun b hb ↦ ?_⟩
  rcases mem_ids_plug.mp hb with hb | hb
  · exact (hfresh b hb).imp_left mem_ids_of_part
  · exact .inl (mem_ids_of_frame hb)

theorem Grafted.crown {l : List Tree} (hl : t.Linked) (hc : ∀ c ∈ l, ∃ o, t.Holds o c)
    (hsub : ∀ b ∈ l.flatMap Tree.ids, b ∈ T.ids ∨ X b) (hn : (l.flatMap Tree.ids).Nodup)
    (hs : s.children = l.map Tree.id) :
    Grafted X T (.node ⟨t.size⟩ none s.kind l) t (t.alloc s).1 where
  off := (Off.refl _ t).alloc fun c hc ↦ .inl <| by
    rw [hs] at hc
    obtain ⟨N, hN, rfl⟩ := List.mem_map.mp hc
    exact hsub _ (List.mem_flatMap.mpr ⟨N, hN, N.id_mem_ids⟩)
  linked := hl.alloc s
  holds := holds_alloc hs hc hn
  nodup := by
    rw [Tree.ids, List.nodup_cons]
    refine ⟨fun hb ↦ ?_, hn⟩
    obtain ⟨c, hcl, hb⟩ := List.mem_flatMap.mp hb
    obtain ⟨o, ho⟩ := hc c hcl
    simpa using ho.lt_of_mem_ids hb
  fresh b hb := by
    rw [Tree.ids, List.mem_cons] at hb
    rcases hb with rfl | hb
    · exact .inr (.inr le_rfl)
    · exact (hsub b hb).imp_right .inl

include hat hl

theorem At.replace (hN : t.Holds o N) (hNn : N.ids.Nodup) (hd : N.ids.Disjoint (plug C B).ids) :
    Grafted (· ∈ N.ids) (plug C B) (plug C N) t (t.hang C B.id N.id) :=
  .hang hat (Off.refl _ t) hl hat.around hN hNn
    (fun _ hb hb' ↦ hd hb (mem_ids_of_frame hb')) fun _ hb ↦ .inr (.inl hb)

omit hl in
theorem Grafted.enclose {l : List Tree} (hoff : Off (fun b ↦ b ∈ B.ids ∨ X b) t t₁)
    (hl : t₁.Linked) (hX : ∀ b, X b → b ∉ C.flatMap Frame.ids) (hc : ∀ c ∈ l, ∃ o, t₁.Holds o c)
    (hsub : ∀ b ∈ l.flatMap Tree.ids, b ∈ B.ids ∨ X b) (hn : (l.flatMap Tree.ids).Nodup)
    (hs : s.children = l.map Tree.id) :
    Grafted X (plug C B) (plug C (.node ⟨t₁.size⟩ none s.kind l)) t
      ((t₁.alloc s).1.hang C B.id ⟨t₁.size⟩) := by
  have hcrown : Grafted X B (.node ⟨t₁.size⟩ none s.kind l) t₁ (t₁.alloc s).1 :=
    .crown hl hc hsub hn hs
  have hmem : ∀ c ∈ s.children, c ∈ B.ids ∨ X c := fun c hc ↦ by
    rw [hs] at hc
    obtain ⟨T, hT, rfl⟩ := List.mem_map.mp hc
    exact hsub _ (List.mem_flatMap.mpr ⟨T, hT, T.id_mem_ids⟩)
  have hframe : ∀ b ∈ C.flatMap Frame.ids, ¬ (b ∈ B.ids ∨ X b) := fun b hb h ↦
    h.elim (fun h ↦ hat.disjoint h hb) fun h ↦ hX b h hb
  have hoff' : Off (fun b ↦ b ∈ (plug C B).ids ∨ X b) t t₁ :=
    hoff.mono fun b ↦ .imp_left mem_ids_of_part
  have haround : t₁.HoldsAround C B.id := hat.around.congr hat.frames_nodup hoff.size_le fun b hb ↦
    hoff.same b (hat.around.lt_of_mem_ids hb) (hframe b hb)
  exact .hang (N := .node ⟨t₁.size⟩ none s.kind l) hat
    (hoff'.alloc fun c hc ↦ .inl ((hmem c hc).imp_left mem_ids_of_part)) hcrown.linked
    (haround.alloc hat.frames_nodup fun c hc hb ↦ hframe c hb (hmem c hc)) hcrown.holds hcrown.nodup
    hX fun b hb ↦ (hcrown.fresh b hb).imp_right (·.imp_right hoff.size_le.trans)

theorem At.append (hN : t.Holds o N) (hNn : N.ids.Nodup) (hd : N.ids.Disjoint (plug C B).ids) :
    Grafted (· ∈ N.ids) (plug C B) (plug C (.node ⟨t.size⟩ none .sequence [B, N])) t
      ((t.alloc (.sequence B.id N.id)).1.hang C B.id ⟨t.size⟩) := by
  refine .enclose (s := .sequence B.id N.id) hat (.refl _ _) hl
    (fun _ hb hb' ↦ hd hb (mem_ids_of_frame hb')) (by simpa using ⟨⟨_, hat.holds⟩, ⟨_, hN⟩⟩)
    (by simp) ?_ rfl
  simp only [List.flatMap_cons, List.flatMap_nil, List.append_nil, List.nodup_append']
  exact ⟨hat.ids_nodup, hNn, fun b hb hb' ↦ hd hb' (mem_ids_of_part hb)⟩

omit hl in
/-- The block of a part of a tree is edited, and its parts stay where they are. -/
theorem At.relabel {B' : Tree} {k : Block → Block} (hid : B'.id = B.id) (hids : B'.ids = B.ids)
    (hl : (t.modify B.id k).Linked) (hB : (t.modify B.id k).Holds (outerOf C) B') :
    Grafted (fun _ ↦ False) (plug C B) (plug C B') t (t.modify B.id k) where
  off := (Off.refl _ t).modify (.inl (.inl (mem_ids_of_part B.id_mem_ids))) k
  linked := hl
  holds := by
    refine holds_plug.mpr ⟨?_, hB⟩
    rw [hid]
    exact hat.around.modify hat.frames_nodup (fun hb ↦ hat.disjoint B.id_mem_ids hb) _
  nodup := hat.nodup_plug (hids ▸ hat.ids_nodup) fun b hb ↦ .inl (hids ▸ hb)
  fresh b hb := .inl <| by rwa [mem_ids_plug, hids, ← mem_ids_plug] at hb

theorem At.setStatement (hs : s.children = B.children.map Tree.id) :
    Grafted (fun _ ↦ False) (plug C B) (plug C (B.withKind s.kind)) t (t.setStatement B.id s) := by
  refine hat.relabel (B.id_withKind _) (B.ids_withKind _) (hl.setStatement fun x hx ↦ ?_)
    (hat.holds.setStatement hat.ids_nodup hs)
  have := hl x _ hx
  rwa [hat.holds.children, ← hs] at this

theorem At.setJump (j : Option JumpId) :
    Grafted (fun _ ↦ False) (plug C B) (plug C (B.withJump j)) t (t.setJump B.id j) :=
  hat.relabel (B.id_withJump j) (B.ids_withJump j) (hl.setJump _ _)
    (hat.holds.setJump hat.ids_nodup j)

end Graft

theorem At.collapse {l : List Tree} (hat : t.At C (.node q j .sequence l)) (hl : t.Linked)
    (hY : Y ∈ l) (hx : x ∈ l.flatMap Tree.ids) (hxY : x ∉ Y.ids) :
    Grafted (fun _ ↦ False) (plug C (.node q j .sequence l)) (plug C Y) t
      ((t.setOuter x none).hang C q Y.id) := by
  have hxq : x ∈ (Tree.node q j .sequence l).ids := by
    rw [Tree.ids]
    exact List.mem_cons_of_mem _ hx
  have hYn : Y.ids.Nodup :=
    (List.nodup_flatMap.mp (Tree.nodup_child hat.ids_nodup).2).1 Y hY
  refine .hang hat ?_ (hl.setOuter_none x) ?_ ((hat.holds.child hY).modify hYn hxY _) hYn
    (fun _ hb ↦ hb.elim) fun b hb ↦ .inl ?_
  · exact (Off.refl _ t).setOuter (.inl (.inl (mem_ids_of_part hxq))) none
  · exact hat.around.modify hat.frames_nodup (fun hb ↦ hat.disjoint hxq hb) _
  · rw [Tree.ids]
    exact List.mem_cons_of_mem _ (List.mem_flatMap.mpr ⟨Y, hY, hb⟩)

end Blocks

namespace Analysis

variable {a a' : Analysis} {L : FlowId → Prop} {X : BlockId → Prop} {f g : FlowId} {T N B : Tree}
  {C : List Frame} {b x old new : BlockId}

/-- The flow block exists and has not been taken over by another. -/
def Live (a : Analysis) (f : FlowId) : Prop :=
  f.index < a.graph.flows.size ∧ (a.flow f).alive = true

instance : Decidable (a.Live f) := inferInstanceAs (Decidable (_ ∧ _))

theorem mem_ids_graph {g : FlowGraph} : f ∈ g.ids ↔ f.index < g.flows.size := by
  obtain ⟨i⟩ := f
  simp [FlowGraph.ids]

@[simp] theorem mem_live : f ∈ a.graph.live ↔ a.Live f := by
  rw [FlowGraph.live, List.mem_mergeSort, List.mem_filter, mem_ids_graph]
  rfl

/-- The tree of a flow block. -/
def tree (a : Analysis) (f : FlowId) : Tree := a.blocks.tree (a.root f)

@[simp] theorem id_tree (a : Analysis) (f : FlowId) : (a.tree f).id = a.root f :=
  Blocks.id_tree ..

/-- The trees of the flow blocks in `L` stand side by side in the table. -/
structure Planted (a : Analysis) (L : FlowId → Prop) : Prop where
  live : ∀ f, L f → a.Live f
  holds : ∀ f, L f → a.blocks.Holds none (a.tree f)
  nodup : ∀ f, L f → (a.tree f).ids.Nodup
  apart : ∀ f g, L f → L g → f ≠ g → (a.tree f).ids.Disjoint (a.tree g).ids
  owner : ∀ f g, L f → a.Live g → a.root g ∈ (a.tree f).ids → g = f
  roots : ∀ g, a.Live g → (a.root g).index < a.blocks.size
  growth : ∀ f g, L f → L g → f ≠ g → (a.flow f).growth ∉ (a.tree g).ids
  growths : ∀ f, L f → (a.flow f).growth.index < a.blocks.size
  linked : a.blocks.Linked

/-- An edit of the tree of `f`, which may take in the blocks of `X`. -/
structure Grafts (X : BlockId → Prop) (L : FlowId → Prop) (f : FlowId) (T : Tree)
    (a a' : Analysis) : Prop where
  blocks : Blocks.Grafted X (a.tree f) T a.blocks a'.blocks
  root : a'.root f = T.id
  live : ∀ g, L g → a'.Live g
  other : ∀ g, a'.Live g → g ≠ f → a.Live g ∧ a'.root g = a.root g
  growth : ∀ g, L g → g ≠ f → (a'.flow g).growth = (a.flow g).growth
  grown : (a'.flow f).growth.index < a'.blocks.size ∧
    ((a'.flow f).growth = (a.flow f).growth ∨ (a'.flow f).growth ∈ (a.tree f).ids ∨
      X (a'.flow f).growth ∨ a.blocks.size ≤ (a'.flow f).growth.index)

/-- The blocks of `X` belong to no other flow block. -/
def Spare (X : BlockId → Prop) (L : FlowId → Prop) (f : FlowId) (a a' : Analysis) : Prop :=
  ∀ b, X b → (∀ g, L g → g ≠ f → b ∉ (a.tree g).ids ∧ (a.flow g).growth ≠ b) ∧
    ∀ g, a'.Live g → g ≠ f → a.root g ≠ b

theorem spare_none : Spare (fun _ ↦ False) L f a a' := fun _ h ↦ h.elim

namespace Planted

variable (h : a.Planted L)
include h

theorem at_of_plug (hf : L f) (hT : a.tree f = plug C B) : a.blocks.At C B :=
  .of_holds (hT ▸ h.holds f hf) (hT ▸ h.nodup f hf)

/-- The tree of `f` becomes `T`, and all others stay. -/
theorem graft (hf : L f) (hX : Spare X L f a a') (hg : Grafts X L f T a a') :
    a'.Planted L ∧ a'.tree f = T ∧ ∀ g, L g → g ≠ f → a'.tree g = a.tree g := by
  have htree : a'.tree f = T := by
    rw [tree, hg.root]
    exact hg.blocks.holds.tree hg.blocks.nodup
  have hlt : ∀ g, L g → ∀ b ∈ (a.tree g).ids, b.index < a.blocks.size := fun g hg b hb ↦
    (h.holds g hg).lt_of_mem_ids hb
  have hkeep : ∀ g, L g → g ≠ f → a'.blocks.Holds none (a.tree g) := fun g hLg hne ↦ by
    refine (h.holds g hLg).of_same (h.nodup g hLg) hg.blocks.off.size_le fun b hb ↦ ?_
    refine hg.blocks.off.same b (hlt g hLg b hb) ?_
    rintro (hbf | hbX)
    · exact h.apart g f hLg hf hne hb hbf
    · exact ((hX b hbX).1 g hLg hne).1 hb
  have hother : ∀ g, L g → g ≠ f → a'.tree g = a.tree g := fun g hLg hne ↦ by
    have := (hkeep g hLg hne).tree (h.nodup g hLg)
    rwa [id_tree, ← (hg.other g (hg.live g hLg) hne).2] at this
  -- Whatever `T` consists of is in no other tree.
  have hsep : ∀ b ∈ T.ids, ∀ g, L g → g ≠ f → b ∉ (a.tree g).ids := fun b hb g hLg hne hbg ↦ by
    rcases hg.blocks.fresh b hb with hbf | hbX | hb
    · exact h.apart g f hLg hf hne hbg hbf
    · exact ((hX b hbX).1 g hLg hne).1 hbg
    · exact absurd (hlt g hLg b hbg) (by omega)
  refine ⟨?_, htree, hother⟩
  refine ⟨hg.live, fun g hLg ↦ ?_, fun g hLg ↦ ?_, fun g g' hLg hLg' hne ↦ ?_,
    fun g g' hLg hg' hroot ↦ ?_, fun g hg' ↦ ?_, fun g g' hLg hLg' hne ↦ ?_, fun g hLg ↦ ?_,
    hg.blocks.linked⟩
  · by_cases hgf : g = f
    · rw [hgf, htree]
      exact hg.blocks.holds
    · rw [hother g hLg hgf]
      exact hkeep g hLg hgf
  · by_cases hgf : g = f
    · rw [hgf, htree]
      exact hg.blocks.nodup
    · rw [hother g hLg hgf]
      exact h.nodup g hLg
  · intro b hb hb'
    by_cases hgf : g = f
    · subst hgf
      rw [hother g' hLg' hne.symm] at hb'
      exact hsep b (htree ▸ hb) g' hLg' hne.symm hb'
    · rw [hother g hLg hgf] at hb
      by_cases hgf' : g' = f
      · rw [hgf', htree] at hb'
        exact hsep b hb' g hLg hgf hb
      · rw [hother g' hLg' hgf'] at hb'
        exact h.apart g g' hLg hLg' hne hb hb'
  · by_cases hgf' : g' = f
    · subst hgf'
      by_contra hne
      rw [hother g hLg (Ne.symm hne), hg.root] at hroot
      exact hsep _ T.id_mem_ids g hLg (Ne.symm hne) hroot
    · obtain ⟨hlive, hsame⟩ := hg.other g' hg' hgf'
      rw [hsame] at hroot
      by_cases hgf : g = f
      · subst hgf
        rw [htree] at hroot
        rcases hg.blocks.fresh _ hroot with hbf | hbX | hb
        · exact absurd (h.owner g g' hf hlive hbf) hgf'
        · exact absurd rfl ((hX _ hbX).2 g' hg' hgf')
        · exact absurd (h.roots g' hlive) (by omega)
      · rw [hother g hLg hgf] at hroot
        exact h.owner g g' hLg hlive hroot
  · by_cases hgf : g = f
    · rw [hgf, hg.root]
      exact hg.blocks.holds.lt_size
    · obtain ⟨hlive, hsame⟩ := hg.other g hg' hgf
      rw [hsame]
      exact (h.roots g hlive).trans_le hg.blocks.off.size_le
  · by_cases hgf : g = f
    · subst hgf
      rw [hother g' hLg' hne.symm]
      rcases hg.grown.2 with he | hbf | hbX | hb
      · rw [he]
        exact h.growth g g' hLg hLg' hne
      · exact fun hb ↦ h.apart g g' hLg hLg' hne hbf hb
      · exact ((hX _ hbX).1 g' hLg' hne.symm).1
      · exact fun hb' ↦ absurd (hlt g' hLg' _ hb') (by omega)
    · rw [hg.growth g hLg hgf]
      by_cases hgf' : g' = f
      · rw [hgf', htree]
        intro hb
        rcases hg.blocks.fresh _ hb with hbf | hbX | hb
        · exact h.growth g f hLg hf hgf hbf
        · exact ((hX _ hbX).1 g hLg hgf).2 rfl
        · exact absurd (h.growths g hLg) (by omega)
      · rw [hother g' hLg' hgf']
        exact h.growth g g' hLg hLg' hne
  · by_cases hgf : g = f
    · subst hgf
      exact hg.grown.1
    · rw [hg.growth g hLg hgf]
      exact (h.growths g hLg).trans_le hg.blocks.off.size_le

end Planted

section Put

theorem ownerOfRoot_eq_some (h : a.Planted L) (hf : L f) :
    a.graph.ownerOfRoot (a.root f) = some f := by
  obtain ⟨hlt, halive⟩ := h.live f hf
  have hex : ∃ x ∈ a.graph.ids,
      ((a.graph.flow x).alive && decide ((a.graph.flow x).root = a.root f)) = true :=
    ⟨f, mem_ids_graph.mpr hlt, by
      simp only [Bool.and_eq_true, decide_eq_true_eq]
      exact ⟨halive, rfl⟩⟩
  cases hfind : a.graph.ownerOfRoot (a.root f) with
  | none =>
    obtain ⟨x, hx, hp⟩ := hex
    rw [FlowGraph.ownerOfRoot, List.find?_eq_none] at hfind
    exact absurd hp (hfind x hx)
  | some g =>
    have hp := List.find?_some hfind
    have hm := List.mem_of_find?_eq_some hfind
    simp only [Bool.and_eq_true, decide_eq_true_eq] at hp
    have hroot : a.root g = a.root f := hp.2
    rw [h.owner f g hf ⟨mem_ids_graph.mp hm, hp.1⟩ (hroot ▸ id_tree a f ▸ Tree.id_mem_ids _)]

/-- The place with the given frames around it in the tree of `f`. -/
def placeAt (C : List Frame) (f : FlowId) : Place :=
  match C with
  | [] => .root f
  | F :: _ => .child F.id

theorem placeOf_eq (h : a.Planted L) (hf : L f) (hT : a.tree f = plug C B) :
    a.placeOf B.id = placeAt C f := by
  have hat := h.at_of_plug hf hT
  have houter : a.outer B.id = outerOf C := hat.holds.outer
  rw [placeOf, houter]
  cases C with
  | nil =>
    have : a.root f = B.id := by rw [← id_tree, hT, plug_nil]
    simp [placeAt, ← this, ownerOfRoot_eq_some h hf]
  | cons F C => rfl

theorem flowOf_eq (h : a.Planted L) (hf : L f) (hb : b ∈ (a.tree f).ids) : a.flowOf b = some f := by
  obtain ⟨C, B, hT, rfl⟩ := exists_plug_of_id hb
  rw [flowOf, (h.at_of_plug hf hT).rootOf, ← hT, id_tree]
  exact ownerOfRoot_eq_some h hf

@[simp] theorem blocks_put (a : Analysis) (C : List Frame) (f : FlowId) (old new : BlockId) :
    (a.put (placeAt C f) old new).blocks = a.blocks.hang C old new := by
  cases C <;> rfl

theorem graph_put (a : Analysis) (C : List Frame) (f : FlowId) (old new : BlockId) :
    (a.put (placeAt C f) old new).graph = match C with
      | [] => a.graph.modifyFlow f fun f ↦
          { f with root := new, growth := if f.growth = old then new else f.growth }
      | _ :: _ => a.graph := by
  cases C <;> rfl

end Put

end Analysis

end Decompile
