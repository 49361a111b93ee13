import Decompile.Proofs.Negation
import Decompile.Proofs.WellFormed
import Decompile.Reduction.Resolve

namespace Decompile

/-- Control that comes to the end of the place comes to the end of the whole tree. -/
def FallsOut (C : List Frame) : Prop := ∀ F ∈ C, F.Ends ∧ F.jump = none

theorem FallsOut.tail {F : Frame} {C : List Frame} (h : FallsOut (F :: C)) : FallsOut C :=
  fun G hG ↦ h G (List.mem_cons_of_mem F hG)

theorem fallsOut_iff {C : List Frame} {B : Tree} :
    FallsOut C ↔ Falls C ∧ (C = [] ∨ (plug C B).jump = none) := by
  induction C generalizing B with
  | nil => simp [FallsOut, Falls]
  | cons F C ih =>
    simp only [FallsOut, List.forall_mem_cons, Falls] at ih ⊢
    rw [show (∀ G ∈ C, G.Ends ∧ G.jump = none) ↔ _ from ih]
    cases C with
    | nil => simp [Falls]
    | cons G C => simp; tauto

namespace Tree

/-- How one jump to the flow block `s` becomes structure, what follows the tree being `s`. -/
inductive Resolves (destination : JumpId → FlowId) (negates : ExprId → ExprId → Prop)
    (s : FlowId) (j : JumpId) : Tree → Tree → Prop
  | fall {C : List Frame} {B T : Tree} : FallsOut C → B.jump = some j →
    Trims C (B.withJump none) T → Resolves destination negates s j (plug C B) T
  | invertExit {C : List Frame} {p t : BlockId} {i : JumpId} {c c' : ExprId} :
    FallsOut C → destination i ≠ s → negates c c' →
    Resolves destination negates s j
      (plug C (node p (some i) (.conditional c) [node t (some j) .empty []]))
      (plug C (node p none (.conditional c') [node t (some i) .empty []]))
  | invertRest {C : List Frame} {q p t n : BlockId} {c c' : ExprId} {R : Tree} :
    FallsOut C → negates c c' →
    Resolves destination negates s j
      (plug C (node q none .sequence [node p none (.conditional c) [node t (some j) .empty []], R]))
      (plug C (node n none (.ifElse c') [R]))
  | toElse {C D : List Frame} {q i : BlockId} {c : ExprId} {B A R : Tree} :
    FallsOut C → (∀ F ∈ D, F.IsRest ∧ F.jump = none) → B.jump = some j →
    Trims D (B.withJump none) A →
    Resolves destination negates s j
      (plug C (node q none .sequence [node i none (.ifElse c) [plug D B], R]))
      (plug C (node i none (.ifElse c) [A, R]))
  | breaks {C₁ C₂ : List Frame} {F : Frame} {n : BlockId} {labeled : Bool}
      {B P : Tree} :
    F.kind.isBreakable → (F.jump.elim (FallsOut C₂) fun i ↦ destination i = s) →
    labeled = C₁.any (·.kind.isBreakable) → B.jump = some j → (∀ G ∈ C₁, G.id ≠ F.id) →
    InPlaceOf (node n none (.breakTo F.id labeled) []) B P →
    Resolves destination negates s j (plug (C₁ ++ F :: C₂) B)
      (plug (C₁ ++ { F with kind := F.kind.labelIf labeled } :: C₂) P)

/-- How the tree in front of the flow block `s` comes to run into it. Where rules do not suffice, it
gets a block for breaks to leave. -/
inductive Yields (destination : JumpId → FlowId) (negates : ExprId → ExprId → Prop)
    (isFalse : ExprId → Prop) (isNew : BlockId → Prop) (s : FlowId) : Tree → Tree → Prop
  | refl (T : Tree) : Yields destination negates isFalse isNew s T T
  | resolve {T T' T'' : Tree} {j : JumpId} : Yields destination negates isFalse isNew s T T' →
    destination j = s → Resolves destination negates s j T' T'' →
    Yields destination negates isFalse isNew s T T''
  | wrap {T T' : Tree} {w : BlockId} {c : ExprId} :
    Yields destination negates isFalse isNew s T T' → isFalse c → isNew w →
    Yields destination negates isFalse isNew s T (node w none (.loop .doWhile c none false) [T'])

variable {destination : JumpId → FlowId} {negates negates' : ExprId → ExprId → Prop}
  {isFalse isFalse' : ExprId → Prop} {isNew isNew' : BlockId → Prop} {s : FlowId} {j : JumpId} {T T' T'' : Tree}

theorem Resolves.mono (h : Resolves destination negates s j T T')
    (hn : ∀ c c', negates c c' → negates' c c') : Resolves destination negates' s j T T' := by
  cases h with
  | fall hC hB hT => exact .fall hC hB hT
  | invertExit hC hi hc => exact .invertExit hC hi (hn _ _ hc)
  | invertRest hC hc => exact .invertRest hC (hn _ _ hc)
  | toElse hC hD hB hA => exact .toElse hC hD hB hA
  | breaks hF hend hk hB hne hP => exact .breaks hF hend hk hB hne hP

theorem Yields.mono (h : Yields destination negates isFalse isNew s T T')
    (hn : ∀ c c', negates c c' → negates' c c') (hf : ∀ c, isFalse c → isFalse' c)
    (hw : ∀ w, isNew w → isNew' w) : Yields destination negates' isFalse' isNew' s T T' := by
  induction h with
  | refl => exact .refl _
  | resolve _ hj hr ih => exact .resolve ih hj (hr.mono hn)
  | wrap _ hc hnew ih => exact .wrap ih (hf _ hc) (hw _ hnew)

theorem Yields.trans (h : Yields destination negates isFalse isNew s T T')
    (h' : Yields destination negates isFalse isNew s T' T'') :
    Yields destination negates isFalse isNew s T T'' := by
  induction h' with
  | refl => exact h
  | resolve _ hj hr ih => exact .resolve ih hj hr
  | wrap _ hc hnew ih => exact .wrap ih hc hnew

end Tree

namespace Analysis

variable {a a' : Analysis} {L : FlowId → Prop} {f s : FlowId} {j : JumpId} {C : List Frame}
  {B T : Tree}

theorem fallsToEnd_iff (h : a.Planted L) (hf : L f) (hT : a.tree f = plug C B) :
    a.fallsToEnd f B.id = true ↔ FallsOut C := by
  have hat := h.at_of_plug hf hT
  have hroot : a.root f = (plug C B).id := by rw [← hT, id_tree]
  have hjump : a.jumpOf (a.root f) = (plug C B).jump := hroot ▸ hat.whole.jump
  rw [fallsToEnd, Bool.and_eq_true, Bool.or_eq_true, hjump, hroot, Blocks.fallsToEndOf_iff hat,
    fallsOut_iff]
  simp only [beq_iff_eq, Option.isNone_iff_eq_none]
  refine and_congr ?_ (or_congr_left ?_)
  · constructor
    · rintro ⟨C₁, C₂, rfl, he, hfalls⟩
      rcases List.eq_nil_or_concat C₂ with rfl | ⟨C₂, F, rfl⟩
      · simpa using hfalls
      · refine absurd ?_ (List.disjoint_left.mp
          (nodup_plug.mp (plug_append C₁ _ B ▸ hat.nodup)).2.2 (Tree.id_mem_ids _))
        rw [← he]
        exact (Blocks.map_id_sublist _).subset (by
          rw [plug_append]
          exact Blocks.id_plug_mem (by simp))
    · exact fun hfalls ↦ ⟨C, [], by simp, rfl, hfalls⟩
  · constructor
    · intro he
      by_contra hC
      exact hat.disjoint B.id_mem_ids (he ▸ (Blocks.map_id_sublist C).subset (Blocks.id_plug_mem hC))
    · rintro rfl
      rfl

/-- One jump from `f` to `s` is gone. -/
structure Resolved (L : FlowId → Prop) (f s : FlowId) (j : JumpId) (a a' : Analysis) : Prop where
  wellFormed : a'.WellFormed L
  moves : ∃ T, Moves (fun _ ↦ False) L f T a a'
  graph : (a.graph.unlinkJump f j).Keeps a'.graph
  exprs : a.exprs.Extends a'.exprs
  resolves : Tree.Resolves (fun i ↦ (a.jump i).destination) a'.exprs.Negates s j (a.tree f)
    (a'.tree f)

theorem Resolved.of_content {X : BlockId → Prop} (hwf : a'.WellFormed L) (hX : ∀ b, ¬ X b)
    (hm : Moves X L f T a a') (hk : (a.graph.unlinkJump f j).Keeps a'.graph)
    (hc : a'.content = a.content)
    (hr : ∀ negates, Tree.Resolves (fun i ↦ (a.jump i).destination) negates s j (a.tree f) T) :
    Resolved L f s j a a' where
  wellFormed := hwf
  moves := ⟨T, hm.mono fun b hb ↦ hX b hb⟩
  graph := hk
  exprs := (show a'.exprs = a.exprs from congrArg Prod.fst hc) ▸ .refl _
  resolves := by
    rw [hm.tree]
    exact hr _

section Fall

theorem WellFormed.fall (h : a.WellFormed L) (hf : L f) (hT : a.tree f = plug C B)
    (hB : B.jump = some j) (hC : FallsOut C) :
    Resolved L f s j a ((a.removeJump f j).dropIfEmpty B.id) := by
  obtain ⟨hj, -, -⟩ := h.unique_holder hf hT hB
  obtain ⟨hmove, hwf, hgraph⟩ := h.removeJump hf hj hT hB
  obtain ⟨T, hr, hwf', htrims⟩ := hwf.dropIfEmpty hf hmove.tree
  rw [B.id_withJump] at hr hwf'
  refine .of_content hwf' (fun _ ↦ not_false) (hmove.andThen hr.toMoves) (hgraph ▸ hr.graph)
    (by simp) fun negates ↦ ?_
  rw [hT]
  exact .fall hC hB htrims

end Fall

section Invert

variable {c : ExprId} {p q t : BlockId} {i : JumpId} {R : Tree}

theorem invertCondition_cases (h : a.invertCondition f s j = some a') :
    ∃ p c, a.outer (a.jump j).source = some p ∧
      a.statement p = .conditional c (a.jump j).source ∧ a.statement (a.jump j).source = .empty ∧
      ((∃ i, a.jumpOf p = some i ∧ (a.jump i).destination ≠ s ∧ a.fallsToEnd f p = true ∧
        a' = (a.removeJump f j).exchangeExit p (a.jump j).source c) ∨
      ∃ q second, a.outer p = some q ∧ a.statement q = .sequence p second ∧ a.jumpOf q = none ∧
        a.fallsToEnd f q = true ∧
        a' = (a.removeJump f j).guardRest q p (a.jump j).source second c) := by
  rw [invertCondition] at h
  simp only [Option.bind_eq_bind, Option.bind_eq_some_iff] at h
  obtain ⟨p, hp, h⟩ := h
  refine ⟨p, ?_⟩
  split at h
  next c taken hs =>
    rw [guard_bind_eq_some] at h
    obtain ⟨⟨rfl, hempty⟩, h⟩ := h
    refine ⟨c, hp, hs, hempty, ?_⟩
    split at h
    next hc =>
      obtain ⟨hany, hfalls⟩ := (Bool.and_eq_true _ _).mp hc
      obtain ⟨i, hi⟩ : ∃ i, a.jumpOf p = some i := by
        cases hi : a.jumpOf p with
        | none => simp [hi] at hany
        | some i => exact ⟨i, rfl⟩
      rw [hi, Option.any_some, decide_eq_true_eq] at hany
      exact .inl ⟨i, hi, hany, hfalls, (Option.some.inj h).symm⟩
    next =>
      obtain ⟨q, hq, h⟩ := Option.bind_eq_some_iff.mp h
      split at h
      next first second hsq =>
        rw [guard_bind_eq_some] at h
        obtain ⟨⟨rfl, hjq, hfalls⟩, h⟩ := h
        simp only [Option.pure_def, Option.some.injEq] at h
        exact .inr ⟨q, second, hq, hsq, by simpa using hjq, hfalls, h.symm⟩
      next => simp at h
  next => simp at h

theorem WellFormed.exchangeExit (h : a.WellFormed L) (hf : L f)
    (hT : a.tree f = plug C (.node p (some i) (.conditional c) [.node t (some j) .empty []]))
    (hC : FallsOut C) (hi : (a.jump i).destination ≠ s) :
    Resolved L f s j a ((a.removeJump f j).exchangeExit p t c) := by
  have hT' : a.tree f = plug (⟨p, some i, .conditional c, [], []⟩ :: C) (.node t (some j) .empty []) :=
    hT
  obtain ⟨hj, -, -⟩ := h.unique_holder hf hT' rfl
  obtain ⟨hm₁, hwf₁, hg₁⟩ := h.removeJump hf hj hT' rfl
  have hc₁ := content_removeJump a f j
  simp only [Analysis.exchangeExit]
  generalize a.removeJump f j = a₁ at *
  have htidy : (plug C (.node p none (.conditional c) [.node t (some i) .empty []])).Tidy := by
    refine (hT ▸ h.tidy f hf : Tree.Tidy _).plug ?_ fun hp ↦ by simp [Tree.Plain] at hp
    rw [Tree.tidy_node]
    exact ⟨by simp, by simpa using Tree.tidy_leaf (by simp)⟩
  have hT₁ : a₁.tree f = plug C (.node p (some i) (.conditional c) [.node t none .empty []]) :=
    hm₁.tree
  obtain ⟨hm₂, hwf₂, hk₂, -⟩ := hwf₁.moveJump
    (E := ⟨p, none, .conditional c, [], []⟩ :: C) hf hT₁ rfl rfl
    rfl htidy
  have hc₂ := (content_moveJump a₁ p t).trans hc₁
  simp only [Tree.id_node] at hm₂ hwf₂ hk₂
  generalize a₁.moveJump p t = a₂ at *
  obtain ⟨hr₃, hwf₃⟩ : Reshapes (fun _ ↦ False) L f (a₂.tree f) a₂ (a₂.negate c).1 ∧ _ :=
    hwf₂.beside hf rfl rfl rfl
  have hT₃ : (a₂.negate c).1.tree f =
      plug C (.node p none (.conditional c) [.node t (some i) .empty []]) :=
    hr₃.tree.trans hm₂.tree
  have hr₄ := hwf₃.planted.modifyStatement hf hT₃
    (Statement.kind_setCondition · (a₂.negate c).2) (Statement.children_setCondition · _)
  have hwf₄ := hwf₃.relabel hf hT₃ hr₄ (by simp [Kind.setCondition])
  have hm := ((hm₁.andThen hm₂).andThen hr₃.toMoves).andThen hr₄.toMoves
  have hexprs : a₂.exprs = a.exprs := congrArg Prod.fst hc₂
  refine ⟨hwf₄, ⟨_, hm⟩, (hg₁ ▸ hk₂).trans (hr₃.graph.trans hr₄.graph), ?_,
    ?_⟩
  · rw [← hexprs]
    exact a₂.exprs.extends_negate c
  · have htree : ((a₂.negate c).1.setCondition p (a₂.negate c).2).tree f =
        plug C (.node p none (.conditional (a₂.negate c).2) [.node t (some i) .empty []]) := hm.tree
    rw [hT, htree]
    exact .invertExit hC hi (a₂.exprs.negates_negate c)

theorem Planted.guardRest (h : a.Planted L) (hf : L f)
    (hT : a.tree f = plug C (.node q none .sequence [.node p none (.conditional c)
      [.node t none .empty []], R])) :
    ∃ n, Reshapes (fun _ ↦ False) L f (plug C (.node n none (.ifElse (a.negate c).2) [R])) a
      (a.guardRest q p t R.id c) := by
  have hr₁ : Reshapes (fun _ ↦ False) L f (a.tree f) a (a.negate c).1 := h.beside hf rfl rfl rfl
  have hT₁ := hr₁.tree.trans hT
  have hat := hr₁.planted.at_of_plug hf hT₁
  simp only [Analysis.guardRest]
  generalize hS : Tree.node q none .sequence [.node p none (.conditional c)
    [.node t none .empty []], R] = S at *
  obtain ⟨hq, hR, hRids, hold⟩ : q = S.id ∧ R ∈ S.children ∧ (∀ b ∈ R.ids, b ∈ S.ids) ∧
      ∀ b ∈ [q, p, t], b ∈ S.ids := by
    subst hS
    refine ⟨rfl, by simp, fun b hb ↦ by simp [Tree.ids, hb], by simp [Tree.ids]⟩
  have hplace : (a.negate c).1.placeOf q = placeAt C f := by
    rw [hq]
    exact placeOf_eq hr₁.planted hf hT₁
  have hRn : R.ids.Nodup := Tree.nodup_node hat.ids_nodup
    (Tree.mem_nodes.mpr (.inr ⟨R, hR, R.mem_nodes_self⟩))
  generalize (a.negate c).2 = c' at *
  generalize (a.negate c).1 = a₁ at *
  have hg : Blocks.Grafted (fun _ ↦ False) (plug C S)
      (plug C (.node ⟨(a₁.blocks.setOuter R.id none).size⟩ none (.ifElse c') [R])) a₁.blocks
      (((a₁.blocks.setOuter R.id none).alloc (.ifElse c' R.id none)).1.hang C S.id
        ⟨(a₁.blocks.setOuter R.id none).size⟩) :=
    .enclose (s := .ifElse c' R.id none) hat
      ((Blocks.Off.refl _ _).setOuter (.inl (.inl (hRids _ R.id_mem_ids))) none)
      (hr₁.planted.linked.setOuter_none R.id) (by simp)
      (by simpa using ⟨_, (hat.holds.child hR).setOuter hRn none⟩)
      (by simpa using hRids) (by simpa using hRn) rfl
  have hr₂ := hr₁.planted.put (u := ((a₁.setOuter R.id none).alloc (.ifElse c' R.id none)).1) hf hT₁
    spare_none rfl rfl rfl hg
  rw [← hq, ← hplace] at hr₂
  refine ⟨_, hr₁.andThen (hr₂.retarget hr₁.planted hf (fun b hb ↦ ?_) ?_)⟩
  · rw [hT₁]
    exact mem_ids_plug.mpr (.inl (hold b hb))
  · exact mem_ids_plug.mpr (.inl (Tree.id_mem_ids _))

theorem WellFormed.guardRest (h : a.WellFormed L) (hf : L f)
    (hT : a.tree f = plug C (.node q none .sequence [.node p none (.conditional c)
      [.node t (some j) .empty []], R])) (hC : FallsOut C) :
    Resolved L f s j a ((a.removeJump f j).guardRest q p t R.id c) := by
  have hT' : a.tree f = plug (⟨p, none, .conditional c, [], []⟩ :: ⟨q, none, .sequence, [], [R]⟩ :: C)
      (.node t (some j) .empty []) := hT
  obtain ⟨hj, -, -⟩ := h.unique_holder hf hT' rfl
  obtain ⟨hm₁, hwf₁, hg₁⟩ := h.removeJump hf hj hT' rfl
  have hc₁ := content_removeJump a f j
  generalize a.removeJump f j = a₁ at *
  have hT₁ : a₁.tree f = plug C (.node q none .sequence [.node p none (.conditional c)
      [.node t none .empty []], R]) := hm₁.tree
  obtain ⟨n, hr₂⟩ := hwf₁.planted.guardRest hf hT₁
  have hc₂ : (a₁.guardRest q p t R.id c).content = (a₁.negate c).1.content := by
    simp only [Analysis.guardRest, content_retargetGrowth, content_put]
    rfl
  have htidy : (plug C (.node n none (.ifElse (a₁.negate c).2) [R])).Tidy := by
    have := hwf₁.tidy f hf
    rw [hT₁] at this
    refine this.plug ?_ fun hp ↦ absurd rfl hp.2
    rw [Tree.tidy_node]
    exact ⟨by simp, by simpa using (Tree.tidy_node.mp this.of_plug).2 R (by simp)⟩
  have hwf₂ := hwf₁.reshapes hr₂ (fun x ↦ by
    rw [hT₁, mem_held_plug, mem_held_plug]
    simp [Tree.held]) htidy
  have hexprs : a₁.exprs = a.exprs := congrArg Prod.fst hc₁
  have hexprs₂ : (a₁.guardRest q p t R.id c).exprs = (a₁.exprs.negate c).1 :=
    (congrArg Prod.fst hc₂ :)
  refine ⟨hwf₂, ⟨_, hm₁.andThen hr₂.toMoves⟩, hg₁ ▸ hr₂.graph, ?_, ?_⟩
  · rw [hexprs₂, ← hexprs]
    exact a₁.exprs.extends_negate c
  · rw [hT, hr₂.tree, hexprs₂]
    exact .invertRest hC (a₁.exprs.negates_negate c)

theorem WellFormed.invertCondition (h : a.WellFormed L) (hf : L f) (hT : a.tree f = plug C B)
    (hB : B.jump = some j) (hr : a.invertCondition f s j = some a') : Resolved L f s j a a' := by
  obtain ⟨-, hsource, -⟩ := h.unique_holder hf hT hB
  obtain ⟨p, c, hp, hs, hempty, hcases⟩ := invertCondition_cases hr
  have hat := h.planted.at_of_plug hf hT
  rw [hsource] at hp hs hempty hcases
  obtain ⟨hk, hch⟩ := (statement_eq_empty hat.holds).mp hempty
  have hB' : B = .node B.id (some j) .empty [] := by
    cases B
    simp_all
  have hs' : a.blocks.statement p = .conditional c B.id := hs
  obtain ⟨-, k, C, rfl⟩ := hat.only_child hp (by rw [hs']; rfl)
  rw [hs'] at hT hat
  have hjump : a.jumpOf p = k := hat.up.holds.jump
  have hfall : a.fallsToEnd f p = true → FallsOut C :=
    (fallsToEnd_iff (B := .node p k (.conditional c) [B]) h.planted hf hT).mp
  generalize B.id = t at *
  subst hB'
  rcases hcases with ⟨i, hi, hne, hfalls, rfl⟩ | ⟨q, second, hq, hsq, hjq, hfalls, rfl⟩
  · obtain rfl : k = some i := hjump.symm.trans hi
    exact h.exchangeExit hf hT (hfall hfalls) hne
  · obtain ⟨l, C', ⟨R, rfl, -, rfl⟩ | ⟨P, rfl, hfirst, -⟩⟩ := hat.up.outer_sequence hq hsq
    · obtain ⟨rfl, hplain, -⟩ := h.sequence hf hT
      obtain rfl : k = none := hplain
      exact h.guardRest hf hT
        ((fallsToEnd_iff (C := C') h.planted hf hT).mp hfalls)
    · exact absurd hfirst.symm (hat.up.ne_of_mem (by simp))

end Invert

section Else

variable {c : ExprId} {q i : BlockId} {A R : Tree} {D : List Frame}

theorem convertToElse_cases (h : a.convertToElse f j = some a') :
    ∃ i c onTrue q second, i ∈ a.blocks.ancestors (a.jump j).source ∧
      a.statement i = .ifElse c onTrue none ∧ a.blocks.chainTail onTrue = (a.jump j).source ∧
      a.outer i = some q ∧ a.statement q = .sequence i second ∧ a.fallsToEnd f q = true ∧
      a' = ((a.removeJump f j).dropIfEmpty (a.jump j).source).attachElse q i second := by
  rw [convertToElse] at h
  simp only [Option.bind_eq_bind, Option.bind_eq_some_iff] at h
  obtain ⟨i, hi, h⟩ := h
  have harm : (a.statement i).isOneArmed = true := by simpa using List.find?_some hi
  split at h
  next c onTrue onFalse hs =>
    obtain rfl : onFalse = none := by
      rw [Statement.isOneArmed.eq_def] at harm
      cases onFalse <;> simp_all
    rw [guard_bind_eq_some] at h
    obtain ⟨⟨htail, -⟩, h⟩ := h
    obtain ⟨q, hq, h⟩ := Option.bind_eq_some_iff.mp h
    split at h
    next first second hsq =>
      rw [guard_bind_eq_some] at h
      obtain ⟨⟨rfl, -, hfalls⟩, h⟩ := h
      exact ⟨_, c, onTrue, q, second, List.mem_of_find?_eq_some hi, hs, htail, hq, hsq, hfalls,
        (Option.some.inj h).symm⟩
    next => simp at h
  next => simp at h

theorem Planted.attachElse (h : a.Planted L) (hf : L f)
    (hT : a.tree f = plug C (.node q none .sequence [.node i none (.ifElse c) [A], R])) :
    Reshapes (fun _ ↦ False) L f (plug C (.node i none (.ifElse c) [A, R])) a
      (a.attachElse q i R.id) := by
  have hat := h.at_of_plug hf hT
  obtain ⟨-, -, -, -, -, hparts⟩ := hat.holds.node'
  have hR := hparts R (by simp)
  have hI := hparts (.node i none (.ifElse c) [A]) (by simp)
  have hs : a.statement i = .ifElse c A.id none :=
    Statement.ext_kind hI.kind (show _ = (Statement.ifElse c A.id none).children from hI.children)
  have hn : (Tree.node i none (.ifElse c) [A, R]).ids.Nodup := by
    have := (Tree.nodup_child hat.ids_nodup).2
    simpa [Tree.ids] using this
  simp only [Analysis.attachElse]
  generalize hS : Tree.node q none .sequence [.node i none (.ifElse c) [A], R] = S at *
  obtain ⟨hq, hsub⟩ : q = S.id ∧ ∀ b ∈ (Tree.node i none (.ifElse c) [A, R]).ids, b ∈ S.ids := by
    subst hS
    refine ⟨rfl, fun b hb ↦ ?_⟩
    simp only [Tree.ids, List.flatMap_cons, List.flatMap_nil, List.append_nil, List.cons_append,
      List.mem_cons] at hb ⊢
    exact .inr hb
  have hi : i ∈ S.ids := hsub i (by simp [Tree.ids])
  have hRS : R.id ∈ S.ids := hsub R.id (by simp [Tree.ids, R.id_mem_ids])
  have hg : Blocks.Grafted (fun _ ↦ False) (plug C S) (plug C (.node i none (.ifElse c) [A, R]))
      a.blocks (((a.blocks.setStatement i (.ifElse c A.id (some R.id))).setOuter R.id (some i)).hang
        C S.id i) := by
    refine .hang hat
      (((Blocks.Off.refl _ _).setStatement (.inl (.inl (mem_ids_plug.mpr (.inl hi)))) _).setOuter
        (.inl (.inl (mem_ids_plug.mpr (.inl hRS)))) _)
      (h.linked.adopt hI rfl) ?_ (hI.adopt hR hn rfl) hn (by simp)
      fun b hb ↦ .inl (hsub b hb)
    exact (hat.around.modify hat.frames_nodup (hat.disjoint hi) _).modify hat.frames_nodup
      (hat.disjoint hRS) _
  rw [hq, placeOf_eq h hf hT, Analysis.modifyStatement, hs]
  refine (h.put (u := (a.setStatement i (.ifElse c A.id (some R.id))).setOuter R.id (some i)) hf hT
    spare_none rfl rfl rfl hg).retarget h hf ?_ ?_
  · rw [hT]
    simpa using mem_ids_plug.mpr (.inl S.id_mem_ids)
  · exact mem_ids_plug.mpr (.inl (by simp [Tree.ids]))

/-- The place of a jump that ends the branch of an `if` in front of the rest of a sequence. -/
theorem WellFormed.else_place (h : a.WellFormed L) (hf : L f) (hT : a.tree f = plug C B)
    {onTrue second : BlockId} (hi : i ∈ a.blocks.ancestors B.id)
    (hs : a.statement i = .ifElse c onTrue none) (htail : a.blocks.chainTail onTrue = B.id)
    (hq : a.outer i = some q) (hsq : a.statement q = .sequence i second) :
    ∃ D E R, C = D ++ ⟨i, none, .ifElse c, [], []⟩ :: ⟨q, none, .sequence, [], [R]⟩ :: E ∧
      second = R.id ∧ ∀ F ∈ D, F.IsRest ∧ F.jump = none := by
  have hat := h.planted.at_of_plug hf hT
  rw [hat.ancestors] at hi
  obtain ⟨F, hF, rfl⟩ := List.mem_map.mp hi
  obtain ⟨D, E, rfl⟩ := List.append_of_mem hF
  have hT₁ : a.tree f = plug (F :: E) (plug D B) := by rw [hT, plug_append]
  have hat₁ := h.planted.at_of_plug hf hT₁
  have hs' : a.blocks.statement F.id = .ifElse c onTrue none := hs
  obtain ⟨rfl, k, E', hE⟩ := hat₁.only_child hat₁.holds.outer (by rw [hs']; rfl)
  rw [hs', List.cons.injEq] at hE
  obtain ⟨hF', rfl⟩ := hE
  rw [hF'] at hT₁ hat₁ hT ⊢
  have hat₂ := hat₁.up
  obtain ⟨l, E, ⟨R, rfl, -, rfl⟩ | ⟨P, rfl, hfirst, -⟩⟩ := hat₂.outer_sequence hq hsq
  · obtain ⟨rfl, hk, -⟩ := h.sequence hf hT₁
    obtain rfl : k = none := hk
    refine ⟨D, E, R, rfl, rfl, fun G hG ↦ ?_⟩
    obtain ⟨D', S, hD', hrest, -, hid⟩ := Blocks.exists_chainTail hat₁.holds hat₁.ids_nodup
    rw [htail] at hid
    obtain ⟨rfl, rfl⟩ := plug_inj hat₁.ids_nodup hD' hid
    refine ⟨hrest G hG, ?_⟩
    obtain ⟨D₁, D₂, rfl⟩ := List.append_of_mem hG
    have hmem : plug (D₁ ++ G :: D₂) B ∈ (a.tree f).nodes := hT₁ ▸ mem_nodes_plug
    rw [plug_append] at hmem
    exact (h.tidy f hf _ (Tree.nodes_trans hmem (mem_nodes_plug (C := D₂)))
      (hrest G hG).1).1
  · exact absurd hfirst.symm (hat₂.ne_of_mem (by simp))

theorem WellFormed.convertToElse (h : a.WellFormed L) (hf : L f) (hT : a.tree f = plug C B)
    (hB : B.jump = some j) (hr : a.convertToElse f j = some a') : Resolved L f s j a a' := by
  obtain ⟨hj, hsource, -⟩ := h.unique_holder hf hT hB
  obtain ⟨i, c, onTrue, q, second, hi, hs, htail, hq, hsq, hfalls, rfl⟩ := convertToElse_cases hr
  rw [hsource] at hi htail ⊢
  obtain ⟨D, C, R, rfl, rfl, hD⟩ := h.else_place hf hT hi hs htail hq hsq
  have hfall : FallsOut C := by
    have hT' : a.tree f =
        plug C (.node q none .sequence [.node i none (.ifElse c) [plug D B], R]) := by
      rw [hT, plug_append]
      rfl
    exact (fallsToEnd_iff h.planted hf hT').mp hfalls
  obtain ⟨hm₁, hwf₁, hg₁⟩ := h.removeJump hf hj hT hB
  have hc₁ := content_removeJump a f j
  generalize a.removeJump f j = a₁ at *
  obtain ⟨T, hr₂, hwf₂, htrims⟩ := hwf₁.dropIfEmpty hf hm₁.tree
  obtain ⟨A, hA, rfl⟩ := htrims.inner (by simp)
  rw [B.id_withJump] at hr₂ hwf₂
  have hc₂ := (content_dropIfEmpty a₁ B.id).trans hc₁
  generalize a₁.dropIfEmpty B.id = a₂ at *
  have hT₂ : a₂.tree f = plug C (.node q none .sequence [.node i none (.ifElse c) [A], R]) :=
    hr₂.tree
  have hr₃ := hwf₂.planted.attachElse hf hT₂
  have htidy₂ := hwf₂.tidy f hf
  rw [hT₂] at htidy₂
  have hwf₃ := hwf₂.reshapes hr₃ (fun x ↦ by
    rw [hT₂, mem_held_plug, mem_held_plug]
    simp [Tree.held]) (htidy₂.plug ?_ fun hp ↦ absurd rfl hp.2)
  · refine .of_content hwf₃ (fun _ ↦ not_false) ((hm₁.andThen hr₂.toMoves).andThen hr₃.toMoves)
      (hg₁ ▸ hr₂.graph.trans hr₃.graph) ?_ fun negates ↦ ?_
    · rw [← hc₂]
      simp only [Analysis.attachElse, content_retargetGrowth, content_put]
      rfl
    · rw [hT, plug_append]
      exact .toElse hfall hD hB hA
  · have hparts := (Tree.tidy_node.mp htidy₂.of_plug).2
    have hI := (Tree.tidy_node.mp (hparts _ (.head _))).2 A (by simp)
    rw [Tree.tidy_node]
    exact ⟨by simp, by simpa using ⟨hI, hparts R (by simp)⟩⟩

end Else

section Break

variable {C₁ C₂ : List Frame} {F : Frame}

theorem WellFormed.breakOut (h : a.WellFormed L) (hf : L f) (hT : a.tree f = plug (C₁ ++ F :: C₂) B)
    (hB : B.jump = some j) (hF : F.kind.isBreakable = true)
    (hend : F.jump.elim (FallsOut C₂) fun i ↦ (a.jump i).destination = s) :
    Resolved L f s j a (a.breakOut f F.id j) ∧ ∃ labeled P,
      (a.breakOut f F.id j).tree f =
        plug (C₁ ++ { F with kind := F.kind.labelIf labeled } :: C₂) P := by
  have hat := h.planted.at_of_plug hf hT
  have hne : ∀ G ∈ C₁, G.id ≠ F.id := hat.ne_of_before rfl
  obtain ⟨-, hsource, -⟩ := h.unique_holder hf hT hB
  have hlabeled := hat.innermostBreakable_ne rfl hF
  rw [← hsource] at hlabeled
  simp only [Analysis.breakOut, hlabeled, Bool.decide_eq_true]
  obtain ⟨hr₁, hwf₁, hc₁, hg₁⟩ := h.labelIf hf hT (C₁.any (·.kind.isBreakable))
  generalize hl : C₁.any (·.kind.isBreakable) = labeled at *
  obtain ⟨n, P, hP, hm₂, hwf₂, hg₂, -⟩ := hwf₁.replaceJumpNew (s := .breakTo F.id labeled) hf hr₁.tree
    hB rfl (by simp [Statement.kind])
  refine ⟨.of_content hwf₂ (fun _ ↦ not_false) (hr₁.toMoves.andThen hm₂) ?_ ?_ fun negates ↦ ?_,
    labeled, P, hm₂.tree⟩
  · exact hg₁ ▸ hg₂
  · exact (content_replaceJumpWith ..).trans hc₁
  · rw [hT]
    exact .breaks hF hend hl.symm hB hne hP

theorem WellFormed.breakToSuccessor (h : a.WellFormed L) (hf : L f) (hT : a.tree f = plug C B)
    (hB : B.jump = some j) (hr : a.breakToSuccessor f s j = some a') : Resolved L f s j a a' := by
  obtain ⟨-, hsource, -⟩ := h.unique_holder hf hT hB
  rw [Analysis.breakToSuccessor] at hr
  simp only [Option.bind_eq_bind, Option.bind_eq_some_iff] at hr
  obtain ⟨target, hfind, hr⟩ := hr
  cases hr
  have hat := h.planted.at_of_plug hf hT
  have hmem := List.mem_of_find?_eq_some hfind
  rw [hsource, hat.ancestors] at hmem
  obtain ⟨F, hF, rfl⟩ := List.mem_map.mp hmem
  obtain ⟨hkind, hjump⟩ := hat.statement_frame hF
  obtain ⟨C₁, C₂, rfl⟩ := List.append_of_mem hF
  have hp := List.find?_some hfind
  rw [Bool.and_eq_true] at hp
  refine (h.breakOut hf hT hB ((Blocks.isBreakable_statement hkind).symm.trans hp.1) ?_).1
  have hT' : a.tree f = plug C₂ (F.fill (plug C₁ B)) := by rw [hT, plug_append, plug_cons]
  have hp := hp.2
  rw [show a.jumpOf F.id = F.jump from hjump] at hp
  cases hj : F.jump with
  | none => exact (fallsToEnd_iff h.planted hf hT').mp (by simpa [hj] using hp)
  | some i => simpa [hj] using hp

end Break

section Jump

theorem WellFormed.resolveJump (h : a.WellFormed L) (hf : L f) (hj : j ∈ a.graph.listed f)
    (hr : a.resolveJump f s j = some a') : Resolved L f s j a a' := by
  obtain ⟨C, B, hT, hsource, hB⟩ := h.exists_holder hf hj
  rw [Analysis.resolveJump, ← hsource] at hr
  split at hr
  next hfalls =>
    cases hr
    exact h.fall hf hT hB ((fallsToEnd_iff h.planted hf hT).mp hfalls)
  next =>
    split at hr
    · simp at hr
    · simp only [Option.orElse_eq_orElse, Option.orElse_eq_or, Option.or_eq_some_iff] at hr
      rcases hr with hr | ⟨-, hr | ⟨-, hr⟩⟩
      · exact h.invertCondition hf hT hB hr
      · exact h.convertToElse hf hT hB hr
      · exact h.breakToSuccessor hf hT hB hr

/-- The tree of `f` has changed and jumps from `f` to `s` have gone. All else is as before. -/
structure Evolved (L : FlowId → Prop) (f s : FlowId) (a a' : Analysis) : Prop where
  wellFormed : a'.WellFormed L
  moves : ∃ T, Moves (fun _ ↦ False) L f T a a'
  exprs : a.exprs.Extends a'.exprs
  flows_size : a'.graph.flows.size = a.graph.flows.size
  core : ∀ g, (a'.flow g).core = (a.flow g).core
  destination : ∀ i, (a'.jump i).destination = (a.jump i).destination
  jumpsTo : ∀ g d, ¬ (g = f ∧ d = s) → a'.graph.jumpsTo g d = a.graph.jumpsTo g d
  resolved : ∀ i, i ∈ a'.graph.jumpsTo f s → i ∈ a.graph.jumpsTo f s
  anchored : a.graph.Anchored a'.graph

namespace Evolved

theorem refl (h : a.WellFormed L) (hf : L f) : Evolved L f s a a :=
  ⟨h, ⟨_, (h.planted.unchanged hf).toMoves⟩, .refl _, rfl, fun _ ↦ rfl, fun _ ↦ rfl,
    fun _ _ _ ↦ rfl, fun _ hi ↦ hi, .of_eq fun _ ↦ rfl⟩

theorem trans {a'' : Analysis} (h : Evolved L f s a a') (h' : Evolved L f s a' a'') :
    Evolved L f s a a'' where
  wellFormed := h'.wellFormed
  moves := by
    obtain ⟨T, hm⟩ := h.moves
    obtain ⟨T', hm'⟩ := h'.moves
    exact ⟨T', hm.andThen hm'⟩
  exprs := h.exprs.trans h'.exprs
  flows_size := h'.flows_size.trans h.flows_size
  core g := (h'.core g).trans (h.core g)
  destination i := (h'.destination i).trans (h.destination i)
  jumpsTo g d hne := (h'.jumpsTo g d hne).trans (h.jumpsTo g d hne)
  resolved i hi := h.resolved i (h'.resolved i hi)
  anchored := h.anchored.trans h'.anchored

theorem size_le (h : Evolved L f s a a') : a.blocks.size ≤ a'.blocks.size := by
  obtain ⟨T, hm⟩ := h.moves
  exact hm.blocks.off.size_le

theorem of_keeps (hwf : a'.WellFormed L) (hm : Moves (fun _ ↦ False) L f T a a')
    (hk : a.graph.Keeps a'.graph) (hexprs : a.exprs.Extends a'.exprs) : Evolved L f s a a' :=
  ⟨hwf, ⟨_, hm⟩, hexprs, hk.flows_size, hk.core, hk.destination,
    fun g d _ ↦ hk.jumpsTo g d, fun _ hi ↦ hk.jumpsTo f s ▸ hi, .of_eq hk.predecessors⟩

theorem of_relink (hwf : a'.WellFormed L) (hm : Moves (fun _ ↦ False) L f T a a')
    (hre : a.graph.Relinked a'.graph)
    (hto : ∀ g d, a'.graph.jumpsTo g d = a.graph.jumpsTo g d) (hexprs : a.exprs.Extends a'.exprs)
    (hanchored : a.graph.Anchored a'.graph) : Evolved L f s a a' :=
  ⟨hwf, ⟨_, hm⟩, hexprs, hre.flows_size, hre.core, hre.destination, fun g d _ ↦ hto g d,
    fun _ hi ↦ hto f s ▸ hi, hanchored⟩

theorem of_unlink (h : a.WellFormed L) (hf : L f) (hj : j ∈ a.graph.jumpsTo f s)
    (hwf : a'.WellFormed L) (hm : ∃ T, Moves (fun _ ↦ False) L f T a a')
    (hk : (a.graph.unlinkJump f j).Keeps a'.graph) (hexprs : a.exprs.Extends a'.exprs) :
    Evolved L f s a a' ∧ a'.graph.jumpsTo f s = (a.graph.jumpsTo f s).filter (· ≠ j) := by
  have hd : (a.jump j).destination = s := h.linked.destination hj
  have hre := FlowGraph.Relinked.unlinkJump a.graph f j
  obtain ⟨-, hjumps, -⟩ := h.mem_listed_unlinkJump hf (h.linked.mem_listed_of_mem hj)
  have hto : ∀ g d, a'.graph.jumpsTo g d = if g = f ∧ d = s then
      (a.graph.jumpsTo g d).filter (· ≠ j) else a.graph.jumpsTo g d := fun g d ↦ by
    rw [hk.jumpsTo, hjumps, hd]
  have hself : a'.graph.jumpsTo f s = (a.graph.jumpsTo f s).filter (· ≠ j) := by
    rw [hto, if_pos ⟨rfl, rfl⟩]
  refine ⟨⟨hwf, hm, hexprs, ?_, fun g ↦ ?_, fun i ↦ ?_, fun g d hne ↦ ?_, fun i hi ↦ ?_,
    .trans (.unlinkJump (h.proper f hf) j) (.of_eq hk.predecessors)⟩, hself⟩
  · rw [hk.flows_size, hre.flows_size]
  · exact (hk.core g).trans (hre.core g)
  · exact (hk.destination i).trans (hre.destination i)
  · rw [hto, if_neg hne]
  · rw [hself] at hi
    exact (List.mem_filter.mp hi).1

end Evolved

/-- Jumps from `f` to `s` have become structure. -/
structure Yielded (L : FlowId → Prop) (f s : FlowId) (a a' : Analysis) : Prop
    extends Evolved L f s a a' where
  yields : Tree.Yields (fun i ↦ (a.jump i).destination) a'.exprs.Negates
    (fun c ↦ a'.exprs.get c = .const (.bool false)) (a.blocks.size ≤ ·.index) s (a.tree f)
    (a'.tree f)

namespace Yielded

theorem refl (h : a.WellFormed L) (hf : L f) : Yielded L f s a a := ⟨.refl h hf, .refl _⟩

theorem trans {a'' : Analysis} (h : Yielded L f s a a') (h' : Yielded L f s a' a'') :
    Yielded L f s a a'' where
  toEvolved := h.toEvolved.trans h'.toEvolved
  yields := by
    refine (h.yields.mono (fun _ _ hc ↦ hc.mono h'.exprs) (fun c hc ↦ ?_) fun _ hw ↦ hw).trans ?_
    · exact h'.exprs.get_eq hc (by simp [default])
    · have := h'.yields
      simp only [h.destination] at this
      exact this.mono (fun _ _ hc ↦ hc) (fun _ hc ↦ hc) fun _ hw ↦ h.size_le.trans hw

end Yielded

theorem Resolved.yielded (h : a.WellFormed L) (hf : L f) (hj : j ∈ a.graph.jumpsTo f s)
    (hr : Resolved L f s j a a') :
    Yielded L f s a a' ∧ a'.graph.jumpsTo f s = (a.graph.jumpsTo f s).filter (· ≠ j) := by
  obtain ⟨he, hself⟩ :=
    Evolved.of_unlink h hf hj hr.wellFormed hr.moves hr.graph hr.exprs
  exact ⟨⟨he, .resolve (.refl _) (h.linked.destination hj) hr.resolves⟩, hself⟩

theorem WellFormed.resolvePass {js : List JumpId} (h : a.WellFormed L) (hf : L f)
    (hjs : ∀ j ∈ js, j ∈ a.graph.jumpsTo f s) (hn : js.Nodup) :
    Yielded L f s a (resolvePass f s js a).1 ∧
      (resolvePass f s js a).2.Sublist js ∧
      ∀ j, j ∈ (resolvePass f s js a).1.graph.jumpsTo f s ↔
        j ∈ a.graph.jumpsTo f s ∧ (j ∈ js → j ∈ (resolvePass f s js a).2) := by
  induction js generalizing a with
  | nil => exact ⟨.refl h hf, by simp [Analysis.resolvePass], by simp [Analysis.resolvePass]⟩
  | cons j js ih =>
    obtain ⟨hj, hn⟩ := List.nodup_cons.mp hn
    rw [Analysis.resolvePass]
    split
    next a' hr =>
      have hres := h.resolveJump hf (h.linked.mem_listed_of_mem (hjs j (by simp))) hr
      obtain ⟨hy, hself⟩ := hres.yielded h hf (hjs j (by simp))
      obtain ⟨hy', hsub, hmem⟩ := ih hy.wellFormed (fun i hi ↦ by
        rw [hself, List.mem_filter]
        exact ⟨hjs i (by simp [hi]), by simpa using fun he : i = j ↦ hj (he ▸ hi)⟩) hn
      refine ⟨hy.trans hy', hsub.trans (List.sublist_cons_self ..), fun i ↦ ?_⟩
      rw [hmem, hself]
      by_cases hij : i = j
      · subst hij
        simpa using fun _ hk ↦ hj (hsub.subset hk)
      · simp [hij]
    next =>
      obtain ⟨hy, hsub, hmem⟩ := ih h (fun i hi ↦ hjs i (by simp [hi])) hn
      refine ⟨hy, hsub.cons_cons j, fun i ↦ ?_⟩
      rw [hmem]
      by_cases hij : i = j
      · simp [hij, hj]
      · simp [hij]

theorem WellFormed.resolvePending {js : List JumpId} (h : a.WellFormed L) (hf : L f)
    (hjs : ∀ j, j ∈ js ↔ j ∈ a.graph.jumpsTo f s) (hn : js.Nodup) :
    Yielded L f s a (resolvePending f s js a).1 ∧ (resolvePending f s js a).2.Nodup ∧
      ∀ j, j ∈ (resolvePending f s js a).2 ↔
        j ∈ (resolvePending f s js a).1.graph.jumpsTo f s := by
  induction hlen : js.length using Nat.strong_induction_on generalizing a js with | _ n ih
  subst hlen
  obtain ⟨hy, hsub, hmem⟩ := h.resolvePass hf (fun j hj ↦ (hjs j).mp hj) hn
  have hkept : ∀ j, j ∈ (Analysis.resolvePass f s js a).2 ↔
      j ∈ (Analysis.resolvePass f s js a).1.graph.jumpsTo f s := fun j ↦ by
    rw [hmem, ← hjs]
    exact ⟨fun hj ↦ ⟨hsub.subset hj, fun _ ↦ hj⟩, fun hj ↦ hj.2 hj.1⟩
  rw [Analysis.resolvePending]
  dsimp only
  split
  next he =>
    refine ⟨hy, List.nodup_nil, fun j ↦ ?_⟩
    rw [← hkept, List.isEmpty_iff.mp he]
  next =>
    split
    next hlt =>
      obtain ⟨hy', h'⟩ := ih _ hlt hy.wellFormed hkept (hn.sublist hsub) rfl
      exact ⟨hy.trans hy', h'⟩
    next => exact ⟨hy, hn.sublist hsub, hkept⟩

theorem WellFormed.wrapInBreakable (h : a.WellFormed L) (hf : L f) :
    Yielded L f s a (a.wrapInBreakable f).1 ∧
      (a.wrapInBreakable f).1.graph.jumpsTo f s = a.graph.jumpsTo f s ∧
      ∃ c, (a.wrapInBreakable f).1.tree f =
        .node (a.wrapInBreakable f).2 none (.loop .doWhile c none false) [a.tree f] := by
  have hr₁ : Reshapes (fun _ ↦ False) L f (a.tree f) a (a.allocExpr (.const (.bool false))).1 :=
    h.planted.beside hf rfl rfl rfl
  have hexprs : a.exprs.Extends (a.allocExpr (.const (.bool false))).1.exprs :=
    a.exprs.extends_alloc _
  have hget : (a.allocExpr (.const (.bool false))).1.exprs.get
      (a.allocExpr (.const (.bool false))).2 = .const (.bool false) := a.exprs.get_alloc_self _
  simp only [Analysis.wrapInBreakable]
  generalize (a.allocExpr (.const (.bool false))).2 = c at *
  generalize (a.allocExpr (.const (.bool false))).1 = a₁ at *
  have hat := hr₁.planted.at_of_plug (C := []) hf hr₁.tree
  have hroot : a₁.root f = (a.tree f).id := by rw [← id_tree, hr₁.tree]
  have hr₂ := hr₁.planted.crown (s := .loop .doWhile c none none (a₁.root f) false) (l := [a.tree f])
    hf spare_none (by simpa using ⟨_, hat.holds⟩) (by simp [hr₁.tree])
    (by simpa using h.planted.nodup f hf)
    (by simp [Statement.children, hroot])
  have hc := (setRoot_fields (a₁.alloc (.loop .doWhile c none none (a₁.root f) false)).1 f
    ⟨a₁.blocks.size⟩ ⟨a₁.blocks.size⟩).2.1
  generalize ((a₁.alloc (.loop .doWhile c none none (a₁.root f) false)).1.setRoot f
    ⟨a₁.blocks.size⟩).setGrowth f ⟨a₁.blocks.size⟩ = a₂ at *
  have hr := hr₁.andThen hr₂
  have hexprs₂ : a₂.exprs = a₁.exprs := (congrArg Prod.fst hc :)
  have hwf := h.reshapes hr (fun x ↦ by simp [Tree.held]) (Tree.tidy_node.mpr
    ⟨by simp [Statement.kind], by simpa using h.tidy f hf⟩)
  refine ⟨⟨.of_keeps hwf hr.toMoves hr.graph (hexprs₂ ▸ hexprs), ?_⟩,
    hr.graph.jumpsTo f s, c, hr.tree⟩
  rw [hr.tree]
  exact .wrap (.refl _) (hexprs₂ ▸ hget) hr₁.blocks.off.size_le

/-- The jumps that no rule handles leave the wrapper. -/
theorem WellFormed.foldl_breakOut {w : BlockId} {js : List JumpId} {c : ExprId} {labeled : Bool}
    {T : Tree} (h : a.WellFormed L) (hf : L f)
    (hT : a.tree f = .node w none (.loop .doWhile c none labeled) [T]) (hn : js.Nodup)
    (hjs : ∀ j, j ∈ js ↔ j ∈ a.graph.jumpsTo f s) :
    Yielded L f s a (js.foldl (fun a j ↦ a.breakOut f w j) a) ∧
      (js.foldl (fun a j ↦ a.breakOut f w j) a).graph.jumpsTo f s = [] ∧
      ∃ k T, (js.foldl (fun a j ↦ a.breakOut f w j) a).tree f =
        .node w none (.loop .doWhile c none k) [T] := by
  induction js generalizing a T labeled with
  | nil =>
    refine ⟨.refl h hf, ?_, _, _, hT⟩
    rw [List.eq_nil_iff_forall_not_mem]
    exact fun j hj ↦ by simpa using (hjs j).mpr hj
  | cons j js ih =>
    obtain ⟨hj, hn⟩ := List.nodup_cons.mp hn
    have hmem := (hjs j).mp (by simp)
    obtain ⟨C, B, hT', -, hB⟩ := h.exists_holder hf (h.linked.mem_listed_of_mem hmem)
    -- The root holds no jump, so the jump is below the wrapper.
    obtain ⟨C, rfl⟩ : ∃ D, C = D ++ [⟨w, none, .loop .doWhile c none labeled, [], []⟩] := by
      rw [hT'] at hT
      rcases List.eq_nil_or_concat C with rfl | ⟨C, F, rfl⟩
      · rw [plug_nil] at hT
        simp [hT] at hB
      · simp only [List.concat_eq_append, plug_append, plug_cons, Frame.fill] at hT
        obtain ⟨id, jump, kind, before, after⟩ := F
        refine ⟨C, ?_⟩
        cases before <;> cases after <;> simp_all
    obtain ⟨hres, l, P, hP⟩ := h.breakOut hf hT' hB rfl (by simp [FallsOut])
    obtain ⟨hy, hself⟩ := hres.yielded h hf hmem
    have hk : (Kind.loop .doWhile c none labeled).labelIf l = .loop .doWhile c none (l || labeled) := by
      cases l <;> rfl
    rw [plug_append, hk] at hP
    obtain ⟨hy', h'⟩ := ih hy.wellFormed hP hn fun i ↦ by
      have := hjs i
      rw [hself, List.mem_filter, ← this]
      by_cases hij : i = j <;> simp [hij, hj]
    exact ⟨hy.trans hy', h'⟩

theorem jump_of_exitsWithin {n : Nat} {o : Option BlockId} (h : a.blocks.Holds o (plug C B))
    (hC : ∀ F ∈ C, F.IsRest) (hn : C.length ≤ n)
    (he : a.exitsWithin n (plug C B).id = false) : B.jump = none := by
  induction C using List.reverseRecOn generalizing n o with
  | nil =>
    have hjump : a.jumpOf B.id = B.jump := h.jump
    cases n <;> simp_all [exitsWithin]
  | append_singleton C F ih =>
    obtain ⟨n, rfl⟩ : ∃ m, n = m + 1 := ⟨n - 1, by simp at hn; omega⟩
    obtain ⟨hk, hafter, P, hbefore⟩ := hC F (by simp)
    simp only [plug_append, plug_cons, plug_nil] at h he
    obtain ⟨X, Y, hchildren, hs⟩ := h.sequence hk
    have hs : a.statement (F.fill (plug C B)).id = .sequence X.id Y.id := hs
    simp only [Frame.fill, hafter, hbefore] at hchildren
    obtain ⟨rfl, rfl⟩ := hchildren
    have hrest : a.blocks.Holds (some F.id) (plug C B) := h.child (by simp [Frame.fill])
    simp only [exitsWithin, hs, Bool.or_eq_false_iff] at he
    exact ih hrest (fun G hG ↦ hC G (by simp [hG])) (by simpa using hn) he.2

theorem WellFormed.resolveJumpsTo (h : a.WellFormed L) (hf : L f) :
    Yielded L f s a (a.resolveJumpsTo f s) ∧ (a.resolveJumpsTo f s).graph.jumpsTo f s = [] ∧
      ∃ C B, (a.resolveJumpsTo f s).tree f = plug C B ∧ (∀ F ∈ C, F.IsRest) ∧
        B.kind ≠ .sequence ∧ B.jump = none := by
  obtain ⟨hy, hn, hmem⟩ := h.resolvePending hf (fun j ↦ Iff.refl (j ∈ a.graph.jumpsTo f s))
    h.linked.nodup_jumpsTo
  rw [Analysis.resolveJumpsTo]
  dsimp only
  generalize Analysis.resolvePending f s (a.graph.jumpsTo f s) a = r at *
  split
  next he =>
    rw [Bool.and_eq_true, List.isEmpty_iff] at he
    refine ⟨hy, ?_, ?_⟩
    · rw [List.eq_nil_iff_forall_not_mem]
      exact fun j hj ↦ by simpa [he.1] using (hmem j).mpr hj
    · have hholds := hy.wellFormed.planted.holds f hf
      obtain ⟨C, B, hT, hC, hB⟩ := Blocks.exists_last hholds
      refine ⟨C, B, hT, hC, hB, ?_⟩
      have hexit : r.1.exitsWithin r.1.blocks.size (r.1.root f) = false := by simpa [tailExits] using he.2
      rw [← id_tree, hT] at hexit
      rw [hT] at hholds
      exact jump_of_exitsWithin hholds hC
        (Blocks.length_le_of_holds_plug hholds (hT ▸ hy.wellFormed.planted.nodup f hf)) hexit
  next =>
    obtain ⟨hy', hto, c, hT⟩ := hy.wellFormed.wrapInBreakable hf
    obtain ⟨hy'', hnil, k, T, hT'⟩ := hy'.wellFormed.foldl_breakOut hf hT hn fun j ↦ by rw [hto, hmem]
    exact ⟨(hy.trans hy').trans hy'', hnil, [], _, hT', by simp, by simp, rfl⟩

end Jump

end Analysis

end Decompile
