import Decompile.Proofs.Folding

namespace Decompile

namespace Analysis

variable {a a' : Analysis} {L : FlowId → Prop} {f : FlowId} {b : BlockId} {run : List BlockId}
  {r : Analysis × BlockId}

variable {n : Nat} {c e : ExprId}

namespace Besides

variable (h : Besides a a')
include h

theorem onStack : a'.OnStack b ↔ a.OnStack b := by
  rw [OnStack, OnStack, Analysis.statement, Analysis.statement, h.blocks]

theorem folded (hwf : a.WellFormed L) (hf : L f) : Folded L f a a' ∧ a'.tree f = a.tree f :=
  hwf.rewrite hf h.blocks h.graph h.frame h.literal

theorem foldedAt (hwf : a.WellFormed L) (hf : L f) (hb : b ∈ (a.tree f).ids) :
    FoldedAt L f a (a', b) := by
  obtain ⟨he, hT⟩ := h.folded hwf hf
  exact ⟨he, hT ▸ hb⟩

theorem dropPreceding (hwf : a.WellFormed L) (hf : L f) (hb : b ∈ (a.tree f).ids)
    (hr : a.Ahead b n run) : FoldedAt L f a (a'.removeStatements run, b) := by
  obtain ⟨he, hT⟩ := h.folded hwf hf
  exact he.at (he.wellFormed.dropPreceding hf (hT ▸ hb) (h.blocks ▸ hr.preceding)
    fun p hp ↦ h.onStack.mpr (hr.onStack p hp))

theorem foldRun {s : Statement} (hwf : a.WellFormed L) (hf : L f) (hb : b ∈ (a.tree f).ids)
    (hr : a.Ahead b n run) (hbs : a.OnStack b ∧ a.statement b ≠ .empty) (hk : s.kind.Simple) :
    FoldedAt L f a (a'.replaceRun run b s) := by
  obtain ⟨he, hT⟩ := h.folded hwf hf
  refine he.at (he.wellFormed.foldRun hf (hT ▸ hb) (h.blocks ▸ hr.preceding)
    (fun p hp ↦ h.onStack.mpr (hr.onStack p hp)) (h.onStack.mpr hbs.1) ?_ hk)
  rw [Analysis.statement, h.blocks]
  exact hbs.2

end Besides

section Headers

theorem eq_of_conditionalJump? {o : Option BlockId} {B : Tree} {x : ExprId × JumpId}
    (hB : a.blocks.Holds o B) (hx : a.conditionalJump? B.id = some x) :
    ∃ t, B = .node B.id B.jump (.conditional x.1) [.node t (some x.2) .empty []] := by
  rw [conditionalJump?] at hx
  split at hx
  case h_2 => cases hx
  next c t hs =>
    obtain ⟨he, hx⟩ := guard_bind_eq_some.mp hx
    simp only [Option.bind_eq_bind, Option.bind_eq_some_iff, Option.pure_def,
      Option.some.injEq] at hx
    obtain ⟨i, hi, rfl⟩ := hx
    exact ⟨t, exists_test hB hs hi he⟩

variable {C : List Frame} {B : Tree} {s : Statement}

variable {D E : List Frame}

theorem WellFormed.two_pushes {u v : BlockId} {x y : ExprId × Nat} (h : a.WellFormed L) (hf : L f)
    (hT : a.tree f = plug C B) (hs : a.statement B.id = .ifElse c u (some v))
    (hx : a.pushed? u = some x) (hy : a.pushed? v = some y) :
    ∃ P Q, B = .node B.id B.jump (.ifElse c) [P, Q] ∧ P.Simple ∧ Q.Simple := by
  have hat := h.planted.at_of_plug hf hT
  have hk : (a.statement B.id).kind = B.kind := hat.holds.kind
  have hc : (a.statement B.id).children = B.children.map Tree.id := hat.holds.children
  obtain ⟨b, e, k, ch⟩ := B
  rw [hs] at hk hc
  obtain ⟨P, Q, rfl, rfl, rfl⟩ : ∃ P Q, ch = [P, Q] ∧ P.id = u ∧ Q.id = v := by
    rcases ch with _ | ⟨P, _ | ⟨Q, _ | ⟨_, _⟩⟩⟩ <;>
      simp_all [Statement.children]
  obtain rfl : Kind.ifElse c = k := hk
  refine ⟨P, Q, rfl, ?_, ?_⟩
  · rw [h.eq_push (C := ⟨b, e, .ifElse c, [], [Q]⟩ :: C) hf hT hx]
    exact ⟨rfl, trivial, rfl⟩
  · rw [h.eq_push (C := ⟨b, e, .ifElse c, [P], []⟩ :: C) hf hT hy]
    exact ⟨rfl, trivial, rfl⟩

theorem WellFormed.reword (h : a.WellFormed L) (hf : L f) (hT : a.tree f = plug C B)
    (hc : s.children = B.children.map Tree.id) (hk : s.kind = .sequence ↔ B.kind = .sequence)
    (hs : s.isSwitch = false)
    (hfold : Tree.Folds (fun i ↦ (a.jump i).destination) (plug C B) (plug C (B.withKind s.kind))) :
    FoldedAt L f a (a.setStatement B.id s, B.id) ∧
      (a.setStatement B.id s).tree f = plug C (B.withKind s.kind) := by
  have hr := h.planted.setStatement hf hT hc
  have hwf := h.relabel hf hT hr hk
  refine ⟨⟨⟨.of_keeps hwf hr.toMoves hr.graph rfl (.setStatement a fun h ↦ absurd h (by simp [hs])), ?_⟩,
    ?_⟩, hr.tree⟩
  · rw [hr.tree, hT]
    exact hfold
  · rw [show (a.setStatement B.id s, B.id).1.tree f = _ from hr.tree, mem_ids_plug]
    exact .inl (B.ids_withKind _ ▸ B.id_mem_ids)

theorem WellFormed.rewordPush {w : Nat} (h : a.WellFormed L) (hf : L f)
    (hT : a.tree f = plug C (.node b none (.evaluate e w) [])) (e' : ExprId) :
    Folded L f a (a.setStatement b (.evaluate e' w)) ∧
      (a.setStatement b (.evaluate e' w)).tree f = plug C (.node b none (.evaluate e' w) []) := by
  obtain ⟨he, hT'⟩ := h.reword (s := .evaluate e' w) hf hT rfl (by simp [Statement.kind]) rfl
    (.leaf (k := .evaluate e w) trivial (by simp) trivial)
  exact ⟨he.toFolded, hT'⟩

theorem WellFormed.dropBehind {q : BlockId} {e : Option JumpId} {k : Kind} {P : Tree}
    (h : a.WellFormed L) (hf : L f)
    (hT : a.tree f = plug E (.node q none .sequence [P, plug D (.node b e k [])])) (hD : AtHead D)
    (hk : k.Simple) : FoldedAt L f a (a.removeStatement b, P.id) := by
  rcases hD with rfl | ⟨r, Y, rfl⟩
  · obtain ⟨he, hT'⟩ := h.dropLast hf hT hk
    refine ⟨he, ?_⟩
    rw [hT', mem_ids_plug]
    exact .inl (P.ids_withJump e ▸ P.id_mem_ids)
  · have hT₁ : a.tree f = plug (⟨q, none, .sequence, [P], []⟩ :: E)
        (.node r none .sequence [.node b e k [], Y]) := hT
    obtain ⟨he, hT', -⟩ := h.dropFirst hf hT₁ ⟨(h.sequence hf hT₁).2.1, hk, rfl⟩
    refine ⟨he, (congrArg (P.id ∈ Tree.ids ·) hT').mpr ?_⟩
    rw [plug_cons, mem_ids_plug]
    exact .inl (by simp [Frame.fill, Tree.ids, P.id_mem_ids])

theorem WellFormed.foldHeader (h : a.WellFormed L) (hf : L f) (hb : b ∈ (a.tree f).ids)
    (hr : a.blocks.preceding b n = some run) (hs : ∀ p ∈ run, a.OnStack p)
    (hc : s.children = (a.statement b).children)
    (hk : s.kind = .sequence ↔ (a.statement b).kind = .sequence) (hw : s.isSwitch = false)
    (hfold : ∀ C e ch, Tree.Folds (fun i ↦ (a.jump i).destination) (plug C (.node b e (a.statement b).kind ch)) (plug C (.node b e s.kind ch))) :
    FoldedAt L f a ((a.removeStatements run).setStatement b s, b) := by
  obtain ⟨C, E, D, l, T, B, hB, hT, hl, -, hsimple, rfl, rfl⟩ := h.run hf hb hr hs
  have hat := h.planted.at_of_plug hf hB
  have hkind : (a.statement B.id).kind = B.kind := hat.holds.kind
  have hchildren : (a.statement B.id).children = B.children.map Tree.id := hat.holds.children
  obtain ⟨he, hT', -⟩ := h.dropRun hf hl hT hsimple
  refine he.at (he.wellFormed.reword (C := D ++ E) (B := B) hf (by rw [hT', plug_append])
    (hc.trans hchildren) (hkind ▸ hk) hw ?_).1
  have hd : (fun i ↦ ((a.removeStatements (l.map Tree.id)).jump i).destination) =
      fun i ↦ (a.jump i).destination := funext he.thinned.destination
  rw [hd]
  have := hfold (D ++ E) B.jump B.children
  rw [hkind] at this
  obtain ⟨x, e, k, ch⟩ := B
  exact this

/-- Two tests in a row become one. The first of them goes with its jump. -/
theorem WellFormed.combine {q p t u : BlockId} {e : Option JumpId} {i j : JumpId} {c' : ExprId}
    (h : a.WellFormed L) (hf : L f)
    (hT : a.tree f = plug E (.node q none .sequence [.node p none (.conditional c) [.node t (some i) .empty []], plug D (.node b e (.conditional c') [.node u (some j) .empty []])]))
    (hD : AtHead D)
    (hi : (a.jump i).destination = (a.jump j).destination ∨ ∃ k, e = some k ∧ (a.jump i).destination = (a.jump k).destination)
    (c'' : ExprId) :
    FoldedAt L f a (((a.removeJump f i).removeStatement p).setCondition b c'', b) := by
  have hTt : a.tree f = plug (⟨p, none, .conditional c, [], []⟩ ::
      ⟨q, none, .sequence, [], [plug D (.node b e (.conditional c') [.node u (some j) .empty []])]⟩ ::
        E) (.node t (some i) .empty []) := hT
  have hlisted := (h.unique_holder hf hTt rfl).1
  obtain ⟨hm₁, h₁, hg₁⟩ := h.removeJump hf hlisted hTt rfl
  have hT₁ : (a.removeJump f i).tree f = plug E (.node q none .sequence
      [.node p none (.conditional c) [.node t none .empty []],
        plug D (.node b e (.conditional c') [.node u (some j) .empty []])]) := hm₁.tree
  obtain ⟨hr₂, -⟩ := h₁.planted.removeStatement (B := .node p none (.conditional c) _) hf hT₁
    (.inl rfl) rfl
  have htidy₁ := h₁.tidy f hf
  rw [hT₁] at htidy₁
  have h₂ : ((a.removeJump f i).removeStatement p).WellFormed L := by
    refine h₁.reshapes hr₂ (fun x ↦ ?_)
      (htidy₁.plug ((Tree.tidy_node.mp htidy₁.of_plug).2 _ (by simp)) fun hp ↦ absurd rfl hp.2)
    rw [hT₁, mem_held_plug (C := E), mem_held_plug (C := E)]
    simp [Tree.held]
  have hT₂ : ((a.removeJump f i).removeStatement p).tree f =
      plug (D ++ E) (.node b e (.conditional c') [.node u (some j) .empty []]) := by
    rw [plug_append]
    exact hr₂.tree
  have hr₃ := h₂.planted.modifyStatement (k := (·.setCondition c'')) (l := (·.setCondition c'')) hf
    hT₂ (fun s ↦ s.kind_setCondition c'') fun s ↦ s.children_setCondition c''
  have h₃ := h₂.relabel hf hT₂ hr₃ (by simp [Kind.setCondition])
  have hk := hr₂.graph.trans hr₃.graph
  refine ⟨⟨⟨h₃, ⟨_, (hm₁.andThen hr₂.toMoves).andThen hr₃.toMoves⟩, ?_, ?_,
    ((((Edits.refl a).removeJump f i).removeStatement p).setCondition b c'').makesNoSwitch⟩, ?_⟩, ?_⟩
  · refine (h.thinned_unlinkJump hf hlisted).trans (.of_keeps ?_)
    exact hg₁ ▸ hk
  · have hc : (((a.removeJump f i).removeStatement p).setCondition b c'').content = a.content :=
      (content_removeStatement ..).trans (content_removeJump ..)
    rw [show (((a.removeJump f i).removeStatement p).setCondition b c'').exprs = a.exprs from
      congrArg Prod.fst hc]
    exact (Expressions.Extends.refl _).keepsLiterals
  · rw [hT, show (((a.removeJump f i).removeStatement p).setCondition b c'').tree f = _ from
      hr₃.tree, plug_append]
    exact .combine hD hi
  · refine (congrArg (b ∈ Tree.ids ·) hr₃.tree).mpr ?_
    rw [mem_ids_plug]
    exact .inl (Tree.id_mem_ids _)

end Headers

section Steps

variable (h : a.WellFormed L) (hf : L f) (hb : b ∈ (a.tree f).ids)
include h hf hb

theorem WellFormed.foldTernary {onTrue onFalse : BlockId} {x y : ExprId × Nat}
    (hs : a.statement b = .ifElse c onTrue (some onFalse)) (hx : a.pushed? onTrue = some x)
    (hy : a.pushed? onFalse = some y) (ha : Besides a a') :
    FoldedAt L f a (a'.replaceRun [] b (.evaluate e x.2)) := by
  obtain ⟨C, B, hT, rfl⟩ := exists_plug_of_id hb
  obtain ⟨P, Q, hB, hP, hQ⟩ := h.two_pushes hf hT hs hx hy
  have hheld : B.children.flatMap Tree.held = [] := by
    rw [hB]
    simp [held_of_simple hP, held_of_simple hQ]
  obtain ⟨he, hT₁⟩ := ha.folded h hf
  refine he.at (he.wellFormed.replaceRun (D := []) (E := C) (l := []) hf .nil (hT₁.trans hT)
    (by simp) hheld rfl trivial fun n ↦ ?_)
  rw [hB]
  exact .ternary hP hQ trivial

theorem WellFormed.completeHeader {s : Statement} (hr : a.Ahead b n run)
    (hs : Completes (a.statement b) s) :
    FoldedAt L f a ((a.removeStatements run).setStatement b s, b) := by
  generalize hst : a.statement b = st at hs
  cases hs with
  | initializer =>
    refine h.foldHeader hf hb hr.preceding hr.onStack (by rw [hst]; rfl)
      (by simp [hst, Statement.kind]) rfl fun C e ch ↦ ?_
    rw [hst]
    exact .header
  | object =>
    refine h.foldHeader hf hb hr.preceding hr.onStack (by rw [hst]; rfl)
      (by simp [hst, Statement.kind]) rfl fun C e ch ↦ ?_
    rw [hst]
    exact .object

theorem WellFormed.removeEmpty {q' survivor : BlockId} (hs : a.statement b = .empty)
    (hj : (a.jumpOf b).isNone) (hcan : a.canRemoveStatement b)
    (hsib : a.sibling? b = some (q', survivor)) :
    FoldedAt L f a (a.removeStatement b, survivor) := by
  obtain ⟨C, B, hT, rfl⟩ := exists_plug_of_id hb
  have hat := h.planted.at_of_plug hf hT
  obtain ⟨hk, hc⟩ := (statement_eq_empty hat.holds).mp hs
  have hBj : B.jump = none := hat.holds.jump.symm.trans (Option.isNone_iff_eq_none.mp hj)
  obtain ⟨q, j, Y, C', hC | hC⟩ := exists_sequence hat (isSome_sibling? hcan)
  · subst hC
    obtain ⟨rfl, hP⟩ := h.sequence (C := C') (q := q) (P := B) (R := Y) hf hT
    have hY : survivor = Y.id := by
      have := sibling?_eq (Y := Y) (hat.up) (.inl rfl)
      rw [hsib] at this
      exact congrArg Prod.snd (Option.some.inj this)
    obtain ⟨he, hT', -⟩ := h.dropFirst (C := C') (q := q) (P := B) (Y := Y) hf hT
      ⟨hBj, by rw [hk]; trivial, hc⟩
    refine ⟨he, ?_⟩
    rw [hT', hY, mem_ids_plug]
    exact .inl Y.id_mem_ids
  · subst hC
    obtain ⟨rfl, hP⟩ := h.sequence (C := C') (q := q) (P := Y) (R := B) hf hT
    have hY : survivor = Y.id := by
      have := sibling?_eq (Y := Y) (hat.up) (.inr rfl)
      rw [hsib] at this
      exact congrArg Prod.snd (Option.some.inj this)
    obtain ⟨x, e, k, ch⟩ := B
    obtain rfl : ch = [] := hc
    obtain ⟨he, hT'⟩ := h.dropLast (C := C') (q := q) (P := Y) (b := x) (e := e) (k := k) hf hT
      (by rw [show k = _ from hk]; trivial)
    refine ⟨he, ?_⟩
    show survivor ∈ ((a.removeStatement x).tree f).ids
    rw [hT', hY, mem_ids_plug]
    exact .inl (Y.ids_withJump e ▸ Y.id_mem_ids)

theorem WellFormed.removeSwap {first second : BlockId} {x' y' : ExprId}
    (hop : a.shuffle? b = some .swap) (hrun : a.blocks.preceding b 2 = some [first, second])
    (hx : a.pushed? first = some (x', 1)) (hy : a.pushed? second = some (y', 1)) :
    FoldedAt L f a (((a.setStatement first (.evaluate y' 1)).setStatement second
      (.evaluate x' 1)).removeStatement b, second) := by
  obtain ⟨C, E, D, l, T, B, hB, hT, hl, hD, hsimple, hids, rfl⟩ := h.run hf hb hrun
    (by simpa using ⟨onStack_of_pushed? hx, onStack_of_pushed? hy⟩)
  obtain ⟨P, Q, rfl, rfl, rfl⟩ : ∃ P Q, l = [P, Q] ∧ P.id = first ∧ Q.id = second := by
    rcases l with _ | ⟨P, _ | ⟨Q, _ | ⟨_, _⟩⟩⟩ <;> simp_all
  cases hl with | cons q₁ j₁ hl =>
  cases hl with | cons q₂ j₂ hl =>
  cases hl
  obtain ⟨rfl, -⟩ := h.sequence hf hT
  obtain ⟨rfl, -⟩ := h.sequence (C := ⟨q₁, none, .sequence, [P], []⟩ :: E) hf hT
  have hP := h.eq_push (C := ⟨q₁, none, .sequence, [], [_]⟩ :: E) hf hT hx
  have hQ := h.eq_push (C := ⟨q₂, none, .sequence, [], [_]⟩ :: ⟨q₁, none, .sequence, [P], []⟩ :: E)
    hf hT hy
  have hBs := (h.planted.at_of_plug hf hB).holds
  obtain ⟨B, e, k, ch⟩ := B
  have hk : (a.statement B).kind = k := hBs.kind
  have hc : (a.statement B).children = ch.map Tree.id := hBs.children
  rw [show a.statement B = _ from statement_of_shuffle? hop] at hk hc
  obtain rfl : ch = [] := by simpa [Statement.children] using hc
  generalize P.id = p at *
  generalize Q.id = q at *
  subst hP hQ hk
  obtain ⟨he₁, hT₁⟩ := h.rewordPush (C := ⟨q₁, none, .sequence, [], [_]⟩ :: E) hf hT y'
  obtain ⟨he₂, hT₂⟩ := he₁.wellFormed.rewordPush
    (C := ⟨q₂, none, .sequence, [], [_]⟩ :: ⟨q₁, none, .sequence, [_], []⟩ :: E) hf hT₁ x'
  have he := he₁.trans he₂
  exact he.at (he₂.wellFormed.dropBehind (E := ⟨q₁, none, .sequence, [_], []⟩ :: E) (q := q₂) hf hT₂
    hD trivial)

theorem WellFormed.combineConditions {f' : FlowId} {prev : BlockId} {x y : ExprId × JumpId}
    (hx : a.conditionalJump? b = some x) (hprev : a.blocks.prevStatement b = some prev)
    (hy : a.conditionalJump? prev = some y) (hf' : a.flowOf b = some f')
    (hi : (a.jump y.2).destination = (a.jump x.2).destination ∨
      ∃ k, a.jumpOf b = some k ∧ (a.jump y.2).destination = (a.jump k).destination)
    (ha : Besides a a') (c : ExprId) :
    FoldedAt L f a (((a'.removeJump f' y.2).removeStatement prev).setCondition b c, b) := by
  obtain rfl : f = f' := Option.some.inj ((flowOf_eq h.planted hf hb).symm.trans hf')
  obtain ⟨C, B, hT, rfl⟩ := exists_plug_of_id hb
  obtain ⟨E, D, q, P, hT', rfl, hP, hD⟩ := h.prevStatement hf hT hprev
  have hat := h.planted.at_of_plug hf hT
  obtain ⟨u, hB⟩ := eq_of_conditionalJump? hat.holds hx
  obtain ⟨t, hPe⟩ := eq_of_conditionalJump?
    (h.planted.at_of_plug (C := ⟨q, none, .sequence, [], [_]⟩ :: E) hf hT').holds hy
  rw [hP.1] at hPe
  rw [hB, hPe] at hT'
  have hjump : a.jumpOf B.id = B.jump := hat.holds.jump
  obtain ⟨he, hT₁⟩ := ha.folded h hf
  refine he.at (he.wellFormed.combine hf (hT₁.trans hT') hD ?_ c)
  simpa only [Analysis.jump, ha.graph, ← hjump] using hi

theorem Rewrites.foldedAt (hr : Rewrites a b r) : FoldedAt L f a r := by
  cases hr with
  | drop ha hrun => exact ha.dropPreceding h hf hb hrun
  | fold ha hrun hbs hs => exact ha.foldRun h hf hb hrun hbs hs.simple
  | construct he =>
    exact (Besides.allocExpr a _).foldRun h hf hb (.zero a b) (onStack_of_statementExpr? he) trivial
  | @shorten a₁ e _ x _ ha hexprs hx =>
    refine (ha.trans (.setExpr (fun v hv ↦ ?_) x)).foldedAt h hf hb
    rw [expr, hexprs] at hv
    rw [expr, hv] at hx
    cases hx
  | ternary hs hx hy ha => exact h.foldTernary hf hb hs hx hy ha
  | combine c hx hprev hy _ hf' hi ha => exact h.combineConditions hf hb hx hprev hy hf' hi ha c
  | complete hrun hs => exact h.completeHeader hf hb hrun hs
  | empty hs hj hcan hsib => exact h.removeEmpty hf hb hs hj hcan hsib
  | swap hop hrun hx hy => exact h.removeSwap hf hb hop hrun hx hy

theorem WellFormed.apply {rule : Rule} (hr : rule.apply a b = some r) : FoldedAt L f a r :=
  (offers_apply a b rule r hr).foldedAt h hf hb

end Steps

end Analysis

end Decompile
