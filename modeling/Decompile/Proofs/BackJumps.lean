import Decompile.Proofs.LoopClosing

namespace Decompile

namespace Tree

/-- A jump back to the head of the loop `w` becomes the end of its body or a continue. -/
inductive Returns (w : BlockId) (j : JumpId) : Bool → Tree → Tree → Prop
  | falls {C : List Frame} {B A : Tree} {e : Option JumpId} {k : Kind} : Falls C →
    B.jump = some j → Trims C (B.withJump none) A →
    Returns w j false (node w e k [plug C B]) (node w e k [A])
  | continues {C : List Frame} {B P : Tree} {e : Option JumpId} {k : Kind} {n : BlockId}
      {labeled : Bool} : labeled = C.any (·.kind.isLoop) → B.jump = some j →
    (∀ G ∈ C, G.id ≠ w) → InPlaceOf (node n none (.continueTo w labeled) []) B P →
    Returns w j true (node w e k [plug C B]) (node w e (k.labelIf labeled) [plug C P])

/-- All jumps back to the head of the loop `w` of `f` go, one by one. The flag says whether there
are continues now. -/
inductive Closes (destination : JumpId → FlowId) (f : FlowId) (w : BlockId) :
    Bool → Tree → Tree → Prop
  | refl (T : Tree) : Closes destination f w false T T
  | step {j : JumpId} {continued continues : Bool} {T T' T'' : Tree} : destination j = f →
    Returns w j continued T T' → Closes destination f w continues T' T'' →
    Closes destination f w (continued || continues) T T''

/-- The last statement of a while loop becomes its increment. -/
inductive Splits (w : BlockId) : Tree → Tree → Prop
  | increment {C : List Frame} {e : Option JumpId} {c expr : ExprId} {l : Bool} {q x : BlockId}
      {P : Tree} : (∀ F ∈ C, F.IsRest) →
    Splits w
      (node w e (.loop .whileLoop c none l)
        [plug C (node q none .sequence [P, node x none (.evaluate expr 0) []])])
      (node w e (.loop .possibleFor c none l) [plug C P, node x none (.evaluate expr 0) []])

variable {destination : JumpId → FlowId} {kind : LoopKind} {T' T : Tree} {f : FlowId} {w : BlockId}

theorem Loops.shape {negates : ExprId → ExprId → Prop} {isTrue : ExprId → Prop}
    (h : Loops destination negates isTrue f w kind T T') :
    ∃ e c B, T' = node w e (.loop kind c none false) [B] ∧
      (kind = .doWhile ∨ kind = .whileLoop ∧ ∀ i, e = some i → destination i ≠ f) := by
  cases h with
  | doWhileOnly => exact ⟨_, _, _, rfl, .inl rfl⟩
  | doWhile => exact ⟨_, _, _, rfl, .inl rfl⟩
  | whileOnly hi | «while» hi =>
    refine ⟨_, _, _, rfl, .inr ⟨rfl, fun j hj ↦ ?_⟩⟩
    exact Option.some.inj hj ▸ hi
  | forever => exact ⟨_, _, _, rfl, .inr ⟨rfl, by simp⟩⟩

theorem Loops.mono {negates negates' : ExprId → ExprId → Prop} {isTrue isTrue' : ExprId → Prop}
    (h : Loops destination negates isTrue f w kind T T') (hn : ∀ c c', negates c c' → negates' c c')
    (ht : ∀ c, isTrue c → isTrue' c) : Loops destination negates' isTrue' f w kind T T' := by
  cases h with
  | doWhileOnly hj => exact .doWhileOnly hj
  | doWhile hC hj => exact .doWhile hC hj
  | whileOnly hi hc hB => exact .whileOnly hi (hn _ _ hc) hB
  | «while» hi hc hB => exact .while hi (hn _ _ hc) hB
  | forever hc hB => exact .forever (ht _ hc) hB

end Tree

namespace Kind

theorem labelIf_loop (kind : LoopKind) (c : ExprId) (init : Option ExprId) (l labeled : Bool) :
    (loop kind c init l).labelIf labeled = loop kind c init (labeled || l) := by
  cases labeled <;> rfl

end Kind

namespace Analysis

variable {a a' : Analysis} {L : FlowId → Prop} {f : FlowId} {w : BlockId} {j : JumpId}
  {e : Option JumpId} {kind : LoopKind} {c : ExprId} {l : Bool} {B T : Tree} {C : List Frame}

section Close

theorem statement_loop {o : Option BlockId}
    (h : a.blocks.Holds o (.node w e (.loop kind c none l) [B])) :
    a.statement w = .loop kind c none none B.id l :=
  Statement.ext_kind h.kind h.children

theorem WellFormed.exists_holder_below {k : Kind} (h : a.WellFormed L) (hf : L f)
    (hT : a.tree f = .node w e k [T]) (hj : j ∈ a.graph.listed f) (he : e ≠ some j) :
    ∃ C B, T = plug C B ∧ B.id = (a.jump j).source ∧ B.jump = some j := by
  obtain ⟨C, B, hT', hsource, hB⟩ := h.exists_holder hf hj
  rcases List.eq_nil_or_concat C with rfl | ⟨C, ⟨id, jump, kind, before, after⟩, rfl⟩
  · rw [hT, plug_nil] at hT'
    rw [← hT'] at hB
    exact absurd hB he
  · refine ⟨C, B, ?_, hsource, hB⟩
    rw [hT] at hT'
    simp only [List.concat_eq_append, plug_append, plug_cons, plug_nil, Frame.fill,
      Tree.node.injEq] at hT'
    cases before <;> cases after <;> simp_all

/-- What holds once a jump back to the head of a loop has become structure. -/
structure JumpClosed (L : FlowId → Prop) (f : FlowId) (w : BlockId) (j : JumpId) (continued : Bool)
    (a a' : Analysis) : Prop extends Evolved L f f a a' where
  self : a'.graph.jumpsTo f f = (a.graph.jumpsTo f f).filter (· ≠ j)
  returns : Tree.Returns w j continued (a.tree f) (a'.tree f)

theorem WellFormed.closeJump (h : a.WellFormed L) (hf : L f)
    (hT : a.tree f = .node w e (.loop kind c none l) [T]) (hj : j ∈ a.graph.jumpsTo f f)
    (he : e ≠ some j) :
    JumpClosed L f w j (closeJump f w a j).2 a (closeJump f w a j).1 ∧
      ∃ l' T', (closeJump f w a j).1.tree f = .node w e (.loop kind c none l') [T'] := by
  have hlisted := h.linked.mem_listed_of_mem hj
  obtain ⟨C, B, rfl, hsource, hB⟩ := h.exists_holder_below hf hT hlisted he
  have hT' : a.tree f = plug (C ++ [⟨w, e, .loop kind c none l, [], []⟩]) B := by
    rw [hT, plug_append]
    rfl
  have hat := h.planted.at_of_plug hf hT'
  have hbody : a.statement w = .loop kind c none none (plug C B).id l :=
    statement_loop (hT ▸ h.planted.holds f hf)
  have hfalls : a.blocks.fallsToEndOf B.id (plug C B).id = true ↔ Falls C := by
    refine (Blocks.fallsToEndOf_iff hat).trans ⟨?_, fun hC ↦ ⟨C, _, rfl, rfl, hC⟩⟩
    rintro ⟨C₁, C₂, hC, hid, hC₁⟩
    obtain ⟨rfl, -⟩ : C₁ = C ∧ _ := by
      have hn : (plug (C ++ [⟨w, e, .loop kind c none l, [], []⟩]) B).ids.Nodup := hat.nodup
      have heq : plug C₂ (plug C₁ B) = plug [⟨w, e, .loop kind c none l, [], []⟩] (plug C B) := by
        rw [← plug_append, ← hC, plug_append]
      have h₂ := (plug_inj (by rwa [← plug_append, ← hC]) heq hid.symm).1
      subst h₂
      exact ⟨(List.append_cancel_right hC).symm, trivial⟩
    exact hC₁
  simp only [Analysis.closeJump, hbody, ← hsource]
  by_cases hend : Falls C
  · rw [if_pos (hfalls.mpr hend)]
    obtain ⟨hmove, hwf, hgraph⟩ := h.removeJump hf hlisted hT' hB
    obtain ⟨T, hr, hwf', htrims⟩ := hwf.dropIfEmpty hf hmove.tree
    rw [B.id_withJump] at hr hwf'
    obtain ⟨A, hA, rfl⟩ := Tree.Trims.inner (E := []) htrims (by simp)
    have hc : ((a.removeJump f j).dropIfEmpty B.id).content = a.content := by simp
    obtain ⟨hev, hself⟩ := Evolved.of_unlink h hf hj hwf' ⟨_, hmove.andThen hr.toMoves⟩
      (hgraph ▸ hr.graph) (.of_eq (congrArg Prod.fst hc :))
    refine ⟨⟨hev, hself, ?_⟩, l, A, hr.tree⟩
    rw [hT, hr.tree]
    exact .falls hend hB hA
  · rw [if_neg (mt hfalls.mp hend)]
    have hlabeled := hat.innermostLoop_ne rfl rfl
    simp only [hlabeled, Bool.decide_eq_true]
    obtain ⟨hr₁, hwf₁, hc₁, hg₁⟩ := h.labelIf hf hT' (C.any (·.kind.isLoop))
    generalize hl : C.any (·.kind.isLoop) = labeled at *
    generalize (if labeled = true then a.setLabeled w else a) = a₁ at *
    obtain ⟨n, P, hP, hm₂, hwf₂, hg₂, -⟩ := hwf₁.replaceJumpNew (s := .continueTo w labeled) hf
      hr₁.tree hB rfl (by simp [Statement.kind])
    have hc₂ := (content_replaceJumpWith (a₁.alloc (.continueTo w labeled)).1 f
      (a₁.alloc (.continueTo w labeled)).2 j).trans hc₁
    obtain ⟨hev, hself⟩ := Evolved.of_unlink h hf hj hwf₂ ⟨_, hr₁.toMoves.andThen hm₂⟩ (hg₁ ▸ hg₂)
      (.of_eq (congrArg Prod.fst hc₂ :))
    have htree := hm₂.tree
    rw [plug_append] at htree
    refine ⟨⟨hev, hself, ?_⟩, labeled || l, plug C P, ?_⟩
    · rw [hT, htree]
      exact .continues hl.symm hB (hat.ne_of_before rfl) hP
    · rw [htree, Kind.labelIf_loop]
      rfl

/-- What holds once no jump of `f` leads back to the head of its loop. -/
structure JumpsClosed (L : FlowId → Prop) (f : FlowId) (w : BlockId) (continues : Bool)
    (a a' : Analysis) : Prop extends Evolved L f f a a' where
  self : a'.graph.jumpsTo f f = []
  closes : Tree.Closes (fun i ↦ (a.jump i).destination) f w continues (a.tree f) (a'.tree f)

theorem WellFormed.closeJumps {js : List JumpId} (h : a.WellFormed L) (hf : L f)
    (hT : a.tree f = .node w e (.loop kind c none l) [T]) (hn : js.Nodup)
    (hjs : ∀ j, j ∈ js ↔ j ∈ a.graph.jumpsTo f f) (he : ∀ j ∈ js, e ≠ some j) :
    JumpsClosed L f w (closeJumps f w js a).2 a (closeJumps f w js a).1 ∧
      ∃ l' T', (closeJumps f w js a).1.tree f = .node w e (.loop kind c none l') [T'] := by
  induction js generalizing a l T with
  | nil =>
    refine ⟨⟨.refl h hf, ?_, .refl _⟩, _, _, hT⟩
    rw [List.eq_nil_iff_forall_not_mem]
    exact fun j hj ↦ by simpa using (hjs j).mpr hj
  | cons j js ih =>
    obtain ⟨hj, hn⟩ := List.nodup_cons.mp hn
    have hmem := (hjs j).mp (by simp)
    obtain ⟨h₁, l₁, T₁, hT₁⟩ := h.closeJump hf hT hmem (he j (by simp))
    simp only [Analysis.closeJumps]
    generalize (Analysis.closeJump f w a j).2 = continued at *
    generalize (Analysis.closeJump f w a j).1 = a₁ at *
    obtain ⟨h₂, hT₂⟩ := ih h₁.wellFormed hT₁ hn (fun i ↦ by
      rw [h₁.self, List.mem_filter, ← hjs i, List.mem_cons]
      by_cases hij : i = j <;> simp [hij, hj]) fun i hi ↦ he i (.tail _ hi)
    refine ⟨⟨h₁.toEvolved.trans h₂.toEvolved, h₂.self, ?_⟩, hT₂⟩
    have hcloses := h₂.closes
    simp only [h₁.destination] at hcloses
    exact .step (h.linked.destination hmem) h₁.returns hcloses

end Close

section Split

theorem splitIncrement_cases (a : Analysis) (w : BlockId) : a.splitIncrement w = a ∨
    ∃ c init incr body l expr, a.statement w = .loop .whileLoop c init incr body l ∧
      a.blocks.chainTail body ≠ body ∧ a.jumpOf (a.blocks.chainTail body) = none ∧
      a.statement (a.blocks.chainTail body) = .evaluate expr 0 ∧
      a.splitIncrement w = ((a.removeStatement (a.blocks.chainTail body)).modifyStatement w
        (·.setIncrement (a.blocks.chainTail body))).setOuter (a.blocks.chainTail body) (some w) := by
  rw [Analysis.splitIncrement]
  split
  next tail h =>
    right
    simp only [incrementOf?, Option.bind_eq_bind] at h
    split at h
    next c init incr body l hs =>
      rw [guard_bind_eq_some, Option.bind_eq_some_iff] at h
      obtain ⟨⟨htail, hjump⟩, expr, hexpr, h⟩ := h
      simp only [Option.bind_eq_some_iff] at h
      obtain ⟨-, -, -, -, -, -, h⟩ := h
      cases h
      refine ⟨c, init, incr, body, l, expr, hs, htail, Option.isNone_iff_eq_none.mp hjump, ?_, rfl⟩
      rw [statementExpr?] at hexpr
      split at hexpr
      next x hx => rw [hx, Option.some.inj hexpr]
      next => simp at hexpr
    next => simp at h
  next => exact .inl rfl

/-- What holds once the increment of a loop may have been set apart. -/
structure IncrementSplit (L : FlowId → Prop) (f : FlowId) (w : BlockId) (a a' : Analysis) : Prop where
  wellFormed : a'.WellFormed L
  moves : ∃ T, Moves (fun _ ↦ False) L f T a a'
  graph : a.graph.Keeps a'.graph
  content : a'.content = a.content
  splits : a'.tree f = a.tree f ∨ Tree.Splits w (a.tree f) (a'.tree f)

theorem WellFormed.splitIncrement (h : a.WellFormed L) (hf : L f)
    (hT : a.tree f = .node w e (.loop kind c none l) [T]) :
    IncrementSplit L f w a (a.splitIncrement w) := by
  rcases splitIncrement_cases a w with heq | ⟨c', init, incr, body, l', expr, hs, hne, hjump, hx, heq⟩
  · rw [heq]
    exact ⟨h, ⟨_, (h.planted.unchanged hf).toMoves⟩, .refl _, rfl, .inl rfl⟩
  have hholds := hT ▸ h.planted.holds f hf
  have hbody := hholds.child (c := T) (by simp)
  rw [statement_loop hholds] at hs
  cases hs
  have hn : T.ids.Nodup := Tree.nodup_node (hT ▸ h.planted.nodup f hf)
    (Tree.mem_nodes.mpr (.inr ⟨T, by simp, T.mem_nodes_self⟩))
  obtain ⟨C, s, rfl, hC, hsk, htail⟩ := Blocks.exists_chainTail hbody hn
  rw [htail] at hne hjump hx heq
  cases C with
  | nil => exact absurd rfl hne
  | cons F C =>
    obtain ⟨⟨hFk, hFa, P, hFb⟩, hrest⟩ := List.forall_mem_cons.mp hC
    obtain ⟨q, jq, kq, before, after⟩ := F
    dsimp only at hFk hFa hFb
    subst hFk hFa hFb
    have hT' : a.tree f = plug (C ++ [⟨w, e, .loop .whileLoop c none l, [], []⟩])
        (.node q jq .sequence [P, s]) := by
      rw [hT, plug_append]
      rfl
    obtain ⟨rfl, hP⟩ := h.sequence hf hT'
    have hsat := (h.planted.at_of_plug hf hT').holds.child (c := s) (by simp)
    obtain ⟨x, rfl⟩ : ∃ x, s = .node x none (.evaluate expr 0) [] := by
      have hk := hsat.kind
      have hc := hsat.children
      have hj := hsat.jump
      rw [show a.blocks.statement s.id = _ from hx] at hk hc
      rw [show a.blocks.jump s.id = _ from hjump] at hj
      obtain ⟨x, j, k, l⟩ := s
      exact ⟨x, by simp_all [Statement.kind, Statement.children]⟩
    rw [Tree.id_node] at heq
    obtain ⟨hr₁, -⟩ := h.planted.removeStatement hf hT' (.inr rfl) rfl
    have hloose := h.planted.removeStatement_loose hf hT' (.inr rfl) rfl rfl
    have hheld₁ : ∀ y, y ∈ (plug (C ++ [⟨w, e, .loop .whileLoop c none l, [], []⟩]) P).held ↔
        y ∈ (a.tree f).held := fun y ↦ by
      rw [hT', mem_held_plug, mem_held_plug]
      simp [Tree.held]
    have htidy₁ : (plug (C ++ [⟨w, e, .loop .whileLoop c none l, [], []⟩]) P).Tidy := by
      have htidy := h.tidy f hf
      rw [hT'] at htidy
      exact htidy.plug ((Tree.tidy_node.mp htidy.of_plug).2 P (by simp)) fun hp ↦ absurd rfl hp.2
    have hwf₁ := h.reshapes hr₁ hheld₁ htidy₁
    have hc₁ : (a.removeStatement x).content = a.content := content_removeStatement ..
    have hmem : x ∈ (a.tree f).ids := by
      rw [hT', mem_ids_plug]
      exact .inl (by simp [Tree.ids])
    rw [heq]
    rw [Tree.id_node] at *
    generalize a.removeStatement x = a₁ at *
    rw [plug_append] at htidy₁ hr₁
    have hT₁ : a₁.tree f = plug [] (.node w e (.loop .whileLoop c none l) [plug C P]) := hr₁.tree
    rw [Analysis.modifyStatement, statement_loop (hT₁ ▸ hr₁.planted.holds f hf)]
    have hr₂ := hr₁.planted.adopt
      (s := .loop .possibleFor c none (some x) (plug C P).id l) hf hT₁ hloose rfl
    have hwf₂ := hwf₁.reshapes hr₂ (fun y ↦ ?_) ?_
    · refine ⟨hwf₂, ⟨_, hr₁.toMoves.trans hr₂.toMoves fun b hb ↦ ?_⟩, hr₁.graph.trans hr₂.graph, hc₁,
        .inr ?_⟩
      · obtain rfl : b = x := by simpa [Tree.ids] using hb
        exact .inl hmem
      · rw [hT]
        exact hr₂.tree ▸ .increment hrest
    · rw [hT₁]
      simp [Tree.held]
    · refine Tree.tidy_node.mpr ⟨by simp [Statement.kind], ?_⟩
      simpa using ⟨(Tree.tidy_node.mp htidy₁).2 _ (by simp), Tree.tidy_leaf (by simp)⟩

end Split

section Back

theorem WellFormed.normalizeRootJump (h : a.WellFormed L) (hf : L f) :
    a.normalizeRootJump f = a := by
  have hholds := h.planted.holds f hf
  have hjump : a.jumpOf (a.root f) = (a.tree f).jump := id_tree a f ▸ hholds.jump
  rw [Analysis.normalizeRootJump]
  split
  next j hj =>
    rw [if_neg]
    intro hs
    have hk := (Blocks.isSequence_statement (id_tree a f ▸ hholds.kind)).mp hs
    have := (h.tidy f hf _ (Tree.mem_nodes_self _) hk).1
    simp [← hjump, hj] at this
  next => rfl

/-- The tree of `f` becomes a loop, and no jump is left that leads back to its head unless the test
stands at the top. -/
theorem WellFormed.makeLoop {r : Analysis × BlockId} (h : a.WellFormed L) (hf : L f)
    (hT : (a.tree f).Branching)
    (hr : (a.closeDoWhile f <|> a.closeWhile f).getD (a.closeForever f) = r) :
    ∃ kind, LoopMade L f r.2 kind a r.1 ∧ (kind = .doWhile → r.1.graph.jumpsTo f f = []) := by
  cases hd : a.closeDoWhile f with
  | some r' =>
    obtain rfl : r' = r := by simpa [hd] using hr
    obtain ⟨hm, hself⟩ := h.closeDoWhile hf hT hd
    exact ⟨_, hm, fun _ ↦ hself⟩
  | none =>
    refine ⟨.whileLoop, ?_, by simp⟩
    cases hw : a.closeWhile f with
    | some r' =>
      obtain rfl : r' = r := by simpa [hd, hw] using hr
      exact h.closeWhile hf hw
    | none =>
      obtain rfl : a.closeForever f = r := by simpa [hd, hw] using hr
      exact h.closeForever hf

/-- What holds of the new loop `w` in the place of the tree of `f`. -/
structure LoopedBack (L : FlowId → Prop) (f : FlowId) (w : BlockId) (a a' : Analysis) : Prop
    extends Evolved L f f a a' where
  isNew : a.blocks.size ≤ w.index
  tree : ∃ kind T₁ T₂ continues, Tree.Loops (fun i ↦ (a.jump i).destination) a'.exprs.Negates
      (fun c ↦ a'.exprs.get c = .const (.bool true)) f w kind (a.tree f) T₁ ∧
    Tree.Closes (fun i ↦ (a.jump i).destination) f w continues T₁ T₂ ∧
    (kind = .doWhile → T₂ = T₁) ∧
    (a'.tree f = T₂ ∨ continues = false ∧ Tree.Splits w T₂ (a'.tree f))
  self : a'.graph.jumpsTo f f = []
  growth : (a'.flow f).growth = w

theorem WellFormed.loopBack (h : a.WellFormed L) (hf : L f) (hT : (a.tree f).Branching) :
    LoopedBack L f (a.loopBack f).2 a (a.loopBack f).1 := by
  simp only [Analysis.loopBack, h.normalizeRootJump hf]
  generalize ((a.flow f).edge? f).getD {} = edge
  generalize hr : (a.closeDoWhile f <|> a.closeWhile f).getD (a.closeForever f) = r
  obtain ⟨kind, hm, hdo⟩ := h.makeLoop hf hT hr
  obtain ⟨a₁, w⟩ := r
  dsimp only at *
  obtain ⟨e, c, B, hT₁, hkind⟩ := hm.loops.shape
  have he : ∀ j ∈ a₁.graph.jumpsTo f f, e ≠ some j := by
    intro j hj heq
    rcases hkind with hk | ⟨-, hne⟩
    · rw [hdo hk] at hj
      simp at hj
    · exact hne j heq ((hm.destination j).symm.trans (hm.wellFormed.linked.destination hj))
  obtain ⟨hc, l, T₂, hT₂⟩ := hm.wellFormed.closeJumps hf hT₁
    (hm.wellFormed.linked.nodup_jumpsTo) (fun _ ↦ .rfl) he
  have hskip : kind = .doWhile → (Analysis.closeJumps f w (a₁.graph.jumpsTo f f) a₁).1 = a₁ :=
    fun hk ↦ by rw [hdo hk]; rfl
  generalize (Analysis.closeJumps f w (a₁.graph.jumpsTo f f) a₁).2 = continues at *
  generalize (Analysis.closeJumps f w (a₁.graph.jumpsTo f f) a₁).1 = a₂ at *
  obtain ⟨hm₃, hwf₃, hto₃⟩ := hc.wellFormed.removeEdge hf (hc.wellFormed.planted.live f hf).1 hc.self
  have hev₃ : Evolved L f f a₂ { a₂ with graph := a₂.graph.removeEdge f f } :=
    .of_relink hwf₃ hm₃ (.removeEdge ..) hto₃ (.refl _) (.removeEdge (h.proper f hf) f)
  have hself₃ : (a₂.graph.removeEdge f f).jumpsTo f f = [] := (hto₃ f f).trans hc.self
  have hexprs₃ : Analysis.exprs { a₂ with graph := a₂.graph.removeEdge f f } = a₂.exprs := rfl
  have hgraph₃ : Analysis.graph { a₂ with graph := a₂.graph.removeEdge f f } =
    a₂.graph.removeEdge f f := rfl
  generalize { a₂ with graph := a₂.graph.removeEdge f f } = a₃ at *
  rw [← hgraph₃] at hself₃
  have hT₃ := hm₃.tree.trans hT₂
  obtain ⟨hev₄, hself₄, hexprs₄, htree₄⟩ : Evolved L f f a₃ (if continues then a₃ else
      a₃.splitIncrement w) ∧ (if continues then a₃ else a₃.splitIncrement w).graph.jumpsTo f f = [] ∧
      (if continues then a₃ else a₃.splitIncrement w).exprs = a₃.exprs ∧
      ((if continues then a₃ else a₃.splitIncrement w).tree f = a₃.tree f ∨ continues = false ∧
        Tree.Splits w (a₃.tree f) ((if continues then a₃ else a₃.splitIncrement w).tree f)) := by
    cases continues with
    | true => exact ⟨.refl hwf₃ hf, hself₃, rfl, .inl rfl⟩
    | false =>
      obtain ⟨hwf, ⟨T, hm⟩, hk, hcontent, hsplits⟩ := hwf₃.splitIncrement hf hT₃
      exact ⟨.of_keeps hwf hm hk (.of_eq (congrArg Prod.fst hcontent :)),
        (hk.jumpsTo f f).trans hself₃, (congrArg Prod.fst hcontent :), hsplits.imp_right (⟨rfl, ·⟩)⟩
  generalize (if continues then a₃ else a₃.splitIncrement w) = a₄ at *
  have hmerge := mergeBySlot_eq a₄ (a₄.flow f).reads edge.gen
  rw [← Analysis.mergeBackEdge] at hmerge
  have hblocks₅ : (a₄.mergeBackEdge f edge).blocks = a₄.blocks := by rw [hmerge]
  obtain ⟨hr₅, hwf₅⟩ := hev₄.wellFormed.beside hf hblocks₅ (by rw [hmerge]) (by rw [hmerge]; rfl)
  have hexprs₅ : (a₄.mergeBackEdge f edge).exprs = a₄.exprs := by rw [hmerge]
  clear hmerge
  generalize a₄.mergeBackEdge f edge = a₅ at *
  have hw : w ∈ (a₅.tree f).ids := by
    rw [hr₅.tree]
    rcases htree₄ with ht | ⟨-, ht⟩
    · rw [ht, hT₃]
      simp [Tree.ids]
    · rw [hT₃] at ht
      generalize a₄.tree f = T₄ at *
      cases ht
      simp [Tree.ids]
  obtain ⟨hr₆, hwf₆⟩ := hwf₅.setGrowth hf hw
  have hlt : f.index < a₅.graph.flows.size := (hwf₅.planted.live f hf).1
  have hgrowth : ((a₅.setGrowth f w).flow f).growth = w :=
    growth_setGrowth (hr₆.graph.flows_size.symm ▸ hlt)
  have hev := (hc.toEvolved.trans hev₃).trans (hev₄.trans
    ((Evolved.of_keeps hwf₅ hr₅.toMoves hr₅.graph (.of_eq hexprs₅)).trans
      (.of_keeps hwf₆ hr₆.toMoves hr₆.graph (.refl _))))
  refine ⟨hm.toEvolved.trans hev, hm.isNew, ⟨kind, a₁.tree f, a₂.tree f, continues, ?_, ?_,
    fun hk ↦ by rw [hskip hk], ?_⟩, ?_, hgrowth⟩
  · exact hm.loops.mono (fun _ _ hn ↦ hn.mono hev.exprs) fun _ ht ↦
      hev.exprs.get_eq ht (by simp [default])
  · have hcloses := hc.closes
    simp only [hm.destination] at hcloses
    exact hcloses
  · rw [hr₆.tree, hr₅.tree, ← hm₃.tree]
    exact htree₄
  · rw [hr₆.graph.jumpsTo, hr₅.graph.jumpsTo, hself₄]

end Back

end Analysis

end Decompile
