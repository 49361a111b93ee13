import Decompile.Proofs.Declining
import Decompile.Proofs.Soundness

/-!
The steps that the reduction is made of, each with what makes it apply. Whatever the reduction comes
to from a sound state, it comes to by such steps, and every state on the way is sound.
-/

namespace Decompile

variable {n : Nat}

namespace Blocks

variable {t : Blocks} {o : Option BlockId} {T : Tree} {b c p : BlockId}

theorem Holds.mem_ids_child (h : t.Holds o T) (hp : p ∈ T.ids)
    (hc : c ∈ (t.statement p).children) : c ∈ T.ids := by
  obtain ⟨s, hs, rfl⟩ := Tree.mem_ids.mp hp
  obtain ⟨_, hholds⟩ := h.of_mem hs
  rw [hholds.children] at hc
  obtain ⟨x, hx, rfl⟩ := List.mem_map.mp hc
  exact Tree.ids_subset hs (Tree.mem_ids.mpr ⟨x, Tree.mem_nodes.mpr
    (.inr ⟨x, hx, Tree.mem_nodes_self x⟩), rfl⟩)

theorem Holds.mem_ids_outer (h : t.Holds none T) (hn : T.ids.Nodup) (hb : b ∈ T.ids)
    (hp : t.outer b = some p) : p ∈ T.ids := by
  obtain ⟨C, B, rfl, rfl⟩ := exists_plug_of_id hb
  obtain ⟨F, C', rfl, rfl⟩ := (At.of_holds h hn).outer_frame hp
  rw [plug_cons, mem_ids_plug]
  exact .inl (F.id_fill B ▸ Tree.id_mem_ids _)

theorem Holds.mem_ids_ancestors (h : t.Holds none T) (hn : T.ids.Nodup) (hb : b ∈ T.ids)
    (hp : p ∈ t.ancestorsWithin n b) : p ∈ T.ids := by
  induction n generalizing b with
  | zero => cases hp
  | succ n ih =>
    rw [ancestorsWithin] at hp
    cases ho : t.outer b with
    | none => simp [ho] at hp
    | some q =>
      have hq := h.mem_ids_outer hn hb ho
      simp only [ho, List.mem_cons] at hp
      rcases hp with rfl | hp
      · exact hq
      · exact ih hq hp

theorem Holds.mem_ids_below (h : t.Holds o T) (hl : t.Linked) (hp : p ∈ t.ancestorsWithin n b)
    (hT : p ∈ T.ids) : b ∈ T.ids := by
  induction n generalizing b with
  | zero => cases hp
  | succ n ih =>
    rw [ancestorsWithin] at hp
    cases ho : t.outer b with
    | none => simp [ho] at hp
    | some q =>
      simp only [ho, List.mem_cons] at hp
      refine h.mem_ids_child ?_ (hl b q ho)
      rcases hp with rfl | hp
      · exact hT
      · exact ih hp

theorem Holds.mem_ids_of_isWithin (h : t.Holds o T) (hl : t.Linked)
    (hb : t.isWithin b T.id = true) : b ∈ T.ids := by
  rw [isWithin, Bool.or_eq_true, beq_iff_eq, List.contains_iff_mem] at hb
  rcases hb with rfl | hb
  · exact T.id_mem_ids
  · exact h.mem_ids_below hl hb T.id_mem_ids

theorem Holds.mem_ids_next (h : t.Holds none T) (hn : T.ids.Nodup) (hb : b ∈ T.ids)
    (hp : t.nextStatement b = some p) : p ∈ T.ids := by
  obtain ⟨q, hq, hp⟩ := Option.bind_eq_some_iff.mp hp
  have hmem := h.mem_ids_outer hn hb hq
  split at hp
  next first second hs =>
    have hsecond : second ∈ T.ids := h.mem_ids_child hmem (by simp [hs, Statement.children])
    split at hp
    · split at hp
      next next _ hs' =>
        obtain rfl : next = p := by simpa using hp
        exact h.mem_ids_child hsecond (by simp [hs', Statement.children])
      next =>
        obtain rfl : second = p := by simpa using hp
        exact hsecond
    · simp at hp
  next => simp at hp

end Blocks

namespace Analysis

variable {a a' : Analysis} {f s : FlowId} {w c b : BlockId} {j : JumpId}

/-- The case `c` of a switch of `f`, still a bare jump, can take in the tree of `s`. What else jumps
there falls in from the end of the case before. -/
structure CaseReady (a : Analysis) (f s : FlowId) (w c b : BlockId) (j : JumpId) : Prop where
  mem : w ∈ (a.tree f).ids
  pending : a.pendingCase? c = some (b, j, s)
  ne : s ≠ f
  pred : (a.flow s).predecessors = [f]
  cases : ∃ selector before after labeled,
    a.statement w = .switch selector (before ++ c :: after) labeled ∧
      ∀ i ∈ a.graph.jumpsTo f s, i ≠ j →
        ∃ p ∈ before.getLast?, a.blocks.fallsToEndOf (a.jump i).source p = true

/-- One step of the reduction. -/
inductive Step (a : Analysis) : Analysis → Prop
  | tick : Step a { a with fuel := a.fuel - 1 }
  | check : Step a a.checkpoint
  | join {f s : FlowId} : a.Live f → a.Live s → f ≠ s → (a.flow s).predecessors = [f] →
    Step a (a.joinSuccessor f s).1
  | loop {f : FlowId} : a.Live f → f ∈ (a.flow f).predecessors → Step a (a.loopBack f).1
  | merge {f s : FlowId} {w c b : BlockId} {j : JumpId} : a.Live f → a.Live s →
    a.CaseReady f s w c b j →
    Step a (a.mergeCase f w c b j s ((a.graph.jumpsTo f s).filter (· ≠ j)))
  | fold {f : FlowId} {b : BlockId} {rule : Rule} {r : Analysis × BlockId} : a.Live f →
    b ∈ (a.tree f).ids → rule ∈ Rule.early → rule.apply a b = some r →
    Step a { r.1 with applied := r.1.applied + 1 }

variable {before after : List BlockId} {g : FlowId}

section Case

variable {selector : ExprId} {cases : List BlockId} {labeled : Bool}

theorem pendingCase?_eq {x : BlockId × JumpId × FlowId} :
    a.pendingCase? c = some x ↔ ∃ v through, a.statement c = .switchCase v x.1 through ∧
      a.statement x.1 = .empty ∧ a.jumpOf x.1 = some x.2.1 ∧ (a.jump x.2.1).destination = x.2.2 := by
  obtain ⟨b, j, s⟩ := x
  rw [pendingCase?]
  split
  next v body through hs =>
    rw [Option.bind_eq_bind, guard_bind_eq_some]
    simp only [Option.bind_eq_bind, Option.bind_eq_some_iff, Option.pure_def, Option.some.injEq,
      Prod.mk.injEq, hs, Statement.switchCase.injEq]
    constructor
    · rintro ⟨he, j', hj, rfl, rfl, rfl⟩
      exact ⟨v, through, ⟨rfl, rfl, rfl⟩, he, hj, rfl⟩
    · rintro ⟨_, _, ⟨rfl, rfl, rfl⟩, he, hj, rfl⟩
      exact ⟨he, j, hj, rfl, rfl, rfl⟩
  next hs =>
    simp only [reduceCtorEq, false_iff]
    rintro ⟨v, through, hs', -⟩
    exact hs _ _ _ hs'

theorem destination_of_pendingCase? (h : a.pendingCase? c = some (b, j, s)) :
    (a.jump j).destination = s := by
  obtain ⟨-, -, -, -, -, hd⟩ := pendingCase?_eq.mp h
  exact hd

variable (h : a.Sound) (hf : a.Live f)
include h hf

/-- The tree around a case that still is a bare jump. -/
theorem Sound.exists_case (hw : w ∈ (a.tree f).ids)
    (hs : a.statement w = .switch selector (before ++ c :: after) labeled)
    (hp : a.pendingCase? c = some (b, j, s)) :
    ∃ C e bs as v through, a.tree f = plug C (.node w e (.switch selector labeled)
        (bs ++ .node c none (.switchCase v through) [.node b (some j) .empty []] :: as)) ∧
      bs.map Tree.id = before := by
  obtain ⟨C, ⟨i, e, k, l⟩, hT, hi⟩ := exists_plug_of_id hw
  obtain rfl : i = w := hi
  have hat := h.wellFormed.planted.at_of_plug hf hT
  obtain rfl : Kind.switch selector labeled = k :=
    (congrArg Statement.kind hs).symm.trans hat.holds.kind
  have hl : before ++ c :: after = l.map Tree.id :=
    (congrArg Statement.children hs).symm.trans hat.holds.children
  obtain ⟨bs, l', rfl, hbs, hl'⟩ := List.map_eq_append_iff.mp hl.symm
  obtain ⟨X, as, rfl, hX, -⟩ := List.map_eq_cons_iff.mp hl'
  have ho := h.orderly f hf
  rw [hT] at ho
  obtain ⟨i, v, through, x, rfl⟩ := (Tree.orderly_node.mp ho.of_plug).1.1 rfl X (by simp)
  obtain rfl : i = c := hX
  obtain ⟨v', through', hc, hempty, hjump, -⟩ := pendingCase?_eq.mp hp
  have hcase := hat.holds.child (c := .node i none (.switchCase v through) [x]) (by simp)
  obtain rfl : b = x.id := by
    have := (congrArg Statement.children hc).symm.trans hcase.children
    simpa [Statement.children] using this
  have hx := hcase.child (c := x) (by simp)
  obtain ⟨hk, hch⟩ := (statement_eq_empty hx).mp hempty
  have hj := hx.jump.symm.trans hjump
  obtain ⟨b, _, _, _⟩ := x
  obtain rfl : _ = Kind.empty := hk
  obtain rfl : _ = [] := hch
  obtain rfl : _ = some j := hj
  exact ⟨C, e, bs, as, v, through, hT, hbs⟩

theorem Sound.hasSwitch (hw : w ∈ (a.tree f).ids)
    (hs : a.statement w = .switch selector cases labeled) : (a.tree f).HasSwitch w cases := by
  obtain ⟨N, hN, rfl⟩ := Tree.mem_ids.mp hw
  obtain ⟨o, hholds⟩ := (h.wellFormed.planted.holds f hf).of_mem hN
  refine ⟨N, hN, rfl, ?_, hholds.children.symm.trans (congrArg Statement.children hs)⟩
  rw [← hholds.kind]
  exact congrArg (·.kind.isSwitch) hs

theorem Sound.of_hasSwitch (hw : (a.tree f).HasSwitch w cases) :
    w ∈ (a.tree f).ids ∧ ∃ selector labeled, a.statement w = .switch selector cases labeled := by
  obtain ⟨N, hN, rfl, hk, rfl⟩ := hw
  obtain ⟨o, hholds⟩ := (h.wellFormed.planted.holds f hf).of_mem hN
  refine ⟨Tree.mem_ids.mpr ⟨N, hN, rfl⟩, ?_⟩
  have hch := hholds.children
  rw [← hholds.kind, Statement.isSwitch_kind] at hk
  rw [statement]
  cases hs : a.blocks.statement N.id with
  | switch selector cs labeled =>
    rw [hs] at hch
    exact ⟨selector, labeled, congrArg (Statement.switch selector · labeled) hch⟩
  | _ => simp [hs, Statement.isSwitch] at hk

theorem Sound.pends (hw : w ∈ (a.tree f).ids) (hs : a.statement w = .switch selector cases labeled)
    (hc : c ∈ cases) (hp : a.pendingCase? c = some (b, j, s)) : (a.tree f).Pends j w cases c b := by
  obtain ⟨before, after, rfl⟩ := List.append_of_mem hc
  obtain ⟨C, e, bs, as, v, through, hT, rfl⟩ := h.exists_case hf hw hs hp
  have hat := h.wellFormed.planted.at_of_plug hf hT
  refine ⟨_, hT ▸ mem_nodes_plug, rfl, rfl, ?_, _, by simp, v, through, rfl⟩
  exact hat.holds.children.symm.trans (congrArg Statement.children hs)

theorem Sound.of_pends (hp : (a.tree f).Pends j w cases c b) :
    (a.tree f).HasSwitch w cases ∧
      a.pendingCase? c = some (b, j, (a.jump j).destination) := by
  obtain ⟨N, hN, rfl, hk, hc, X, hX, v, through, rfl⟩ := hp
  obtain ⟨o, hholds⟩ := (h.wellFormed.planted.holds f hf).of_mem hN
  refine ⟨⟨N, hN, rfl, hk, hc⟩, pendingCase?_eq.mpr ⟨v, through, ?_⟩⟩
  have hX' := hholds.child hX
  have hb := hX'.child (c := .node b (some j) .empty []) (by simp)
  exact ⟨Statement.ext_kind hX'.kind hX'.children, (statement_eq_empty hb).mpr ⟨rfl, rfl⟩,
    hb.jump, rfl⟩

/-- The case takes in the tree of `s`, and only a check follows. -/
theorem CaseReady.merged (hr : a.CaseReady f s w c b j) (hs : a.Live s) :
    ∃ a', CaseMerged a.Live f s w a a' ∧
      a.mergeCase f w c b j s ((a.graph.jumpsTo f s).filter (· ≠ j)) = a'.checkpoint := by
  obtain ⟨selector, before, after, labeled, hsw, hfalls⟩ := hr.cases
  obtain ⟨C, e, bs, as, v, through, hT, rfl⟩ := h.exists_case hf hr.mem hsw hr.pending
  have hdest := destination_of_pendingCase? hr.pending
  have hwf := h.wellFormed
  have hj : j ∈ a.graph.jumpsTo f s := by
    have := hwf.jumpsTo_of_held (b := b) (j := j) hf (by
      rw [hT, mem_held_plug]
      exact .inl (by simp [Tree.held]))
    rwa [hdest] at this
  by_cases hnil : (a.graph.jumpsTo f s).filter (· ≠ j) = []
  · obtain ⟨a', hc, heq⟩ := hwf.mergeCase_alone hf hs hr.ne.symm hr.pred hT fun i ↦ by
      constructor
      · intro hi
        simpa using List.filter_eq_nil_iff.mp hnil i hi
      · rintro rfl
        exact hj
    exact ⟨a', hc, hnil ▸ heq⟩
  · obtain ⟨i, hi⟩ := List.exists_mem_of_ne_nil _ hnil
    have hmem' : ∀ i, i ∈ (a.graph.jumpsTo f s).filter (· ≠ j) ↔ i ∈ a.graph.jumpsTo f s ∧ i ≠ j :=
      fun i ↦ by simp
    obtain ⟨p, hp, -⟩ := hfalls i ((hmem' i).mp hi).1 ((hmem' i).mp hi).2
    -- The case before this one is part of the same switch.
    obtain ⟨bs', hbs⟩ := List.getLast?_eq_some_iff.mp hp
    obtain ⟨bs, l, rfl, rfl, hl⟩ := List.map_eq_append_iff.mp hbs
    obtain ⟨X, l, rfl, hX, hnil'⟩ := List.map_eq_cons_iff.mp hl
    obtain rfl := List.map_eq_nil_iff.mp hnil'
    have ho := h.orderly f hf
    rw [hT] at ho
    obtain ⟨i, u, into, P, rfl⟩ := (Tree.orderly_node.mp ho.of_plug).1.1 rfl X (by simp)
    obtain rfl : i = p := hX
    rw [List.append_assoc] at hT
    obtain ⟨a', hc, heq⟩ := hwf.mergeCase_fallIn hf hs hr.ne.symm hr.pred hT hmem'
      (hwf.linked.toChained.nodup_jumpsTo.filter _) hnil hj fun k hk ↦ by
        obtain ⟨p', hp', hk⟩ := hfalls k ((hmem' k).mp hk).1 ((hmem' k).mp hk).2
        rw [hp] at hp'
        exact Option.mem_some_iff.mp hp' ▸ hk
    exact ⟨a', hc, heq⟩

theorem CaseMerged.hasSwitch {cases : List BlockId} (hc : CaseMerged a.Live f s w a a')
    (hs : a.Live s) (hw : (a.tree f).HasSwitch w cases) : (a'.tree f).HasSwitch w cases :=
  (hc.merges.upholds (h.orderly f hf) (h.orderly s hs)).switches w cases hw

theorem CaseReady.mem_merged (hr : a.CaseReady f s w c b j) (hs : a.Live s)
    (hc : CaseMerged a.Live f s w a a') : w ∈ (a'.tree f).ids := by
  obtain ⟨_, _, _, _, hsw, -⟩ := hr.cases
  obtain ⟨N, hN, hid, -⟩ := hc.hasSwitch h hf hs (h.hasSwitch hf hr.mem hsw)
  exact Tree.mem_ids.mpr ⟨N, hN, hid⟩

end Case

section Check

theorem checkpoint_eq (a : Analysis) : ∃ e, a.checkpoint = { a with broken := e } := by
  rw [checkpoint]
  split
  · split
    · exact ⟨a.broken, rfl⟩
    · exact ⟨_, rfl⟩
  · exact ⟨a.broken, rfl⟩

@[simp] theorem graph_checkpoint (a : Analysis) : a.checkpoint.graph = a.graph := by
  obtain ⟨e, he⟩ := checkpoint_eq a
  rw [he]

@[simp] theorem blocks_checkpoint (a : Analysis) : a.checkpoint.blocks = a.blocks := by
  obtain ⟨e, he⟩ := checkpoint_eq a
  rw [he]

@[simp] theorem flow_checkpoint (a : Analysis) (g : FlowId) : a.checkpoint.flow g = a.flow g :=
  congrArg (·.flow g) (graph_checkpoint a)

@[simp] theorem jump_checkpoint (a : Analysis) (j : JumpId) : a.checkpoint.jump j = a.jump j :=
  congrArg (·.jump j) (graph_checkpoint a)

@[simp] theorem live_checkpoint : a.checkpoint.Live g ↔ a.Live g := by
  rw [Live, graph_checkpoint, flow_checkpoint, Live]

@[simp] theorem tree_checkpoint (a : Analysis) (g : FlowId) : a.checkpoint.tree g = a.tree g := by
  rw [tree, blocks_checkpoint, root, flow_checkpoint, tree, root]

theorem Sound.checkpoint (h : a.Sound) : a.checkpoint.Sound := by
  obtain ⟨e, he⟩ := checkpoint_eq a
  rw [he]
  exact h.congr rfl rfl rfl rfl

end Check

section Steps

theorem Step.sound (h : a.Sound) (hs : Step a a') : a'.Sound := by
  cases hs with
  | tick => exact h.congr rfl rfl rfl rfl
  | check => exact h.checkpoint
  | join hf hs hfs hpred =>
    exact (h.wellFormed.joinSuccessor hf hs hfs hpred).sound h hf hs hfs hpred
  | loop hf _ => exact (h.wellFormed.loopBack hf (h.orderly _ hf).branching).sound h hf
  | merge hf hs hr =>
    obtain ⟨a', hc, heq⟩ := hr.merged h hf hs
    exact heq ▸ (hc.sound h hf hs hr.ne.symm hr.pred (hr.mem_merged h hf hs hc)).checkpoint
  | fold hf hb _ hr =>
    exact ((h.wellFormed.apply hf hb hr).toFolded.sound h hf).congr rfl rfl rfl rfl

theorem Step.live (h : a.Sound) (hs : Step a a') (hg : a'.Live g) : a.Live g := by
  cases hs with
  | tick => exact hg
  | check => exact live_checkpoint.mp hg
  | join hf hs hfs hpred =>
    exact (((h.wellFormed.joinSuccessor hf hs hfs hpred).live g).mp hg).1
  | loop hf _ =>
    obtain ⟨T, hm⟩ := (h.wellFormed.loopBack hf (h.orderly _ hf).branching).moves
    exact (hm.live g).mp hg
  | merge hf hs hr =>
    obtain ⟨a', hc, heq⟩ := hr.merged h hf hs
    rw [heq, live_checkpoint] at hg
    exact ((hc.live g).mp hg).1
  | fold hf hb _ hr =>
    obtain ⟨T, hm⟩ := (h.wellFormed.apply hf hb hr).moves
    exact (hm.live g).mp hg

theorem Merged.pends {cases : List BlockId} (hm : Merged a.Live f s a a')
    (hu : Tree.Upholds (fun j ↦ (a.jump j).destination ≠ s) (a.tree f) (a'.tree f))
    (hg : a'.Live g) (hd : a'.Live (a.jump j).destination) (hp : (a.tree g).Pends j w cases c b) :
    (a'.tree g).Pends j w cases c b := by
  obtain ⟨hg, hgs⟩ := (hm.live g).mp hg
  by_cases hgf : g = f
  · subst hgf
    exact hu.pends j ((hm.live _).mp hd).2 w cases c b hp
  · rwa [hm.other g hg hgf hgs]

/-- A case keeps waiting for its target as long as the two flow blocks live. -/
theorem Step.pends {cases : List BlockId} (h : a.Sound) (hs : Step a a') (hf : a'.Live f)
    (hd : a'.Live (a.jump j).destination) (hne : (a.jump j).destination ≠ f)
    (hp : (a.tree f).Pends j w cases c b) :
    (a'.tree f).Pends j w cases c b ∧ (a'.jump j).destination = (a.jump j).destination := by
  cases hs with
  | tick => exact ⟨hp, rfl⟩
  | check =>
    rw [tree_checkpoint, jump_checkpoint]
    exact ⟨hp, rfl⟩
  | join hf' hs hfs hpred =>
    have hj := h.wellFormed.joinSuccessor hf' hs hfs hpred
    exact ⟨hj.pends (hj.upholds h hf' hs) hf hd hp, hj.destination j⟩
  | @loop f' hf' _ =>
    have hl := h.wellFormed.loopBack hf' (h.orderly _ hf').branching
    refine ⟨?_, hl.destination j⟩
    obtain ⟨T, hm⟩ := hl.moves
    by_cases hff : f = f'
    · subst hff
      exact (hl.upholds h hf').pends j hne w cases c b hp
    · rwa [hm.other f ((hm.live f).mp hf) hff]
  | merge hf' hs hr =>
    obtain ⟨a', hc, heq⟩ := hr.merged h hf' hs
    rw [heq, live_checkpoint] at hf hd
    rw [heq, tree_checkpoint, jump_checkpoint]
    exact ⟨hc.pends (hc.merges.upholds (h.orderly _ hf') (h.orderly _ hs)) hf hd hp,
      hc.destination j⟩
  | @fold f' x rule r hf' hb _ hr =>
    have hr := (h.wellFormed.apply hf' hb hr).toFolded
    refine ⟨?_, hr.thinned.destination j⟩
    obtain ⟨T, hm⟩ := hr.moves
    change (r.1.tree f).Pends j w cases c b
    by_cases hff : f = f'
    · subst hff
      exact (hr.folds.upholds (J := fun _ ↦ True) (h.orderly f hf')).pends j trivial w cases c b hp
    · rwa [hm.other f ((hm.live f).mp hf) hff]

end Steps

/-- One state comes from another by steps of the reduction. -/
def Reduces : Analysis → Analysis → Prop := Relation.ReflTransGen Step

namespace Reduces

theorem sound (h : a.Sound) (hr : Reduces a a') : a'.Sound := by
  induction hr with
  | refl => exact h
  | tail _ hs ih => exact hs.sound ih

theorem live (h : a.Sound) (hr : Reduces a a') (hf : a'.Live f) : a.Live f := by
  induction hr with
  | refl => exact hf
  | tail hr hs ih => exact ih (hs.live (Reduces.sound h hr) hf)

theorem pends {cases : List BlockId} (h : a.Sound) (hr : Reduces a a') (hf : a'.Live f)
    (hd : a'.Live (a.jump j).destination) (hne : (a.jump j).destination ≠ f)
    (hp : (a.tree f).Pends j w cases c b) :
    (a'.tree f).Pends j w cases c b ∧ (a'.jump j).destination = (a.jump j).destination := by
  induction hr with
  | refl => exact ⟨hp, rfl⟩
  | tail hr hs ih =>
    have h' := Reduces.sound h hr
    obtain ⟨hp', hd'⟩ := ih (hs.live h' hf) (hs.live h' hd)
    rw [← hd'] at hd hne ⊢
    exact hs.pends h' hf hd hne hp'

theorem step {a'' : Analysis} (hr : Reduces a a') (hs : Step a' a'') : Reduces a a'' := .tail hr hs

end Reduces

section Fold

theorem inWindow_eq_true {x : Flow} {w : Window} : x.inWindow w = true ↔
    (x.alive = true ∧ w.start ≤ x.addr) ∧ x.addr < w.stop := by simp [Flow.inWindow]

theorem live_of_inWindow {w : Window} (hlt : f.index < a.graph.flows.size)
    (h : (a.flow f).inWindow w = true) : a.Live f :=
  ⟨hlt, (inWindow_eq_true.mp h).1.1⟩

theorem exists_of_applyFirst {rules : List Rule} {r : Analysis × BlockId}
    (h : a.applyFirst rules b = some r) : ∃ rule ∈ rules, ∃ r', rule.apply a b = some r' ∧
      r = ({ r'.1 with applied := r'.1.applied + 1 }, r'.2) := by
  rw [applyFirst, Option.map_eq_some_iff] at h
  obtain ⟨r', hr', rfl⟩ := h
  obtain ⟨rule, hrule, hr'⟩ := List.exists_of_findSome?_eq_some hr'
  exact ⟨rule, hrule, r', hr', rfl⟩

theorem tick_eq_some (h : a.tick = some a') : a' = { a with fuel := a.fuel - 1 } := by
  rw [tick] at h
  split at h
  · cases h
  · exact (Option.some.inj h).symm

theorem Step.of_tick (h : a.tick = some a') : Step a a' := tick_eq_some h ▸ .tick

theorem Sound.foldWithin (h : a.Sound) (hf : a.Live f) (hb : b ∈ (a.tree f).ids) :
    Reduces a (foldWithin n b a) := by
  induction n generalizing a b with
  | zero => exact .refl
  | succ n ih =>
    rw [Analysis.foldWithin]
    split
    · exact .refl
    next a₁ ha =>
      have hs := Step.of_tick ha
      have h₁ := hs.sound h
      replace hf : a₁.Live f := tick_eq_some ha ▸ hf
      replace hb : b ∈ (a₁.tree f).ids := tick_eq_some ha ▸ hb
      refine .head hs ?_
      split
      next x a₂ hr =>
        obtain ⟨rule, hrule, r', hr', heq⟩ := exists_of_applyFirst (applyFirst_of_applyRules hr)
        have hfold := h₁.wellFormed.apply hf hb hr'
        obtain ⟨T, hm⟩ := hfold.moves
        have hs' := Step.fold hf hb hrule hr'
        cases heq
        exact .head hs' (ih (hs'.sound h₁) ((hm.live f).mpr hf) hfold.mem)
      next a₂ hr =>
        obtain rfl := (declined_of_applyRules hr).2
        have hp := h₁.wellFormed.planted
        split
        next x hx =>
          refine ih h₁ hf ?_
          rcases (Option.orElse_eq_some ..).mp hx with hx | ⟨-, hx⟩
          · exact (hp.holds f hf).mem_ids_next (hp.nodup f hf) hb hx
          · exact (hp.holds f hf).mem_ids_ancestors (hp.nodup f hf) hb (List.mem_of_find?_eq_some hx)
        · exact .refl

theorem Sound.foldFrom (h : a.Sound) (hf : a.Live f) (start : BlockId) :
    Reduces a (a.foldFrom f start) := by
  have hp := h.wellFormed.planted
  refine h.foldWithin hf ?_
  split
  next hw =>
    refine (hp.holds f hf).mem_ids_of_isWithin hp.linked ?_
    rwa [id_tree]
  next => exact id_tree a f ▸ Tree.id_mem_ids _

theorem Sound.appendSuccessor (h : a.Sound) (hf : a.Live f) (hs : a.Live s) (hfs : f ≠ s)
    (hpred : (a.flow s).predecessors = [f]) : Reduces a (a.appendSuccessor f s) := by
  have hs₁ : Step a (a.joinSuccessor f s).1 := .join hf hs hfs hpred
  have h₁ := hs₁.sound h
  have hf₁ : (a.joinSuccessor f s).1.Live f :=
    ((h.wellFormed.joinSuccessor hf hs hfs hpred).live f).mpr ⟨hf, hfs⟩
  exact .head hs₁ (.head .check (h₁.checkpoint.foldFrom (live_checkpoint.mpr hf₁) _))

theorem Sound.closeLoop {w : Window} (h : a.Sound) (hf : f.isSentinel = false)
    (hc : a.closeLoop f w = some a') : Reduces a a' := by
  rw [Analysis.closeLoop] at hc
  split at hc
  next hhead =>
    rw [isLoopHead, Bool.and_eq_true, List.contains_iff_mem] at hhead
    have hlive := h.live_pred hhead.1 hf
    have hs₁ : Step a (a.loopBack f).1 := .loop hlive hhead.1
    have h₁ := hs₁.sound h
    have hf₁ : (a.loopBack f).1.Live f := by
      obtain ⟨T, hm⟩ := (h.wellFormed.loopBack hlive (h.orderly _ hlive).branching).moves
      exact (hm.live f).mpr hlive
    obtain rfl := Option.some.inj hc
    exact .head hs₁ (.head .check (h₁.checkpoint.foldFrom (live_checkpoint.mpr hf₁) _))
  next => cases hc

end Fold

section Reduction

variable {reduce : FlowId → Window → Analysis → Analysis × Bool}

variable {win : Window}

theorem Sound.live_of_inWindow (h : a.Sound)
    (hd : (a.flow (a.jump j).destination).inWindow win = true) : a.Live (a.jump j).destination :=
  Analysis.live_of_inWindow (h.wellFormed.range j) hd

/-- Whatever `reduce` comes to from a sound state, it comes to by steps of the reduction. -/
def Stepwise (reduce : FlowId → Window → Analysis → Analysis × Bool) : Prop :=
  ∀ f w a, Sound a → f.isSentinel = false → Reduces a (reduce f w a).1

theorem Sound.caseReady (h : a.Sound) (hr : Reduces a a') (hf : a'.Live f) (hs : a'.Live s)
    (hsf : s ≠ f) (hsw : (a.tree f).HasSwitch w (before ++ c :: after))
    (hp : a.pendingCase? c = some (b, j, s)) (hpred : (a'.flow s).predecessors = [f])
    (hfalls : ∀ i ∈ a'.graph.jumpsTo f s, i ≠ j → ∃ p ∈ before.getLast?, a'.blocks.fallsToEndOf (a'.jump i).source p = true) :
    a'.CaseReady f s w c b j ∧ (a'.tree f).HasSwitch w (before ++ c :: after) := by
  have hf₀ := hr.live h hf
  obtain ⟨hw, selector, labeled, hst⟩ := h.of_hasSwitch hf₀ hsw
  obtain rfl := destination_of_pendingCase? hp
  obtain ⟨hp', hd⟩ := hr.pends h hf hs hsf (h.pends hf₀ hw hst (by simp) hp)
  obtain ⟨hsw', hpend⟩ := (hr.sound h).of_pends hf hp'
  obtain ⟨hw', selector', labeled', hst'⟩ := (hr.sound h).of_hasSwitch hf hsw'
  exact ⟨⟨hw', hd ▸ hpend, hsf, hpred, selector', before, after, labeled', hst', hfalls⟩, hsw'⟩

theorem Sound.mergeCases (hr : Stepwise reduce) (hf : f.isSentinel = false) {rest : List BlockId}
    {changed : Bool} (h : a.Sound) (hsw : a.Live f → (a.tree f).HasSwitch w (before ++ rest)) :
    Reduces a (mergeCases reduce f win w rest before.getLast? changed a).1 := by
  induction rest generalizing before changed a with
  | nil => exact .refl
  | cons c rest ih =>
    have hlast : some c = (before ++ [c]).getLast? := by simp
    have hsplit : before ++ c :: rest = (before ++ [c]) ++ rest := by simp
    rw [Analysis.mergeCases]
    split
    next =>
      rw [hlast]
      exact ih h (hsplit ▸ hsw)
    next b j s hp =>
      split
      · exact .refl
      next hs =>
        obtain ⟨hsf, hwin⟩ : s ≠ f ∧ (a.flow s).inWindow win = true := by simpa using hs
        have hsent : s.isSentinel = false := by
          obtain rfl := destination_of_pendingCase? hp
          exact h.wellFormed.proper _ (h.live_of_inWindow hwin)
        extract_lets addr
        have hred := hr s ⟨addr, a.caseBoundary rest addr win.stop⟩ a h hsent
        generalize reduce s ⟨addr, a.caseBoundary rest addr win.stop⟩ a = r at hred ⊢
        obtain ⟨a', reduced⟩ := r
        have h' : a'.Sound := hred.sound h
        dsimp only at hred ⊢
        split
        next hguard =>
          obtain ⟨-, hpred, hfell⟩ := hguard
          have hpf : f ∈ (a'.flow s).predecessors := by simp [hpred]
          have hf' := h'.live_pred hpf hf
          have hs' := h'.live_of_pred hpf hf hsent
          have hfalls : ∀ i ∈ a'.graph.jumpsTo f s, i ≠ j → ∃ p ∈ before.getLast?,
              a'.blocks.fallsToEndOf (a'.jump i).source p = true := fun i hi hij ↦ by
            have := List.all_eq_true.mp hfell i (by simpa using ⟨hi, hij⟩)
            rwa [Option.any_eq_true] at this
          obtain ⟨hready, hsw'⟩ := h.caseReady hred hf' hs' hsf (hsw (hred.live h hf')) hp hpred hfalls
          have hstep := Step.merge hf' hs' hready
          obtain ⟨a'', hm, heq⟩ := hready.merged h' hf' hs'
          refine (hred.step hstep).trans ?_
          rw [hlast]
          refine ih (hstep.sound h') fun _ ↦ ?_
          rw [heq, tree_checkpoint, ← hsplit]
          exact hm.hasSwitch h' hf' hs' hsw'
        next => exact hred

theorem Sound.mergeSwitch (hr : Stepwise reduce) (hf : f.isSentinel = false) (h : a.Sound) :
    Reduces a (a.mergeSwitch reduce f win).1 := by
  rw [Analysis.mergeSwitch]
  split
  next selector cases labeled hs =>
    have hsw (hl : a.Live f) : (a.tree f).HasSwitch (a.flow f).growth ([] ++ cases) :=
      h.hasSwitch hl (h.grows f hl (by simp [hs, Statement.isSwitch])) hs
    exact h.mergeCases hr hf hsw
  next => exact .refl

/-- Relates the states before and after a reduction of `f` in its window: what holds of the steps of
a round holds of the rounds together. A successor comes from the state in which the round began. -/
structure Rounds (R : FlowId → Window → Analysis → Analysis → Prop) : Prop where
  refl : ∀ f w a, R f w a a
  trans : ∀ {f w a a' a''}, R f w a a' → R f w a' a'' → R f w a a''
  tick : ∀ {f w a a'}, a.tick = some a' → R f w a a'
  switch : ∀ n f w a, (∀ s v b, R s v b (reduceWithin n false s v b).1) →
    R f w a (a.mergeSwitch (reduceWithin n false) f w).1
  loop : ∀ {f w a a'}, a.closeLoop f w = some a' → R f w a a'
  append : ∀ {f w a a' s}, s ∈ a.graph.keys f → s ≠ f → (a.flow s).inWindow w = true → R f w a a' →
    ((a'.flow s).addr = (a'.flow f).stop ∨ (a'.flow s).stop = (a'.flow f).addr) →
    (a'.flow s).predecessors = [f] → R f w a (a'.appendSuccessor f s)
  inner : ∀ {f w a a' s} n stop, s ∈ a.graph.keys f → s ≠ f → (a.flow s).inWindow w = true →
    R f w a a' → (a'.flow f).stop ≤ (a'.flow s).addr →
    R s ⟨(a'.flow f).stop, stop⟩ a' (reduceWithin n false s ⟨(a'.flow f).stop, stop⟩ a').1 →
    R f w a (reduceWithin n false s ⟨(a'.flow f).stop, stop⟩ a').1

namespace Rounds

variable {R : FlowId → Window → Analysis → Analysis → Prop} (h : Rounds R)
include h

theorem growOnce {n : Nat} (hr : ∀ s v b, R s v b (reduceWithin n false s v b).1)
    {succs : List FlowId} (hs : succs ⊆ (a.graph.successorsOf f).filter fun s ↦
      s ≠ f && (a.flow s).inWindow win) (ha : R f win a a') :
    R f win a (a'.growOnce (reduceWithin n false) f win.stop succs).1 := by
  induction succs generalizing a' with
  | nil => exact ha
  | cons s rest ih =>
    obtain ⟨hmem, hrest⟩ := List.cons_subset.mp hs
    obtain ⟨hkey, hsf, hwin⟩ : s ∈ a.graph.keys f ∧ s ≠ f ∧ (a.flow s).inWindow win = true := by
      rwa [List.mem_filter, Bool.and_eq_true, decide_eq_true_eq, FlowGraph.successorsOf,
        List.mem_mergeSort] at hmem
    rw [Analysis.growOnce]
    split
    next hguard =>
      dsimp only
      exact h.append hkey hsf hwin ha hguard.1 hguard.2
    next =>
      have hred : R f win a (if (a'.flow f).stop ≤ (a'.flow s).addr then reduceWithin n false s
          ⟨(a'.flow f).stop, (rest.head?.map fun next ↦ (a'.flow next).addr).getD win.stop⟩ a'
        else (a', false)).1 := by
        split
        next hle => exact h.inner n _ hkey hsf hwin ha hle (hr ..)
        next => exact ha
      split
      next a'' changed he =>
      rw [he] at hred
      split
      · exact hred
      split
      · exact hred
      · exact ih hrest hred

/-- A reduction does nothing, or it takes a step from the budget first. -/
theorem reduceWithin_cases (n : Nat) (changed : Bool) (f : FlowId) (w : Window) (a : Analysis) :
    reduceWithin n changed f w a = (a, changed) ∨
      ∃ a₁, a.tick = some a₁ ∧ R f w a₁ (reduceWithin n changed f w a).1 := by
  induction n generalizing changed f w a with
  | zero => exact .inl rfl
  | succ n ih =>
    have hr (changed : Bool) (f : FlowId) (w : Window) (a : Analysis) :
        R f w a (Analysis.reduceWithin n changed f w a).1 := by
      obtain he | ⟨a₁, ht, h'⟩ := ih changed f w a
      · exact he ▸ h.refl f w a
      · exact h.trans (h.tick ht) h'
    rw [Analysis.reduceWithin]
    split
    · exact .inl rfl
    split
    next => exact .inl rfl
    next a₁ ht =>
    refine .inr ⟨a₁, ht, ?_⟩
    have hmerge := h.switch n f w a₁ (hr false)
    split
    next a₂ he =>
      rw [he] at hmerge
      exact h.trans hmerge (hr true f w a₂)
    next a₂ he =>
      rw [he] at hmerge
      refine h.trans hmerge ?_
      split
      next a₃ hc => exact h.trans (h.loop hc) (hr true f w a₃)
      next =>
        have hgrow := h.growOnce (hr false) (List.Subset.refl _) (h.refl f w a₂)
        dsimp only
        split
        next a₃ hg =>
          rw [hg] at hgrow
          exact h.trans hgrow (hr true f w a₃)
        next a₃ hg => rwa [hg] at hgrow

theorem reduceWithin (n : Nat) (changed : Bool) (f : FlowId) (w : Window) (a : Analysis) :
    R f w a (reduceWithin n changed f w a).1 := by
  obtain he | ⟨a₁, ht, h'⟩ := h.reduceWithin_cases n changed f w a
  · exact he ▸ h.refl f w a
  · exact h.trans (h.tick ht) h'

theorem reduceAllWithin (n : Nat) (f : FlowId) (a : Analysis) :
    R f everywhere a (reduceAllWithin f n a) := by
  induction n generalizing a with
  | zero => exact h.refl f everywhere a
  | succ n ih =>
    have hred := h.reduceWithin (a.fuel + 1) false f everywhere a
    rw [Analysis.reduceAllWithin, Analysis.reduce]
    split
    next a' he =>
      rw [he] at hred
      split
      · exact hred
      · exact h.trans hred (ih a')
    next a' he => rwa [he] at hred

end Rounds

theorem rounds_reduces : Rounds fun f _ a a' ↦ a.Sound → f.isSentinel = false → Reduces a a' where
  refl _ _ _ _ _ := .refl
  trans hr hr' h hf := (hr h hf).trans (hr' ((hr h hf).sound h) hf)
  tick ht _ _ := .single (.of_tick ht)
  switch _ _ _ _ hr h hf := h.mergeSwitch hr hf
  loop hc h hf := h.closeLoop hf hc
  append hkey hsf hwin hr _ hpred h hf := by
    have h' := (hr h hf).sound h
    have hsent := h.wellFormed.proper _
      (Analysis.live_of_inWindow (h.wellFormed.destination_of_keys hkey) hwin)
    have hpf := hpred.symm ▸ List.mem_singleton_self _
    exact (hr h hf).trans
      (h'.appendSuccessor (h'.live_pred hpf hf) (h'.live_of_pred hpf hf hsent) hsf.symm hpred)
  inner _ _ hkey _ hwin hr _ hin h hf := by
    have hsent := h.wellFormed.proper _
      (Analysis.live_of_inWindow (h.wellFormed.destination_of_keys hkey) hwin)
    exact (hr h hf).trans (hin ((hr h hf).sound h) hsent)

theorem Sound.reduceAll (h : a.Sound) : Reduces a a.reduceAll.1 :=
  rounds_reduces.reduceAllWithin _ _ _ h (h.wellFormed.proper _ h.entry)

end Reduction

end Analysis

end Decompile
