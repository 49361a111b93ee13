import Decompile.Proofs.Planting

namespace Decompile

namespace Flow

/-- All of a flow block but where its tree is. -/
def outline (f : Flow) : Flow := { f with root := ⟨0⟩, growth := ⟨0⟩ }

/-- All of a flow block but its tree and its edges. -/
def core (f : Flow) : Flow :=
  { f with root := ⟨0⟩, growth := ⟨0⟩, successors := [], predecessors := [] }

end Flow

namespace FlowGraph

variable {g g' g'' : FlowGraph} {f d : FlowId} {j : JumpId}

/-- An edit that only moves the trees of flow blocks and the sources of jumps. -/
structure Keeps (g g' : FlowGraph) : Prop where
  flows_size : g'.flows.size = g.flows.size
  outline : ∀ f, (g'.flow f).outline = (g.flow f).outline
  jumps_size : g'.jumps.size = g.jumps.size
  next : ∀ j, (g'.jump j).next = (g.jump j).next
  destination : ∀ j, (g'.jump j).destination = (g.jump j).destination

namespace Keeps

theorem refl (g : FlowGraph) : Keeps g g := ⟨rfl, fun _ ↦ rfl, rfl, fun _ ↦ rfl, fun _ ↦ rfl⟩

theorem trans (h : Keeps g g') (h' : Keeps g' g'') : Keeps g g'' where
  flows_size := h'.flows_size.trans h.flows_size
  outline f := (h'.outline f).trans (h.outline f)
  jumps_size := h'.jumps_size.trans h.jumps_size
  next j := (h'.next j).trans (h.next j)
  destination j := (h'.destination j).trans (h.destination j)

theorem modifyFlow (g : FlowGraph) (f : FlowId) {k : Flow → Flow}
    (hk : ∀ x, (k x).outline = x.outline) : Keeps g (g.modifyFlow f k) where
  flows_size := by simp
  outline x := by
    rw [flow_modifyFlow]
    split
    · exact hk _
    · rfl
  jumps_size := rfl
  next _ := rfl
  destination _ := rfl

theorem modifyJump (g : FlowGraph) (j : JumpId) (source : BlockId) :
    Keeps g (g.modifyJump j ({ · with source := source })) where
  flows_size := rfl
  outline _ := rfl
  jumps_size := by simp
  next i := by
    rw [jump_modifyJump]
    split <;> rfl
  destination i := by
    rw [jump_modifyJump]
    split <;> rfl

variable (h : Keeps g g')
include h

theorem successors (f : FlowId) : (g'.flow f).successors = (g.flow f).successors :=
  (congrArg Flow.successors (h.outline f) :)

theorem predecessors (f : FlowId) : (g'.flow f).predecessors = (g.flow f).predecessors :=
  (congrArg Flow.predecessors (h.outline f) :)

theorem alive (f : FlowId) : (g'.flow f).alive = (g.flow f).alive :=
  (congrArg Flow.alive (h.outline f) :)

theorem core (f : FlowId) : (g'.flow f).core = (g.flow f).core :=
  (congrArg Flow.core (h.outline f) :)

theorem chain (head : Option JumpId) : g'.chain head = g.chain head := by
  have : ∀ n head, g'.chainWithin n head = g.chainWithin n head := by
    intro n
    induction n with
    | zero => intro head; cases head <;> rfl
    | succ n ih =>
      intro head
      cases head with
      | none => rfl
      | some j => rw [chainWithin, chainWithin, h.next, ih]
  rw [FlowGraph.chain, FlowGraph.chain, h.jumps_size, this]

theorem keys (f : FlowId) : g'.keys f = g.keys f := by
  rw [FlowGraph.keys, FlowGraph.keys, h.successors]

theorem jumpsTo (f d : FlowId) : g'.jumpsTo f d = g.jumpsTo f d := by
  rw [FlowGraph.jumpsTo, FlowGraph.jumpsTo, Flow.edge?, Flow.edge?, h.successors]
  simp only [h.chain]

theorem listed (f : FlowId) : g'.listed f = g.listed f := by
  rw [FlowGraph.listed, FlowGraph.listed, h.successors]
  simp only [h.chain]

theorem linked (hg : g.Linked) : g'.Linked where
  keys f := by simpa only [h.successors] using hg.keys f
  filed f d e hm := by
    rw [h.successors] at hm
    rw [h.chain]
    exact (hg.filed f d e hm).congr h.jumps_size.ge fun j _ ↦ ⟨h.next j, h.destination j⟩
  own f f' d d' j hj hj' := by
    rw [h.jumpsTo] at hj hj'
    exact hg.own f f' d d' j hj hj'
  pred_iff f d hf := by
    rw [h.predecessors, h.keys]
    exact hg.pred_iff f d hf
  sentinel f hf := by
    rw [h.successors]
    exact hg.sentinel f hf

end Keeps

theorem Relinked.core (h : Relinked g g') (f : FlowId) : (g'.flow f).core = (g.flow f).core :=
  (congrArg Flow.core (h.bare f) :)

end FlowGraph

namespace Analysis

variable {a a' a'' : Analysis} {L : FlowId → Prop} {X : BlockId → Prop} {f g : FlowId}
  {T T' N B Y : Tree} {C : List Frame} {b x : BlockId} {s : Statement}

theorem live_of_keeps (h : a.graph.Keeps a'.graph) : a'.Live f ↔ a.Live f := by
  rw [Live, h.flows_size]
  exact and_congr_right fun _ ↦ by rw [flow, flow, h.alive]

/-- What is left of the state without blocks, edges, expressions and locals. -/
def frame (a : Analysis) : Analysis :=
  { a with blocks := {}, graph := {}, exprs := {}, locals := {}, applied := 0 }

/-- What trees speak of. -/
def content (a : Analysis) : Expressions × Locals := (a.exprs, a.locals)

/-- An edit of the tree of `f`, which may take in the blocks of `X`. -/
structure Moves (X : BlockId → Prop) (L : FlowId → Prop) (f : FlowId) (T : Tree)
    (a a' : Analysis) : Prop where
  planted : a'.Planted L
  blocks : Blocks.Grafted X (a.tree f) T a.blocks a'.blocks
  tree : a'.tree f = T
  other : ∀ g, L g → g ≠ f → a'.tree g = a.tree g
  live : ∀ g, a'.Live g ↔ a.Live g
  roots : ∀ g, g ≠ f → a'.root g = a.root g
  growth : ∀ g, L g → g ≠ f → (a'.flow g).growth = (a.flow g).growth
  grown : (a'.flow f).growth = (a.flow f).growth ∨ (a'.flow f).growth ∈ (a.tree f).ids ∨
    X (a'.flow f).growth ∨ a.blocks.size ≤ (a'.flow f).growth.index
  rest : a'.frame = a.frame

/-- A move that leaves edges and jumps alone. -/
structure Reshapes (X : BlockId → Prop) (L : FlowId → Prop) (f : FlowId) (T : Tree)
    (a a' : Analysis) : Prop extends Moves X L f T a a' where
  graph : a.graph.Keeps a'.graph
  source : ∀ j, (a'.jump j).source = (a.jump j).source

theorem Spare.of_live (h : Spare X L f a a) (hlive : ∀ g, a'.Live g → a.Live g) :
    Spare X L f a a' :=
  fun b hb ↦ ⟨(h b hb).1, fun g hg ↦ (h b hb).2 g (hlive g hg)⟩

theorem Planted.moves (h : a.Planted L) (hf : L f) (hX : Spare X L f a a)
    (hb : Blocks.Grafted X (a.tree f) T a.blocks a'.blocks) (hlive : ∀ g, a'.Live g ↔ a.Live g)
    (hroot : a'.root f = T.id) (hroots : ∀ g, g ≠ f → a'.root g = a.root g)
    (hgrowth : ∀ g, L g → g ≠ f → (a'.flow g).growth = (a.flow g).growth)
    (hgrown : (a'.flow f).growth = (a.flow f).growth ∨ (a'.flow f).growth ∈ T.ids)
    (hr : a'.frame = a.frame) : Moves X L f T a a' := by
  have hg : Grafts X L f T a a' := by
    refine ⟨hb, hroot, fun g hg ↦ (hlive g).mpr (h.live g hg),
      fun g hg hne ↦ ⟨(hlive g).mp hg, hroots g hne⟩, hgrowth, ?_, ?_⟩
    · rcases hgrown with he | hm
      · rw [he]
        exact (h.growths f hf).trans_le hb.off.size_le
      · exact hb.holds.lt_of_mem_ids hm
    · rcases hgrown with he | hm
      · exact .inl he
      · exact .inr (hb.fresh _ hm)
  obtain ⟨hp, ht, ho⟩ := h.graft hf (hX.of_live fun g ↦ (hlive g).mp) hg
  exact ⟨hp, hb, ht, ho, hlive, hroots, hg.growth, hgrown.imp_right (hb.fresh _), hr⟩

theorem Planted.reshapes (h : a.Planted L) (hf : L f) (hX : Spare X L f a a)
    (hb : Blocks.Grafted X (a.tree f) T a.blocks a'.blocks) (hk : a.graph.Keeps a'.graph)
    (hs : ∀ j, (a'.jump j).source = (a.jump j).source)
    (hroot : a'.root f = T.id) (hroots : ∀ g, g ≠ f → a'.root g = a.root g)
    (hgrowth : ∀ g, L g → g ≠ f → (a'.flow g).growth = (a.flow g).growth)
    (hgrown : (a'.flow f).growth = (a.flow f).growth ∨ (a'.flow f).growth ∈ T.ids)
    (hr : a'.frame = a.frame) : Reshapes X L f T a a' :=
  ⟨h.moves hf hX hb (fun _ ↦ live_of_keeps hk) hroot hroots hgrowth hgrown hr, hk, hs⟩

theorem Planted.grafted (h : a.Planted L) (hf : L f) :
    Blocks.Grafted (fun _ ↦ False) (a.tree f) (a.tree f) a.blocks a.blocks :=
  ⟨.refl _ _, h.linked, h.holds f hf, h.nodup f hf, fun _ hb ↦ .inl hb⟩

/-- Only blocks are edited, and the tree of `f` keeps its root. -/
theorem Planted.regraft (h : a.Planted L) (hf : L f) (hX : Spare X L f a a)
    (hb : Blocks.Grafted X (a.tree f) T a.blocks a'.blocks) (hid : T.id = a.root f)
    (hg : a'.graph = a.graph) (hr : a'.frame = a.frame) : Reshapes X L f T a a' := by
  have hflow : ∀ g, a'.flow g = a.flow g := fun g ↦ congrArg (·.flow g) hg
  have hroot : ∀ g, a'.root g = a.root g := fun g ↦ congrArg Flow.root (hflow g)
  exact h.reshapes hf hX hb (hg ▸ .refl _) (fun j ↦ congrArg (fun g ↦ (g.jump j).source) hg)
    ((hroot f).trans hid.symm) (fun g _ ↦ hroot g) (fun g _ _ ↦ congrArg Flow.growth (hflow g))
    (.inl (congrArg Flow.growth (hflow f))) hr

theorem Planted.beside (h : a.Planted L) (hf : L f) (hb : a'.blocks = a.blocks)
    (hg : a'.graph = a.graph) (hr : a'.frame = a.frame) :
    Reshapes (fun _ ↦ False) L f (a.tree f) a a' :=
  h.regraft hf spare_none (hb ▸ h.grafted hf) (id_tree a f) hg hr

theorem Planted.unchanged (h : a.Planted L) (hf : L f) :
    Reshapes (fun _ ↦ False) L f (a.tree f) a a :=
  h.beside hf rfl rfl rfl

theorem Moves.tree_eq (h : Moves X L f (a.tree f) a a') (hg : L g) : a'.tree g = a.tree g := by
  by_cases hgf : g = f
  · rw [hgf, h.tree]
  · exact h.other g hg hgf

variable {X' : BlockId → Prop} {new : BlockId}

theorem Moves.trans (h : Moves X L f T a a') (h' : Moves X' L f T' a' a'')
    (hX : ∀ b, X' b → b ∈ (a.tree f).ids ∨ X b ∨ a.blocks.size ≤ b.index) :
    Moves X L f T' a a'' where
  planted := h'.planted
  blocks := h.blocks.trans (h.tree ▸ h'.blocks) hX
  tree := h'.tree
  other g hg hne := (h'.other g hg hne).trans (h.other g hg hne)
  live g := (h'.live g).trans (h.live g)
  roots g hne := (h'.roots g hne).trans (h.roots g hne)
  growth g hg hne := (h'.growth g hg hne).trans (h.growth g hg hne)
  grown := by
    rcases h'.grown with he | hm | hm | hm
    · rw [he]
      exact h.grown
    · exact .inr (h.blocks.fresh _ (h.tree ▸ hm))
    · exact .inr (hX _ hm)
    · exact .inr (.inr (.inr (h.blocks.off.size_le.trans hm)))
  rest := h'.rest.trans h.rest

theorem Moves.andThen (h : Moves X L f T a a')
    (h' : Moves (fun _ ↦ False) L f T' a' a'') : Moves X L f T' a a'' :=
  h.trans h' fun _ hb ↦ False.elim hb

theorem Moves.mono (h : Moves X L f T a a') (hX : ∀ b, X b → X' b) :
    Moves X' L f T a a' where
  planted := h.planted
  blocks := h.blocks.mono hX
  tree := h.tree
  other := h.other
  live := h.live
  roots := h.roots
  growth := h.growth
  grown := h.grown.imp_right (·.imp_right (·.imp_left (hX _)))
  rest := h.rest

theorem Moves.transX (h : Moves (fun _ ↦ False) L f T a a') (h' : Moves X L f T' a' a'') :
    Moves X L f T' a a'' :=
  (h.mono fun _ hb ↦ False.elim hb).trans h' fun _ hb ↦ .inr (.inl hb)

theorem Reshapes.trans (h : Reshapes X L f T a a') (h' : Reshapes X' L f T' a' a'')
    (hX : ∀ b, X' b → b ∈ (a.tree f).ids ∨ X b ∨ a.blocks.size ≤ b.index) :
    Reshapes X L f T' a a'' where
  toMoves := h.toMoves.trans h'.toMoves hX
  graph := h.graph.trans h'.graph
  source j := (h'.source j).trans (h.source j)

theorem Reshapes.andThen (h : Reshapes X L f T a a')
    (h' : Reshapes (fun _ ↦ False) L f T' a' a'') : Reshapes X L f T' a a'' :=
  h.trans h' fun _ hb ↦ False.elim hb

/-- A tree that hangs nowhere. -/
structure Loose (a : Analysis) (L : FlowId → Prop) (N : Tree) : Prop where
  holds : ∃ o, a.blocks.Holds o N
  nodup : N.ids.Nodup
  apart : ∀ g, L g → N.ids.Disjoint (a.tree g).ids
  growth : ∀ g, L g → (a.flow g).growth ∉ N.ids
  root : ∀ g, a.Live g → a.root g ∉ N.ids

theorem Loose.spare (h : a.Loose L N) : Spare (· ∈ N.ids) L f a a := fun _ hb ↦
  ⟨fun g hg _ ↦ ⟨fun hbg ↦ h.apart g hg hb hbg, fun he ↦ h.growth g hg (he ▸ hb)⟩,
    fun g hg _ he ↦ h.root g hg (he ▸ hb)⟩

theorem Loose.moves (h : a.Loose L N) (hf : L f) (hr : Moves X L f T a a')
    (hX : ∀ b, X b → b ∉ N.ids) : a'.Loose L N := by
  obtain ⟨o, ho⟩ := h.holds
  -- What the tree of `f` may take in is not in the loose tree.
  have hout : ∀ b, b ∈ (a.tree f).ids ∨ X b ∨ a.blocks.size ≤ b.index → b ∉ N.ids := by
    rintro b (hb | hb | hb) hN
    · exact h.apart f hf hN hb
    · exact hX b hb hN
    · exact absurd (ho.lt_of_mem_ids hN) (by omega)
  refine ⟨⟨o, ho.of_same h.nodup hr.blocks.off.size_le fun b hb ↦ ?_⟩, h.nodup,
    fun g hg b hb hb' ↦ ?_, fun g hg hb ↦ ?_, fun g hg hb ↦ ?_⟩
  · exact hr.blocks.off.same b (ho.lt_of_mem_ids hb) fun h' ↦ hout b (h'.imp_right .inl) hb
  · by_cases hgf : g = f
    · subst hgf
      exact hout b (hr.blocks.fresh b (hr.tree ▸ hb')) hb
    · rw [hr.other g hg hgf] at hb'
      exact h.apart g hg hb hb'
  · by_cases hgf : g = f
    · subst hgf
      rcases hr.grown with he | h'
      · exact h.growth g hg (he ▸ hb)
      · exact hout _ h' hb
    · rw [hr.growth g hg hgf] at hb
      exact h.growth g hg hb
  · by_cases hgf : g = f
    · subst hgf
      rw [← id_tree, hr.tree] at hb
      exact hout _ (hr.blocks.fresh _ T.id_mem_ids) hb
    · rw [hr.roots g hgf] at hb
      exact h.root g ((hr.live g).mp hg) hb

section Put

theorem keeps_put (a : Analysis) (C : List Frame) (f : FlowId) (old new : BlockId) :
    a.graph.Keeps (a.put (placeAt C f) old new).graph := by
  cases C with
  | nil => exact .modifyFlow _ _ fun _ ↦ rfl
  | cons F C => exact .refl _

theorem root_put (a : Analysis) (C : List Frame) (f g : FlowId) (old new : BlockId)
    (hf : f.index < a.graph.flows.size) :
    (a.put (placeAt C f) old new).root g = if C = [] ∧ g = f then new else a.root g := by
  rw [root, flow, graph_put]
  cases C with
  | nil =>
    simp only [FlowGraph.flow_modifyFlow]
    by_cases hg : g = f <;> simp [hg, hf, root, flow]
  | cons F C => simp [root, flow]

theorem growth_put (a : Analysis) (C : List Frame) (f g : FlowId) (old new : BlockId)
    (hf : f.index < a.graph.flows.size) : ((a.put (placeAt C f) old new).flow g).growth =
      if C = [] ∧ g = f ∧ (a.flow g).growth = old then new else (a.flow g).growth := by
  rw [flow, graph_put]
  cases C with
  | nil =>
    simp only [FlowGraph.flow_modifyFlow]
    by_cases hg : g = f <;> simp [hg, hf, flow]
  | cons F C => simp [flow]

theorem jump_put (a : Analysis) (C : List Frame) (f : FlowId) (old new : BlockId) (j : JumpId) :
    (a.put (placeAt C f) old new).jump j = a.jump j := by
  cases C <;> rfl

theorem rest_put (a : Analysis) (C : List Frame) (f : FlowId) (old new : BlockId) :
    (a.put (placeAt C f) old new).frame = a.frame := by
  cases C <;> rfl

theorem id_plug_eq (hT : a.tree f = plug C B) (N : Tree) :
    (if C = [] then N.id else a.root f) = (plug C N).id := by
  split
  next hC => rw [hC, plug_nil]
  next hC =>
    rw [← id_tree, hT]
    clear hT
    induction C generalizing B N with
    | nil => contradiction
    | cons F C ih =>
      cases C with
      | nil => rfl
      | cons G C => exact ih (F.fill N) (List.cons_ne_nil G C)

theorem Planted.put {u : Analysis} {old : BlockId} (h : a.Planted L) (hf : L f)
    (hT : a.tree f = plug C B) (hX : Spare X L f a a) (hgraph : u.graph = a.graph)
    (hframe : u.frame = a.frame) (hnew : N.id = new)
    (hb : Blocks.Grafted X (plug C B) (plug C N) a.blocks (u.blocks.hang C old new)) :
    Reshapes X L f (plug C N) a (u.put (placeAt C f) old new) := by
  subst hnew
  have hlt : f.index < u.graph.flows.size := hgraph ▸ (h.live f hf).1
  have hflow : ∀ g, u.flow g = a.flow g := fun g ↦ congrArg (·.flow g) hgraph
  have hroot : ∀ g, u.root g = a.root g := fun g ↦ congrArg Flow.root (hflow g)
  refine h.reshapes hf hX (by simpa [hT] using hb) (hgraph ▸ keeps_put u ..) ?_ ?_ ?_ ?_ ?_ ?_
  · intro j
    rw [jump_put, jump, jump, hgraph]
  · rw [root_put _ _ _ _ _ _ hlt, ← id_plug_eq hT N, hroot]
    by_cases hC : C = [] <;> simp [hC]
  · intro g hne
    rw [root_put _ _ _ _ _ _ hlt, if_neg fun h ↦ hne h.2, hroot]
  · intro g _ hne
    rw [growth_put _ _ _ _ _ _ hlt, if_neg fun h ↦ hne h.2.1, hflow]
  · rw [growth_put _ _ _ _ _ _ hlt, hflow]
    split
    · exact .inr (mem_ids_plug.mpr (.inl N.id_mem_ids))
    · exact .inl rfl
  · exact (rest_put u C f old N.id).trans hframe

end Put

section Alloc

variable (a) in
theorem blocks_alloc (s : Statement) :
    (a.alloc s).1.blocks = (a.blocks.alloc s).1 ∧ (a.alloc s).2 = ⟨a.blocks.size⟩ := ⟨rfl, rfl⟩

theorem Planted.alloc (h : a.Planted L) (hf : L f) (hs : s.children = []) :
    Reshapes (fun _ ↦ False) L f (a.tree f) a (a.alloc s).1 ∧
      (a.alloc s).1.Loose L (.node ⟨a.blocks.size⟩ none s.kind []) := by
  have hlt : ∀ g, L g → ∀ b ∈ (a.tree g).ids, b.index < a.blocks.size := fun g hg b hb ↦
    (h.holds g hg).lt_of_mem_ids hb
  have hb : Blocks.Grafted (fun _ ↦ False) (a.tree f) (a.tree f) a.blocks (a.blocks.alloc s).1 :=
    ⟨(Blocks.Off.refl _ _).alloc (by simp [hs]), h.linked.alloc s,
      (h.holds f hf).alloc (h.nodup f hf) (by simp [hs]), h.nodup f hf, fun _ hb ↦ .inl hb⟩
  have hr : Reshapes (fun _ ↦ False) L f (a.tree f) a (a.alloc s).1 :=
    h.regraft hf spare_none hb (id_tree a f) rfl rfl
  refine ⟨hr, ⟨none, Blocks.holds_alloc_leaf hs⟩, by simp [Tree.ids], fun g hg b hb hb' ↦ ?_,
    fun g hg hb ↦ ?_, fun g hg hb ↦ ?_⟩
  all_goals obtain hb : _ = (⟨a.blocks.size⟩ : BlockId) := by simpa [Tree.ids] using hb
  · rw [hr.tree_eq hg] at hb'
    exact absurd (hlt g hg b hb') (by simp [hb])
  · exact absurd (h.growths g hg) (by rw [show (a.flow g).growth = _ from hb]; simp)
  · exact absurd (h.roots g hg) (by rw [show a.root g = _ from hb]; simp)

end Alloc

section Hang

theorem Planted.replaceBlock (h : a.Planted L) (hf : L f) (hT : a.tree f = plug C B)
    (hN : a.Loose L N) : Reshapes (· ∈ N.ids) L f (plug C N) a (a.replaceBlock B.id N.id) := by
  obtain ⟨o, hold⟩ := hN.holds
  rw [Analysis.replaceBlock, placeOf_eq h hf hT]
  refine h.put hf hT hN.spare rfl rfl rfl ?_
  exact (h.at_of_plug hf hT).replace h.linked hold hN.nodup (hT ▸ hN.apart f hf)

theorem Planted.wrapSequential (h : a.Planted L) (hf : L f) (hT : a.tree f = plug C B)
    (hN : a.Loose L N) :
    Reshapes (· ∈ N.ids) L f (plug C (.node ⟨a.blocks.size⟩ none .sequence [B, N])) a
      (a.wrapSequential B.id N.id).1 := by
  obtain ⟨o, hold⟩ := hN.holds
  rw [Analysis.wrapSequential, placeOf_eq h hf hT]
  exact h.put hf hT hN.spare
    rfl rfl rfl
    ((h.at_of_plug hf hT).append h.linked hold hN.nodup (hT ▸ hN.apart f hf))

end Hang

section Growth

theorem flow_foldl_retarget (l : List FlowId) (old : List BlockId) (new : BlockId) (a : Analysis)
    (g : FlowId) :
    (l.foldl (fun a f ↦ if old.contains (a.flow f).growth then a.setGrowth f new else a) a).flow g =
      if g ∈ l ∧ g.index < a.graph.flows.size ∧ (a.flow g).growth ∈ old
      then { a.flow g with growth := new } else a.flow g := by
  induction l generalizing a with
  | nil => simp
  | cons x l ih =>
    rw [List.foldl_cons, ih]
    split
    next hx =>
      have hsize : (a.setGrowth x new).graph.flows.size = a.graph.flows.size :=
        FlowGraph.size_modifyFlow ..
      have hflow : (a.setGrowth x new).flow g = if g = x ∧ x.index < a.graph.flows.size
          then { a.flow g with growth := new } else a.flow g := FlowGraph.flow_modifyFlow ..
      have hx' : (a.flow x).growth ∈ old := by simpa using hx
      rw [hsize, hflow]
      by_cases hgx : g = x
      · subst hgx
        by_cases hlt : g.index < a.graph.flows.size
        · by_cases hnew : new ∈ old <;> simp [hlt, hx']
        · simp [hlt]
      · simp [hgx]
    next hx =>
      by_cases hgx : g = x
      · subst hgx
        have hx' : (a.flow g).growth ∉ old := by simpa using hx
        simp [hx']
      · simp [hgx]

theorem flow_retargetGrowth (a : Analysis) (old : List BlockId) (new : BlockId) (g : FlowId) :
    (a.retargetGrowth old new).flow g =
      if a.Live g ∧ (a.flow g).growth ∈ old then { a.flow g with growth := new } else a.flow g := by
  rw [retargetGrowth, flow_foldl_retarget]
  have : g ∈ a.graph.live ∧ g.index < a.graph.flows.size ∧ (a.flow g).growth ∈ old ↔
      a.Live g ∧ (a.flow g).growth ∈ old := by
    rw [mem_live]
    exact ⟨fun h ↦ ⟨h.1, h.2.2⟩, fun h ↦ ⟨h.1, h.1.1, h.2⟩⟩
  simp only [this]

variable {old : List BlockId}

theorem growth_retargetGrowth (hg : a.Live g) :
    ((a.retargetGrowth old new).flow g).growth =
      if (a.flow g).growth ∈ old then new else (a.flow g).growth := by
  rw [flow_retargetGrowth]
  by_cases h : (a.flow g).growth ∈ old <;> simp [hg, h]

theorem graph_retargetGrowth (a : Analysis) (old : List BlockId) (new : BlockId) :
    a.retargetGrowth old new = { a with graph := (a.retargetGrowth old new).graph } ∧
      a.graph.Keeps (a.retargetGrowth old new).graph ∧
        (a.retargetGrowth old new).graph.jumps = a.graph.jumps := by
  rw [retargetGrowth]
  generalize a.graph.live = l
  induction l generalizing a with
  | nil => exact ⟨rfl, .refl _, rfl⟩
  | cons x l ih =>
    rw [List.foldl_cons]
    split
    · obtain ⟨h₁, h₂, h₃⟩ := ih (a.setGrowth x new)
      exact ⟨h₁, (FlowGraph.Keeps.modifyFlow _ x (k := ({ · with growth := new })) fun _ ↦ rfl).trans
        h₂, h₃⟩
    · exact ih a

theorem Planted.retargetGrowth (h : a.Planted L) (hf : L f)
    (hold : ∀ g, L g → g ≠ f → (a.flow g).growth ∉ old) (hnew : new ∈ (a.tree f).ids) :
    Reshapes (fun _ ↦ False) L f (a.tree f) a (a.retargetGrowth old new) := by
  obtain ⟨hrest, hk, hjumps⟩ := graph_retargetGrowth a old new
  have hblocks : (a.retargetGrowth old new).blocks = a.blocks := by rw [hrest]
  have hroot : ∀ g, (a.retargetGrowth old new).root g = a.root g := fun g ↦ by
    rw [root, flow_retargetGrowth]
    split <;> rfl
  have hb : Blocks.Grafted (fun _ ↦ False) (a.tree f) (a.tree f) a.blocks
      (a.retargetGrowth old new).blocks := hblocks ▸ h.grafted hf
  refine h.reshapes hf spare_none hb hk (fun j ↦ ?_) (by rw [hroot, id_tree]) (fun g _ ↦ hroot g)
    ?_ ?_ ?_
  · rw [jump, FlowGraph.jump, hjumps]
    rfl
  · intro g hg hne
    rw [flow_retargetGrowth, if_neg fun h' ↦ hold g hg hne h'.2]
  · rw [flow_retargetGrowth]
    split
    · exact .inr hnew
    · exact .inl rfl
  · rw [hrest]
    rfl

theorem Reshapes.retarget (hr : Reshapes X L f T a a') (h : a.Planted L) (hf : L f)
    (hold : ∀ b ∈ old, b ∈ (a.tree f).ids) (hnew : new ∈ T.ids) :
    Reshapes X L f T a (a'.retargetGrowth old new) := by
  have hret := hr.planted.retargetGrowth hf
    (fun g hg hne hm ↦ h.growth g f hg hf hne (hold _ (hr.growth g hg hne ▸ hm)))
    (hr.tree.symm ▸ hnew)
  rw [hr.tree] at hret
  exact hr.andThen hret

end Growth

section Relabel

theorem Planted.setStatement (h : a.Planted L) (hf : L f) (hT : a.tree f = plug C B)
    (hs : s.children = B.children.map Tree.id) :
    Reshapes (fun _ ↦ False) L f (plug C (B.withKind s.kind)) a (a.setStatement B.id s) := by
  refine h.regraft hf spare_none (hT ▸ (h.at_of_plug hf hT).setStatement h.linked hs) ?_ rfl rfl
  rw [← id_plug_eq hT, Tree.id_withKind, id_plug_eq hT, ← hT, id_tree]

theorem Planted.setJumpOf (h : a.Planted L) (hf : L f) (hT : a.tree f = plug C B)
    (j : Option JumpId) :
    Reshapes (fun _ ↦ False) L f (plug C (B.withJump j)) a (a.setJumpOf B.id j) := by
  refine h.regraft hf spare_none (hT ▸ (h.at_of_plug hf hT).setJump h.linked j) ?_ rfl rfl
  rw [← id_plug_eq hT, Tree.id_withJump, id_plug_eq hT, ← hT, id_tree]

theorem Planted.setSource (h : a.Planted L) (hf : L f) (j : JumpId) (source : BlockId) :
    Moves (fun _ ↦ False) L f (a.tree f) a (a.modifyJump j ({ · with source := source })) :=
  h.moves hf spare_none (h.grafted hf) (fun _ ↦ .rfl) (id_tree a f).symm (fun _ _ ↦ rfl) (fun _ _ _ ↦ rfl) (.inl rfl) rfl

theorem Planted.modifyStatement (h : a.Planted L) (hf : L f) (hT : a.tree f = plug C B)
    {k : Statement → Statement} {l : Kind → Kind} (hk : ∀ s, (k s).kind = l s.kind)
    (hc : ∀ s, (k s).children = s.children) :
    Reshapes (fun _ ↦ False) L f (plug C (B.withKind (l B.kind))) a (a.modifyStatement B.id k) := by
  have hB := (h.at_of_plug hf hT).holds
  have hr := h.setStatement hf hT (s := k (a.statement B.id)) ((hc _).trans hB.children)
  rw [hk, show (a.statement B.id).kind = B.kind from hB.kind] at hr
  exact hr

end Relabel

section Statements

variable {q : BlockId} {j : Option JumpId} {l : List Tree}

theorem parts_apart (hn : (Tree.node q j .sequence l).ids.Nodup) (hl : l = [B, Y] ∨ l = [Y, B]) :
    B ∈ l ∧ Y ∈ l ∧ B.ids.Disjoint Y.ids ∧ q ∉ B.ids := by
  obtain ⟨hq, hn⟩ := Tree.nodup_child hn
  rcases hl with rfl | rfl <;>
  simp only [List.flatMap_cons, List.flatMap_nil, List.append_nil, List.nodup_append',
    List.mem_append, not_or] at hn hq
  · exact ⟨by simp, by simp, hn.2.2, hq.1⟩
  · exact ⟨by simp, by simp, fun b hb hb' ↦ hn.2.2 hb' hb, hq.2⟩

theorem sibling?_eq (hat : a.blocks.At C (.node q j .sequence l)) (hl : l = [B, Y] ∨ l = [Y, B]) :
    a.sibling? B.id = some (q, Y.id) := by
  obtain ⟨hB, -, hd, -⟩ := parts_apart hat.ids_nodup hl
  have houter : a.outer B.id = some q := (hat.holds.child hB).outer
  obtain ⟨X, Z, hch, hs⟩ := hat.holds.sequence rfl
  have hs : a.statement q = .sequence X.id Z.id := hs
  have hne : Y.id ≠ B.id := fun he ↦ hd B.id_mem_ids (he ▸ Y.id_mem_ids)
  simp only [sibling?, houter, hs, Option.bind_eq_bind, Option.bind_some]
  rcases hl with rfl | rfl
  · obtain ⟨rfl, rfl⟩ : B = X ∧ Y = Z := by simpa using hch
    simp
  · obtain ⟨rfl, rfl⟩ : Y = X ∧ B = Z := by simpa using hch
    simp [hne]

theorem moveJump_of_none (h : a.jumpOf b = none) (x : BlockId) : a.moveJump b x = a := by
  rw [moveJump, h]

theorem placeOf_setOuter (h : x ≠ b) (o : Option BlockId) :
    (a.setOuter b o).placeOf x = a.placeOf x := by
  have : (a.setOuter b o).outer x = a.outer x := by
    simp [outer, Analysis.setOuter, Blocks.outer, Blocks.setOuter, Blocks.get_modify_of_ne h]
  rw [placeOf, this]
  rfl

theorem removeStatement_eq (h : a.Planted L) (hf : L f)
    (hT : a.tree f = plug C (.node q none .sequence l)) (hl : l = [B, Y] ∨ l = [Y, B])
    (hB : B.jump = none) :
    a.removeStatement B.id =
      ((a.setOuter B.id none).put (placeAt C f) q Y.id).retargetGrowth [B.id, q] Y.id := by
  have hat := h.at_of_plug hf hT
  obtain ⟨hBl, -, -, hq⟩ := parts_apart hat.ids_nodup hl
  have hjq : a.jumpOf q = none := hat.holds.jump
  have hjB : a.jumpOf B.id = none := (hat.holds.child hBl).jump.trans hB
  have hne : q ≠ B.id := fun he ↦ hq (he ▸ B.id_mem_ids)
  rw [Analysis.removeStatement, sibling?_eq hat hl]
  simp only [moveJump_of_none hjq, moveJump_of_none hjB, placeOf_setOuter hne]
  rw [show q = (Tree.node q none .sequence l).id from rfl, placeOf_eq h hf hT]

theorem Planted.removeStatement (h : a.Planted L) (hf : L f)
    (hT : a.tree f = plug C (.node q none .sequence l)) (hl : l = [B, Y] ∨ l = [Y, B])
    (hB : B.jump = none) :
    Reshapes (fun _ ↦ False) L f (plug C Y) a (a.removeStatement B.id) ∧
      ((a.removeStatement B.id).flow f).growth =
        if (a.flow f).growth ∈ [B.id, q] then Y.id else (a.flow f).growth := by
  have hat := h.at_of_plug hf hT
  obtain ⟨hBl, hYl, hd, -⟩ := parts_apart hat.ids_nodup hl
  have hmem : ∀ b ∈ [B.id, q], b ∈ (a.tree f).ids := fun b hb ↦ by
    rw [hT, mem_ids_plug, Tree.ids]
    rcases List.mem_cons.mp hb with rfl | hb
    · exact .inl (List.mem_cons_of_mem _ (List.mem_flatMap.mpr ⟨B, hBl, B.id_mem_ids⟩))
    · obtain rfl : b = q := by simpa using hb
      simp
  have hb := hat.collapse h.linked hYl (List.mem_flatMap.mpr ⟨B, hBl, B.id_mem_ids⟩)
    fun hb ↦ hd B.id_mem_ids hb
  have hput : Reshapes (fun _ ↦ False) L f (plug C Y) a
      ((a.setOuter B.id none).put (placeAt C f) q Y.id) := h.put hf hT spare_none rfl rfl rfl hb
  have hgrowth := growth_put (a.setOuter B.id none) C f f q Y.id (h.live f hf).1
  rw [removeStatement_eq h hf hT hl hB]
  refine ⟨hput.retarget h hf hmem (mem_ids_plug.mpr (.inl Y.id_mem_ids)), ?_⟩
  rw [growth_retargetGrowth (hput.planted.live f hf), hgrowth]
  have hsame : ((a.setOuter B.id none).flow f).growth = (a.flow f).growth := rfl
  by_cases hg : (a.flow f).growth = q
  · by_cases hC : C = [] <;> simp [hsame, hg, hC]
  · simp [hsame, hg]

/-- A statement without parts that has been removed is free to hang elsewhere. -/
theorem Planted.removeStatement_loose (h : a.Planted L) (hf : L f)
    (hT : a.tree f = plug C (.node q none .sequence l)) (hl : l = [B, Y] ∨ l = [Y, B])
    (hB : B.jump = none) (hleaf : B.children = []) : (a.removeStatement B.id).Loose L B := by
  have hat := h.at_of_plug hf hT
  obtain ⟨hBl, hYl, hd, hq⟩ := parts_apart hat.ids_nodup hl
  obtain ⟨hr, hgrowth⟩ := h.removeStatement hf hT hl hB
  have hids : B.ids = [B.id] := by
    obtain ⟨i, j, k, l⟩ := B
    obtain rfl : l = [] := hleaf
    simp [Tree.ids]
  have hmem : B.id ∈ (Tree.node q none .sequence l).ids := by
    rw [Tree.ids]
    exact List.mem_cons_of_mem _ (List.mem_flatMap.mpr ⟨B, hBl, B.id_mem_ids⟩)
  have hmemT : B.id ∈ (a.tree f).ids := hT ▸ mem_ids_plug.mpr (.inl hmem)
  have hC : B.id ∉ C.flatMap Frame.ids := hat.disjoint hmem
  have hY : B.id ∉ Y.ids := hd B.id_mem_ids
  have hqB : q ≠ B.id := fun he ↦ hq (he ▸ B.id_mem_ids)
  have hYB : Y.id ≠ B.id := fun he ↦ hY (he ▸ Y.id_mem_ids)
  have hapart : ∀ g, L g → B.id ∉ ((a.removeStatement B.id).tree g).ids := fun g hg hb ↦ by
    by_cases hgf : g = f
    · subst hgf
      rw [hr.tree, mem_ids_plug] at hb
      exact hb.elim hY hC
    · rw [hr.other g hg hgf] at hb
      exact h.apart g f hg hf hgf hb hmemT
  refine ⟨⟨none, ?_⟩, by simp [hids], fun g hg b hb hb' ↦ ?_, fun g hg hb ↦ ?_, fun g hg hb ↦ ?_⟩
  · have hB₁ : (a.blocks.setOuter B.id none).Holds none B :=
      (hat.holds.child hBl).setOuter (by simp [hids]) none
    have hoff : Blocks.Off (· ≠ B.id) (a.blocks.setOuter B.id none)
        ((a.blocks.setOuter B.id none).hang C q Y.id) :=
      (Blocks.Off.refl _ _).hang (fun b hb ↦ .inl fun he ↦ hC (he ▸ hb)) (.inl hqB) (.inl hYB)
    rw [removeStatement_eq h hf hT hl hB, (graph_retargetGrowth ..).1]
    rw [blocks_put]
    refine hB₁.of_same (by simp [hids]) hoff.size_le fun b hb ↦ ?_
    obtain rfl : b = B.id := by simpa [hids] using hb
    exact hoff.same _ hB₁.lt_size (by simp)
  · obtain rfl : b = B.id := by simpa [hids] using hb
    exact hapart g hg hb'
  · obtain hb : _ = B.id := by simpa [hids] using hb
    by_cases hgf : g = f
    · subst hgf
      rw [hgrowth] at hb
      split at hb
      next => exact hYB hb
      next hne => exact hne (by simp [hb])
    · rw [hr.growth g hg hgf] at hb
      exact h.growth g f hg hf hgf (hb ▸ hmemT)
  · obtain hb : _ = B.id := by simpa [hids] using hb
    by_cases hgf : g = f
    · subst hgf
      have hroot := Tree.id_mem_ids ((a.removeStatement B.id).tree g)
      rw [id_tree, hb] at hroot
      exact hapart g hf hroot
    · rw [hr.roots g hgf] at hb
      exact hgf (h.owner f g hf ((hr.live g).mp hg) (hb ▸ hmemT))

/-- A block takes another tree as its last part. -/
theorem Planted.adopt {R : Tree} {k : Kind} (h : a.Planted L) (hf : L f)
    (hT : a.tree f = plug C (.node q j k l)) (hR : a.Loose L R)
    (hs : s.children = (l ++ [R]).map Tree.id) :
    Reshapes (· ∈ R.ids) L f (plug C (.node q j s.kind (l ++ [R]))) a
      ((a.setStatement q s).setOuter R.id (some q)) := by
  have hat := h.at_of_plug hf hT
  have hq : q ∈ (Tree.node q j k l).ids := Tree.id_mem_ids _
  have hdisjoint : R.ids.Disjoint (plug C (.node q j k l)).ids := hT ▸ hR.apart f hf
  obtain ⟨o, hRh⟩ := hR.holds
  have hn : (Tree.node q j k (l ++ [R])).ids.Nodup := by
    obtain ⟨hql, hln⟩ := Tree.nodup_child hat.ids_nodup
    rw [Tree.ids, List.flatMap_append, List.nodup_cons, List.mem_append, List.nodup_append']
    have hd : ∀ b ∈ R.ids, b ∉ (Tree.node q j k l).ids := fun b hb hb' ↦
      hdisjoint hb (mem_ids_plug.mpr (.inl hb'))
    simp only [List.flatMap_cons, List.flatMap_nil, List.append_nil]
    exact ⟨fun hb ↦ hb.elim hql fun hb ↦ hd q hb hq, hln, hR.nodup, fun b hb hb' ↦
      hd b hb' (by rw [Tree.ids]; exact List.mem_cons_of_mem _ hb)⟩
  have hfresh : ∀ b ∈ (Tree.node q j s.kind (l ++ [R])).ids,
      b ∈ (Tree.node q j k l).ids ∨ b ∈ R.ids := fun b hb ↦ by
    simp only [Tree.ids, List.flatMap_append, List.flatMap_cons,
      List.mem_cons, List.mem_append] at hb ⊢
    tauto
  have hRC : R.id ∉ C.flatMap Frame.ids := fun hb ↦
    hdisjoint R.id_mem_ids (mem_ids_plug.mpr (.inr hb))
  refine h.regraft hf hR.spare ⟨?_, h.linked.adopt hat.holds hs, ?_, ?_, fun b hb ↦ ?_⟩ ?_ rfl rfl
  · rw [hT]
    exact ((Blocks.Off.refl _ _).setStatement (.inl (.inl (mem_ids_plug.mpr (.inl hq)))) _).setOuter
      (.inl (.inr R.id_mem_ids)) _
  · refine Blocks.holds_plug.mpr ⟨?_, hat.holds.adopt hRh hn hs⟩
    exact (hat.around.modify hat.frames_nodup (hat.disjoint hq) _).modify hat.frames_nodup hRC _
  · refine hat.nodup_plug (by simpa only [Tree.ids] using hn) fun b hb ↦ (hfresh b hb).imp_right fun hb hC ↦ ?_
    exact hdisjoint hb (mem_ids_plug.mpr (.inr hC))
  · rw [hT, mem_ids_plug]
    rcases mem_ids_plug.mp hb with hb | hb
    · exact (hfresh b hb).imp .inl .inl
    · exact .inl (.inr hb)
  · have := id_plug_eq hT (.node q j s.kind (l ++ [R]))
    rw [← this]
    by_cases hC : C = []
    · subst hC
      rw [← id_tree, hT]
      rfl
    · rw [if_neg hC]

end Statements

section Crown

theorem setRoot_fields (a : Analysis) (f : FlowId) (b c : BlockId) :
    ((a.setRoot f b).setGrowth f c).blocks = a.blocks ∧
      ((a.setRoot f b).setGrowth f c).content = a.content ∧
      ((a.setRoot f b).setGrowth f c).frame = a.frame ∧
      a.graph.Keeps ((a.setRoot f b).setGrowth f c).graph ∧
      (∀ j, ((a.setRoot f b).setGrowth f c).jump j = a.jump j) ∧
      ∀ g, ((a.setRoot f b).setGrowth f c).flow g =
        if g = f ∧ f.index < a.graph.flows.size then { a.flow g with root := b, growth := c }
        else a.flow g := by
  refine ⟨rfl, rfl, rfl, (FlowGraph.Keeps.modifyFlow a.graph f (k := ({ · with root := b }))
    fun _ ↦ rfl).trans (.modifyFlow _ f fun _ ↦ rfl), fun _ ↦ rfl, fun g ↦ ?_⟩
  simp only [flow, setGrowth, setRoot, Analysis.modifyFlow, FlowGraph.flow_modifyFlow,
    FlowGraph.size_modifyFlow]
  split <;> rfl

theorem Planted.crown {l : List Tree} (h : a.Planted L) (hf : L f) (hX : Spare X L f a a)
    (hc : ∀ c ∈ l, ∃ o, a.blocks.Holds o c) (hsub : ∀ b ∈ l.flatMap Tree.ids, b ∈ (a.tree f).ids ∨ X b)
    (hn : (l.flatMap Tree.ids).Nodup) (hs : s.children = l.map Tree.id) :
    Reshapes X L f (.node ⟨a.blocks.size⟩ none s.kind l) a
      (((a.alloc s).1.setRoot f (a.alloc s).2).setGrowth f (a.alloc s).2) := by
  obtain ⟨hb, -, hr, hk, hj, hflow⟩ := setRoot_fields (a.alloc s).1 f (a.alloc s).2 (a.alloc s).2
  generalize (((a.alloc s).1.setRoot f (a.alloc s).2).setGrowth f (a.alloc s).2) = a' at *
  have hlt : f.index < (a.alloc s).1.graph.flows.size := (h.live f hf).1
  have hself := hflow f
  rw [if_pos ⟨rfl, hlt⟩] at hself
  have hother : ∀ g, g ≠ f → a'.flow g = a.flow g := fun g hne ↦ by
    rw [hflow, if_neg fun h ↦ hne h.1]
    rfl
  refine h.reshapes hf hX ?_ hk (fun j ↦ by rw [hj]; rfl) ?_ (fun g hne ↦ ?_) (fun g _ hne ↦ ?_)
    (.inr ?_) hr
  · rw [hb]
    exact .crown h.linked hc hsub hn hs
  · rw [root, hself]
    rfl
  · rw [root, root, hother g hne]
  · rw [hother g hne]
  · rw [hself]
    simp [Tree.ids, Analysis.alloc]

end Crown

section Content

variable (a) (f : FlowId) (b : BlockId)

@[simp] theorem content_put (place : Place) (old new : BlockId) :
    (a.put place old new).content = a.content := by
  cases place <;> rfl

@[simp] theorem content_retargetGrowth (old : List BlockId) (new : BlockId) :
    (a.retargetGrowth old new).content = a.content := by
  rw [(graph_retargetGrowth a old new).1]
  rfl

@[simp] theorem content_moveJump (target : BlockId) :
    (a.moveJump b target).content = a.content := by
  rw [moveJump]
  split <;> rfl

@[simp] theorem content_removeJump (j : JumpId) : (a.removeJump f j).content = a.content := by
  rw [removeJump]
  split <;> rfl

@[simp] theorem content_removeStatement : (a.removeStatement b).content = a.content := by
  rw [removeStatement]
  split
  · rfl
  · rw [content_retargetGrowth, content_put]
    exact (content_moveJump ..).trans (content_moveJump ..)

@[simp] theorem content_dropIfEmpty : (a.dropIfEmpty b).content = a.content := by
  rw [dropIfEmpty]
  split
  · exact content_removeStatement ..
  · rfl

@[simp] theorem content_replaceBlock (new : BlockId) : (a.replaceBlock b new).content = a.content :=
  content_put ..

@[simp] theorem content_wrapSequential (next : BlockId) :
    (a.wrapSequential b next).1.content = a.content :=
  content_put ..

@[simp] theorem content_replaceJumpWith (j : JumpId) :
    (a.replaceJumpWith f j b).content = a.content := by
  simp only [replaceJumpWith]
  split
  · exact (content_replaceBlock ..).trans (content_removeJump ..)
  · split
    · exact content_removeJump ..
    · exact (content_wrapSequential ..).trans (content_removeJump ..)

end Content

end Analysis

end Decompile
