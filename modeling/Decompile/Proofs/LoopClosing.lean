import Decompile.Proofs.Joining
import Decompile.Reduction.Loop

namespace Decompile

variable {B : Tree} {C : List Frame}

namespace Tree

/-- The body of a loop around `N`. A jump of `N` out of the loop gets a statement of its own. -/
inductive Bodied (leaves : JumpId → Prop) (N : Tree) : Tree → Prop
  | whole : (∀ j, N.jump = some j → ¬ leaves j) → Bodied leaves N N
  | apart (q x : BlockId) (j : JumpId) : N.jump = some j → leaves j →
    Bodied leaves N (node q none .sequence [N.withJump none, node x (some j) .empty []])

variable {leaves : JumpId → Prop}

theorem Bodied.tidy {N : Tree} (h : Bodied leaves N B) (hN : N.Tidy) : B.Tidy := by
  cases h with
  | whole => exact hN
  | apart q x j hj _ =>
    refine tidy_node.mpr ⟨fun _ ↦ ⟨rfl, _, _, rfl, by simp, fun hk ↦ ?_⟩, ?_⟩
    · have := (hN N N.mem_nodes_self (by simpa using hk)).1
      simp [hj] at this
    · simpa using ⟨hN.withJump_none, tidy_leaf (by simp)⟩

theorem Bodied.eq {N : Tree} (h : Bodied leaves N B) (hN : N.jump = none) : B = N := by
  cases h with
  | whole => rfl
  | apart _ _ j hj => simp [hN] at hj

theorem Bodied.mem_jumps {N : Tree} (h : Bodied leaves N B) (i : JumpId) :
    i ∈ B.jumps ↔ i ∈ N.jumps := by
  cases h with
  | whole => rfl
  | apart q x j hj _ =>
    simp only [jumps, held, held_eq N, held_withJump, hj, List.flatMap_cons]
    simp [or_comm]

theorem Tidy.jump_plug_rest {P : Tree} (h : (Decompile.plug C P).Tidy) (hP : P.jump = none)
    (hC : ∀ F ∈ C, F.IsRest) : (Decompile.plug C P).jump = none := by
  induction C generalizing P with
  | nil => exact hP
  | cons F C ih =>
    have hF : (F.fill P).Tidy := Tidy.of_plug h
    exact ih h ((hF _ (Tree.mem_nodes_self _) (hC F (.head _)).1).1) fun G hG ↦ hC G (.tail _ hG)

/-- What is taken on a condition is a void statement that jumps, or a statement that does not. -/
def Branching (T : Tree) : Prop :=
  ∀ s ∈ T.nodes, ∀ c, s.kind = .conditional c →
    ∃ x, s.children = [x] ∧ x.children = [] ∧ (x.kind = .empty ∨ x.jump = none)

/-- The tree of `f` becomes a loop `w`, by one of three rules. The jumps back to `f` are still in
it, but for the one that is the test of a do-while loop. -/
inductive Loops (destination : JumpId → FlowId) (negates : ExprId → ExprId → Prop)
    (isTrue : ExprId → Prop) (f : FlowId) (w : BlockId) : LoopKind → Tree → Tree → Prop
  | doWhileOnly {p t n : BlockId} {e : Option JumpId} {c : ExprId} {j : JumpId} :
    destination j = f →
    Loops destination negates isTrue f w .doWhile
      (node p e (.conditional c) [node t (some j) .empty []])
      (node w e (.loop .doWhile c none false) [node n none .empty []])
  | doWhile {C : List Frame} {q p t : BlockId} {e : Option JumpId} {c : ExprId} {j : JumpId}
      {P : Tree} : (∀ F ∈ C, F.IsRest) → destination j = f →
    Loops destination negates isTrue f w .doWhile
      (plug C (node q none .sequence [P, node p e (.conditional c) [node t (some j) .empty []]]))
      (node w e (.loop .doWhile c none false) [plug C P])
  | whileOnly {p t n : BlockId} {e : Option JumpId} {c c' : ExprId} {i : JumpId} {B : Tree} :
    destination i ≠ f → negates c c' →
    Bodied (destination · ≠ f) (node n e .empty []) B →
    Loops destination negates isTrue f w .whileLoop
      (node p e (.conditional c) [node t (some i) .empty []])
      (node w (some i) (.loop .whileLoop c' none false) [B])
  | while {q p t : BlockId} {c c' : ExprId} {i : JumpId} {Y B : Tree} :
    destination i ≠ f → negates c c' → Bodied (destination · ≠ f) Y B →
    Loops destination negates isTrue f w .whileLoop
      (node q none .sequence [node p none (.conditional c) [node t (some i) .empty []], Y])
      (node w (some i) (.loop .whileLoop c' none false) [B])
  | forever {c : ExprId} {T B : Tree} : isTrue c → Bodied (destination · ≠ f) T B →
    Loops destination negates isTrue f w .whileLoop T
      (node w none (.loop .whileLoop c none false) [B])

end Tree

namespace Blocks

variable {t : Blocks} {o : Option BlockId} {N : Tree} {s : Statement} {j : JumpId}

/-- A new block takes over the jump of a tree, and a sequence of the two is made. -/
theorem holds_setApart (hl : t.Linked) (hN : t.Holds o N) (hn : N.ids.Nodup) :
    let t' := ((((t.alloc .empty).1.setJump N.id none).setJump ⟨t.size⟩ (some j)).alloc
      (.sequence N.id ⟨t.size⟩)).1
    t'.Linked ∧ Off (· ∈ N.ids) t t' ∧
      t'.Holds none (.node ⟨t.size + 1⟩ none .sequence
        [N.withJump none, .node ⟨t.size⟩ (some j) .empty []]) := by
  have hlt : ∀ b ∈ N.ids, b.index < t.size := fun b hb ↦ hN.lt_of_mem_ids hb
  have hfresh : (⟨t.size⟩ : BlockId) ∉ N.ids := fun hb ↦ absurd (hlt _ hb) (by simp)
  have hne : N.id ≠ ⟨t.size⟩ := fun he ↦ hfresh (he ▸ N.id_mem_ids)
  have hN' : (((t.alloc .empty).1.setJump N.id none).setJump ⟨t.size⟩ (some j)).Holds o
      (N.withJump none) :=
    (((hN.alloc hn (by simp [Statement.children])).setJump hn none).modify (by simpa using hn)
      (by simpa using hfresh) _)
  have hx : (((t.alloc .empty).1.setJump N.id none).setJump ⟨t.size⟩ (some j)).Holds none
      (.node ⟨t.size⟩ (some j) .empty []) := by
    have hleaf : (t.alloc .empty).1.Holds none (.node ⟨t.size⟩ none .empty []) :=
      holds_alloc_leaf rfl
    have hleaf' := hleaf.modify (by simp [Tree.ids]) (by simpa [Tree.ids] using hne)
      ({ · with jump := none })
    exact hleaf'.setJump (by simp [Tree.ids]) (some j)
  have hsize : (((t.alloc .empty).1.setJump N.id none).setJump ⟨t.size⟩ (some j)).size =
      t.size + 1 := by
    simp [setJump, Blocks.modify, Blocks.size]
    exact size_alloc t .empty
  refine ⟨(((hl.alloc _).setJump _ _).setJump _ _).alloc _, ?_, ?_⟩
  · refine ((((Off.refl _ t).alloc (by simp [Statement.children])).setJump (.inl N.id_mem_ids)
      none).setJump (.inr le_rfl) (some j)).alloc fun c hc ↦ ?_
    simp only [Statement.children, List.mem_cons, List.not_mem_nil, or_false] at hc
    rcases hc with rfl | rfl
    · exact .inl N.id_mem_ids
    · exact .inr le_rfl
  · have hboth := holds_alloc (s := .sequence N.id ⟨t.size⟩)
      (l := [N.withJump none, .node ⟨t.size⟩ (some j) .empty []]) (by simp [Statement.children])
      (by simpa using ⟨⟨_, hN'⟩, ⟨_, hx⟩⟩) (by
        simp only [List.flatMap_cons, Tree.ids_withJump, Tree.ids, List.flatMap_nil,
          List.append_nil, List.nodup_append, List.nodup_singleton, List.mem_singleton]
        exact ⟨hn, trivial, fun b hb c hc he ↦ hfresh (hc ▸ he ▸ hb)⟩)
    rwa [hsize] at hboth

end Blocks

namespace Analysis

variable {a a' : Analysis} {L : FlowId → Prop} {X : BlockId → Prop} {f : FlowId} {o : Option BlockId}
  {N T : Tree} {kind : LoopKind} {c : ExprId} {s : Statement} {b : BlockId} {j : JumpId}

section Loop

theorem flow_setRoot (a : Analysis) (f : FlowId) (b : BlockId) (g : FlowId) :
    (a.setRoot f b).flow g =
      if g = f ∧ f.index < a.graph.flows.size then { a.flow g with root := b } else a.flow g :=
  FlowGraph.flow_modifyFlow ..

theorem Planted.setRoot {u : Analysis} (h : a.Planted L) (hf : L f) (hX : Spare X L f a a)
    (hb : Blocks.Grafted X (a.tree f) T a.blocks u.blocks) (hk : a.graph.Keeps u.graph)
    (hflow : ∀ g, u.flow g = a.flow g) (hr : u.frame = a.frame) :
    Moves X L f T a (u.setRoot f T.id) := by
  have hk' : a.graph.Keeps (u.setRoot f T.id).graph := hk.trans (.modifyFlow _ _ fun _ ↦ rfl)
  have hlt : f.index < u.graph.flows.size := hk.flows_size ▸ (h.live f hf).1
  refine h.moves hf hX hb (fun _ ↦ live_of_keeps hk') ?_ (fun g hg ↦ ?_) (fun g _ hg ↦ ?_) (.inl ?_) hr
  · rw [root, flow_setRoot, if_pos ⟨rfl, hlt⟩]
  · rw [root, flow_setRoot, if_neg fun h ↦ hg h.1, hflow]
    rfl
  · rw [flow_setRoot, if_neg fun h ↦ hg h.1, hflow]
  · rw [flow_setRoot, if_pos ⟨rfl, hlt⟩, hflow]

/-- A loop around a tree whose blocks are those of `f` or spare ones. -/
theorem Planted.makeLoop (h : a.Planted L) (kind : LoopKind) (c : ExprId) (hf : L f)
    (hX : Spare X L f a a)
    (hN : a.blocks.Holds o N) (hn : N.ids.Nodup) (hsub : ∀ b ∈ N.ids, b ∈ (a.tree f).ids ∨ X b)
    (hlt : ∀ j, N.jump = some j → j.index < a.graph.jumps.size) (hs : a.Sourced N) :
    ∃ B, Tree.Bodied (fun j ↦ (a.jump j).destination ≠ f) N B ∧
      Moves X L f (.node (a.makeLoop f kind c N.id).2 none (.loop kind c none false) [B]) a
        (a.makeLoop f kind c N.id).1 ∧
      a.graph.Keeps (a.makeLoop f kind c N.id).1.graph ∧
      (a.makeLoop f kind c N.id).1.Sourced B ∧ (∀ b ∈ B.ids, b ∈ N.ids ∨ a.blocks.size ≤ b.index) ∧
      Blocks.Off (· ∈ N.ids) a.blocks (a.makeLoop f kind c N.id).1.blocks ∧
      (a.makeLoop f kind c N.id).1.content = a.content ∧
      a.blocks.size ≤ (a.makeLoop f kind c N.id).2.index ∧
      ∀ i, N.jump ≠ some i →
        ((a.makeLoop f kind c N.id).1.jump i).source = (a.jump i).source := by
  have hjump : a.jumpOf N.id = N.jump := hN.jump
  by_cases hleaves : ∃ j, N.jump = some j ∧ (a.jump j).destination ≠ f
  · obtain ⟨j, hj, hd⟩ := hleaves
    obtain ⟨hl, hoff, hholds⟩ := Blocks.holds_setApart (j := j) h.linked hN hn
    have hfresh : ∀ b ∈ N.ids, b ≠ (⟨a.blocks.size⟩ : BlockId) ∧ b ≠ ⟨a.blocks.size + 1⟩ := by
      intro b hb
      have := hN.lt_of_mem_ids hb
      constructor <;> rintro rfl <;> simp at this
    have hcond : (a.jumpOf N.id).any (fun j ↦ decide ((a.jump j).destination ≠ f)) = true := by
      simpa [hjump, hj] using hd
    have hjump' : (a.alloc .empty).1.jumpOf N.id = some j := by
      have := (Blocks.get_alloc_of_ne (t := a.blocks) (s := .empty) (hfresh _ N.id_mem_ids).1).2.1
      exact this.trans (hjump.trans hj)
    simp only [Analysis.makeLoop, hcond, if_true, Analysis.moveJump, hjump']
    set v := (((a.alloc .empty).1.setJumpOf N.id none).setJumpOf (a.alloc .empty).2
      (some j)).modifyJump j ({ · with source := (a.alloc .empty).2 }) with hv
    have hsize : v.blocks.size = a.blocks.size + 1 := by
      rw [hv]
      simp only [Analysis.setJumpOf, Analysis.modifyJump, Blocks.setJump, Blocks.modify,
        Blocks.size, Table.size_modify]
      exact Blocks.size_alloc a.blocks .empty
    have hsource : ∀ i, (v.jump i).source =
        if i = j then ⟨a.blocks.size⟩ else (a.jump i).source := fun i ↦ by
      rw [hv, jump, Analysis.modifyJump, FlowGraph.jump_modifyJump]
      by_cases hij : i = j
      · rw [if_pos ⟨hij, hlt j hj⟩, if_pos hij]
        rfl
      · rw [if_neg fun h ↦ hij h.1, if_neg hij]
        rfl
    have hkeeps : a.graph.Keeps v.graph := .modifyJump ..
    have hflow : ∀ g, v.flow g = a.flow g := fun _ ↦ rfl
    have hframe : v.frame = a.frame := rfl
    have hcontent : v.content = a.content := rfl
    change (v.alloc (.sequence N.id ⟨a.blocks.size⟩)).1.blocks.Linked at hl
    change Blocks.Off _ _ (v.alloc (.sequence N.id ⟨a.blocks.size⟩)).1.blocks at hoff
    change (v.alloc (.sequence N.id ⟨a.blocks.size⟩)).1.blocks.Holds _ _ at hholds
    have hid : (v.alloc (.sequence N.id (a.alloc .empty).2)).2 = ⟨a.blocks.size + 1⟩ :=
      congrArg BlockId.mk hsize
    rw [show (a.alloc .empty).2 = ⟨a.blocks.size⟩ from rfl] at *
    clear_value v
    rw [hid]
    have hw : ∀ g, (v.alloc (.sequence N.id ⟨a.blocks.size⟩)).1.flow g = a.flow g := hflow
    have hwj : ∀ i, (v.alloc (.sequence N.id ⟨a.blocks.size⟩)).1.jump i = v.jump i := fun _ ↦ rfl
    have hwg : (v.alloc (.sequence N.id ⟨a.blocks.size⟩)).1.graph = v.graph := rfl
    have hwf : (v.alloc (.sequence N.id ⟨a.blocks.size⟩)).1.frame = a.frame := hframe
    have hwc : (v.alloc (.sequence N.id ⟨a.blocks.size⟩)).1.content = a.content := hcontent
    generalize (v.alloc (.sequence N.id ⟨a.blocks.size⟩)).1 = w at *
    have hnodup : (Tree.node ⟨a.blocks.size + 1⟩ none .sequence
        [N.withJump none, .node ⟨a.blocks.size⟩ (some j) .empty []]).ids.Nodup := by
      simp only [Tree.ids, List.flatMap_cons, Tree.ids_withJump, List.flatMap_nil, List.append_nil,
        List.nodup_cons, List.nodup_append, List.mem_append, List.mem_singleton]
      refine ⟨?_, hn, by simp, fun b hb c hc he ↦ (hfresh b hb).1 (he.trans hc)⟩
      rintro (hb | hb)
      · exact (hfresh _ hb).2 rfl
      · simp at hb
    refine ⟨_, .apart ⟨a.blocks.size + 1⟩ ⟨a.blocks.size⟩ j hj hd,
      h.setRoot hf hX (u := (w.alloc _).1) ⟨?_, hl.alloc _, ?_, ?_, ?_⟩ (hwg ▸ hkeeps) hw hwf,
      (hwg ▸ hkeeps).trans (.modifyFlow _ _ fun _ ↦ rfl), ?_, fun b hb ↦ ?_, ?_, hwc, hoff.size_le,
      fun i hi ↦ ?_⟩
    · exact (hoff.mono hsub).alloc (by simp [Statement.children])
    · exact Blocks.holds_alloc (s := .loop kind c none none ⟨a.blocks.size + 1⟩ false) rfl
        (by simpa using ⟨none, hholds⟩) (by simpa using hnodup)
    · rw [Tree.ids]
      refine List.nodup_cons.mpr ⟨fun hb ↦ ?_, by simpa using hnodup⟩
      exact absurd (hholds.lt_of_mem_ids (by simpa using hb)) (by simp [Analysis.alloc])
    · intro b hb
      simp only [Tree.ids, List.flatMap_cons, Tree.ids_withJump, List.flatMap_nil, List.append_nil,
        List.mem_cons, List.mem_append, List.not_mem_nil, or_false] at hb
      rcases hb with rfl | rfl | hb | rfl
      · exact .inr (.inr hoff.size_le)
      · exact .inr (.inr (Nat.le_succ _))
      · exact (hsub b hb).imp_right .inl
      · exact .inr (.inr le_rfl)
    · intro b i hi
      have hunique : ∀ b, (b, j) ∈ (plug [] N).held → b = N.id := fun b hb ↦
        (hs b j hb).symm.trans (hs N.id j (Tree.mem_held.mpr ⟨N, N.mem_nodes_self, rfl, hj⟩))
      have hnone := Tree.mem_held_withJump_none (C := []) (b := b) (i := i) hn hj hunique
      simp only [plug_nil] at hnone
      simp only [Tree.held, List.flatMap_cons, List.flatMap_nil, Option.toList_none, List.map_nil,
        List.nil_append, List.append_nil, Option.toList_some, List.map_cons, List.mem_append,
        hnone, List.mem_singleton] at hi
      refine (congrArg Jump.source (hwj i)).trans ?_
      rw [hsource]
      rcases hi with ⟨hb, hij⟩ | ⟨rfl, rfl⟩
      · rw [if_neg hij]
        exact hs b i hb
      · rw [if_pos rfl]
    · simp only [Tree.ids, List.flatMap_cons, Tree.ids_withJump, List.flatMap_nil,
        List.mem_cons, List.mem_append, List.not_mem_nil, or_false] at hb
      rcases hb with rfl | hb | rfl
      · exact .inr (Nat.le_succ _)
      · exact .inl hb
      · exact .inr le_rfl
    · exact hoff.alloc (by simp [Statement.children])
    · refine (congrArg Jump.source (hwj i)).trans ?_
      rw [hsource, if_neg]
      rintro rfl
      exact hi hj
  · have hstay : ∀ j, N.jump = some j → ¬ (a.jump j).destination ≠ f := fun j hj hd ↦
      hleaves ⟨j, hj, hd⟩
    have hcond : (a.jumpOf N.id).any (fun j ↦ decide ((a.jump j).destination ≠ f)) = false := by
      rw [hjump]
      cases hj : N.jump with
      | none => rfl
      | some j => simpa using hstay j hj
    simp only [Analysis.makeLoop, hcond]
    have hb : Blocks.Grafted X (a.tree f)
        (.node ⟨a.blocks.size⟩ none (.loop kind c none false) [N]) a.blocks
        (a.blocks.alloc (.loop kind c none none N.id false)).1 :=
      .crown (s := .loop kind c none none N.id false) h.linked (by simpa using ⟨o, hN⟩)
        (by simpa using hsub) (by simpa using hn) rfl
    refine ⟨N, .whole hstay, h.setRoot hf hX hb (.refl _) (fun _ ↦ rfl) rfl,
      .modifyFlow _ _ fun _ ↦ rfl, hs, fun _ hb ↦ .inl hb, ?_, rfl, le_rfl, fun _ _ ↦ rfl⟩
    exact (Blocks.Off.refl _ _).alloc (by simp [Statement.children, N.id_mem_ids])

theorem Moves.clear (h : a.Planted L) (hf : L f) (hm : Moves X L f T a a') (hb : b ∈ (a.tree f).ids)
    (hbT : b ∉ T.ids) (j : Option JumpId) : Moves X L f T a (a'.setJumpOf b j) := by
  have hX : Spare (· = b) L f a' a' := by
    rintro b rfl
    refine ⟨fun g hg hgf ↦ ⟨fun hb' ↦ ?_, fun he ↦ ?_⟩, fun g hg hgf he ↦ ?_⟩
    · rw [hm.other g hg hgf] at hb'
      exact h.apart g f hg hf hgf hb' hb
    · rw [hm.growth g hg hgf] at he
      exact h.growth g f hg hf hgf (he ▸ hb)
    · rw [hm.roots g hgf] at he
      exact hgf (h.owner f g hf ((hm.live g).mp hg) (he ▸ hb))
  have hr : Reshapes (· = b) L f T a' (a'.setJumpOf b j) := by
    refine hm.planted.reshapes hf hX ?_ (.refl _) (fun _ ↦ rfl) ?_ (fun _ _ ↦ rfl)
      (fun _ _ _ ↦ rfl) (.inl rfl) rfl
    · rw [hm.tree]
      have hholds := hm.tree ▸ hm.planted.holds f hf
      have hn := hm.tree ▸ hm.planted.nodup f hf
      exact ⟨(Blocks.Off.refl _ _).setJump (.inl (.inr rfl)) j, hm.planted.linked.setJump b j,
        hholds.modify hn hbT _, hn, fun _ hb ↦ .inl hb⟩
    · rw [← hm.tree, id_tree]
      rfl
  refine hm.trans hr.toMoves ?_
  rintro b rfl
  exact .inl hb

variable {w p t q : BlockId} {l : List Tree} {e : Option JumpId} {r : Analysis × BlockId}
  {i : JumpId}

theorem Moves.setExit {k : Kind} (hf : L f) (hm : Moves X L f (.node w none k l) a a')
    (e : Option JumpId) : Moves X L f (.node w e k l) a (a'.setExit w e) := by
  cases e with
  | none => exact hm
  | some i =>
    have h₁ := hm.planted.setJumpOf (C := []) hf hm.tree (some i)
    have h₂ := h₁.planted.setSource hf i w
    rw [h₁.tree] at h₂
    exact (hm.andThen h₁.toMoves).andThen h₂

theorem fields_setExit (a : Analysis) (w : BlockId) (e : Option JumpId) :
    a.graph.Keeps (a.setExit w e).graph ∧ (a.setExit w e).content = a.content := by
  cases e with
  | none => exact ⟨.refl _, rfl⟩
  | some i => exact ⟨.modifyJump .., rfl⟩

theorem source_setExit (he : ∀ i, e = some i → i.index < a.graph.jumps.size) (w : BlockId)
    (i : JumpId) :
    ((a.setExit w e).jump i).source = if e = some i then w else (a.jump i).source := by
  cases e with
  | none => simp [Analysis.setExit]
  | some j =>
    rw [Analysis.setExit, jump, Analysis.modifyJump, FlowGraph.jump_modifyJump]
    by_cases hij : i = j
    · subst hij
      simp [Analysis.setJumpOf, he i rfl]
    · rw [if_neg fun h ↦ hij h.1, if_neg fun h ↦ hij (Option.some.inj h).symm]
      rfl

/-- What holds of a new loop. -/
structure LoopMade (L : FlowId → Prop) (f : FlowId) (w : BlockId) (kind : LoopKind)
    (a a' : Analysis) : Prop
    extends Evolved L f f a a' where
  loops : Tree.Loops (fun i ↦ (a.jump i).destination) a'.exprs.Negates
    (fun c ↦ a'.exprs.get c = .const (.bool true)) f w kind (a.tree f) (a'.tree f)
  isNew : a.blocks.size ≤ w.index

theorem Evolved.loopMade {a₁ : Analysis} (he : Evolved L f f a a₁) (hwf : a'.WellFormed L)
    (hm : Moves (fun _ ↦ False) L f T a₁ a') (hk : a₁.graph.Keeps a'.graph)
    (hc : a'.content = a₁.content) (hw : a₁.blocks.size ≤ w.index)
    (hl : a₁.exprs.Extends a'.exprs → Tree.Loops (fun i ↦ (a.jump i).destination) a'.exprs.Negates (fun c ↦ a'.exprs.get c = .const (.bool true)) f w kind (a.tree f) T) :
    LoopMade L f w kind a a' := by
  have hex : a₁.exprs.Extends a'.exprs := .of_eq (congrArg Prod.fst hc :)
  refine ⟨he.trans (.of_keeps hwf hm hk hex), ?_, he.size_le.trans hw⟩
  simpa only [hm.tree] using hl hex

theorem WellFormed.closeForever (h : a.WellFormed L) (hf : L f) :
    LoopMade L f (a.closeForever f).2 .whileLoop a (a.closeForever f).1 := by
  simp only [Analysis.closeForever]
  obtain ⟨hr₁, h₁⟩ := h.beside hf (show (a.allocExpr (.const (.bool true))).1.blocks = _ from rfl) rfl rfl
  have hexprs : a.exprs.Extends (a.allocExpr (.const (.bool true))).1.exprs :=
    a.exprs.extends_alloc _
  have hget : (a.allocExpr (.const (.bool true))).1.exprs.get
      (a.allocExpr (.const (.bool true))).2 = .const (.bool true) := a.exprs.get_alloc_self _
  have hgraph : (a.allocExpr (.const (.bool true))).1.graph = a.graph := rfl
  generalize (a.allocExpr (.const (.bool true))).2 = c at *
  generalize (a.allocExpr (.const (.bool true))).1 = a₁ at *
  obtain ⟨B, hB, hm, hk, hs, -, -, hc, hnew, hother⟩ := h₁.planted.makeLoop _ c hf spare_none
    (h₁.planted.holds f hf) (h₁.planted.nodup f hf) (fun _ hb ↦ .inl hb)
    (fun j hj ↦ h₁.linked.lt_size (h₁.linked.mem_listed.mp
      (h₁.unique_holder (C := []) hf rfl hj).1)) (h₁.sourced hf)
  rw [id_tree] at *
  generalize (a₁.makeLoop f .whileLoop c (a₁.root f)).1 = a' at *
  have hwf : a'.WellFormed L := by
    refine h₁.rehang hf hm hk (fun i ↦ ?_) (fun b i hi ↦ hs b i (by simpa [Tree.held] using hi))
      (fun i hi ↦ hother i fun he ↦ hi (h₁.unique_holder (C := []) hf rfl he).1)
      (Tree.tidy_node.mpr ⟨by simp, by simpa using hB.tidy (h₁.tidy f hf)⟩)
    rw [← hB.mem_jumps]
    simp [Tree.jumps, Tree.held]
  have hexprs' : a'.exprs = a₁.exprs := (congrArg Prod.fst hc :)
  refine ⟨.of_keeps hwf (hr₁.toMoves.andThen hm) (hgraph ▸ hk) (hexprs' ▸ hexprs), ?_, hr₁.blocks.off.size_le.trans hnew⟩
  rw [hm.tree, hr₁.tree] at *
  have hdest : ∀ i, (a₁.jump i).destination = (a.jump i).destination := fun i ↦ by
    rw [jump, hgraph, jump]
  simp only [hdest] at hB
  exact .forever (hexprs' ▸ hget) hB

theorem closeDoWhile_cases (h : a.closeDoWhile f = some r) :
    ∃ j p c x, a.graph.jumpsTo f f = [j] ∧ a.outer (a.jump j).source = some p ∧
      a.statement p = .conditional c x ∧ a.blocks.chainTail (a.root f) = p ∧
      r = (a.removeJump f j).formDoWhile f p c := by
  rw [Analysis.closeDoWhile] at h
  split at h
  next j hj =>
    simp only [Option.bind_eq_bind, Option.bind_eq_some_iff] at h
    obtain ⟨p, hp, h⟩ := h
    split at h
    next c x hs =>
      rw [guard_bind_eq_some] at h
      exact ⟨j, p, c, x, hj, hp, hs, h.1.1, (Option.some.inj h.2).symm⟩
    next => simp at h
  next => simp at h

/-- What is left of a tree becomes the body of a loop, and the loop gets a jump of the tree. The
block that has held the jump may lose it on the way. -/
theorem WellFormed.hoop {a₃ v : Analysis} {T₃ : Tree} (h : a.WellFormed L) (kind : LoopKind)
    (c : ExprId) (hf : L f) (hm₃ : Moves (fun _ ↦ False) L f T₃ a a₃)
    (hk₃ : a.graph.Keeps a₃.graph)
    (hother₃ : ∀ j, j ∉ a.graph.listed f → (a₃.jump j).source = (a.jump j).source)
    (hX : Spare X L f a₃ a₃) (hnew : ∀ b, X b → a.blocks.size ≤ b.index)
    (hN : a₃.blocks.Holds o N) (hn : N.ids.Nodup) (hsub : ∀ b ∈ N.ids, b ∈ T₃.ids ∨ X b)
    (hsourced : a₃.Sourced N) (htidy : N.Tidy)
    (hjumps : ∀ i, i ∈ (a.tree f).jumps ↔ e = some i ∨ i ∈ N.jumps)
    (he : ∀ i, e = some i → i ∉ N.jumps)
    (hv : v = (a₃.makeLoop f kind c N.id).1 ∨ v = (a₃.makeLoop f kind c N.id).1.setJumpOf p none ∧ p ∈ (a.tree f).ids ∧ p ∉ N.ids) :
    ∃ B, Tree.Bodied (fun j ↦ (a.jump j).destination ≠ f) N B ∧
      Moves (fun _ ↦ False) L f (.node (a₃.makeLoop f kind c N.id).2 e (.loop kind c none false) [B])
        a (v.setExit (a₃.makeLoop f kind c N.id).2 e) ∧
      (v.setExit (a₃.makeLoop f kind c N.id).2 e).WellFormed L ∧
      a.graph.Keeps (v.setExit (a₃.makeLoop f kind c N.id).2 e).graph ∧
      (v.setExit (a₃.makeLoop f kind c N.id).2 e).content = a₃.content ∧
      a.blocks.size ≤ (a₃.makeLoop f kind c N.id).2.index ∧
      Blocks.Off (· ∈ N.ids) a₃.blocks (a₃.makeLoop f kind c N.id).1.blocks := by
  have hlisted : ∀ i, e = some i ∨ i ∈ N.jumps → i ∈ a.graph.listed f := fun i hi ↦
    (h.mem_jumps hf).mp ((hjumps i).mpr hi)
  have hlt : ∀ i, e = some i ∨ i ∈ N.jumps → i.index < a₃.graph.jumps.size := fun i hi ↦
    hk₃.jumps_size ▸ h.linked.lt_size (h.linked.mem_listed.mp (hlisted i hi))
  have hown : ∀ i, N.jump = some i → i ∈ N.jumps := fun i hi ↦
    Tree.mem_jumps.mpr ⟨N.id, Tree.mem_held.mpr ⟨N, N.mem_nodes_self, rfl, hi⟩⟩
  obtain ⟨B, hB, hm, hk, hs, hids, hoff, hc, hw, hother⟩ := hm₃.planted.makeLoop kind c hf
    hX hN hn (hm₃.tree ▸ hsub) (fun i hi ↦ hlt i (.inr (hown i hi))) hsourced
  have hm₄ := hm₃.trans hm fun b hb ↦ .inr (.inr (hnew b hb))
  generalize (a₃.makeLoop f kind c N.id).2 = w at *
  generalize (a₃.makeLoop f kind c N.id).1 = a₄ at *
  have hv' : Moves (fun _ ↦ False) L f (.node w none (.loop kind c none false) [B]) a v ∧
      v.graph = a₄.graph ∧ v.content = a₄.content := by
    rcases hv with rfl | ⟨rfl, hp, hpN⟩
    · exact ⟨hm₄, rfl, rfl⟩
    · refine ⟨hm₄.clear h.planted hf hp (fun hb ↦ ?_) none, rfl, rfl⟩
      have hlt : p.index < a.blocks.size := (h.planted.holds f hf).lt_of_mem_ids hp
      have hle := hm₃.blocks.off.size_le
      rcases List.mem_cons.mp (by rwa [Tree.ids] at hb) with rfl | hb
      · omega
      · rcases hids p (by simpa using hb) with hb | hb
        · exact hpN hb
        · omega
  obtain ⟨hmv, hgv, hcv⟩ := hv'
  have hmw := hmv.setExit hf e
  have hsource : ∀ i, ((v.setExit w e).jump i).source =
      if e = some i then w else (a₄.jump i).source := fun i ↦ by
    rw [source_setExit (fun i hi ↦ ?_), jump, hgv, jump]
    rw [hgv, hk.jumps_size]
    exact hlt i (.inl hi)
  obtain ⟨hk', hc'⟩ := fields_setExit v w e
  have hkeeps := ((hk₃.trans hk).trans (hgv ▸ .refl _)).trans hk'
  have hdest : ∀ i, (a₃.jump i).destination = (a.jump i).destination := hk₃.destination
  simp only [hdest] at hB
  refine ⟨B, hB, hmw, ?_, hkeeps, (hc'.trans hcv).trans hc, hm₃.blocks.off.size_le.trans hw, hoff⟩
  have hheld : ∀ b i, (b, i) ∈ (Tree.node w e (.loop kind c none false) [B]).held ↔
      (b = w ∧ e = some i) ∨ (b, i) ∈ B.held := fun b i ↦ by
    simp [Tree.held, and_comm, eq_comm]
  refine h.rehang hf hmw hkeeps (fun i ↦ ?_) (fun b i hi ↦ ?_) (fun i hi ↦ ?_)
    (Tree.tidy_node.mpr ⟨by simp, by simpa using hB.tidy htidy⟩)
  · rw [hjumps, ← hB.mem_jumps]
    simp only [Tree.mem_jumps, hheld, exists_or, exists_eq_left]
  · rw [hsource]
    rcases (hheld b i).mp hi with ⟨hb, hi⟩ | hi
    · rw [if_pos hi, hb]
    · rw [if_neg fun he' ↦ he i he' ((hB.mem_jumps i).mp (Tree.mem_jumps.mpr ⟨b, hi⟩))]
      exact hs b i hi
  · rw [hsource, if_neg fun he' ↦ hi (hlisted i (.inl he')),
      hother i fun hi' ↦ hi (hlisted i (.inr (hown i hi'))), hother₃ i hi]

/-- What is left once the test at the end of a tree is taken away. -/
inductive Tested (C : List Frame) : Tree → Prop
  | only (n : BlockId) : C = [] → Tested C (.node n none .empty [])
  | after (q : BlockId) (P : Tree) (D : List Frame) : C = ⟨q, none, .sequence, [P], []⟩ :: D →
    Tested C (plug D P)

theorem WellFormed.formDoWhile (h : a.WellFormed L) (hf : L f)
    (hT : a.tree f = plug C (.node p e (.conditional c) [.node t none .empty []]))
    (hC : ∀ F ∈ C, F.IsRest) :
    ∃ N, Tested C N ∧
      Moves (fun _ ↦ False) L f
        (.node (a.formDoWhile f p c).2 e (.loop .doWhile c none false) [N]) a
        (a.formDoWhile f p c).1 ∧
      (a.formDoWhile f p c).1.WellFormed L ∧ a.graph.Keeps (a.formDoWhile f p c).1.graph ∧
      (a.formDoWhile f p c).1.content = a.content ∧
      a.blocks.size ≤ (a.formDoWhile f p c).2.index := by
  have hat := h.planted.at_of_plug hf hT
  have hjump : a.jumpOf p = e := hat.holds.jump
  have htidy := h.tidy f hf
  have hroot : (a.setJumpOf p none).root f = a.root f := rfl
  have hr := h.planted.setJumpOf hf hT none
  simp only [Analysis.formDoWhile, hjump, hroot]
  cases C with
  | nil =>
    have hp : p = a.root f := by rw [← id_tree, hT]; rfl
    rw [if_pos hp]
    obtain ⟨hra, hloose⟩ := hr.planted.alloc (s := .empty) hf rfl
    obtain ⟨o, ho⟩ := hloose.holds
    have hsize : (a.setJumpOf p none).blocks.size = a.blocks.size := by
      simp [Analysis.setJumpOf, Blocks.setJump, Blocks.modify, Blocks.size]
    have hfresh : ∀ b ∈ (Tree.node ⟨(a.setJumpOf p none).blocks.size⟩ none .empty []).ids,
        a.blocks.size ≤ b.index := by simp [Tree.ids, hsize]
    have hjumps : ∀ i, i ∈ (a.tree f).jumps ↔ e = some i ∨
        i ∈ (Tree.node ⟨(a.setJumpOf p none).blocks.size⟩ none .empty []).jumps := fun i ↦ by
      rw [hT]
      simp [Tree.jumps, Tree.held]
    obtain ⟨B, hB, hm, hwf, hk, hc, hnew, -⟩ := h.hoop (p := p) _ c hf
      (hr.andThen hra).toMoves (hr.andThen hra).graph (fun j _ ↦ (hr.andThen hra).source j)
      hloose.spare hfresh ho hloose.nodup (fun _ hb ↦ .inr hb) (by simp [Sourced, Tree.held])
      (Tree.tidy_leaf (by simp [Statement.kind])) hjumps (by simp [Tree.jumps, Tree.held])
      (.inl rfl)
    obtain rfl := hB.eq rfl
    exact ⟨_, .only _ rfl, hm, hwf, hk, hc, hnew⟩
  | cons F D =>
    obtain ⟨q, j, k, before, after⟩ := F
    obtain ⟨rfl, rfl, P, rfl⟩ := hC _ (.head _)
    obtain ⟨rfl, hP⟩ := h.sequence hf hT
    have hp : p ≠ a.root f := by
      rw [← id_tree, hT]
      intro he
      refine hat.disjoint (Tree.id_mem_ids _) ((Blocks.map_id_sublist _).subset ?_)
      rw [he]
      exact Blocks.id_plug_mem (by simp)
    rw [if_neg hp]
    have hT' : a.tree f = plug D (.node q none .sequence
        [P, .node p e (.conditional c) [.node t none .empty []]]) := hT
    obtain ⟨hrm, -⟩ := hr.planted.removeStatement
      hf hr.tree (.inr rfl) rfl
    have hr₃ := hr.andThen hrm
    have hheld : ∀ b i, (b, i) ∈ (a.tree f).held ↔
        (b = p ∧ e = some i) ∨ (b, i) ∈ (plug D P).held := fun b i ↦ by
      rw [hT', mem_held_plug, mem_held_plug]
      simp [Tree.held, and_comm, eq_comm, or_assoc, or_left_comm]
    have hpD : p ∉ (plug D P).ids := fun hb ↦ by
      refine hat.disjoint (Tree.id_mem_ids _) ?_
      rw [mem_ids_plug] at hb
      simpa [Frame.ids] using Or.inr hb
    have hsource : ∀ b i, (b, i) ∈ (plug D P).held → (a.jump i).source = b := fun b i hi ↦
      h.sourced hf b i ((hheld b i).mpr (.inr hi))
    have he : ∀ i, e = some i → i ∉ (plug D P).jumps := by
      rintro i rfl hi
      obtain ⟨b, hb⟩ := Tree.mem_jumps.mp hi
      have hb' := h.sourced hf p i ((hheld p i).mpr (.inl ⟨rfl, rfl⟩))
      exact hpD (hb' ▸ hsource b i hb ▸ Tree.mem_ids_of_held hb)
    have hjumps : ∀ i, i ∈ (a.tree f).jumps ↔ e = some i ∨ i ∈ (plug D P).jumps := fun i ↦ by
      simp only [Tree.mem_jumps, hheld, exists_or, exists_eq_left]
    have htidy' : (plug D P).Tidy := by
      rw [hT'] at htidy
      exact htidy.plug ((Tree.tidy_node.mp htidy.of_plug).2 P (.head _)) fun hp ↦ absurd rfl hp.2
    have hbody : ((a.setJumpOf p none).removeStatement p).root f = (plug D P).id := by
      rw [← id_tree, ← hr₃.tree]
      rfl
    rw [hbody]
    obtain ⟨B, hB, hm, hwf, hk, hc, hnew, -⟩ := h.hoop (p := p) _ c hf hr₃.toMoves hr₃.graph
      (fun j _ ↦ hr₃.source j) spare_none (fun _ ↦ False.elim) (hr₃.tree ▸ hr₃.planted.holds f hf)
      (hr₃.tree ▸ hr₃.planted.nodup f hf) (fun _ hb ↦ .inl hb)
      (fun b i hi ↦ (hr₃.source i).trans (hsource b i hi)) htidy' hjumps he (.inl rfl)
    have hroot : (plug D P).jump = none := htidy'.jump_plug_rest hP.1 fun F hF ↦ hC F (.tail _ hF)
    obtain rfl := hB.eq hroot
    exact ⟨_, .after q P D rfl, hm, hwf, hk, hc.trans (content_removeStatement _ _), hnew⟩

theorem WellFormed.closeDoWhile (h : a.WellFormed L) (hf : L f) (hb : (a.tree f).Branching)
    (hr : a.closeDoWhile f = some r) :
    LoopMade L f r.2 .doWhile a r.1 ∧ r.1.graph.jumpsTo f f = [] := by
  obtain ⟨j, p, c, x, hj, hp, hs, htail, rfl⟩ := closeDoWhile_cases hr
  have hmem : j ∈ a.graph.jumpsTo f f := by simp [hj]
  have hl := h.linked.mem_listed_of_mem hmem
  obtain ⟨D, B, hT, hB, hBj⟩ := h.exists_holder hf hl
  have hat := h.planted.at_of_plug hf hT
  rw [← hB] at hp
  obtain ⟨-, e, C, rfl⟩ := hat.only_child hp (congrArg Statement.children hs)
  rw [show a.blocks.statement p = _ from hs] at hT hat
  obtain ⟨y, hy, hyc, hyk⟩ := hb (.node p e (.conditional c) [B])
    (by rw [hT]; exact mem_nodes_plug) c rfl
  obtain rfl : B = y := by simpa using hy
  obtain ⟨t, k, kind, l⟩ := B
  obtain rfl : k = some j := hBj
  obtain rfl : kind = .empty := by simpa using hyk
  obtain rfl : l = [] := hyc
  obtain ⟨C₁, s, hs', hC, -, hs''⟩ := Blocks.exists_chainTail (h.planted.holds f hf)
    (h.planted.nodup f hf)
  rw [id_tree, htail] at hs''
  obtain ⟨rfl, -⟩ := plug_inj (C := C)
    (hT ▸ h.planted.nodup f hf) (hT.symm.trans hs') hs''
  obtain ⟨hm₁, h₁, hg₁⟩ := h.removeJump hf hl hT rfl
  have hc₁ := content_removeJump a f j
  obtain ⟨he₁, hself⟩ := Evolved.of_unlink h hf hmem h₁ ⟨_, hm₁⟩ (hg₁ ▸ .refl _)
    (.of_eq (congrArg Prod.fst hc₁ :))
  generalize a.removeJump f j = a₁ at *
  obtain ⟨N, hN, hm₂, h₂, hk₂, hc₂, hnew⟩ := h₁.formDoWhile hf hm₁.tree hC
  generalize a₁.formDoWhile f p c = r at *
  have he₂ : Evolved L f f a₁ r.1 := .of_keeps h₂ hm₂ hk₂
    (.of_eq (congrArg Prod.fst hc₂ :))
  refine ⟨⟨he₁.trans he₂, ?_, hm₁.blocks.off.size_le.trans hnew⟩, ?_⟩
  · rw [hm₂.tree, hT]
    have hd := h.linked.destination hmem
    cases hN with
    | only n hC =>
      subst hC
      exact .doWhileOnly hd
    | after q P D hC' =>
      subst hC'
      exact .doWhile (fun F hF ↦ hC F (.tail _ hF)) hd
  · rw [hk₂.jumpsTo, hself, hj]
    simp

theorem jump_hang (t : Blocks) (C : List Frame) (old new x : BlockId) :
    (t.hang C old new).jump x = t.jump x := by
  cases C with
  | nil => simp [Blocks.hang]
  | cons F C =>
    rw [Blocks.hang, Blocks.replaceChild]
    split <;> simp

theorem jumpOf_removeStatement {Y : Tree} (h : a.Planted L) (hf : L f)
    (hT : a.tree f = plug C (.node q none .sequence l)) (hl : l = [B, Y] ∨ l = [Y, B])
    (hB : B.jump = none) (x : BlockId) : (a.removeStatement B.id).jumpOf x = a.jumpOf x := by
  rw [removeStatement_eq h hf hT hl hB, (graph_retargetGrowth ..).1]
  refine (congrArg (Blocks.jump · x) (blocks_put ..)).trans ?_
  rw [jump_hang]
  exact Blocks.jump_setOuter ..

theorem Loose.setJumpOf (h : a.Planted L) (hf : L f) (hN : a.Loose L N) (j : Option JumpId) :
    Reshapes (· ∈ N.ids) L f (a.tree f) a (a.setJumpOf N.id j) ∧
      (a.setJumpOf N.id j).Loose L (N.withJump j) := by
  obtain ⟨o, ho⟩ := hN.holds
  have hout : N.id ∉ (a.tree f).ids := fun hb ↦ hN.apart f hf N.id_mem_ids hb
  have hr : Reshapes (· ∈ N.ids) L f (a.tree f) a (a.setJumpOf N.id j) := by
    refine h.reshapes hf hN.spare ⟨(Blocks.Off.refl _ _).setJump (.inl (.inr N.id_mem_ids)) j,
      h.linked.setJump _ j, (h.holds f hf).modify (h.nodup f hf) hout _, h.nodup f hf,
      fun _ hb ↦ .inl hb⟩ (.refl _) (fun _ ↦ rfl) (id_tree a f).symm (fun _ _ ↦ rfl)
      (fun _ _ _ ↦ rfl) (.inl rfl) rfl
  have htree : ∀ g, L g → (a.setJumpOf N.id j).tree g = a.tree g := fun g hg ↦ by
    by_cases hgf : g = f
    · rw [hgf, hr.tree]
    · exact hr.other g hg hgf
  refine ⟨hr, ⟨o, ho.setJump hN.nodup j⟩, by simpa using hN.nodup, fun g hg ↦ ?_, fun g hg ↦ ?_,
    fun g hg ↦ ?_⟩
  · rw [Tree.ids_withJump, htree g hg]
    exact hN.apart g hg
  · rw [Tree.ids_withJump]
    exact hN.growth g hg
  · rw [Tree.ids_withJump]
    exact hN.root g hg

theorem closeWhile_cases (h : a.closeWhile f = some r) :
    ∃ p c t i, a.blocks.chainHead (a.root f) = p ∧ a.statement p = .conditional c t ∧
      a.jumpOf t = some i ∧ (a.jump i).destination ≠ f ∧ a.statement t = .empty ∧
      r = a.formWhile f p t c := by
  rw [Analysis.closeWhile] at h
  split at h
  next c t hs =>
    simp only [Option.bind_eq_bind] at h
    rw [Option.bind_eq_some_iff] at h
    obtain ⟨i, hi, h⟩ := h
    rw [guard_bind_eq_some, guard_bind_eq_some] at h
    exact ⟨_, c, t, i, rfl, hs, hi, h.1.1, h.1.2.1, (Option.some.inj h.2.2).symm⟩
  next => simp at h

theorem moveJump_eq_setExit (ht : a.jumpOf t = some i) :
    a.moveJump t w = (a.setJumpOf t none).setExit w (some i) := by
  rw [Analysis.moveJump, ht]
  rfl

theorem WellFormed.negate (h : a.WellFormed L) (hf : L f) (c : ExprId) :
    Reshapes (fun _ ↦ False) L f (a.tree f) a (a.negate c).1 ∧ (a.negate c).1.WellFormed L ∧
      Evolved L f f a (a.negate c).1 ∧ (a.negate c).1.exprs.Negates c (a.negate c).2 := by
  obtain ⟨hr, h₁⟩ := h.beside hf (show (a.negate c).1.blocks = _ from rfl) rfl rfl
  exact ⟨hr, h₁, .of_keeps h₁ hr.toMoves hr.graph (a.exprs.extends_negate c),
    a.exprs.negates_negate c⟩

theorem WellFormed.formWhile_first {Y : Tree} (h : a.WellFormed L) (hf : L f)
    (hT : a.tree f = .node q none .sequence [.node p none (.conditional c) [.node t (some i) .empty []], Y])
    (hi : (a.jump i).destination ≠ f) :
    LoopMade L f (a.formWhile f p t c).2 .whileLoop a (a.formWhile f p t c).1 := by
  obtain ⟨hr₁, h₁, he₁, hneg⟩ := h.negate hf c
  have hgraph : (a.negate c).1.graph = a.graph := rfl
  have hroot : (a.negate c).1.root f = q := by rw [← id_tree, hr₁.tree, hT]; rfl
  have hn := h.planted.nodup f hf
  rw [hT] at hn
  have hpq : p ≠ q := by
    rintro rfl
    simp [Tree.ids] at hn
  simp only [Analysis.formWhile, hroot, if_neg hpq]
  generalize (a.negate c).2 = c' at *
  generalize (a.negate c).1 = a₁ at *
  have hT₁ : a₁.tree f = _ := hr₁.tree.trans hT
  obtain ⟨hr₂, -⟩ := h₁.planted.removeStatement (C := [])
    hf hT₁ (.inl rfl) rfl
  have hjump := jumpOf_removeStatement (C := []) h₁.planted hf hT₁ (.inl rfl) rfl
  have hbody : (a₁.removeStatement p).root f = Y.id := by
    rw [← id_tree]
    exact congrArg Tree.id hr₂.tree
  have hjt : (a₁.removeStatement p).jumpOf t = some i := by
    have hholds := (h₁.planted.holds f hf).child (c := .node p none (.conditional c)
      [.node t (some i) .empty []]) (by simp [hT₁])
    exact (hjump t).trans (hholds.child (.head _)).jump
  have hc₂ := content_removeStatement a₁ p
  rw [hbody]
  change Reshapes _ L f Y a₁ (a₁.removeStatement p) at hr₂
  generalize a₁.removeStatement p = a₂ at *
  have hheld : ∀ b k, (b, k) ∈ (a₁.tree f).held ↔ (b = t ∧ k = i) ∨ (b, k) ∈ Y.held :=
    fun b k ↦ by simp [hT₁, Tree.held]
  have htY : t ∉ Y.ids := fun ht ↦ by
    simp only [Tree.ids, List.flatMap_cons, List.flatMap_nil, List.append_nil, List.nodup_cons,
      List.nodup_append, List.mem_cons] at hn
    exact hn.2.2.2 t (.inr (.inl rfl)) t ht rfl
  have hmem : t ∈ (a₁.tree f).ids := by simp [hT₁, Tree.ids]
  have hsource : ∀ b k, (b, k) ∈ Y.held → (a₁.jump k).source = b := fun b k hk ↦
    h₁.sourced hf b k ((hheld b k).mpr (.inr hk))
  have he : ∀ k, some i = some k → k ∉ Y.jumps := by
    rintro k hik hk
    cases hik
    obtain ⟨b, hb⟩ := Tree.mem_jumps.mp hk
    have hb' := h₁.sourced hf t i ((hheld t i).mpr (.inl ⟨rfl, rfl⟩))
    exact htY (hb' ▸ hsource b i hb ▸ Tree.mem_ids_of_held hb)
  have hjumps : ∀ k, k ∈ (a₁.tree f).jumps ↔ some i = some k ∨ k ∈ Y.jumps := fun k ↦ by
    simp only [Tree.mem_jumps, hheld, exists_or, exists_eq_left, Option.some.injEq, @eq_comm _ i]
  have htidy : Y.Tidy := (Tree.tidy_node.mp (hT₁ ▸ h₁.tidy f hf)).2 Y (by simp)
  obtain ⟨B, hB, hm, hwf, hk, hc, hnew, hoff⟩ := h₁.hoop .whileLoop c' hf
    hr₂.toMoves hr₂.graph (fun j _ ↦ hr₂.source j) spare_none (fun _ ↦ False.elim)
    (hr₂.tree ▸ hr₂.planted.holds f hf) (hr₂.tree ▸ hr₂.planted.nodup f hf) (fun _ hb ↦ .inl hb)
    (fun b k hk ↦ (hr₂.source k).trans (hsource b k hk)) htidy hjumps he (.inr ⟨rfl, hmem, htY⟩)
  have hlt : t.index < a₂.blocks.size :=
    ((h₁.planted.holds f hf).lt_of_mem_ids hmem).trans_le hr₂.blocks.off.size_le
  rw [moveJump_eq_setExit (((hoff.same t hlt htY).2.1).trans hjt)]
  simp only [jump, hgraph] at hB
  exact he₁.loopMade hwf hm hk (hc.trans hc₂) hnew fun hex ↦
    hT ▸ .while hi (hneg.mono hex) hB

theorem WellFormed.handDown (h : a.WellFormed L) (hf : L f) (hT : a.tree f = plug C B)
    (hN : a.Loose L N) (hNj : N.jump = none) :
    Moves (· ∈ N.ids) L f (plug C (B.withJump none)) a (a.moveJump B.id N.id) ∧
      a.graph.Keeps (a.moveJump B.id N.id).graph ∧
      (a.moveJump B.id N.id).Loose L (N.withJump B.jump) ∧
      ∀ i, ((a.moveJump B.id N.id).jump i).source =
        if B.jump = some i then N.id else (a.jump i).source := by
  have hjump : a.jumpOf B.id = B.jump := (h.planted.at_of_plug hf hT).holds.jump
  cases hj : B.jump with
  | none =>
    rw [moveJump_of_none (hjump.trans hj), show B.withJump none = B by rw [← hj, B.withJump_jump],
      show N.withJump none = N by rw [← hNj, N.withJump_jump]]
    exact ⟨hT ▸ (h.planted.unchanged hf).mono (fun _ ↦ False.elim), .refl _, hN, fun i ↦ by simp⟩
  | some k =>
    obtain ⟨hkl, -, -⟩ := h.unique_holder hf hT hj
    have h₂ := h.planted.setJumpOf hf hT none
    have hl₂ := hN.moves hf h₂.toMoves fun _ ↦ False.elim
    obtain ⟨h₃, hl₃⟩ := hl₂.setJumpOf h₂.planted hf (some k)
    have h₄ := h₃.planted.setSource hf k N.id
    rw [h₃.tree, h₂.tree] at h₄
    have hmoves := (h₂.toMoves.transX h₃.toMoves).andThen h₄
    have heq : a.moveJump B.id N.id = ((a.setJumpOf B.id none).setJumpOf N.id (some k)).modifyJump k
        ({ · with source := N.id }) := by rw [Analysis.moveJump, hjump, hj]
    refine ⟨heq ▸ hmoves, heq ▸ .modifyJump .., heq ▸ hl₃.moves hf h₄ fun _ ↦ False.elim, fun i ↦ ?_⟩
    rw [heq, jump, Analysis.modifyJump, FlowGraph.jump_modifyJump]
    by_cases hik : i = k
    · have hlt : k.index < a.graph.jumps.size := h.linked.lt_size (h.linked.mem_listed.mp hkl)
      subst hik
      rw [if_pos ⟨rfl, hlt⟩, if_pos rfl]
    · rw [if_neg fun h ↦ hik h.1, if_neg fun h ↦ hik (Option.some.inj h).symm]
      rfl

theorem WellFormed.setDown (h : a.WellFormed L) (hf : L f) (hT : a.tree f = plug C B) :
    Moves (fun _ ↦ False) L f (plug C (B.withJump none)) a
        ((a.alloc .empty).1.moveJump B.id (a.alloc .empty).2) ∧
      a.graph.Keeps ((a.alloc .empty).1.moveJump B.id (a.alloc .empty).2).graph ∧
      ((a.alloc .empty).1.moveJump B.id (a.alloc .empty).2).Loose L
        (.node (a.alloc .empty).2 B.jump .empty []) ∧
      (∀ i, (((a.alloc .empty).1.moveJump B.id (a.alloc .empty).2).jump i).source =
        if B.jump = some i then (a.alloc .empty).2 else (a.jump i).source) ∧
      ((a.alloc .empty).1.moveJump B.id (a.alloc .empty).2).content = a.content := by
  obtain ⟨hr, hloose⟩ := h.planted.alloc (s := .empty) hf rfl
  have hwf := h.reshapes hr (fun _ ↦ Iff.rfl) (h.tidy f hf)
  obtain ⟨hm, hk, hl, hsource⟩ := hwf.handDown hf (hr.tree.trans hT) hloose rfl
  refine ⟨hr.toMoves.trans hm fun b hb ↦ .inr (.inr ?_), hr.graph.trans hk, hl, fun i ↦ ?_,
    (content_moveJump ..).trans rfl⟩
  · obtain rfl : b = ⟨a.blocks.size⟩ := by simpa [Tree.ids] using hb
    exact le_rfl
  · exact hsource i

theorem WellFormed.formWhile_only (h : a.WellFormed L) (hf : L f)
    (hT : a.tree f = .node p e (.conditional c) [.node t (some i) .empty []])
    (hi : (a.jump i).destination ≠ f) :
    LoopMade L f (a.formWhile f p t c).2 .whileLoop a (a.formWhile f p t c).1 := by
  obtain ⟨hr₁, h₁, he₁, hneg⟩ := h.negate hf c
  have hgraph : (a.negate c).1.graph = a.graph := rfl
  have hroot : (a.negate c).1.root f = p := by rw [← id_tree, hr₁.tree, hT]; rfl
  simp only [Analysis.formWhile, hroot, if_true]
  generalize (a.negate c).2 = c' at *
  generalize (a.negate c).1 = a₁ at *
  have hT₁ : a₁.tree f = plug [] (.node p e (.conditional c) [.node t (some i) .empty []]) :=
    hr₁.tree.trans hT
  obtain ⟨hm₂, hk₂, hloose, hsource₂, hc₂⟩ := h₁.setDown hf hT₁
  have hfresh : a₁.blocks.size ≤ (a₁.alloc .empty).2.index := le_rfl
  change Moves _ L f _ a₁ ((a₁.alloc .empty).1.moveJump p (a₁.alloc .empty).2) at hm₂
  change FlowGraph.Keeps _ ((a₁.alloc .empty).1.moveJump p (a₁.alloc .empty).2).graph at hk₂
  change ((a₁.alloc .empty).1.moveJump p (a₁.alloc .empty).2).Loose L
    (.node (a₁.alloc .empty).2 e .empty []) at hloose
  change ((a₁.alloc .empty).1.moveJump p (a₁.alloc .empty).2).content = _ at hc₂
  change ∀ i, (((a₁.alloc .empty).1.moveJump p (a₁.alloc .empty).2).jump i).source =
    if e = some i then (a₁.alloc .empty).2 else (a₁.jump i).source at hsource₂
  generalize (a₁.alloc .empty).1.moveJump p (a₁.alloc .empty).2 = a₂ at *
  generalize (a₁.alloc .empty).2 = n at *
  obtain ⟨o, ho⟩ := hloose.holds
  have hn := h₁.planted.nodup f hf
  have hpt : p ≠ t := by
    rintro rfl
    simp [hT₁, Tree.ids] at hn
  have hheld : ∀ b k, (b, k) ∈ (a₁.tree f).held ↔ (b = p ∧ e = some k) ∨ (b = t ∧ k = i) :=
    fun b k ↦ by simp [hT₁, Tree.held, and_comm, eq_comm]
  have hmem : t ∈ (a₁.tree f).ids := by simp [hT₁, Tree.ids]
  have hlt : t.index < a₁.blocks.size := (h₁.planted.holds f hf).lt_of_mem_ids hmem
  have htn : t ∉ (Tree.node n e .empty []).ids := by
    simp only [Tree.ids, List.flatMap_nil, List.mem_singleton]
    rintro rfl
    omega
  have he : ∀ k, some i = some k → k ∉ (Tree.node n e .empty []).jumps := by
    rintro k hik hk
    cases hik
    have hk' : e = some i := by simpa [Tree.jumps, Tree.held] using hk
    exact hpt ((h₁.sourced hf p i ((hheld p i).mpr (.inl ⟨rfl, hk'⟩))).symm.trans
      (h₁.sourced hf t i ((hheld t i).mpr (.inr ⟨rfl, rfl⟩))))
  have hjumps : ∀ k, k ∈ (a₁.tree f).jumps ↔ some i = some k ∨
      k ∈ (Tree.node n e .empty []).jumps := fun k ↦ by
    simp only [Tree.mem_jumps, hheld, exists_or]
    simp [Tree.held, or_comm, @eq_comm _ k]
  have hsourced : a₂.Sourced (.node n e .empty []) := fun b k hk ↦ by
    obtain ⟨hke, hnb⟩ : e = some k ∧ n = b := by simpa [Tree.held] using hk
    rw [hsource₂, if_pos hke, hnb]
  have hother : ∀ j, j ∉ a₁.graph.listed f → (a₂.jump j).source = (a₁.jump j).source := by
    intro j hj
    rw [hsource₂, if_neg]
    exact fun hj' ↦ hj ((h₁.holding f hf p j).mp ((hheld p j).mpr (.inl ⟨rfl, hj'⟩))).1
  obtain ⟨B, hB, hm, hwf, hk, hc, hnew, hoff⟩ := h₁.hoop .whileLoop c' hf
    hm₂ hk₂ hother hloose.spare (by simpa [Tree.ids] using hfresh) ho hloose.nodup
    (fun _ hb ↦ .inr hb) hsourced (Tree.tidy_leaf (by simp)) hjumps he (.inr ⟨rfl, hmem, htn⟩)
  have hjt : a₂.jumpOf t = some i := by
    have hholds := hm₂.planted.holds f hf
    rw [hm₂.tree] at hholds
    exact (hholds.child (.head _)).jump
  have hlt₂ : t.index < a₂.blocks.size := hlt.trans_le hm₂.blocks.off.size_le
  rw [Tree.id_node] at hwf hm hk hc hnew hoff
  rw [moveJump_eq_setExit (((hoff.same t hlt₂ htn).2.1).trans hjt)]
  simp only [jump, hgraph] at hB
  exact he₁.loopMade hwf hm hk (hc.trans hc₂) hnew fun hex ↦
    hT ▸ .whileOnly hi (hneg.mono hex) hB

theorem exists_test (hN : a.blocks.Holds o N) (hs : a.statement N.id = .conditional c t)
    (ht : a.jumpOf t = some i) (he : a.statement t = .empty) :
    N = .node N.id N.jump (.conditional c) [.node t (some i) .empty []] := by
  have hk : N.kind = .conditional c := hN.kind.symm.trans (congrArg Statement.kind hs)
  have hc : [t] = N.children.map Tree.id :=
    (congrArg Statement.children hs).symm.trans hN.children
  obtain ⟨x, hx⟩ : ∃ x, N.children = [x] := List.length_eq_one_iff.mp (by
    simpa using (congrArg List.length hc).symm)
  obtain rfl : t = x.id := by simpa [hx] using hc
  have hX := hN.child (hx ▸ List.mem_singleton_self x)
  obtain ⟨hxk, hxc⟩ := (statement_eq_empty hX).mp he
  have hxj : x.jump = some i := hX.jump.symm.trans ht
  obtain ⟨n, nj, nk, nc⟩ := N
  obtain ⟨y, yj, yk, yc⟩ := x
  simp only [Tree.kind_node, Tree.children_node, Tree.jump_node, Tree.id_node] at *
  rw [hk, hx, hxk, hxc, hxj]

theorem WellFormed.closeWhile (h : a.WellFormed L) (hf : L f) (hr : a.closeWhile f = some r) :
    LoopMade L f r.2 .whileLoop a r.1 := by
  obtain ⟨p, c, t, i, hp, hs, ht, hd, he, rfl⟩ := closeWhile_cases hr
  have hholds := h.planted.holds f hf
  have hcases := Blocks.chainHead_eq hholds (h.planted.nodup f hf)
  rw [id_tree, hp] at hcases
  rcases hcases with ⟨-, rfl⟩ | ⟨j, X, Y, hT, rfl⟩
  · rw [← id_tree] at hs ⊢
    exact h.formWhile_only hf (exists_test hholds hs ht he) hd
  · have hX : a.blocks.Holds (some (a.root f)) X := by
      rw [hT] at hholds
      exact hholds.child (List.mem_cons_self ..)
    obtain ⟨rfl, hjump, -⟩ := h.sequence (C := []) hf hT
    rw [exists_test hX hs ht he, hjump] at hT
    exact h.formWhile_first hf hT hd

end Loop

end Analysis

end Decompile
