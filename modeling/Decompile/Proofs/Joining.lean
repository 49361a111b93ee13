import Decompile.Proofs.Absorbing
import Decompile.Proofs.Resolving
import Decompile.Reduction.Sequence

namespace Decompile

namespace Tree

/-- What stands in the place of the last statement `B` once `S` follows it. Of a void statement
there is only the jump. -/
inductive FollowedBy (B S : Tree) : Tree → Prop
  | void : S.kind = .empty → S.children = [] → FollowedBy B S (B.withJump S.jump)
  | sequence (q : BlockId) : ¬ (S.kind = .empty ∧ S.children = []) →
    FollowedBy B S (.node q none .sequence [B, S])

end Tree

namespace Analysis

variable {a a' a₁ : Analysis} {L : FlowId → Prop} {X : BlockId → Prop} {f g s : FlowId} {j : JumpId}
  {C : List Frame} {B T : Tree}

section Merge

theorem Absorbed.live (h : Absorbed f s a a') : a'.Live g ↔ a.Live g ∧ g ≠ s := by
  rw [Live, Live, h.flows_size, h.alive]
  by_cases hg : g = s <;> simp [hg]

theorem Absorbed.listed (h : Absorbed f s a a') (hl : a.graph.Linked) (hfs : f ≠ s) :
    j ∈ a'.graph.listed g ↔
      g ≠ s ∧ (j ∈ a.graph.listed g ∨ g = f ∧ j ∈ a.graph.listed s) := by
  rw [h.linked.mem_listed, show (a'.graph.jump j).destination = _ from h.destination j, h.jumpsTo,
    hl.mem_listed, hl.mem_listed]
  by_cases hg : g = s
  · simp [hg]
  · by_cases hgf : g = f <;> simp [hg, hgf, hfs, jump]

/-- The tree of `f` has taken in that of `s`, with its jumps. -/
structure Engulfs (L : FlowId → Prop) (f s : FlowId) (T : Tree) (a a₁ : Analysis) : Prop where
  blocks : Blocks.Grafted (· ∈ (a.tree s).ids) (a.tree f) T a.blocks a₁.blocks
  graph : a.graph.Keeps a₁.graph
  root : a₁.root f = T.id
  roots : ∀ g, g ≠ f → a₁.root g = a.root g
  growth : ∀ g, g ≠ f → (a₁.flow g).growth = (a.flow g).growth
  grown : (a₁.flow f).growth ∈ T.ids ∨ (a₁.flow f).growth = (a.flow f).growth
  held : ∀ b j, (b, j) ∈ T.held ↔
    (j ∈ a.graph.listed f ∨ j ∈ a.graph.listed s) ∧ (a₁.jump j).source = b
  source : ∀ g j, L g → g ≠ f → g ≠ s → j ∈ a.graph.listed g →
    (a₁.jump j).source = (a.jump j).source
  tidy : T.Tidy
  exprs : a₁.exprs = a.exprs
  rest : a₁.frame = a.frame

/-- The tree of `s` has become a part of that of `f`, which takes over its edges. -/
theorem WellFormed.merge (h : a.WellFormed L) (hf : L f) (hs : L s) (hfs : f ≠ s)
    (hg : Engulfs L f s T a a₁) (habs : Absorbed f s a₁ a') :
    a'.WellFormed (fun g ↦ L g ∧ g ≠ s) ∧ a'.tree f = T ∧
      ∀ g, L g → g ≠ f → g ≠ s → a'.tree g = a.tree g := by
  obtain ⟨hb, hk, hroot, hroots, hgrowth, hgrown, hheld, hsource, htidy, -, -⟩ := hg
  have hlive : ∀ g, a'.Live g ↔ a.Live g ∧ g ≠ s := fun g ↦ by
    rw [habs.live, live_of_keeps hk]
  have hplanted : a.Planted (fun g ↦ L g ∧ g ≠ s) :=
    ⟨fun g hg ↦ h.planted.live g hg.1, fun g hg ↦ h.planted.holds g hg.1,
      fun g hg ↦ h.planted.nodup g hg.1, fun g g' hg hg' ↦ h.planted.apart g g' hg.1 hg'.1,
      fun g g' hg ↦ h.planted.owner g g' hg.1, h.planted.roots,
      fun g g' hg hg' ↦ h.planted.growth g g' hg.1 hg'.1, fun g hg ↦ h.planted.growths g hg.1,
      h.planted.linked⟩
  have hspare : Spare (· ∈ (a.tree s).ids) (fun g ↦ L g ∧ g ≠ s) f a a' := fun b hb ↦ by
    refine ⟨fun g hg _ ↦ ⟨fun hb' ↦ h.planted.apart g s hg.1 hs hg.2 hb' hb, ?_⟩, ?_⟩
    · rintro rfl
      exact h.planted.growth g s hg.1 hs hg.2 hb
    · rintro g hg - rfl
      exact ((hlive g).mp hg).2 (h.planted.owner s g hs ((hlive g).mp hg).1 hb)
  have hgrafts : Grafts (· ∈ (a.tree s).ids) (fun g ↦ L g ∧ g ≠ s) f T a a' := by
    refine ⟨habs.blocks ▸ hb, (habs.root f).trans hroot,
      fun g hg ↦ (hlive g).mpr ⟨h.planted.live g hg.1, hg.2⟩,
      fun g hg hgf ↦ ⟨((hlive g).mp hg).1, (habs.root g).trans (hroots g hgf)⟩,
      fun g _ hgf ↦ (habs.growth g).trans (hgrowth g hgf), ?_⟩
    rw [habs.growth, habs.blocks]
    rcases hgrown with hgrown | hgrown
    · exact ⟨hb.holds.lt_of_mem_ids hgrown, .inr (hb.fresh _ hgrown)⟩
    · exact ⟨hgrown ▸ (h.planted.growths f hf).trans_le hb.off.size_le, .inl hgrown⟩
  obtain ⟨hp, htree, hother⟩ := hplanted.graft ⟨hf, hfs⟩ hspare hgrafts
  refine ⟨⟨hp, habs.linked, fun g hg b j ↦ ?_, fun g hg ↦ ?_, fun g hg ↦ h.proper g hg.1,
    fun j ↦ ?_⟩, htree, fun g hg hgf hgs ↦ hother g ⟨hg, hgs⟩ hgf⟩
  · rw [habs.listed (hk.linked h.linked) hfs, hk.listed, hk.listed, habs.source]
    by_cases hgf : g = f
    · subst hgf
      rw [htree, hheld]
      simp [hg.2]
    · rw [hother g hg hgf, h.holding g hg.1]
      simp only [hgf, false_and, or_false, ne_eq, hg.2, not_false_eq_true, true_and]
      refine and_congr_right fun hj ↦ ?_
      rw [hsource g j hg.1 hgf hg.2 hj]
  · by_cases hgf : g = f
    · rw [hgf, htree]
      exact htidy
    · rw [hother g hg hgf]
      exact h.tidy g hg.1
  · rw [habs.destination, habs.flows_size, hk.flows_size]
    exact hk.destination j ▸ h.range j

theorem WellFormed.destination_of_keys (h : a.WellFormed L) {x d : FlowId}
    (hd : d ∈ a.graph.keys x) : d.index < a.graph.flows.size := by
  obtain ⟨j, hj⟩ := List.exists_mem_of_ne_nil _ (h.linked.jumpsTo_ne_nil.mpr hd)
  exact h.linked.destination hj ▸ h.range j

theorem WellFormed.pred_of_jumpsTo (h : a.WellFormed L) {x d : FlowId}
    (hj : a.graph.jumpsTo x d ≠ []) : x ∈ (a.flow d).predecessors := by
  have hd := h.linked.jumpsTo_ne_nil.mp hj
  by_cases hx : x.isSentinel = true
  · rw [FlowGraph.keys, h.linked.sentinel x hx] at hd
    cases hd
  · exact (h.linked.pred_iff x d (by simpa using hx)).mpr hd

/-- The code of `s` is now part of `f`, and its jumps are those of `f`. -/
structure Merged (L : FlowId → Prop) (f s : FlowId) (a a' : Analysis) : Prop where
  wellFormed : a'.WellFormed fun g ↦ L g ∧ g ≠ s
  other : ∀ g, L g → g ≠ f → g ≠ s → a'.tree g = a.tree g
  exprs : a.exprs.Extends a'.exprs
  jumpsTo : ∀ x y, a'.graph.jumpsTo x y = if x = s ∨ x = f ∧ y = s then [] else
    a.graph.jumpsTo x y ++ if x = f then a.graph.jumpsTo s y else []
  destination : ∀ j, (a'.jump j).destination = (a.jump j).destination
  flows_size : a'.graph.flows.size = a.graph.flows.size
  live : ∀ g, a'.Live g ↔ a.Live g ∧ g ≠ s
  root : ∀ g, g ≠ f → a'.root g = a.root g
  range : ∀ g, g ≠ f → (a'.flow g).addr = (a.flow g).addr ∧ (a'.flow g).length = (a.flow g).length
  addr : (a'.flow f).addr = min (a.flow f).addr (a.flow s).addr
  stop : (a'.flow f).stop = max (a.flow f).stop (a.flow s).stop
  growth : ∀ g, L g → g ≠ f → g ≠ s → (a'.flow g).growth = (a.flow g).growth
  rest : a'.frame = a.frame
  anchored : ∀ p g, g ≠ s → p.isSentinel = true →
    (p ∈ (a'.flow g).predecessors ↔ p ∈ (a.flow g).predecessors)
  off : Blocks.Off (fun b ↦ b ∈ (a.tree f).ids ∨ b ∈ (a.tree s).ids) a.blocks a'.blocks

theorem Merged.reshapes (h : Merged L f s a a₁)
    (hr : Reshapes (fun _ ↦ False) (fun g ↦ L g ∧ g ≠ s) f T a₁ a')
    (hwf : a'.WellFormed fun g ↦ L g ∧ g ≠ s) (hexprs : a₁.exprs.Extends a'.exprs)
    (hblocks : a'.blocks = a₁.blocks) : Merged L f s a a' := by
  have hspan : ∀ g, (a'.flow g).addr = (a₁.flow g).addr ∧ (a'.flow g).length = (a₁.flow g).length :=
    fun g ↦ ⟨(congrArg Flow.addr (hr.graph.core g) :), (congrArg Flow.length (hr.graph.core g) :)⟩
  have hstop : ∀ g, (a'.flow g).stop = (a₁.flow g).stop := fun g ↦ by
    rw [Flow.stop, Flow.stop, (hspan g).1, (hspan g).2]
  refine ⟨hwf, fun g hg hgf hgs ↦ ?_, h.exprs.trans hexprs, fun x y ↦ ?_, fun j ↦ ?_, ?_, fun g ↦ ?_,
    fun g hgf ↦ ?_, fun g hgf ↦ ?_, ?_, ?_, fun g hg hgf hgs ↦ ?_, ?_, fun p g hgs hp ↦ ?_,
    hblocks ▸ h.off⟩
  · rw [hr.other g ⟨hg, hgs⟩ hgf, h.other g hg hgf hgs]
  · rw [hr.graph.jumpsTo, h.jumpsTo]
  · rw [show (a'.jump j).destination = _ from hr.graph.destination j]
    exact h.destination j
  · rw [hr.graph.flows_size, h.flows_size]
  · rw [hr.live, h.live]
  · rw [hr.roots g hgf, h.root g hgf]
  · rw [(hspan g).1, (hspan g).2]
    exact h.range g hgf
  · rw [(hspan f).1, h.addr]
  · rw [hstop, h.stop]
  · rw [hr.growth g ⟨hg, hgs⟩ hgf, h.growth g hg hgf hgs]
  · rw [hr.rest, h.rest]
  · rw [show (a'.flow g).predecessors = _ from hr.graph.predecessors g]
    exact h.anchored p g hgs hp

/-- Once no jump leads there any more, `f` can take over `s`. -/
theorem WellFormed.take {a₂ : Analysis} {e : Edge} (h : a.WellFormed L) (hf : L f) (hs : L s)
    (hfs : f ≠ s) (hpreds : ∀ x, a.graph.jumpsTo x s ≠ [] → x = f) (he : Evolved L f s a a₁)
    (hto : a₁.graph.jumpsTo f s = []) (hg : Engulfs L f s T a₁ a₂) :
    Merged L f s a (a₂.absorb f s e) ∧ (a₂.absorb f s e).tree f = T ∧
      (a₂.absorb f s e).exprs = a₁.exprs ∧
      ((a₂.absorb f s e).flow f).growth = (a₂.flow f).growth := by
  obtain ⟨h₁, ⟨T₁, hm⟩, hex, hsize, hcore, hdest, hkept, -, hanchored⟩ := he
  have hjumps : ∀ x y, a₂.graph.jumpsTo x y = if x = f ∧ y = s then [] else a.graph.jumpsTo x y := by
    intro x y
    rw [hg.graph.jumpsTo]
    split
    · rename_i hxy
      rw [hxy.1, hxy.2, hto]
    · rename_i hxy
      exact hkept x y hxy
  have hl₂ := hg.graph.linked h₁.linked
  have hlonely : ∀ x, s ∉ a₂.graph.keys x := by
    intro x hx
    have hne := hl₂.jumpsTo_ne_nil.mpr hx
    rw [hjumps] at hne
    split at hne
    · exact hne rfl
    · rename_i hxf
      exact hxf ⟨hpreds x hne, rfl⟩
  have hsize₂ : a₂.graph.flows.size = a.graph.flows.size := hg.graph.flows_size.trans hsize
  have habs : Absorbed f s a₂ (a₂.absorb f s e) := by
    apply absorb_absorbed hl₂ hfs (hsize₂ ▸ (h.planted.live f hf).1) (h.proper f hf)
      (hsize₂ ▸ (h.planted.live s hs).1) (h.proper s hs) hlonely
    intro d hd
    rw [hg.graph.keys] at hd
    exact hg.graph.flows_size ▸ h₁.destination_of_keys hd
  obtain ⟨hwf, htree, hother⟩ := h₁.merge hf hs hfs hg habs
  generalize a₂.absorb f s e = a' at *
  have hcore₂ : ∀ g, (a₂.flow g).core = (a.flow g).core := fun g ↦ (hg.graph.core g).trans (hcore g)
  have hspan : ∀ g, (a₂.flow g).addr = (a.flow g).addr ∧ (a₂.flow g).length = (a.flow g).length :=
    fun g ↦ ⟨(congrArg Flow.addr (hcore₂ g) :), (congrArg Flow.length (hcore₂ g) :)⟩
  have hstop : ∀ g, (a₂.flow g).stop = (a.flow g).stop := fun g ↦ by
    rw [Flow.stop, Flow.stop, (hspan g).1, (hspan g).2]
  have hexprs : a'.exprs = a₁.exprs := habs.exprs.trans hg.exprs
  refine ⟨⟨hwf, fun g hg hgf hgs ↦ ?_, hexprs ▸ hex, fun x y ↦ ?_, fun j ↦ ?_, ?_, fun g ↦ ?_,
    fun g hgf ↦ ?_, fun g hgf ↦ ?_, ?_, ?_, fun g hg' hgf _ ↦ ?_, ?_, fun p g hgs hp ↦ ?_, ?_⟩,
    htree, hexprs, habs.growth f⟩
  · rw [hother g hg hgf hgs, hm.other g hg hgf]
  · rw [habs.jumpsTo, hjumps, hjumps]
    by_cases hxs : x = s
    · simp [hxs]
    · by_cases hxf : x = f
      · subst hxf
        by_cases hys : y = s
        · have : a.graph.jumpsTo s s = [] := by
            by_contra hne
            exact hfs (hpreds s hne).symm
          simp [hys, hfs, this]
        · simp [hxs, hys, hfs.symm]
      · simp [hxs, hxf]
  · rw [habs.destination, show (a₂.jump j).destination = _ from hg.graph.destination j]
    exact hdest j
  · rw [habs.flows_size, hsize₂]
  · rw [habs.live, live_of_keeps hg.graph, hm.live]
  · rw [habs.root, hg.roots g hgf, hm.roots g hgf]
  · rw [(habs.range g hgf).1, (habs.range g hgf).2]
    exact hspan g
  · rw [habs.addr, (hspan f).1, (hspan s).1]
  · rw [habs.stop, hstop, hstop]
  · rw [habs.growth, hg.growth g hgf, hm.growth g hg' hgf]
  · rw [habs.rest, hg.rest, hm.rest]
  · rw [habs.anchored p g hgs hp, show (a₂.flow g).predecessors = _ from hg.graph.predecessors g]
    exact hanchored p g hp
  · rw [habs.blocks]
    have hs₁ : a₁.tree s = a.tree s := hm.other s hs hfs.symm
    refine ⟨hm.blocks.off.size_le.trans hg.blocks.off.size_le, fun b hb hn ↦ ?_⟩
    have h₁ := hm.blocks.off.same b hb (by simpa using fun hbf ↦ hn (.inl hbf))
    refine h₁.trans (hg.blocks.off.same b (hb.trans_le hm.blocks.off.size_le) ?_)
    rintro (hbf | hbs)
    · rcases hm.blocks.fresh b (hm.tree ▸ hbf) with h | h | h
      · exact hn (.inl h)
      · exact h
      · omega
    · exact hn (.inr (hs₁ ▸ hbs))

theorem WellFormed.dropEdge (h : a.WellFormed L) (hf : L f) (hs : L s)
    (hto : a.graph.jumpsTo f s = []) :
    Evolved L f s a { a with graph := a.graph.removeEdge f s } := by
  obtain ⟨hm, hwf, hkept⟩ := h.removeEdge hf (h.planted.live s hs).1 hto
  exact .of_relink hwf hm (.removeEdge ..) hkept (.refl _) (.removeEdge (h.proper f hf) s)

end Merge

section Join

theorem flow_setGrowth (a : Analysis) (f : FlowId) (b : BlockId) (g : FlowId) :
    (a.setGrowth f b).flow g =
      if g = f ∧ f.index < a.graph.flows.size then { a.flow g with growth := b } else a.flow g :=
  FlowGraph.flow_modifyFlow ..

theorem growth_setGrowth {b : BlockId} (h : f.index < (a.setGrowth f b).graph.flows.size) :
    ((a.setGrowth f b).flow f).growth = b := by
  rw [flow_setGrowth, if_pos ⟨rfl, by simpa [setGrowth, Analysis.modifyFlow] using h⟩]

/-- A whole tree follows the last statement. -/
theorem WellFormed.engulf_sequence (h : a.WellFormed L) (hf : L f) (hs : L s) (hfs : f ≠ s)
    (hT : a.tree f = plug C B) (hC : ∀ F ∈ C, F.IsRest) (hBk : B.kind ≠ .sequence)
    (hB : B.jump = none) :
    Engulfs L f s (plug C (.node ⟨a.blocks.size⟩ none .sequence [B, a.tree s])) a
      ((a.wrapSequential B.id (a.root s)).1.setGrowth f (a.root s)) := by
  have hat := h.planted.at_of_plug hf hT
  have hS := h.planted.holds s hs
  have hd : (a.tree s).ids.Disjoint (plug C B).ids := hT ▸ h.planted.apart s f hs hf hfs.symm
  have hlt : f.index < a.graph.flows.size := (h.planted.live f hf).1
  have hb := hat.append h.planted.linked hS (h.planted.nodup s hs) hd
  rw [id_tree] at hb
  rw [wrapSequential, placeOf_eq h.planted hf hT]
  have hroot := fun g ↦ root_put (a.alloc (.sequence B.id (a.root s))).1 C f g B.id ⟨a.blocks.size⟩ hlt
  have hgrowth := fun g ↦
    growth_put (a.alloc (.sequence B.id (a.root s))).1 C f g B.id ⟨a.blocks.size⟩ hlt
  have hk := keeps_put (a.alloc (.sequence B.id (a.root s))).1 C f B.id ⟨a.blocks.size⟩
  have hjump := jump_put (a.alloc (.sequence B.id (a.root s))).1 C f B.id ⟨a.blocks.size⟩
  have hblocks := blocks_put (a.alloc (.sequence B.id (a.root s))).1 C f B.id ⟨a.blocks.size⟩
  have hid := id_plug_eq hT (.node ⟨a.blocks.size⟩ none .sequence [B, a.tree s])
  have hrest := rest_put (a.alloc (.sequence B.id (a.root s))).1 C f B.id ⟨a.blocks.size⟩
  have hcontent := content_put (a.alloc (.sequence B.id (a.root s))).1 (placeAt C f) B.id
    ⟨a.blocks.size⟩
  have hn : (a.alloc (.sequence B.id (a.root s))).2 = ⟨a.blocks.size⟩ := rfl
  simp only [hn]
  generalize (a.alloc (.sequence B.id (a.root s))).1.put (placeAt C f) B.id ⟨a.blocks.size⟩ = a₁ at *
  have hlt₁ : f.index < a₁.graph.flows.size := hk.flows_size.symm ▸ hlt
  have hroot' : ∀ g, (a₁.setGrowth f (a.root s)).root g = a₁.root g := fun g ↦ by
    rw [root, root, flow_setGrowth]
    split <;> rfl
  refine ⟨?_, hk.trans (.modifyFlow _ _ fun _ ↦ rfl), ?_, fun g hg ↦ ?_, fun g hg ↦ ?_, ?_,
    fun b j ↦ ?_, fun g j _ _ _ _ ↦ ?_, ?_, (congrArg Prod.fst hcontent :), hrest⟩
  · rw [hT, show (a₁.setGrowth f (a.root s)).blocks = _ from hblocks]
    exact hb
  · rw [hroot', hroot, ← hid]
    by_cases hC : C = []
    · simp [hC]
    · simp [hC]
      rfl
  · rw [hroot', hroot, if_neg fun h ↦ hg h.2]
    rfl
  · rw [flow_setGrowth, if_neg fun h ↦ hg h.1, hgrowth, if_neg fun h ↦ hg h.2.1]
    rfl
  · rw [flow_setGrowth, if_pos ⟨rfl, hlt₁⟩, ← id_tree a s]
    refine .inl (mem_ids_plug.mpr (.inl ?_))
    rw [Tree.ids]
    exact List.mem_cons_of_mem _ (List.mem_flatMap.mpr ⟨a.tree s, by simp, Tree.id_mem_ids _⟩)
  · rw [show (a₁.setGrowth f (a.root s)).jump j = a.jump j from hjump j, or_and_right,
      ← h.holding f hf, ← h.holding s hs, hT, mem_held_plug, mem_held_plug]
    simp [Tree.held, or_assoc, or_left_comm, or_comm]
  · exact congrArg Jump.source (hjump j)
  · have htidy := h.tidy f hf
    rw [hT] at htidy
    refine htidy.plug_rest (Tree.tidy_node.mpr ⟨fun _ ↦ ⟨rfl, _, _, rfl, hB, hBk⟩, ?_⟩) hC
    simpa using ⟨htidy.of_plug, h.tidy s hs⟩

theorem grafted_handOver {t : Blocks} {r : BlockId} (hat : t.At C B) (hl : t.Linked)
    (hr : r ∉ (plug C B).ids) (hX : X r) (k : Option JumpId) :
    Blocks.Grafted X (plug C B) (plug C (B.withJump k)) t ((t.setJump r none).setJump B.id k) := by
  have hfirst : Blocks.Grafted X (plug C B) (plug C B) t (t.setJump r none) :=
    ⟨(Blocks.Off.refl _ t).setJump (.inl (.inr hX)) none, hl.setJump r none,
      hat.whole.modify hat.nodup hr _, hat.nodup, fun _ hb ↦ .inl hb⟩
  have hat' : (t.setJump r none).At C B := .of_holds hfirst.holds hat.nodup
  exact hfirst.trans (hat'.setJump hfirst.linked k) fun _ hb ↦ hb.elim

theorem frame_moveJump (a : Analysis) (b x : BlockId) : (a.moveJump b x).frame = a.frame := by
  rw [Analysis.moveJump]
  split <;> rfl

theorem WellFormed.handOver (h : a.WellFormed L) (hf : L f) (hs : L s) (hfs : f ≠ s)
    (hT : a.tree f = plug C B) (hB : B.jump = none) :
    Blocks.Grafted (· ∈ (a.tree s).ids) (plug C B) (plug C (B.withJump (a.tree s).jump)) a.blocks
        (a.moveJump (a.root s) B.id).blocks ∧
      a.graph.Keeps (a.moveJump (a.root s) B.id).graph ∧
      (∀ g, (a.moveJump (a.root s) B.id).flow g = a.flow g) ∧
      ∀ i, ((a.moveJump (a.root s) B.id).jump i).source =
        if (a.tree s).jump = some i then B.id else (a.jump i).source := by
  have hat := h.planted.at_of_plug hf hT
  have hjump : a.jumpOf (a.root s) = (a.tree s).jump := id_tree a s ▸ (h.planted.holds s hs).jump
  have hroot : a.root s ∈ (a.tree s).ids := id_tree a s ▸ Tree.id_mem_ids _
  have hrootf : a.root s ∉ (plug C B).ids := fun hb ↦
    h.planted.apart s f hs hf hfs.symm hroot (hT ▸ hb)
  cases hk : (a.tree s).jump with
  | none =>
    rw [moveJump_of_none (hjump.trans hk), show B.withJump none = B by rw [← hB, Tree.withJump_jump]]
    exact ⟨⟨.refl _ _, h.planted.linked, hat.whole, hat.nodup, fun _ hb ↦ .inl hb⟩, .refl _,
      fun _ ↦ rfl, fun i ↦ by simp⟩
  | some j =>
    obtain ⟨hj, -, -⟩ := h.unique_holder hs (plug_nil (a.tree s)).symm hk
    simp only [Analysis.moveJump, hjump, hk]
    refine ⟨grafted_handOver hat h.planted.linked hrootf hroot (some j), .modifyJump .., fun _ ↦ rfl,
      fun i ↦ ?_⟩
    have hsrc : ((a.graph.modifyJump j ({ · with source := B.id })).jump i).source =
        if some j = some i then B.id else (a.jump i).source := by
      rw [FlowGraph.jump_modifyJump]
      by_cases hij : i = j
      · simp [hij, h.linked.lt_size (h.linked.mem_listed.mp hj)]
      · simp [hij, Ne.symm hij, Analysis.jump]
    exact hsrc

/-- Of a void statement there is only the jump to take in. -/
theorem WellFormed.engulf_void (h : a.WellFormed L) (hf : L f) (hs : L s) (hfs : f ≠ s)
    (hT : a.tree f = plug C B) (hC : ∀ F ∈ C, F.IsRest) (hBk : B.kind ≠ .sequence)
    (hB : B.jump = none) (hS : (a.tree s).kind = .empty ∧ (a.tree s).children = []) :
    Engulfs L f s (plug C (B.withJump (a.tree s).jump)) a
      ((a.moveJump (a.root s) B.id).setGrowth f B.id) := by
  have hlt : f.index < a.graph.flows.size := (h.planted.live f hf).1
  have hlisted : ∀ j, j ∈ a.graph.listed s ↔ (a.tree s).jump = some j := fun j ↦ by
    have hheld := h.holding s hs (a.jump j).source j
    rw [Tree.held_eq, hS.2, id_tree] at hheld
    refine ⟨fun hj ↦ ?_, fun hj ↦ (h.unique_holder hs (plug_nil (a.tree s)).symm hj).1⟩
    have := hheld.mpr ⟨hj, rfl⟩
    simp only [List.flatMap_nil, List.append_nil, List.mem_map, Option.mem_toList, Prod.mk.injEq] at this
    obtain ⟨i, hi, -, rfl⟩ := this
    exact hi
  obtain ⟨hb, hk, hflow, hsrc⟩ := h.handOver hf hs hfs hT hB
  have hcontent := content_moveJump a (a.root s) B.id
  have hrest := frame_moveJump a (a.root s) B.id
  have hid : (plug C (B.withJump (a.tree s).jump)).id = a.root f := by
    rw [← id_plug_eq hT]
    cases C with
    | nil => simpa [hT] using id_tree a f
    | cons => simp
  have hown : ∀ g j, L g → g ≠ s → j ∈ a.graph.listed g → (a.tree s).jump ≠ some j := by
    intro g j hg hgs hj he
    exact hgs (h.linked.own _ _ _ _ _ (h.linked.mem_listed.mp hj)
      (h.linked.mem_listed.mp ((hlisted j).mpr he)))
  generalize a.moveJump (a.root s) B.id = a₂ at *
  have hroot : ∀ g, (a₂.setGrowth f B.id).root g = a.root g := fun g ↦ by
    rw [root, root, flow_setGrowth, hflow]
    split <;> rfl
  have hsource : ∀ i, ((a₂.setGrowth f B.id).jump i).source = _ := hsrc
  refine ⟨hT ▸ hb, hk.trans (.modifyFlow _ _ fun _ ↦ rfl), (hroot f).trans hid.symm,
    fun g _ ↦ hroot g, fun g hg ↦ ?_, ?_, fun b j ↦ ?_, fun g j hg _ hgs hj ↦ ?_, ?_,
    (congrArg Prod.fst hcontent :), hrest⟩
  · rw [flow_setGrowth, if_neg fun h ↦ hg h.1, hflow]
  · rw [flow_setGrowth, if_pos ⟨rfl, hk.flows_size ▸ hlt⟩]
    exact .inl (mem_ids_plug.mpr (.inl (by simpa using B.id_mem_ids)))
  · rw [hsource]
    cases hj : (a.tree s).jump with
    | none =>
      rw [show B.withJump none = B by rw [← hB, Tree.withJump_jump], ← hT, h.holding f hf]
      simp [hlisted, hj]
    | some i =>
      rw [mem_held_withJump_some hB, ← hT, h.holding f hf]
      have hne := hown f j hf hfs
      by_cases hji : i = j
      · subst hji
        have : i ∉ a.graph.listed f := fun hi ↦ hne hi hj
        simp [hlisted, hj, this, eq_comm]
      · simp [hlisted, hj, hji, Ne.symm hji]
  · rw [hsource, if_neg (hown g j hg hgs hj)]
  · have htidy := h.tidy f hf
    rw [hT] at htidy
    refine htidy.plug_rest ?_ hC
    obtain ⟨i, k, kind, l⟩ := B
    exact Tree.tidy_node.mpr ⟨fun hk ↦ absurd hk hBk, (Tree.tidy_node.mp htidy.of_plug).2⟩

theorem WellFormed.appendTree (h : a.WellFormed L) (hf : L f) (hs : L s) (hfs : f ≠ s)
    (hT : a.tree f = plug C B) (hC : ∀ F ∈ C, F.IsRest) (hBk : B.kind ≠ .sequence)
    (hB : B.jump = none) :
    ∃ N, Tree.FollowedBy B (a.tree s) N ∧
      (plug C N).OnSpine ((a.appendTree f B.id (a.root s)).flow f).growth ∧
      Engulfs L f s (plug C N) a (a.appendTree f B.id (a.root s)) := by
  have hempty := statement_eq_empty (h.planted.holds s hs)
  have hspine : ∀ F ∈ C, F.kind = .sequence := fun F hF ↦ (hC F hF).1
  have hlt : f.index < a.graph.flows.size := (h.planted.live f hf).1
  rw [id_tree] at hempty
  rw [Analysis.appendTree]
  split
  · rename_i he
    have hS := hempty.mp he
    have hg := h.engulf_void hf hs hfs hT hC hBk hB hS
    refine ⟨_, .void hS.1 hS.2, ⟨C, _, rfl, ?_, hspine⟩, hg⟩
    rw [growth_setGrowth (hg.graph.flows_size ▸ hlt), Tree.id_withJump]
  · rename_i he
    have hg := h.engulf_sequence hf hs hfs hT hC hBk hB
    refine ⟨_, .sequence _ (he ∘ hempty.mpr),
      ⟨⟨⟨a.blocks.size⟩, none, .sequence, [B], []⟩ :: C, a.tree s, rfl, ?_, ?_⟩, hg⟩
    · rw [growth_setGrowth (hg.graph.flows_size ▸ hlt), id_tree]
    · simpa using hspine

/-- The tree of `s` follows that of `f`. -/
structure Joined (L : FlowId → Prop) (f s : FlowId) (a a' : Analysis) : Prop
    extends Merged L f s a a' where
  tree : ∃ C B N, Tree.Yields (fun i ↦ (a.jump i).destination) a'.exprs.Negates
      (fun c ↦ a'.exprs.get c = .const (.bool false)) (a.blocks.size ≤ ·.index) s (a.tree f)
      (plug C B) ∧
    (∀ F ∈ C, F.IsRest) ∧ B.kind ≠ .sequence ∧ B.jump = none ∧
    Tree.FollowedBy B (a.tree s) N ∧ a'.tree f = plug C N
  grown : (a'.tree f).OnSpine (a'.flow f).growth

theorem WellFormed.joinSuccessor (h : a.WellFormed L) (hf : L f) (hs : L s) (hfs : f ≠ s)
    (hpred : (a.flow s).predecessors = [f]) : Joined L f s a (a.joinSuccessor f s).1 := by
  simp only [Analysis.joinSuccessor]
  obtain ⟨⟨he₁, hyields⟩, hto, C, B, hT, hC, hBk, hB⟩ := h.resolveJumpsTo (s := s) hf
  generalize ((a.flow f).edge? s).getD {} = edge
  generalize a.resolveJumpsTo f s = a₁ at *
  have he₂ := he₁.wellFormed.dropEdge hf hs hto
  have hgraph : (Analysis.graph { a₁ with graph := a₁.graph.removeEdge f s }).jumpsTo f s = [] := by
    rw [List.eq_nil_iff_forall_not_mem]
    exact fun j hj ↦ by simpa [hto] using he₂.resolved j hj
  have hblocks : (Analysis.blocks { a₁ with graph := a₁.graph.removeEdge f s }) = a₁.blocks := rfl
  have hexprs : (Analysis.exprs { a₁ with graph := a₁.graph.removeEdge f s }) = a₁.exprs := rfl
  have htree : (Analysis.tree { a₁ with graph := a₁.graph.removeEdge f s } f) = plug C B := by
    obtain ⟨hm, -, -⟩ := he₁.wellFormed.removeEdge hf (he₁.wellFormed.planted.live s hs).1 hto
    exact hm.tree.trans hT
  have he := he₁.trans he₂
  generalize { a₁ with graph := a₁.graph.removeEdge f s } = a₂ at *
  have htail : a₁.blocks.chainTail (a₂.root f) = B.id := by
    have hat := he.wellFormed.planted.at_of_plug hf htree
    rw [← hblocks, ← id_tree a₂ f, htree]
    exact Blocks.chainTail_plug hat.whole hat.nodup hC hBk
  rw [htail]
  obtain ⟨N, hN, hspine, hg⟩ := he.wellFormed.appendTree hf hs hfs htree hC hBk hB
  have hpreds : ∀ x, a.graph.jumpsTo x s ≠ [] → x = f := fun x hx ↦ by
    simpa [hpred] using h.pred_of_jumpsTo hx
  obtain ⟨hmerged, hT', hexprs', hgrown⟩ := h.take (e := edge) hf hs hfs hpreds he hgraph hg
  generalize (a₂.appendTree f B.id (a₂.root s)).absorb f s edge = a' at *
  have hs' : a₂.tree s = a.tree s := by
    obtain ⟨T, hm⟩ := he.moves
    exact hm.other s hs hfs.symm
  refine ⟨hmerged, ⟨C, B, N, ?_, hC, hBk, hB, hs' ▸ hN, hT'⟩, ?_⟩
  · rw [hexprs', hexprs, ← hT]
    exact hyields
  · rw [hT', hgrown]
    exact hspine

end Join

end Analysis

end Decompile
