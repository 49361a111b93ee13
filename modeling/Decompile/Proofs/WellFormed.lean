import Decompile.Proofs.TreeEdit

namespace Decompile

variable {k : Kind} {i : JumpId} {E : List Frame}

namespace Tree

variable {T N s : Tree} {C : List Frame}

/-- A statement that may stand first in a sequence. -/
def Plain (T : Tree) : Prop := T.jump = none ∧ T.kind ≠ .sequence

/-- Sequences lean to the right and jump at their last statement only. -/
def Tidy (T : Tree) : Prop :=
  ∀ s ∈ T.nodes, s.kind = .sequence → s.jump = none ∧ ∃ x y, s.children = [x, y] ∧ x.Plain

theorem tidy_node {i : BlockId} {j : Option JumpId} {l : List Tree} :
    (node i j k l).Tidy ↔
      (k = .sequence → j = none ∧ ∃ x y, l = [x, y] ∧ x.Plain) ∧ ∀ c ∈ l, c.Tidy := by
  simp only [Tidy, nodes, List.mem_cons, List.mem_flatMap]
  constructor
  · exact fun h ↦ ⟨h _ (.inl rfl), fun c hc s hs ↦ h s (.inr ⟨c, hc, hs⟩)⟩
  · rintro ⟨h, hl⟩ s (rfl | ⟨c, hc, hs⟩)
    · exact h
    · exact hl c hc s hs

theorem Tidy.of_mem (h : T.Tidy) (hs : s ∈ T.nodes) : s.Tidy :=
  fun u hu ↦ h u (nodes_trans hs hu)

theorem Tidy.of_plug (h : (plug C T).Tidy) : T.Tidy := h.of_mem mem_nodes_plug

theorem Tidy.withJump_none (h : T.Tidy) : (T.withJump none).Tidy := by
  cases T
  rw [tidy_node] at h
  rw [withJump_eq, tidy_node]
  exact ⟨fun hk ↦ ⟨rfl, (h.1 hk).2⟩, h.2⟩

theorem tidy_leaf {i : BlockId} {j : Option JumpId} (hk : k ≠ .sequence) : (node i j k []).Tidy :=
  tidy_node.mpr ⟨fun h ↦ absurd h hk, by simp⟩

theorem Tidy.plug (h : (plug C T).Tidy) (hN : N.Tidy) (hp : T.Plain → N.Plain) :
    (plug C N).Tidy := by
  induction C generalizing T N with
  | nil => exact hN
  | cons F C ih =>
    refine ih h ?_ fun hF ↦ hF
    have hF : (F.fill T).Tidy := Tidy.of_plug h
    rw [Frame.fill, tidy_node] at hF ⊢
    refine ⟨fun hk ↦ ?_, fun c hc ↦ ?_⟩
    · obtain ⟨hj, x, y, hl, hx⟩ := hF.1 hk
      refine ⟨hj, ?_⟩
      rcases hb : F.before with _ | ⟨z, _ | ⟨_, _⟩⟩
      · obtain ⟨rfl, ha⟩ : T = x ∧ F.after = [y] := by simpa [hb] using hl
        exact ⟨N, y, by simp [ha], hp hx⟩
      · obtain ⟨rfl, rfl, ha⟩ : z = x ∧ T = y ∧ F.after = [] := by simpa [hb] using hl
        exact ⟨z, N, by simp [ha], hx⟩
      · simp [hb] at hl
    · rcases List.mem_append.mp hc with hc' | hc'
      · exact hF.2 c (by simp [hc'])
      · rcases List.mem_cons.mp hc' with rfl | hc'
        · exact hN
        · exact hF.2 c (by simp [hc'])

theorem Tidy.plug_rest (h : (Decompile.plug C T).Tidy) (hN : N.Tidy) (hC : ∀ F ∈ C, F.IsRest) :
    (Decompile.plug C N).Tidy := by
  cases C with
  | nil => exact hN
  | cons F C =>
    have hF : (F.fill T).Tidy := Tidy.of_plug h
    obtain ⟨hk, ha, P, hb⟩ := hC F (by simp)
    refine Tidy.plug (C := C) h ?_ fun hF ↦ hF
    rw [Frame.fill, hb, ha, tidy_node] at hF ⊢
    obtain ⟨hj, x, y, hl, hx⟩ := hF.1 hk
    obtain ⟨rfl, -⟩ : P = x ∧ T = y := by simpa using hl
    exact ⟨fun _ ↦ ⟨hj, P, N, rfl, hx⟩, by simpa using ⟨hF.2 P (by simp), hN⟩⟩

/-- Only sequences are around the block. -/
def OnSpine (T : Tree) (b : BlockId) : Prop :=
  ∃ C B, T = Decompile.plug C B ∧ B.id = b ∧ ∀ F ∈ C, F.kind = .sequence

variable {b : BlockId} {j : JumpId}

theorem OnSpine.mem_ids (h : T.OnSpine b) : b ∈ T.ids := by
  obtain ⟨C, B, rfl, rfl, -⟩ := h
  exact mem_ids_plug.mpr (.inl B.id_mem_ids)

def jumps (T : Tree) : List JumpId := T.held.map (·.2)

theorem mem_jumps : j ∈ T.jumps ↔ ∃ b, (b, j) ∈ T.held := by simp [jumps]

theorem held_withJump (T : Tree) (j : Option JumpId) :
    (T.withJump j).held = j.toList.map (T.id, ·) ++ T.children.flatMap held := by
  cases T
  simp [withJump, held]

theorem held_eq (T : Tree) : T.held = T.jump.toList.map (T.id, ·) ++ T.children.flatMap held := by
  cases T
  simp [held]

theorem mem_ids_of_held_frames {x : BlockId × JumpId} (h : x ∈ C.flatMap Frame.held) :
    x.1 ∈ C.flatMap Frame.ids := by
  obtain ⟨F, hF, hx⟩ := List.mem_flatMap.mp h
  refine List.mem_flatMap.mpr ⟨F, hF, ?_⟩
  rw [Frame.held, List.mem_append, List.mem_map] at hx
  rw [Frame.ids, List.mem_cons]
  rcases hx with ⟨j, -, rfl⟩ | hx
  · exact .inl rfl
  · obtain ⟨c, hc, hx⟩ := List.mem_flatMap.mp hx
    obtain ⟨s, hs, hb, -⟩ := mem_held.mp (show (x.1, x.2) ∈ c.held from hx)
    exact .inr (List.mem_flatMap.mpr ⟨c, hc, mem_ids.mpr ⟨s, hs, hb⟩⟩)

theorem mem_held_withJump_none (hn : (Decompile.plug C T).ids.Nodup) (hT : T.jump = some j)
    (hj : ∀ b, (b, j) ∈ (Decompile.plug C T).held → b = T.id) :
    (b, i) ∈ (Decompile.plug C (T.withJump none)).held ↔
      (b, i) ∈ (Decompile.plug C T).held ∧ i ≠ j := by
  obtain ⟨hTn, -, hd⟩ := nodup_plug.mp hn
  have hrest : ∀ b, (b, j) ∈ T.children.flatMap held → b ≠ T.id := by
    rintro b hb rfl
    obtain ⟨c, hc, hb⟩ := List.mem_flatMap.mp hb
    obtain ⟨s, hs, hb, -⟩ := mem_held.mp hb
    cases T with
    | node i k l ch =>
      exact (nodup_child hTn).1 (List.mem_flatMap.mpr ⟨c, hc, mem_ids.mpr ⟨s, hs, hb⟩⟩)
  rw [mem_held_plug, mem_held_plug, held_withJump, held_eq T, hT]
  simp only [Option.toList_none, Option.toList_some, List.map_cons,
    List.cons_append, List.mem_cons]
  constructor
  · rintro (h | h)
    · refine ⟨.inl (.inr h), ?_⟩
      rintro rfl
      refine hrest b h (hj b (mem_held_plug.mpr (.inl ?_)))
      rw [held_eq, List.mem_append]
      exact .inr h
    · refine ⟨.inr h, ?_⟩
      rintro rfl
      have hb := hj b (mem_held_plug.mpr (.inr h))
      exact hd T.id_mem_ids (hb ▸ mem_ids_of_held_frames h)
  · rintro ⟨(⟨-, rfl⟩ | h) | h, hne⟩
    · exact absurd rfl hne
    · exact .inl h
    · exact .inr h

@[simp] theorem held_withKind (T : Tree) (k : Kind) : (T.withKind k).held = T.held := by
  cases T
  simp [withKind, held]

theorem Tidy.withKind (h : T.Tidy) (hk : k = .sequence → T.kind = .sequence) :
    (T.withKind k).Tidy := by
  cases T
  rw [tidy_node] at h
  rw [withKind_eq, tidy_node]
  exact ⟨fun he ↦ h.1 (hk he), h.2⟩

theorem mem_ids_of_held (h : (b, j) ∈ T.held) : b ∈ T.ids := by
  obtain ⟨s, hs, hb, -⟩ := mem_held.mp h
  exact mem_ids.mpr ⟨s, hs, hb⟩

/-- A void statement without a jump may have gone from its chain. -/
inductive Trims : List Frame → Tree → Tree → Prop
  | keep (C : List Frame) (B : Tree) : Trims C B (Decompile.plug C B)
  | first (q b : BlockId) (Y : Tree) (C : List Frame) :
    Trims (⟨q, none, .sequence, [], [Y]⟩ :: C) (node b none .empty []) (Decompile.plug C Y)
  | rest (q b : BlockId) (Y : Tree) (C : List Frame) :
    Trims (⟨q, none, .sequence, [Y], []⟩ :: C) (node b none .empty []) (Decompile.plug C Y)

/-- What stands in the place of a block whose jump has become the statement `N`. -/
inductive InPlaceOf (N B : Tree) : Tree → Prop
  | instead : B.kind = .empty → B.children = [] → InPlaceOf N B N
  | after (q : BlockId) : ¬ (B.kind = .empty ∧ B.children = []) →
    InPlaceOf N B (.node q none .sequence [B.withJump none, N])

theorem InPlaceOf.mem_held {B P : Tree} (h : InPlaceOf N B P) (hN : N.held = [])
    (x : BlockId × JumpId) : x ∈ P.held ↔ x ∈ (B.withJump none).held := by
  cases h with
  | instead hk hc => simp [hN, held_withJump, hc]
  | after q hk => simp [held, hN]

theorem InPlaceOf.tidy {B P : Tree} (h : InPlaceOf N B P) (hN : N.Tidy) (hB : B.Tidy)
    (hk : B.kind ≠ .sequence) : P.Tidy := by
  cases h with
  | instead => exact hN
  | after q =>
    refine tidy_node.mpr ⟨fun _ ↦ ⟨rfl, _, _, rfl, B.jump_withJump none, ?_⟩, fun c hc ↦ ?_⟩
    · rw [kind_withJump]
      exact hk
    · rw [List.mem_pair] at hc
      rcases hc with rfl | rfl
      · exact hB.withJump_none
      · exact hN

theorem Trims.inner {D : List Frame} {G : Frame} {B T : Tree} (h : Trims (D ++ G :: E) B T)
    (hG : G.kind ≠ .sequence) : ∃ A, Trims D B A ∧ T = Decompile.plug (G :: E) A := by
  generalize hC : D ++ G :: E = C at h
  cases h with
  | keep =>
    subst hC
    exact ⟨_, .keep D B, by simp⟩
  | first q b Y C | rest q b Y C =>
    cases D with
    | nil =>
      obtain ⟨rfl, -⟩ := List.cons.inj hC
      exact absurd rfl hG
    | cons F D =>
      obtain ⟨rfl, rfl⟩ := List.cons.inj hC
      refine ⟨Decompile.plug D Y, ?_, by simp⟩
      constructor

theorem Trims.mem_held {B T : Tree} (h : Trims C B T) (x : BlockId × JumpId) :
    x ∈ T.held ↔ x ∈ (Decompile.plug C B).held := by
  cases h with
  | keep => rfl
  | first | rest =>
    rw [plug_cons, mem_held_plug, mem_held_plug]
    simp [held, Frame.fill]

theorem Trims.tidy {B T : Tree} (h : Trims C B T) (hT : (Decompile.plug C B).Tidy) : T.Tidy := by
  cases h with
  | keep => exact hT
  | first | rest =>
    rw [plug_cons] at hT
    refine hT.plug ((tidy_node.mp hT.of_plug).2 _ (by simp)) ?_
    exact fun hp ↦ absurd rfl hp.2

end Tree

namespace Analysis

variable {a a' : Analysis} {L : FlowId → Prop} {X : BlockId → Prop} {f g d : FlowId}
  {T N B Y : Tree} {C : List Frame} {b x : BlockId} {j : JumpId} {s : Statement}

/-- Just the jumps on the edges of the flow block are held by the blocks of its tree. -/
def Holding (a : Analysis) (f : FlowId) : Prop :=
  ∀ b j, (b, j) ∈ (a.tree f).held ↔ j ∈ a.graph.listed f ∧ (a.jump j).source = b

/-- Trees, edges and jumps agree on the flow blocks of `L`. -/
structure WellFormed (a : Analysis) (L : FlowId → Prop) : Prop where
  planted : a.Planted L
  linked : a.graph.Linked
  holding : ∀ f, L f → a.Holding f
  tidy : ∀ f, L f → (a.tree f).Tidy
  proper : ∀ f, L f → f.isSentinel = false
  range : ∀ j, (a.jump j).destination.index < a.graph.flows.size

theorem WellFormed.reshapes (h : a.WellFormed L) (hr : Reshapes X L f T a a')
    (hheld : ∀ x, x ∈ T.held ↔ x ∈ (a.tree f).held) (htidy : T.Tidy) : a'.WellFormed L where
  planted := hr.planted
  linked := hr.graph.linked h.linked
  holding g hg b j := by
    rw [hr.graph.listed, hr.source]
    by_cases hgf : g = f
    · subst hgf
      rw [hr.tree, hheld]
      exact h.holding g hg b j
    · rw [hr.other g hg hgf]
      exact h.holding g hg b j
  tidy g hg := by
    by_cases hgf : g = f
    · rw [hgf, hr.tree]
      exact htidy
    · rw [hr.other g hg hgf]
      exact h.tidy g hg
  proper := h.proper
  range j := by
    rw [hr.graph.flows_size]
    exact (hr.graph.destination j) ▸ h.range j

section

variable (h : a.WellFormed L) (hf : L f)
include h hf

theorem WellFormed.relabel (hT : a.tree f = plug C B)
    (hr : Reshapes X L f (plug C (B.withKind k)) a a') (hk : k = .sequence ↔ B.kind = .sequence) :
    a'.WellFormed L := by
  have htidy := h.tidy f hf
  rw [hT] at htidy
  refine h.reshapes hr (fun x ↦ by rw [hT, mem_held_plug, mem_held_plug, Tree.held_withKind]) ?_
  refine htidy.plug (htidy.of_plug.withKind hk.mp) fun hp ↦ ⟨?_, ?_⟩
  · simpa using hp.1
  · simpa [hk] using hp.2

theorem WellFormed.labelIf {C₁ C₂ : List Frame} {F : Frame} (hT : a.tree f = plug (C₁ ++ F :: C₂) B)
    (labeled : Bool) :
    Reshapes (fun _ ↦ False) L f
        (plug (C₁ ++ { F with kind := F.kind.labelIf labeled } :: C₂) B) a
        (if labeled then a.setLabeled F.id else a) ∧
      (if labeled then a.setLabeled F.id else a).WellFormed L ∧
      (if labeled then a.setLabeled F.id else a).content = a.content ∧
      (if labeled then a.setLabeled F.id else a).graph = a.graph := by
  cases labeled with
  | true =>
    have hT₁ : a.tree f = plug C₂ (F.fill (plug C₁ B)) := by rw [hT, plug_append, plug_cons]
    have hr := h.planted.modifyStatement hf hT₁ Statement.kind_setLabeled
      Statement.children_setLabeled
    have hwf := h.relabel hf hT₁ hr (by cases hk : F.kind <;> simp [Kind.setLabeled, hk])
    refine ⟨?_, hwf, rfl, rfl⟩
    rw [plug_append]
    exact hr
  | false =>
    refine ⟨?_, h, rfl, rfl⟩
    change Reshapes _ L f (plug (C₁ ++ F :: C₂) B) a a
    rw [← hT]
    exact h.planted.unchanged hf

theorem WellFormed.beside (hb : a'.blocks = a.blocks) (hg : a'.graph = a.graph)
    (hr : a'.frame = a.frame) :
    Reshapes (fun _ ↦ False) L f (a.tree f) a a' ∧ a'.WellFormed L :=
  have hr := h.planted.beside hf hb hg hr
  ⟨hr, h.reshapes hr (fun _ ↦ .rfl) (h.tidy f hf)⟩

theorem WellFormed.exists_holder (hj : j ∈ a.graph.listed f) :
    ∃ C B, a.tree f = plug C B ∧ B.id = (a.jump j).source ∧ B.jump = some j := by
  obtain ⟨B, hB, hid, hjump⟩ := Tree.mem_held.mp ((h.holding f hf _ j).mpr ⟨hj, rfl⟩)
  obtain ⟨C, hC⟩ := exists_plug hB
  exact ⟨C, B, hC, hid, hjump⟩

theorem WellFormed.unique_holder (hT : a.tree f = plug C B) (hB : B.jump = some j) :
    j ∈ a.graph.listed f ∧ (a.jump j).source = B.id ∧
      ∀ b, (b, j) ∈ (plug C B).held → b = B.id := by
  have hB := (h.holding f hf B.id j).mp (Tree.mem_held.mpr ⟨B, hT ▸ mem_nodes_plug, rfl, hB⟩)
  refine ⟨hB.1, hB.2, fun b hb ↦ ?_⟩
  rw [← hT, h.holding f hf b j] at hb
  rw [← hb.2, hB.2]

theorem WellFormed.kind_ne_sequence (hT : a.tree f = plug C B) (hB : B.jump = some j) :
    B.kind ≠ .sequence := fun hk ↦ by
  have := (h.tidy f hf B (hT ▸ mem_nodes_plug) hk).1
  simp [hB] at this

theorem WellFormed.sequence {q : BlockId} {k : Option JumpId} {P R : Tree}
    (hT : a.tree f = plug C (.node q k .sequence [P, R])) : k = none ∧ P.Plain := by
  have htidy := h.tidy f hf
  rw [hT] at htidy
  obtain ⟨hk, x, y, hl, hx⟩ := (Tree.tidy_node.mp htidy.of_plug).1 rfl
  obtain ⟨rfl, -⟩ : P = x ∧ R = y := by simpa using hl
  exact ⟨hk, hx⟩

end

variable {o : Option BlockId}

section Relink

variable {G : FlowGraph}

theorem Planted.relink (h : a.Planted L) (hf : L f) (hg : a.graph.Relinked G) :
    Moves (fun _ ↦ False) L f (a.tree f) a { a with graph := G } := by
  refine h.moves hf spare_none
    ⟨.refl _ _, h.linked, h.holds f hf, h.nodup f hf, fun _ hb ↦ .inl hb⟩ (fun g ↦ ?_) ?_
    (fun g _ ↦ (congrArg Flow.root (hg.bare g) :)) (fun g _ _ ↦ (congrArg Flow.growth (hg.bare g) :))
    (.inl (congrArg Flow.growth (hg.bare f) :)) rfl
  · rw [Live, hg.flows_size]
    have halive : (G.flow g).alive = (a.graph.flow g).alive := (congrArg Flow.alive (hg.bare g) :)
    exact and_congr_right fun _ ↦ by rw [flow, flow, halive]
  · rw [id_tree]
    exact (congrArg Flow.root (hg.bare f) :)

section

variable (h : a.WellFormed L) (hf : L f)
include h hf

theorem WellFormed.relink (hg : a.graph.Relinked G) (hl : G.Linked)
    (hto : ∀ x y, G.jumpsTo x y = a.graph.jumpsTo x y) :
    Moves (fun _ ↦ False) L f (a.tree f) a { a with graph := G } ∧
      WellFormed { a with graph := G } L := by
  have hm := h.planted.relink hf hg
  have hlisted : ∀ x i, i ∈ G.listed x ↔ i ∈ a.graph.listed x := fun x i ↦ by
    rw [hl.mem_listed, h.linked.mem_listed, hto, hg.destination]
  have htree : ∀ x, L x → Analysis.tree { a with graph := G } x = a.tree x := fun x hx ↦ by
    by_cases hxf : x = f
    · rw [hxf, hm.tree]
    · exact hm.other x hx hxf
  refine ⟨hm, hm.planted, hl, fun x hx b i ↦ ?_, fun x hx ↦ htree x hx ▸ h.tidy x hx, h.proper,
    fun i ↦ ?_⟩
  · rw [htree x hx, hlisted, h.holding x hx,
      show (Analysis.jump { a with graph := G } i).source = _ from hg.source i]
    rfl
  · rw [show (Analysis.jump { a with graph := G } i).destination = _ from hg.destination i,
      show G.flows.size = _ from hg.flows_size]
    exact h.range i

theorem WellFormed.removeEdge (hd : d.index < a.graph.flows.size) (hto : a.graph.jumpsTo f d = []) :
    Moves (fun _ ↦ False) L f (a.tree f) a { a with graph := a.graph.removeEdge f d } ∧
      WellFormed { a with graph := a.graph.removeEdge f d } L ∧
      ∀ x y, (a.graph.removeEdge f d).jumpsTo x y = a.graph.jumpsTo x y := by
  obtain ⟨hl, hjumps⟩ := h.linked.removeEdge (h.planted.live f hf).1 (h.proper f hf) hd
  have hkept : ∀ x y, (a.graph.removeEdge f d).jumpsTo x y = a.graph.jumpsTo x y := by
    intro x y
    rw [hjumps]
    split
    next hxy => rw [hxy.1, hxy.2, hto]
    next => rfl
  obtain ⟨hm, hwf⟩ := h.relink hf (.removeEdge _ f d) hl hkept
  exact ⟨hm, hwf, hkept⟩

/-- A jump goes from its edge and from the block that holds it. -/
theorem WellFormed.drop (hT : a.tree f = plug C B) (hB : B.jump = some j)
    (hm : Moves (fun _ ↦ False) L f (plug C (B.withJump none)) a a') (hlinked : a'.graph.Linked)
    (hre : a.graph.Relinked a'.graph)
    (hlisted : ∀ g i, i ∈ a'.graph.listed g ↔ i ∈ a.graph.listed g ∧ i ≠ j) : a'.WellFormed L where
  planted := hm.planted
  linked := hlinked
  holding g hg b i := by
    have hat := h.planted.at_of_plug hf hT
    have hsource := (h.holding f hf B.id j).mp
      (Tree.mem_held.mpr ⟨B, hT ▸ mem_nodes_plug, rfl, hB⟩)
    rw [hlisted, show (a'.jump i).source = (a.jump i).source from hre.source i]
    by_cases hgf : g = f
    · subst hgf
      rw [hm.tree, Tree.mem_held_withJump_none hat.nodup hB, ← hT, h.holding g hg b i]
      · tauto
      · intro b hb
        rw [← hT, h.holding g hg b j] at hb
        rw [← hb.2, hsource.2]
    · rw [hm.other g hg hgf, h.holding g hg b i]
      have : i ∈ a.graph.listed g → i ≠ j := by
        rintro hi rfl
        exact hgf (h.linked.own _ _ _ _ i (h.linked.mem_listed.mp hi)
          (h.linked.mem_listed.mp hsource.1))
      tauto
  tidy g hg := by
    by_cases hgf : g = f
    · subst hgf
      rw [hm.tree]
      have htidy := h.tidy g hg
      rw [hT] at htidy
      refine htidy.plug htidy.of_plug.withJump_none fun hp ↦ ?_
      simp [Tree.Plain, hB] at hp
    · rw [hm.other g hg hgf]
      exact h.tidy g hg
  proper := h.proper
  range i := by
    rw [show (a'.jump i).destination = (a.jump i).destination from hre.destination i,
      hre.flows_size]
    exact h.range i

theorem WellFormed.mem_listed_unlinkJump (hj : j ∈ a.graph.listed f) :
    (a.graph.unlinkJump f j).Linked ∧
      (∀ g d, (a.graph.unlinkJump f j).jumpsTo g d =
        if g = f ∧ d = (a.jump j).destination then (a.graph.jumpsTo g d).filter (· ≠ j)
        else a.graph.jumpsTo g d) ∧
      ∀ g i, i ∈ (a.graph.unlinkJump f j).listed g ↔ i ∈ a.graph.listed g ∧ i ≠ j :=
  h.linked.mem_listed_unlinkJump (h.planted.live f hf).1 (h.proper f hf) (h.range j) hj

end

theorem removeJump_eq (hholds : a.blocks.Holds o B) (hB : B.jump = some j)
    (hsource : (a.jump j).source = B.id) (f : FlowId) : a.removeJump f j =
      { a.setJumpOf B.id none with graph := a.graph.unlinkJump f j } := by
  have hjump : a.jumpOf B.id = some j := hholds.jump.trans hB
  rw [Analysis.removeJump, hsource]
  simp only [hjump]
  rfl

theorem WellFormed.removeJump (h : a.WellFormed L) (hf : L f) (hj : j ∈ a.graph.listed f)
    (hT : a.tree f = plug C B) (hB : B.jump = some j) :
    Moves (fun _ ↦ False) L f (plug C (B.withJump none)) a (a.removeJump f j) ∧
      (a.removeJump f j).WellFormed L ∧ (a.removeJump f j).graph = a.graph.unlinkJump f j := by
  have heq := removeJump_eq (h.planted.at_of_plug hf hT).holds hB
    (h.unique_holder hf hT hB).2.1 f
  obtain ⟨hlinked, -, hlisted⟩ := h.mem_listed_unlinkJump hf hj
  have hre := FlowGraph.Relinked.unlinkJump a.graph f j
  have hset := (h.planted.setJumpOf hf hT none).toMoves
  rw [heq]
  have hmove := hset.planted.relink hf hre
  rw [hset.tree] at hmove
  have hmoves := hset.andThen hmove
  exact ⟨hmoves, h.drop hf hT hB hmoves hlinked hre hlisted, rfl⟩

end Relink

section Growth

theorem WellFormed.setGrowth (h : a.WellFormed L) (hf : L f) (hb : b ∈ (a.tree f).ids) :
    Reshapes (fun _ ↦ False) L f (a.tree f) a (a.setGrowth f b) ∧ (a.setGrowth f b).WellFormed L := by
  have hflow : ∀ g, (a.setGrowth f b).flow g =
      if g = f ∧ f.index < a.graph.flows.size then { a.flow g with growth := b } else a.flow g :=
    fun g ↦ FlowGraph.flow_modifyFlow ..
  have hroot : ∀ g, (a.setGrowth f b).root g = a.root g := by
    intro g
    rw [root, hflow]
    split <;> rfl
  have hr : Reshapes (fun _ ↦ False) L f (a.tree f) a (a.setGrowth f b) := by
    refine h.planted.reshapes hf spare_none ?_ (.modifyFlow _ _ fun _ ↦ rfl) (fun _ ↦ rfl) ?_
      (fun g _ ↦ hroot g) (fun g _ hg ↦ ?_) (.inr ?_) rfl
    · exact (h.planted.unchanged hf).blocks
    · rw [hroot, id_tree]
    · rw [hflow, if_neg fun h ↦ hg h.1]
    · rw [hflow, if_pos ⟨rfl, (h.planted.live f hf).1⟩]
      exact hb
  exact ⟨hr, h.reshapes hr (fun _ ↦ .rfl) (h.tidy f hf)⟩

end Growth

section Drop

theorem statement_eq_empty (hB : a.blocks.Holds o B) :
    a.statement B.id = .empty ↔ B.kind = .empty ∧ B.children = [] := by
  have hk := hB.kind
  have hc := hB.children
  constructor
  · intro h
    have h : a.blocks.statement B.id = .empty := h
    rw [h] at hk hc
    exact ⟨hk.symm, by simpa [Statement.children] using hc.symm⟩
  · rintro ⟨hk', hc'⟩
    exact Statement.ext_kind (hk.trans hk') (hc.trans (by simp [hc', Statement.children]))

theorem exists_sequence (hat : a.blocks.At C B) (hs : (a.sibling? B.id).isSome) :
    ∃ q j Y C', C = ⟨q, j, .sequence, [], [Y]⟩ :: C' ∨ C = ⟨q, j, .sequence, [Y], []⟩ :: C' := by
  rw [sibling?] at hs
  cases hq : a.outer B.id with
  | none => simp [hq] at hs
  | some q =>
    simp only [hq, Option.bind_eq_bind, Option.bind_some] at hs
    split at hs
    next first second hst =>
      obtain ⟨j, C', ⟨Y, rfl, -, -⟩ | ⟨P, rfl, -, -⟩⟩ := hat.outer_sequence hq hst
      · exact ⟨q, j, Y, C', .inl rfl⟩
      · exact ⟨q, j, P, C', .inr rfl⟩
    next => simp at hs

theorem isSome_sibling? (h : a.canRemoveStatement b) : (a.sibling? b).isSome := by
  rw [canRemoveStatement] at h
  split at h
  · simp at h
  next hs => simp [hs]

theorem WellFormed.dropIfEmpty (h : a.WellFormed L) (hf : L f) (hT : a.tree f = plug C B) :
    ∃ T, Reshapes (fun _ ↦ False) L f T a (a.dropIfEmpty B.id) ∧ (a.dropIfEmpty B.id).WellFormed L ∧
      Tree.Trims C B T := by
  have hat := h.planted.at_of_plug hf hT
  rw [Analysis.dropIfEmpty]
  split
  next hc =>
    obtain ⟨hempty, hjump, hcan⟩ := hc
    obtain ⟨hk, hch⟩ := (statement_eq_empty hat.holds).mp hempty
    have hj : B.jump = none := by
      rw [← hat.holds.jump]
      simpa [jumpOf] using hjump
    have htidy : (plug C B).Tidy := hT ▸ h.tidy f hf
    have hB : B = .node B.id none .empty [] := by
      obtain ⟨i, j, k, l⟩ := B
      simp_all
    obtain ⟨q, j, Y, C', rfl | rfl⟩ := exists_sequence hat (isSome_sibling? hcan)
    all_goals
      obtain rfl : j = none := ((Tree.Tidy.of_plug (C := C') htidy) _ (Tree.mem_nodes_self _) rfl).1
    · have hr := (h.planted.removeStatement hf hT (.inl rfl) hj).1
      have htrims : Tree.Trims (⟨q, none, .sequence, [], [Y]⟩ :: C') B (plug C' Y) := by
        rw [hB]
        exact .first ..
      exact ⟨_, hr, h.reshapes hr (fun x ↦ by rw [htrims.mem_held, hT]) (htrims.tidy htidy), htrims⟩
    · have hr := (h.planted.removeStatement hf hT (.inr rfl) hj).1
      have htrims : Tree.Trims (⟨q, none, .sequence, [Y], []⟩ :: C') B (plug C' Y) := by
        rw [hB]
        exact .rest ..
      exact ⟨_, hr, h.reshapes hr (fun x ↦ by rw [htrims.mem_held, hT]) (htrims.tidy htidy), htrims⟩
  next =>
    refine ⟨_, ?_, h, .keep _ _⟩
    rw [← hT]
    exact h.planted.unchanged hf

end Drop

section Replace

theorem chainTail_eq (hat : a.blocks.At C B) (hk : B.kind ≠ .sequence) :
    a.blocks.chainTail B.id = B.id :=
  Blocks.chainTail_plug (C := []) hat.holds hat.ids_nodup (by simp) hk

/-- A loose tree takes the place of a jump. -/
theorem WellFormed.replaceJumpWith (h : a.WellFormed L) (hf : L f) (hj : j ∈ a.graph.listed f)
    (hT : a.tree f = plug C B) (hB : B.jump = some j) (hN : a.Loose L N) (hheld : N.held = [])
    (htidy : N.Tidy) :
    ∃ P, Tree.InPlaceOf N B P ∧ Moves (· ∈ N.ids) L f (plug C P) a (a.replaceJumpWith f j N.id) ∧
      (a.replaceJumpWith f j N.id).WellFormed L ∧
      (a.graph.unlinkJump f j).Keeps (a.replaceJumpWith f j N.id).graph ∧
      ∀ i, ((a.replaceJumpWith f j N.id).jump i).source = (a.jump i).source := by
  obtain ⟨hmove, hwf, hgraph⟩ := h.removeJump hf hj hT hB
  have hre := FlowGraph.Relinked.unlinkJump a.graph f j
  have hsource : (a.jump j).source = B.id :=
    ((h.holding f hf B.id j).mp (Tree.mem_held.mpr ⟨B, hT ▸ mem_nodes_plug, rfl, hB⟩)).2
  have hT' := hmove.tree
  have hN' := hN.moves hf hmove fun _ hb ↦ False.elim hb
  have hat' := hwf.planted.at_of_plug hf hT'
  have hBtidy : (plug C B).Tidy := hT ▸ h.tidy f hf
  have hkind := h.kind_ne_sequence hf hT hB
  have hfrom : ∀ {P : Tree}, Tree.InPlaceOf N B P → (plug C P).Tidy := fun hP ↦
    hBtidy.plug (hP.tidy htidy hBtidy.of_plug hkind) fun hp ↦ by simp [Tree.Plain, hB] at hp
  have hsources : ∀ i, ((a.removeJump f j).jump i).source = (a.jump i).source := fun i ↦ by
    rw [jump, hgraph]
    exact hre.source i
  rw [Analysis.replaceJumpWith, hsource]
  generalize a.removeJump f j = a₁ at *
  rw [← hgraph]
  have hid : (B.withJump none).id = B.id := B.id_withJump none
  have hreshapes : ∀ {P : Tree} {a' : Analysis}, Tree.InPlaceOf N B P →
      Reshapes (· ∈ N.ids) L f (plug C P) a₁ a' → a'.WellFormed L := fun hP hr ↦
    hwf.reshapes hr (fun x ↦ by
      rw [hT', mem_held_plug, mem_held_plug, hP.mem_held hheld]) (hfrom hP)
  split
  next hempty =>
    rw [← hid] at hempty
    obtain ⟨hk, hc⟩ := (statement_eq_empty hat'.holds).mp hempty
    rw [Tree.kind_withJump] at hk
    rw [Tree.children_withJump] at hc
    have hr := hwf.planted.replaceBlock hf hT' hN'
    rw [hid] at hr
    have hP : Tree.InPlaceOf N B N := .instead hk hc
    exact ⟨N, hP, hmove.transX hr.toMoves, hreshapes hP hr, hr.graph,
      fun i ↦ (hr.source i).trans (hsources i)⟩
  next hempty =>
    have htail := chainTail_eq hat' (by rwa [Tree.kind_withJump])
    rw [hid] at htail
    have hjump : a₁.jumpOf B.id = none := by
      rw [← hid]
      exact hat'.holds.jump.trans (B.jump_withJump none)
    simp only [htail, hjump]
    have hr := hwf.planted.wrapSequential hf hT' hN'
    rw [hid] at hr
    have hP : Tree.InPlaceOf N B (.node ⟨a₁.blocks.size⟩ none .sequence [B.withJump none, N]) := by
      refine .after _ fun hk ↦ hempty ?_
      rw [← hid, statement_eq_empty hat'.holds]
      simpa using hk
    exact ⟨_, hP, hmove.transX hr.toMoves, hreshapes hP hr, hr.graph,
      fun i ↦ (hr.source i).trans (hsources i)⟩

theorem WellFormed.replaceJumpNew (h : a.WellFormed L) (hf : L f) (hT : a.tree f = plug C B)
    (hB : B.jump = some j) (hs : s.children = []) (hk : s.kind ≠ .sequence) :
    ∃ n P, Tree.InPlaceOf (.node n none s.kind []) B P ∧
      Moves (fun _ ↦ False) L f (plug C P) a ((a.alloc s).1.replaceJumpWith f j (a.alloc s).2) ∧
      ((a.alloc s).1.replaceJumpWith f j (a.alloc s).2).WellFormed L ∧
      (a.graph.unlinkJump f j).Keeps ((a.alloc s).1.replaceJumpWith f j (a.alloc s).2).graph ∧
      ∀ i, (((a.alloc s).1.replaceJumpWith f j (a.alloc s).2).jump i).source =
        (a.jump i).source := by
  obtain ⟨hj, -, -⟩ := h.unique_holder hf hT hB
  obtain ⟨hr, hN⟩ := h.planted.alloc hf hs
  have hwf := h.reshapes hr (fun _ ↦ .rfl) (h.tidy f hf)
  have hT' := hr.tree.trans hT
  have hj' : j ∈ (a.alloc s).1.graph.listed f := hj
  obtain ⟨P, hP, hm, hwf', hg, hsource⟩ := hwf.replaceJumpWith hf hj' hT' hB hN (by simp [Tree.held])
    (Tree.tidy_leaf hk)
  refine ⟨_, P, hP, hr.toMoves.trans hm fun b hb ↦ ?_, hwf', hg, hsource⟩
  obtain rfl : b = ⟨a.blocks.size⟩ := by simpa [Tree.ids] using hb
  exact .inr (.inr le_rfl)

end Replace

section Move

/-- Every jump that the tree holds knows its holder. -/
def Sourced (a : Analysis) (T : Tree) : Prop :=
  ∀ b j, (b, j) ∈ T.held → (a.jump j).source = b

theorem WellFormed.sourced (h : a.WellFormed L) (hf : L f) : a.Sourced (a.tree f) :=
  fun b j hj ↦ ((h.holding f hf b j).mp hj).2

theorem WellFormed.mem_jumps (h : a.WellFormed L) (hf : L f) :
    j ∈ (a.tree f).jumps ↔ j ∈ a.graph.listed f := by
  rw [Tree.mem_jumps]
  exact ⟨fun ⟨b, hb⟩ ↦ ((h.holding f hf b j).mp hb).1, fun hj ↦
    ⟨_, (h.holding f hf _ j).mpr ⟨hj, rfl⟩⟩⟩

theorem WellFormed.rehang (h : a.WellFormed L) (hf : L f) (hm : Moves X L f T a a')
    (hk : a.graph.Keeps a'.graph) (hjumps : ∀ j, j ∈ T.jumps ↔ j ∈ (a.tree f).jumps)
    (hsourced : a'.Sourced T)
    (hother : ∀ j, j ∉ a.graph.listed f → (a'.jump j).source = (a.jump j).source)
    (htidy : T.Tidy) : a'.WellFormed L where
  planted := hm.planted
  linked := hk.linked h.linked
  holding g hg b j := by
    rw [hk.listed]
    by_cases hgf : g = f
    · subst hgf
      rw [hm.tree, ← h.mem_jumps hg, ← hjumps, Tree.mem_jumps]
      refine ⟨fun hb ↦ ⟨⟨b, hb⟩, hsourced b j hb⟩, ?_⟩
      rintro ⟨⟨c, hc⟩, rfl⟩
      exact hsourced c j hc ▸ hc
    · rw [hm.other g hg hgf, h.holding g hg b j]
      refine and_congr_right fun hj ↦ ?_
      rw [hother]
      exact fun hj' ↦ hgf (h.linked.own _ _ _ _ j (h.linked.mem_listed.mp hj)
        (h.linked.mem_listed.mp hj'))
  tidy g hg := by
    by_cases hgf : g = f
    · rw [hgf, hm.tree]
      exact htidy
    · rw [hm.other g hg hgf]
      exact h.tidy g hg
  proper := h.proper
  range j := by
    rw [hk.flows_size]
    exact (hk.destination j) ▸ h.range j

variable {D : Tree}

theorem mem_held_withJump_some (hD : D.jump = none) :
    (b, j) ∈ (plug C (D.withJump (some i))).held ↔ (b = D.id ∧ j = i) ∨ (b, j) ∈ (plug C D).held := by
  rw [mem_held_plug, mem_held_plug, Tree.held_withJump, Tree.held_eq D, hD]
  simp [or_assoc]

variable (h : a.WellFormed L) (hf : L f) (hT : a.tree f = plug C B) (hB : B.jump = some j)
include h hf hT hB

/-- A jump moves from one block of the tree to another that has none. -/
theorem WellFormed.shiftJump (hD : plug C (B.withJump none) = plug E D) (hDj : D.jump = none) :
    Moves (fun _ ↦ False) L f (plug E (D.withJump (some j))) a (a.moveJump B.id D.id) ∧
      a.graph.Keeps (a.moveJump B.id D.id).graph ∧
      (∀ i, ((a.moveJump B.id D.id).jump i).source = if i = j then D.id else (a.jump i).source) ∧
      (∀ i, i ∈ (plug E (D.withJump (some j))).jumps ↔ i ∈ (a.tree f).jumps) ∧
      (a.moveJump B.id D.id).Sourced (plug E (D.withJump (some j))) := by
  obtain ⟨hj, hsource, hunique⟩ := h.unique_holder hf hT hB
  have hat := h.planted.at_of_plug hf hT
  have hjump : a.jumpOf B.id = some j := hat.holds.jump.trans hB
  have h₁ := (h.planted.setJumpOf hf hT none).toMoves
  have h₂ := (h₁.planted.setJumpOf hf (h₁.tree.trans hD) (some j)).toMoves
  have h₃ := h₂.planted.setSource hf j D.id
  rw [h₂.tree] at h₃
  have hm := (h₁.andThen h₂).andThen h₃
  have heq : a.moveJump B.id D.id = ((a.setJumpOf B.id none).setJumpOf D.id (some j)).modifyJump j
      ({ · with source := D.id }) := by rw [Analysis.moveJump, hjump]
  have hk : a.graph.Keeps (a.graph.modifyJump j ({ · with source := D.id })) := .modifyJump ..
  have hsrc : ∀ i, ((a.graph.modifyJump j ({ · with source := D.id })).jump i).source =
      if i = j then D.id else (a.jump i).source := fun i ↦ by
    rw [FlowGraph.jump_modifyJump]
    by_cases hij : i = j
    · simp [hij, h.linked.lt_size (h.linked.mem_listed.mp hj)]
    · simp [hij, Analysis.jump]
  rw [heq]
  have hheld : ∀ b i, (b, i) ∈ (plug E (D.withJump (some j))).held ↔
      (b = D.id ∧ i = j) ∨ (b, i) ∈ (a.tree f).held ∧ i ≠ j := fun b i ↦ by
    rw [mem_held_withJump_some hDj, ← hD, Tree.mem_held_withJump_none hat.nodup hB hunique, hT]
  refine ⟨hm, hk, hsrc, fun i ↦ ?_, fun b i hi ↦ ?_⟩
  · rw [Tree.mem_jumps, Tree.mem_jumps]
    simp only [hheld]
    by_cases hij : i = j
    · subst hij
      exact ⟨fun _ ↦ ⟨_, (h.holding f hf _ i).mpr ⟨hj, rfl⟩⟩, fun _ ↦ ⟨D.id, .inl ⟨rfl, rfl⟩⟩⟩
    · simp [hij]
  · show ((a.graph.modifyJump j ({ · with source := D.id })).jump i).source = b
    rw [hsrc]
    rcases (hheld b i).mp hi with ⟨rfl, rfl⟩ | ⟨hb, hij⟩
    · simp
    · rw [if_neg hij]
      exact h.sourced hf b i hb

theorem WellFormed.ne_of_not_listed (hi : i ∉ a.graph.listed f) : i ≠ j := by
  rintro rfl
  exact hi (h.unique_holder hf hT hB).1

theorem WellFormed.moveJump (hD : plug C (B.withJump none) = plug E D) (hDj : D.jump = none)
    (htidy : (plug E (D.withJump (some j))).Tidy) :
    Moves (fun _ ↦ False) L f (plug E (D.withJump (some j))) a (a.moveJump B.id D.id) ∧
      (a.moveJump B.id D.id).WellFormed L ∧ a.graph.Keeps (a.moveJump B.id D.id).graph ∧
      ∀ i, ((a.moveJump B.id D.id).jump i).source = if i = j then D.id else (a.jump i).source := by
  obtain ⟨hm, hk, hsrc, hjumps, hsourced⟩ := h.shiftJump hf hT hB hD hDj
  refine ⟨hm, h.rehang hf hm hk hjumps hsourced (fun i hi ↦ ?_) htidy, hk, hsrc⟩
  rw [hsrc, if_neg (h.ne_of_not_listed hf hT hB hi)]

end Move

end Analysis

end Decompile
