import Decompile.Proofs.Joining
import Decompile.Reduction.Switch

namespace Decompile

theorem append_cons_cases {α : Type} {l₁ l₂ r₁ r₂ : List α} {x y : α}
    (h : l₁ ++ x :: r₁ = l₂ ++ y :: r₂) :
    (l₁ = l₂ ∧ x = y ∧ r₁ = r₂) ∨ (∃ m, l₂ = l₁ ++ x :: m ∧ r₁ = m ++ y :: r₂) ∨
      ∃ m, l₁ = l₂ ++ y :: m ∧ r₂ = m ++ x :: r₁ := by
  rcases List.append_eq_append_iff.mp h with ⟨m, rfl, hm⟩ | ⟨m, rfl, hm⟩
  · rcases List.cons_eq_append_iff.mp hm with ⟨rfl, hm⟩ | ⟨m, rfl, rfl⟩
    · exact .inl (by simp_all)
    · exact .inr (.inl ⟨m, rfl, rfl⟩)
  · rcases List.cons_eq_append_iff.mp hm with ⟨rfl, hm⟩ | ⟨m, rfl, rfl⟩
    · exact .inl (by simp_all)
    · exact .inr (.inr ⟨m, rfl, rfl⟩)

namespace Tree

variable {i j : JumpId} {T A B : Tree} {F : Frame} {D : List Frame}

/-- The tree ends with the block that holds the jump. -/
inductive Exits (j : JumpId) : Tree → Prop
  | here {T : Tree} : T.jump = some j → Exits j T
  | inside {F : Frame} {B : Tree} : F.Ends → F.jump = none → Exits j B → Exits j (F.fill B)

/-- A jump at the end of the tree goes, and the block with it if nothing is left of that. -/
inductive Sheds (j : JumpId) : Tree → Tree → Prop
  | here {T : Tree} : T.jump = some j → Sheds j T (T.withJump none)
  | drop {q b : BlockId} {Y : Tree} :
    Sheds j (node q none .sequence [Y, node b (some j) .empty []]) Y
  | inside {F : Frame} {B B' : Tree} : F.Ends → F.jump = none → Sheds j B B' →
    Sheds j (F.fill B) (F.fill B')

theorem id_plug_congr {C : List Frame} {N : Tree} (h : N.id = B.id) :
    (plug C N).id = (plug C B).id := by
  induction C generalizing N B with
  | nil => exact h
  | cons F C ih => exact ih rfl

theorem Exits.plug (hD : FallsOut D) (h : Exits j B) : Exits j (plug D B) := by
  induction D generalizing B with
  | nil => exact h
  | cons F D ih => exact ih hD.tail (.inside (hD F (.head _)).1 (hD F (.head _)).2 h)

theorem Sheds.plug (hD : FallsOut D) (h : Sheds j B A) :
    Sheds j (Decompile.plug D B) (Decompile.plug D A) := by
  induction D generalizing B A with
  | nil => exact h
  | cons F D ih => exact ih hD.tail (.inside (hD F (.head _)).1 (hD F (.head _)).2 h)

theorem Exits.exists_plug (h : Exits j T) :
    ∃ D B, T = Decompile.plug D B ∧ FallsOut D ∧ B.jump = some j := by
  induction h with
  | here hj => exact ⟨[], _, rfl, by simp [FallsOut], hj⟩
  | @inside F _ hF hjump _ ih =>
    obtain ⟨D, B, rfl, hD, hB⟩ := ih
    refine ⟨D ++ [F], B, by simp, ?_, hB⟩
    intro G hG
    rcases List.mem_append.mp hG with hG | hG
    · exact hD G hG
    · obtain rfl := List.mem_singleton.mp hG
      exact ⟨hF, hjump⟩

theorem sheds_of_trims (hD : FallsOut D) (hB : B.jump = some j)
    (h : Trims D (B.withJump none) A) : Sheds j (Decompile.plug D B) A := by
  generalize hN : B.withJump none = N at h
  cases h with
  | keep => exact .plug hD (hN ▸ .here hB)
  | first q b Y D =>
    have := (hD _ (.head _)).1
    simp [Frame.Ends] at this
  | rest q b Y D =>
    obtain ⟨x, jump, kind, l⟩ := B
    obtain rfl : jump = some j := hB
    simp only [withJump, true_and] at hN
    obtain ⟨rfl, rfl, rfl⟩ := hN
    exact .plug hD.tail .drop

theorem Exits.cases (h : Exits j T) : T.jump = some j ∨
    T.jump = none ∧ ∃ (F : Frame) (B : Tree), T = F.fill B ∧ F.Ends ∧ F.jump = none ∧ Exits j B := by
  cases h with
  | here h => exact .inl h
  | @inside F B hF hj h => exact .inr ⟨by simpa using hj, F, B, rfl, hF, hj, h⟩

theorem Exits.beside {G : Frame} (hF : F.Ends) (hG : G.Ends) (hjump : G.jump = none)
    (he : F.fill B = G.fill T) (h : Exits j T) (A : Tree) : T = B ∨ Exits j (F.fill A) := by
  obtain ⟨x, e, k, l₁, r₁⟩ := F
  obtain ⟨y, e', k', l₂, r₂⟩ := G
  simp only [Frame.fill, node.injEq] at he
  obtain ⟨rfl, rfl, rfl, he⟩ := he
  rcases append_cons_cases he with ⟨_, rfl, _⟩ | ⟨m, rfl, rfl⟩ | ⟨m, rfl, rfl⟩
  · exact .inl rfl
  · refine .inr ?_
    have : Exits j (Frame.fill ⟨x, e, k, l₁ ++ A :: m, r₂⟩ T) := by
      refine .inside ?_ hjump h
      simpa [Frame.Ends] using hG
    simpa [Frame.fill] using this
  · refine .inr ?_
    have : Exits j (Frame.fill ⟨x, e, k, l₂, m ++ A :: r₁⟩ T) := by
      refine .inside ?_ hjump h
      unfold Frame.Ends at hG ⊢
      cases k <;> simp_all
    simpa [Frame.fill] using this

theorem Exits.sheds (hi : Exits i T) (h : Sheds j T A) (hne : i ≠ j) : Exits i A := by
  induction h with
  | here hj =>
    rcases hi.cases with hi | ⟨hi, -⟩
    · exact absurd (Option.some.inj (hi.symm.trans hj)) hne
    · simp [hi] at hj
  | @drop q b Y =>
    rcases hi.cases with hi | ⟨-, ⟨x, jx, k, before, after⟩, B, hT, hF, hjump, hi⟩
    · simp at hi
    · simp only [Frame.fill, node.injEq] at hT
      obtain ⟨rfl, rfl, rfl, hT⟩ := hT
      obtain rfl : after = [] := hF
      obtain ⟨rfl, rfl⟩ : before = [Y] ∧ B = node b (some j) .empty [] := by
        rcases before with _ | ⟨x, _ | ⟨y, before⟩⟩ <;> simp_all
      rcases hi.cases with hi | ⟨hi, -⟩
      · exact absurd (Option.some.inj hi).symm hne
      · simp at hi
  | @inside F B B' hF hjump _ ih =>
    rcases hi.cases with hi | ⟨-, G, T, he, hG, hGj, hi₁⟩
    · simp [hjump] at hi
    · rcases hi₁.beside hF hG hGj he B' with rfl | hi'
      · exact .inside hF hjump (ih hi₁)
      · exact hi'

/-- Jumps to the flow block go from the end of the tree, one after the other. -/
inductive ShedsAll (destination : JumpId → FlowId) (s : FlowId) : Tree → Tree → Prop
  | refl (T : Tree) : ShedsAll destination s T T
  | step {j : JumpId} {T T' T'' : Tree} : destination j = s → Sheds j T T' →
    ShedsAll destination s T' T'' → ShedsAll destination s T T''

/-- A case that only jumps becomes the tree `S` of its target. Where the case before it jumps there
from its end, it now falls in. -/
inductive MergesCase (destination : JumpId → FlowId) (s : FlowId) (S : Tree) : Tree → Tree → Prop
  | alone {C : List Frame} {w c b : BlockId} {e : Option JumpId} {selector : ExprId} {l : Bool}
      {before after : List Tree} {v : CaseValue} {through : Bool} {j : JumpId} :
    destination j = s →
    MergesCase destination s S
      (plug C (node w e (.switch selector l)
        (before ++ node c none (.switchCase v through) [node b (some j) .empty []] :: after)))
      (plug C (node w e (.switch selector l)
        (before ++ node c none (.switchCase v through) [S] :: after)))
  | fallIn {C : List Frame} {w c b p : BlockId} {e : Option JumpId} {selector : ExprId} {l : Bool}
      {before after : List Tree} {u v : CaseValue} {into through : Bool} {j : JumpId} {P P' : Tree} :
    destination j = s → ShedsAll destination s P P' →
    MergesCase destination s S
      (plug C (node w e (.switch selector l) (before ++ node p none (.switchCase u into) [P] ::
        node c none (.switchCase v through) [node b (some j) .empty []] :: after)))
      (plug C (node w e (.switch selector l) (before ++ node p none (.switchCase u into) [P'] ::
        node c none (.switchCase v true) [S] :: after)))

end Tree

namespace Analysis

variable {a a' : Analysis} {L : FlowId → Prop} {f s : FlowId} {j : JumpId} {C : List Frame}
  {p w c b : BlockId} {k : Kind} {P T : Tree}

section Shed

/-- Jumps at the end of a block go, and what is left of the block ends as it did. -/
theorem WellFormed.shedJumps {js : List JumpId} (h : a.WellFormed L) (hf : L f)
    (hT : a.tree f = plug C (.node p none k [P])) (hk : k ≠ .sequence)
    (hjs : ∀ j ∈ js, j ∈ a.graph.jumpsTo f s ∧ P.Exits j) (hn : js.Nodup) :
    let a' := js.foldl (fun a other ↦
      let source := (a.jump other).source
      (a.removeJump f other).dropIfEmpty source) a
    Evolved L f s a a' ∧ a'.content = a.content ∧
      (∃ P', Tree.ShedsAll (fun i ↦ (a.jump i).destination) s P P' ∧
        a'.tree f = plug C (.node p none k [P'])) ∧
      ∀ j, j ∈ a'.graph.jumpsTo f s ↔ j ∈ a.graph.jumpsTo f s ∧ j ∉ js := by
  induction js generalizing a P with
  | nil => exact ⟨.refl h hf, rfl, ⟨P, .refl P, hT⟩, by simp⟩
  | cons j js ih =>
    obtain ⟨hj, hn⟩ := List.nodup_cons.mp hn
    obtain ⟨hmem, hexits⟩ := hjs j (by simp)
    obtain ⟨D, B, rfl, hD, hB⟩ := hexits.exists_plug
    have hT' : a.tree f = plug (D ++ ⟨p, none, k, [], []⟩ :: C) B := by
      rw [hT, plug_append]
      rfl
    have hlisted := h.linked.mem_listed_of_mem hmem
    obtain ⟨-, hsource, -⟩ := h.unique_holder hf hT' hB
    obtain ⟨hm₁, h₁, hgraph⟩ := h.removeJump hf hlisted hT' hB
    obtain ⟨T, hm₂, h₂, htrims⟩ := h₁.dropIfEmpty hf hm₁.tree
    obtain ⟨A, htrims₁, rfl⟩ := htrims.inner hk
    rw [Tree.id_withJump] at hm₂ h₂
    have hcontent : ((a.removeJump f j).dropIfEmpty B.id).content = a.content := by simp
    have hexprs : a.exprs.Extends ((a.removeJump f j).dropIfEmpty B.id).exprs :=
      .of_eq (congrArg Prod.fst hcontent :)
    obtain ⟨he, hself⟩ := Evolved.of_unlink h hf hmem h₂ ⟨_, hm₁.andThen hm₂.toMoves⟩
      (hgraph ▸ hm₂.graph) hexprs
    have htree := hm₂.tree
    have hsheds := Tree.sheds_of_trims hD hB htrims₁
    have hdest := h.linked.destination hmem
    simp only [List.foldl_cons, hsource]
    generalize (a.removeJump f j).dropIfEmpty B.id = a₁ at *
    have hrest : ∀ i ∈ js, i ∈ a₁.graph.jumpsTo f s ∧ A.Exits i := by
      intro i hi
      have hij : i ≠ j := fun hij ↦ hj (hij ▸ hi)
      obtain ⟨hi, hexits⟩ := hjs i (by simp [hi])
      refine ⟨?_, hexits.sheds hsheds hij⟩
      rw [hself]
      exact List.mem_filter.mpr ⟨hi, by simpa using hij⟩
    obtain ⟨he', hc', ⟨P', hP', hT''⟩, hto⟩ := ih h₂ htree hrest hn
    refine ⟨he.trans he', hc'.trans hcontent, ⟨P', .step hdest hsheds ?_, hT''⟩, fun i ↦ ?_⟩
    · rwa [show (fun i ↦ (a₁.jump i).destination) = _ from funext he.destination] at hP'
    · rw [hto, hself]
      by_cases hij : i = j <;> simp [hij]

end Shed

section Merge

variable {v : CaseValue} {through : Bool}

theorem kind_setFallthrough (s : Statement) : s.setFallthrough.children = s.children ∧
    ∀ v through, s.kind = .switchCase v through → s.setFallthrough.kind = .switchCase v true := by
  cases s <;> simp [Statement.setFallthrough, Statement.kind, Statement.children]

/-- The tree of `s` takes the place of an empty case, into which control may now fall. -/
theorem WellFormed.engulf_case (h : a.WellFormed L) (hf : L f) (hs : L s) (hfs : f ≠ s)
    (hT : a.tree f = plug C (.node c none (.switchCase v through) [.node b none .empty []]))
    (fell : Bool) :
    Engulfs L f s (plug C (.node c none (.switchCase v (through || fell)) [a.tree s])) a
      (let a := a.put (.child c) b (a.root s)
      if fell then a.modifyStatement c (·.setFallthrough) else a) := by
  have hT' : a.tree f = plug (⟨c, none, .switchCase v through, [], []⟩ :: C) (.node b none .empty []) :=
    hT
  have hat := h.planted.at_of_plug hf hT'
  have hS := h.planted.holds s hs
  have hd : (a.tree s).ids.Disjoint (a.tree f).ids := h.planted.apart s f hs hf hfs.symm
  have hb := hat.replace h.planted.linked hS (h.planted.nodup s hs) (hT' ▸ hd)
  rw [id_tree] at hb
  have hput : (a.put (.child c) b (a.root s)).blocks =
      a.blocks.hang (⟨c, none, .switchCase v through, [], []⟩ :: C) b (a.root s) := rfl
  have hid : ∀ k l, (plug C (.node c none k l)).id = a.root f := fun k l ↦ by
    rw [← id_tree a f, hT]
    exact Tree.id_plug_congr rfl
  have hheld : ∀ k b j, (b, j) ∈ (plug C (.node c none k [a.tree s])).held ↔
      (j ∈ a.graph.listed f ∨ j ∈ a.graph.listed s) ∧ (a.jump j).source = b := by
    intro k b j
    rw [or_and_right, ← h.holding f hf, ← h.holding s hs, hT, mem_held_plug, mem_held_plug]
    simp [Tree.held, or_comm]
  have htidy : ∀ v t, (plug C (.node c none (.switchCase v t) [a.tree s])).Tidy := by
    intro v t
    have htidy := h.tidy f hf
    rw [hT] at htidy
    refine htidy.plug (Tree.tidy_node.mpr ⟨by simp, ?_⟩) fun _ ↦ ⟨rfl, by simp⟩
    simpa using h.tidy s hs
  rw [Tree.id_node, ← hput, ← hT'] at hb
  have hgraph : (a.put (.child c) b (a.root s)).graph = a.graph := rfl
  have hexprs : (a.put (.child c) b (a.root s)).exprs = a.exprs := rfl
  have hframe : (a.put (.child c) b (a.root s)).frame = a.frame := rfl
  generalize a.put (.child c) b (a.root s) = u at *
  have hflow : ∀ g, u.flow g = a.flow g := fun g ↦ by rw [flow, hgraph, flow]
  have hjump : ∀ j, u.jump j = a.jump j := fun j ↦ by rw [jump, hgraph, jump]
  have hkeeps : a.graph.Keeps u.graph := hgraph ▸ .refl _
  have hroot : ∀ g, u.root g = a.root g := fun g ↦ by rw [root, hflow, root]
  cases fell with
  | false =>
    simp only [Bool.or_false, Bool.false_eq_true, ↓reduceIte]
    refine ⟨hb, hkeeps, (hroot f).trans (hid _ _).symm, fun g _ ↦ hroot g, fun g _ ↦ by rw [hflow],
      .inr (by rw [hflow]), fun b j ↦ ?_, fun g j _ _ _ _ ↦ by rw [hjump], htidy _ _, hexprs, hframe⟩
    rw [hjump]
    exact hheld _ b j
  | true =>
    have hat' : u.blocks.At C (.node c none (.switchCase v through) [a.tree s]) :=
      .of_holds hb.holds hb.nodup
    obtain ⟨hchildren, hkind⟩ := kind_setFallthrough (u.statement c)
    have hb' := hat'.setStatement hb.linked (hchildren.trans hat'.holds.children)
    rw [hkind v through hat'.holds.kind] at hb'
    simp only [Bool.or_true, ↓reduceIte]
    refine ⟨hb.trans hb' fun _ hx ↦ hx.elim, hkeeps, (hroot f).trans (hid _ _).symm,
      fun g _ ↦ hroot g, fun g _ ↦ ?_, .inr ?_, fun b j ↦ ?_, fun g j _ _ _ _ ↦ ?_, htidy _ _,
      hexprs, hframe⟩
    · exact congrArg Flow.growth (hflow g)
    · exact congrArg Flow.growth (hflow f)
    · rw [show (u.modifyStatement c (·.setFallthrough)).jump j = a.jump j from hjump j]
      exact hheld _ b j
    · exact congrArg Jump.source (hjump j)

/-- A case of the switch `w` has become the tree of its target. -/
structure CaseMerged (L : FlowId → Prop) (f s : FlowId) (w : BlockId) (a a' : Analysis) : Prop
    extends Merged L f s a a' where
  merges : Tree.MergesCase (fun i ↦ (a.jump i).destination) s (a.tree s) (a.tree f) (a'.tree f)
  same : a'.exprs = a.exprs
  grown : (a'.flow f).growth = w

theorem WellFormed.fillCase {a₁ : Analysis} {x : Edge} (h : a.WellFormed L) (hf : L f) (hs : L s)
    (hfs : f ≠ s) (hpreds : ∀ x, a.graph.jumpsTo x s ≠ [] → x = f) (he : Evolved L f s a a₁)
    (hexprs : a₁.exprs = a.exprs)
    (hT : a₁.tree f = plug C (.node c none (.switchCase v through) [.node b (some j) .empty []]))
    (hto : ∀ i, i ∈ a₁.graph.jumpsTo f s ↔ i = j) (hw : ∀ k l, w ∈ (plug C (.node c none k l)).ids)
    (fell : Bool) : let a' := (let a := a₁.removeJump f j
      let a := { a with graph := a.graph.removeEdge f s }
      let a := a.put (.child c) b (a.root s)
      let a := if fell then a.modifyStatement c (·.setFallthrough) else a
      (a.absorb f s x).setGrowth f w)
    Merged L f s a a' ∧ a'.exprs = a.exprs ∧ (a'.flow f).growth = w ∧
      a'.tree f = plug C (.node c none (.switchCase v (through || fell)) [a.tree s]) := by
  have hmem := (hto j).mpr rfl
  have hT₁ : a₁.tree f =
    plug (⟨c, none, .switchCase v through, [], []⟩ :: C) (.node b (some j) .empty []) := hT
  obtain ⟨hm₁, h₁, hgraph⟩ :=
    he.wellFormed.removeJump hf (he.wellFormed.linked.mem_listed_of_mem hmem) hT₁ rfl
  obtain ⟨he₁, hself⟩ := Evolved.of_unlink he.wellFormed hf hmem h₁ ⟨_, hm₁⟩ (hgraph ▸ .refl _)
    (.of_eq (congrArg Prod.fst (content_removeJump a₁ f j)))
  have hcontent : (a₁.removeJump f j).exprs = a₁.exprs :=
    congrArg Prod.fst (content_removeJump a₁ f j)
  have htree := hm₁.tree
  have he₂ := he.trans he₁
  dsimp only
  generalize a₁.removeJump f j = a₂ at *
  have hnil : a₂.graph.jumpsTo f s = [] := by
    rw [hself, List.eq_nil_iff_forall_not_mem]
    intro i hi
    simp [hto] at hi
  have he₃ := h₁.dropEdge hf hs hnil
  have hnil₃ : (Analysis.graph { a₂ with graph := a₂.graph.removeEdge f s }).jumpsTo f s = [] := by
    rw [List.eq_nil_iff_forall_not_mem]
    exact fun i hi ↦ by simpa [hnil] using he₃.resolved i hi
  have hexprs₃ : (Analysis.exprs { a₂ with graph := a₂.graph.removeEdge f s }) = a.exprs :=
    hcontent.trans hexprs
  have htree₃ : (Analysis.tree { a₂ with graph := a₂.graph.removeEdge f s } f) = a₂.tree f := by
    obtain ⟨hm, -, -⟩ := h₁.removeEdge hf (h₁.planted.live s hs).1 hnil
    exact hm.tree
  have he' := he₂.trans he₃
  generalize { a₂ with graph := a₂.graph.removeEdge f s } = a₃ at *
  have hg := he'.wellFormed.engulf_case hf hs hfs (htree₃.trans htree) fell
  obtain ⟨hmerged, hT', hexprs', -⟩ := h.take hf hs hfs hpreds he' hnil₃ hg
  have hs' : a₃.tree s = a.tree s := by
    obtain ⟨T, hm⟩ := he'.moves
    exact hm.other s hs hfs.symm
  rw [hs'] at hT'
  generalize Analysis.absorb _ f s x = a₄ at *
  obtain ⟨hr, hwf⟩ := hmerged.wellFormed.setGrowth ⟨hf, hfs⟩ (hT' ▸ hw _ _)
  have hlt : f.index < a₄.graph.flows.size := (hmerged.wellFormed.planted.live f ⟨hf, hfs⟩).1
  refine ⟨hmerged.reshapes hr hwf (.refl _) rfl, hexprs'.trans hexprs₃, ?_, hr.tree.trans hT'⟩
  rw [flow_setGrowth, if_pos ⟨rfl, hlt⟩]

theorem WellFormed.exits_case (h : a.WellFormed L) (hf : L f)
    (hT : a.tree f = plug C (.node p none k [P])) (hj : j ∈ a.graph.listed f)
    (hfalls : a.blocks.fallsToEndOf (a.jump j).source p = true) : P.Exits j := by
  obtain ⟨E, B, hT', hsource, hB⟩ := h.exists_holder hf hj
  have hat := h.planted.at_of_plug hf hT'
  rw [← hsource, Blocks.fallsToEndOf_iff hat] at hfalls
  obtain ⟨C₁, C₂, rfl, hp, hfalls⟩ := hfalls
  have he : plug C₂ (plug C₁ B) = plug C (.node p none k [P]) := by
    rw [← plug_append, ← hT', hT]
  have hn : (plug C₂ (plug C₁ B)).ids.Nodup := by
    rw [← plug_append]
    exact hat.nodup
  obtain ⟨rfl, hpart⟩ := plug_inj hn he hp.symm
  have hout : FallsOut C₁ := fallsOut_iff.mpr ⟨hfalls, .inr (by rw [hpart]; rfl)⟩
  rcases List.eq_nil_or_concat C₁ with rfl | ⟨D, G, rfl⟩
  · rw [plug_nil] at hpart
    simp [hpart] at hB
  · obtain ⟨x, e, k', before, after⟩ := G
    simp only [List.concat_eq_append, plug_append, plug_cons, plug_nil, Frame.fill,
      Tree.node.injEq] at hpart
    obtain ⟨-, -, -, hpart⟩ := hpart
    obtain rfl : plug D B = P := by
      cases before <;> simp_all
    exact .plug (fun F hF ↦ hout F (by simp [hF])) (.here hB)

variable {e : Option JumpId} {selector : ExprId} {l : Bool} {before after : List Tree}
  {u : CaseValue} {into : Bool}

theorem WellFormed.mergeCase_alone (h : a.WellFormed L) (hf : L f) (hs : L s) (hfs : f ≠ s)
    (hpred : (a.flow s).predecessors = [f])
    (hT : a.tree f = plug C (.node w e (.switch selector l)
      (before ++ .node c none (.switchCase v through) [.node b (some j) .empty []] :: after)))
    (hto : ∀ i, i ∈ a.graph.jumpsTo f s ↔ i = j) :
    ∃ a', CaseMerged L f s w a a' ∧ a.mergeCase f w c b j s [] = a'.checkpoint := by
  have hpreds : ∀ x, a.graph.jumpsTo x s ≠ [] → x = f := fun x hx ↦ by
    simpa [hpred] using h.pred_of_jumpsTo hx
  have hT' : a.tree f = plug (⟨w, e, .switch selector l, before, after⟩ :: C)
    (.node c none (.switchCase v through) [.node b (some j) .empty []]) := hT
  obtain ⟨hm, hexprs, hgrown, htree⟩ := h.fillCase (x := ((a.flow f).edge? s).getD {}) (w := w)
    hf hs hfs hpreds (.refl h hf) rfl hT' hto
    (fun k l ↦ mem_ids_plug.mpr (.inr (by simp [Frame.ids]))) false
  refine ⟨_, ⟨hm, ?_, hexprs, hgrown⟩, rfl⟩
  rw [htree, hT, Bool.or_false]
  exact .alone (h.linked.destination ((hto j).mpr rfl))

theorem WellFormed.mergeCase_fallIn {js : List JumpId} (h : a.WellFormed L) (hf : L f) (hs : L s)
    (hfs : f ≠ s) (hpred : (a.flow s).predecessors = [f])
    (hT : a.tree f = plug C (.node w e (.switch selector l) (before ++
      .node p none (.switchCase u into) [P] ::
      .node c none (.switchCase v through) [.node b (some j) .empty []] :: after)))
    (hjs : ∀ i, i ∈ js ↔ i ∈ a.graph.jumpsTo f s ∧ i ≠ j) (hn : js.Nodup) (hne : js ≠ [])
    (hj : j ∈ a.graph.jumpsTo f s)
    (hfalls : ∀ i ∈ js, a.blocks.fallsToEndOf (a.jump i).source p = true) :
    ∃ a', CaseMerged L f s w a a' ∧ a.mergeCase f w c b j s js = a'.checkpoint := by
  have hpreds : ∀ x, a.graph.jumpsTo x s ≠ [] → x = f := fun x hx ↦ by
    simpa [hpred] using h.pred_of_jumpsTo hx
  have hT' : a.tree f = plug (⟨w, e, .switch selector l, before,
    .node c none (.switchCase v through) [.node b (some j) .empty []] :: after⟩ :: C)
    (.node p none (.switchCase u into) [P]) := hT
  obtain ⟨he, hcontent, ⟨P', hsheds, htree⟩, hto⟩ := h.shedJumps hf hT' (by simp)
    (fun i hi ↦ ⟨((hjs i).mp hi).1, h.exits_case hf hT'
      (h.linked.mem_listed_of_mem ((hjs i).mp hi).1) (hfalls i hi)⟩) hn
  obtain ⟨x, js', rfl⟩ := List.exists_cons_of_ne_nil hne
  rw [Analysis.mergeCase]
  generalize List.foldl _ a (x :: js') = a₁ at *
  have hT₁ : a₁.tree f = plug (⟨w, e, .switch selector l,
      before ++ [.node p none (.switchCase u into) [P']], after⟩ :: C)
      (.node c none (.switchCase v through) [.node b (some j) .empty []]) := by
    simp [htree, Frame.fill]
  obtain ⟨hm, hexprs, hgrown, htree'⟩ := h.fillCase (w := w) hf hs hfs hpreds he
    (congrArg Prod.fst hcontent :) hT₁
    (fun i ↦ by rw [hto, hjs]; by_cases hij : i = j <;> simp [hij, hj])
    (fun k l ↦ mem_ids_plug.mpr (.inr (by simp [Frame.ids]))) true
  refine ⟨_, ⟨hm, ?_, hexprs, hgrown⟩, rfl⟩
  rw [htree', hT]
  simpa [Frame.fill] using Tree.MergesCase.fallIn (h.linked.destination hj) hsheds

end Merge

end Analysis

end Decompile
