import Decompile.Proofs.Reaching
import Decompile.Reduction.Reachable

/-!
Flow blocks that nothing leads to are dropped. The others keep their trees and edges, so that the
state stays sound.
-/

namespace Decompile

/-- The graphs differ in addresses, in the locals accessed and in which flow blocks are dead. -/
structure FlowGraph.Resembles (g g' : FlowGraph) : Prop where
  flows_size : g'.flows.size = g.flows.size
  jumps : g'.jumps = g.jumps
  root : ∀ f, (g'.flow f).root = (g.flow f).root
  growth : ∀ f, (g'.flow f).growth = (g.flow f).growth
  successors : ∀ f, (g'.flow f).successors = (g.flow f).successors
  predecessors : ∀ f p, p.isSentinel = false →
    (p ∈ (g'.flow f).predecessors ↔ p ∈ (g.flow f).predecessors)

namespace FlowGraph.Resembles

variable {g g' : FlowGraph} (h : Resembles g g')

theorem modifyFlow (g : FlowGraph) (f : FlowId) {k : Flow → Flow}
    (hk : ∀ x : Flow, (k x).root = x.root ∧ (k x).growth = x.growth ∧
      (k x).successors = x.successors)
    (hp : ∀ p : FlowId, p.isSentinel = false →
      (p ∈ (k (g.flow f)).predecessors ↔ p ∈ (g.flow f).predecessors)) :
    Resembles g (g.modifyFlow f k) := by
  refine ⟨by simp, by simp, fun x ↦ ?_, fun x ↦ ?_, fun x ↦ ?_, fun x p hs ↦ ?_⟩
  all_goals rw [flow_modifyFlow]; split
  · exact (hk _).1
  · rfl
  · exact (hk _).2.1
  · rfl
  · exact (hk _).2.2
  · rfl
  next hx => exact hx.1 ▸ hp p hs
  · rfl

include h

theorem jump (j : JumpId) : g'.jump j = g.jump j := by rw [FlowGraph.jump, h.jumps, FlowGraph.jump]

theorem keys (f : FlowId) : g'.keys f = g.keys f := by
  rw [FlowGraph.keys, h.successors, FlowGraph.keys]

theorem jumpsTo (f d : FlowId) : g'.jumpsTo f d = g.jumpsTo f d :=
  jumpsTo_eq_of_successors h.jumps (h.successors f) d

theorem linked (hl : g.Linked) : g'.Linked where
  keys f := h.successors f ▸ hl.keys f
  filed f d e he := by
    rw [chain_eq_of_jumps h.jumps]
    exact (hl.filed f d e (h.successors f ▸ he)).of_jumps h.jumps
  own f f' d d' j hj hj' := hl.own f f' d d' j (h.jumpsTo f d ▸ hj) (h.jumpsTo f' d' ▸ hj')
  pred_iff f d hf := by rw [h.predecessors d f hf, h.keys, hl.pred_iff f d hf]
  sentinel f hf := (h.successors f).trans (hl.sentinel f hf)

theorem mem_listed (hl : g.Linked) (f : FlowId) (j : JumpId) :
    j ∈ g'.listed f ↔ j ∈ g.listed f := by
  rw [(h.linked hl).mem_listed, hl.mem_listed, h.jumpsTo, h.jump]

end FlowGraph.Resembles

namespace Analysis

variable {a a' a'' : Analysis} {L L' : FlowId → Prop} {f g d : FlowId} {G : FlowGraph} {j : JumpId}

theorem tree_of_resembles (hG : a.graph.Resembles G) (g : FlowId) :
    ({ a with graph := G } : Analysis).tree g = a.tree g := by
  have hroot : ({ a with graph := G } : Analysis).root g = a.root g := hG.root g
  rw [tree, hroot, tree]

theorem live_of_resembles (hG : a.graph.Resembles G)
    (halive : ∀ g, (G.flow g).alive = (a.flow g).alive) (g : FlowId) :
    ({ a with graph := G } : Analysis).Live g ↔ a.Live g := by
  change g.index < G.flows.size ∧ (G.flow g).alive = true ↔ _
  rw [hG.flows_size, halive, Live]

theorem WellFormed.resembles (h : a.WellFormed L) (hG : a.graph.Resembles G)
    (hsub : ∀ g, L' g → L g) (hlive : ∀ g, L' g → (G.flow g).alive = true)
    (halive : ∀ g, (G.flow g).alive = true → (a.flow g).alive = true) :
    ({ a with graph := G } : Analysis).WellFormed L' := by
  have hp := h.planted
  have hroot : ∀ g, ({ a with graph := G } : Analysis).root g = a.root g := hG.root
  have hgrowth : ∀ g, (({ a with graph := G } : Analysis).flow g).growth = (a.flow g).growth :=
    hG.growth
  have htree := tree_of_resembles hG
  have hold : ∀ g, ({ a with graph := G } : Analysis).Live g → a.Live g := fun g hg ↦
    ⟨hG.flows_size ▸ hg.1, halive g hg.2⟩
  refine ⟨⟨?_, ?_, ?_, ?_, ?_, ?_, ?_, ?_, hp.linked⟩, hG.linked h.linked, ?_, ?_, ?_, ?_⟩
  · exact fun g hg ↦ ⟨hG.flows_size ▸ (hp.live g (hsub g hg)).1, hlive g hg⟩
  · exact fun g hg ↦ htree g ▸ hp.holds g (hsub g hg)
  · exact fun g hg ↦ htree g ▸ hp.nodup g (hsub g hg)
  · exact fun x y hx hy ↦ htree x ▸ htree y ▸ hp.apart x y (hsub x hx) (hsub y hy)
  · exact fun x y hx hy hr ↦ hp.owner x y (hsub x hx) (hold y hy) (htree x ▸ hroot y ▸ hr)
  · exact fun g hg ↦ hroot g ▸ hp.roots g (hold g hg)
  · exact fun x y hx hy hxy ↦ htree y ▸ hgrowth x ▸ hp.growth x y (hsub x hx) (hsub y hy) hxy
  · exact fun g hg ↦ hgrowth g ▸ hp.growths g (hsub g hg)
  · intro g hg b j
    rw [htree]
    refine (h.holding g (hsub g hg) b j).trans ?_
    change _ ↔ j ∈ G.listed g ∧ (G.jump j).source = b
    rw [hG.mem_listed h.linked, hG.jump, jump]
  · exact fun g hg ↦ htree g ▸ h.tidy g (hsub g hg)
  · exact fun g hg ↦ h.proper g (hsub g hg)
  · intro j
    change (G.jump j).destination.index < G.flows.size
    rw [hG.jump, hG.flows_size]
    exact h.range j

theorem Sound.resembles (h : a.Sound) (hG : a.graph.Resembles G)
    (halive : ∀ g, (G.flow g).alive = (a.flow g).alive)
    (hentered : .methodEntry ∈ (G.flow a.entry).predecessors) :
    ({ a with graph := G } : Analysis).Sound := by
  have hlive := live_of_resembles hG halive
  have htree := tree_of_resembles hG
  constructor
  case wellFormed =>
    exact h.wellFormed.resembles hG (fun g hg ↦ (hlive g).mp hg) (fun g hg ↦ hg.2) fun g hg ↦
      halive g ▸ hg
  case orderly => exact fun g hg ↦ htree g ▸ h.orderly g ((hlive g).mp hg)
  case closed =>
    intro g hg
    rw [htree, show (fun j ↦ (({ a with graph := G } : Analysis).jump j).destination) =
      fun j ↦ (a.jump j).destination from funext fun j ↦ congrArg Jump.destination (hG.jump j)]
    exact h.closed g ((hlive g).mp hg)
  case dead =>
    intro g hg
    exact (hG.keys g).trans (h.dead g (mt (hlive g).mpr hg))
  case leads =>
    intro g d hd
    exact (h.leads g d (hG.keys g ▸ hd)).imp_left (hlive d).mpr
  case grows =>
    intro g hg hs
    rw [htree, show (({ a with graph := G } : Analysis).flow g).growth = _ from hG.growth g] at *
    exact h.grows g ((hlive g).mp hg) hs
  case entry => exact (hlive _).mpr h.entry
  case entered => exact hentered

section Clear

/-- Jumps of `f` have gone from its tree and from its edges. -/
structure Cleared (L : FlowId → Prop) (f : FlowId) (a a' : Analysis) : Prop where
  wellFormed : a'.WellFormed L
  moves : ∃ T, Moves (fun _ ↦ False) L f T a a'
  thinned : FlowGraph.Thinned f a.graph a'.graph
  statement : ∀ b, a'.statement b = a.statement b
  growth : ∀ g, (a'.flow g).growth = (a.flow g).growth
  exprs : a'.exprs = a.exprs

namespace Cleared

theorem refl (h : a.WellFormed L) (hf : L f) : Cleared L f a a :=
  ⟨h, ⟨_, (h.planted.unchanged hf).toMoves⟩, .of_keeps (.refl _), fun _ ↦ rfl, fun _ ↦ rfl, rfl⟩

theorem trans (h : Cleared L f a a') (h' : Cleared L f a' a'') : Cleared L f a a'' := by
  obtain ⟨T, hm⟩ := h.moves
  obtain ⟨T', hm'⟩ := h'.moves
  exact ⟨h'.wellFormed, ⟨T', hm.andThen hm'⟩, h.thinned.trans h'.thinned,
    fun b ↦ (h'.statement b).trans (h.statement b), fun g ↦ (h'.growth g).trans (h.growth g),
    h'.exprs.trans h.exprs⟩

theorem listed_subset (h : Cleared L f a a') (ha : a.graph.Linked) (hj : j ∈ a'.graph.listed f) :
    j ∈ a.graph.listed f := by
  have hj' := h.thinned.own _ j (h.wellFormed.linked.mem_listed.mp hj)
  exact ha.mem_listed_of_mem hj'

end Cleared

theorem WellFormed.cleared_removeJump (h : a.WellFormed L) (hf : L f)
    (hj : j ∈ a.graph.listed f) :
    Cleared L f a (a.removeJump f j) ∧ j ∉ (a.removeJump f j).graph.listed f ∧
      ∀ i ∈ a.graph.listed f, i ≠ j → i ∈ (a.removeJump f j).graph.listed f := by
  obtain ⟨C, B, hT, -, hB⟩ := h.exists_holder hf hj
  obtain ⟨hm, hwf, hg⟩ := h.removeJump hf hj hT hB
  obtain ⟨-, -, hlisted⟩ := h.mem_listed_unlinkJump hf hj
  refine ⟨⟨hwf, ⟨_, hm⟩, hg ▸ h.thinned_unlinkJump hf hj, fun b ↦ ?_, fun g ↦ ?_, ?_⟩, ?_, ?_⟩
  · rw [Analysis.removeJump]
    split
    · exact Blocks.statement_setJump ..
    · rfl
  · rw [flow, hg]
    exact (congrArg Flow.growth ((FlowGraph.Relinked.unlinkJump a.graph f j).bare g) :)
  · exact (congrArg Prod.fst (content_removeJump a f j) :)
  · rw [hg, hlisted]
    simp
  · intro i hi hij
    rw [hg, hlisted]
    exact ⟨hi, hij⟩

theorem WellFormed.cleared_removeEach (h : a.WellFormed L) (hf : L f) {js : List JumpId}
    (hn : js.Nodup) (hjs : ∀ j ∈ js, j ∈ a.graph.listed f) :
    Cleared L f a (js.foldl (fun a j ↦ a.removeJump f j) a) ∧
      ∀ j ∈ js, j ∉ (js.foldl (fun a j ↦ a.removeJump f j) a).graph.listed f := by
  induction js generalizing a with
  | nil => exact ⟨.refl h hf, by simp⟩
  | cons j js ih =>
    rw [List.nodup_cons] at hn
    rw [List.forall_mem_cons] at hjs
    obtain ⟨hc, hgone, hkept⟩ := h.cleared_removeJump hf hjs.1
    obtain ⟨hc', hgone'⟩ := ih hc.wellFormed hn.2 fun i hi ↦ hkept i (hjs.2 i hi) <| by
      rintro rfl
      exact hn.1 hi
    rw [List.foldl_cons]
    refine ⟨hc.trans hc', List.forall_mem_cons.mpr ⟨fun hj ↦ hgone ?_, hgone'⟩⟩
    exact hc'.listed_subset hc.wellFormed.linked hj

theorem WellFormed.cleared_removeTo (h : a.WellFormed L) (hf : L f) (ds : List FlowId) :
    Cleared L f a (ds.foldl (fun a d ↦
      (a.graph.jumpsTo f d).foldl (fun a j ↦ a.removeJump f j) a) a) ∧
      ∀ d ∈ ds, (ds.foldl (fun a d ↦
        (a.graph.jumpsTo f d).foldl (fun a j ↦ a.removeJump f j) a) a).graph.jumpsTo f d = [] := by
  induction ds generalizing a with
  | nil => exact ⟨.refl h hf, by simp⟩
  | cons d ds ih =>
    obtain ⟨hc, hgone⟩ := h.cleared_removeEach hf (h.linked.nodup_jumpsTo (f := f) (d := d))
      fun j hj ↦ h.linked.mem_listed_of_mem hj
    obtain ⟨hc', hgone'⟩ := ih hc.wellFormed
    rw [List.foldl_cons]
    refine ⟨hc.trans hc', List.forall_mem_cons.mpr ⟨?_, hgone'⟩⟩
    rw [List.eq_nil_iff_forall_not_mem]
    intro j hj
    have hj₁ := hc'.thinned.own d j hj
    exact hgone j (hc.thinned.own d j hj₁) (hc.wellFormed.linked.mem_listed_of_mem hj₁)

theorem WellFormed.cleared_removeJumps (h : a.WellFormed L) (hf : L f) :
    Cleared L f a (a.removeJumps f) ∧ (a.removeJumps f).graph.keys f = [] := by
  obtain ⟨hc, hgone⟩ := h.cleared_removeTo hf (a.graph.successorsOf f)
  rw [removeJumps]
  refine ⟨hc, ?_⟩
  rw [List.eq_nil_iff_forall_not_mem]
  intro d hd
  obtain ⟨j, hj⟩ := List.exists_mem_of_ne_nil _ (hc.wellFormed.linked.jumpsTo_ne_nil.mpr hd)
  have hkey : d ∈ a.graph.successorsOf f := by
    rw [FlowGraph.successorsOf, List.mem_mergeSort]
    exact h.linked.jumpsTo_ne_nil.mp (List.ne_nil_of_mem (hc.thinned.own d j hj))
  rw [hgone d hkey] at hj
  cases hj

end Clear

section Drop

/-- The flow blocks of `D` are dead and have no edges. The others have their trees and edges as
before. -/
structure Pruned (D : FlowId → Prop) (a a' : Analysis) : Prop where
  wellFormed : a'.WellFormed a'.Live
  live : ∀ g, a'.Live g ↔ a.Live g ∧ ¬ D g
  tree : ∀ g, a'.Live g → a'.tree g = a.tree g
  growth : ∀ g, (a'.flow g).growth = (a.flow g).growth
  statement : ∀ b, a'.statement b = a.statement b
  jumpsTo : ∀ g d, ¬ D g → a'.graph.jumpsTo g d = a.graph.jumpsTo g d
  cleared : ∀ g, D g → a'.graph.keys g = []
  destination : ∀ j, (a'.jump j).destination = (a.jump j).destination
  anchored : a.graph.Anchored a'.graph
  exprs : a'.exprs = a.exprs
  entry : a'.entry = a.entry

/-- Dropping what nothing else leads to keeps the state sound. -/
theorem Pruned.sound {D : FlowId → Prop} (hp : Pruned D a a') (h : a.Sound)
    (hclosed : ∀ f d, a.Live f → ¬ D f → d ∈ a.graph.keys f → ¬ D d) (hentry : ¬ D a.entry) :
    a'.Sound := by
  have hold : ∀ g, a'.Live g → a.Live g := fun g hg ↦ ((hp.live g).mp hg).1
  have hkeys : ∀ g, ¬ D g → ∀ d, d ∈ a'.graph.keys g → d ∈ a.graph.keys g := fun g hg d hd ↦ by
    rw [← h.wellFormed.linked.jumpsTo_ne_nil, ← hp.jumpsTo g d hg]
    exact hp.wellFormed.linked.jumpsTo_ne_nil.mpr hd
  constructor
  case wellFormed => exact hp.wellFormed
  case orderly => exact fun g hg ↦ hp.tree g hg ▸ h.orderly g (hold g hg)
  case closed =>
    intro g hg
    rw [hp.tree g hg, hp.exprs, show (fun j ↦ (a'.jump j).destination) = _ from funext hp.destination]
    exact h.closed g (hold g hg)
  case dead =>
    intro g hg
    by_cases hD : D g
    · exact hp.cleared g hD
    · rw [List.eq_nil_iff_forall_not_mem]
      intro d hd
      have := hkeys g hD d hd
      rw [h.dead g fun hl ↦ hg ((hp.live g).mpr ⟨hl, hD⟩)] at this
      cases this
  case leads =>
    intro g d hd
    have hD : ¬ D g := fun hD ↦ by
      rw [hp.cleared g hD] at hd
      cases hd
    have hk := hkeys g hD d hd
    refine (h.leads g d hk).imp_left fun hl ↦ (hp.live d).mpr ⟨hl, hclosed g d ?_ hD hk⟩
    by_contra hdead
    rw [h.dead g hdead] at hk
    cases hk
  case grows =>
    intro g hg hs
    rw [hp.growth, hp.statement] at hs
    rw [hp.growth, hp.tree g hg]
    exact h.grows g (hold g hg) hs
  case entry => exact hp.entry ▸ (hp.live _).mpr ⟨h.entry, hentry⟩
  case entered => exact hp.entry ▸ (hp.anchored _ _ (by decide)).mpr h.entered

theorem Pruned.refl (h : a.WellFormed a.Live) : Pruned (fun _ ↦ False) a a where
  wellFormed := h
  live g := by simp
  tree _ _ := rfl
  growth _ := rfl
  statement _ := rfl
  jumpsTo _ _ _ := rfl
  cleared _ hg := hg.elim
  destination _ := rfl
  anchored := .of_eq fun _ ↦ rfl
  exprs := rfl
  entry := rfl

/-- One more flow block is dropped. -/
theorem Pruned.drop {D : FlowId → Prop} (hp : Pruned D a a') (hf : a'.Live f) :
    Pruned (fun g ↦ D g ∨ g = f) a
      ((a'.removeJumps f).modifyFlow f ({ · with alive := false })) := by
  obtain ⟨hc, hnil⟩ := hp.wellFormed.cleared_removeJumps hf
  obtain ⟨T, hm⟩ := hc.moves
  generalize a'.removeJumps f = a₁ at hc hnil hm ⊢
  have hf₁ : a₁.Live f := (hm.live f).mpr hf
  have hG : a₁.graph.Resembles (a₁.graph.modifyFlow f ({ · with alive := false })) :=
    .modifyFlow _ _ (fun _ ↦ ⟨rfl, rfl, rfl⟩) fun _ _ ↦ .rfl
  have halive : ∀ g, ((a₁.graph.modifyFlow f ({ · with alive := false })).flow g).alive =
      if g = f then false else (a₁.flow g).alive := fun g ↦ by
    rw [FlowGraph.flow_modifyFlow]
    by_cases hg : g = f <;> simp [hg, hf₁.1, flow]
  have hanchored : a₁.graph.Anchored (a₁.graph.modifyFlow f ({ · with alive := false })) :=
    .of_eq fun g ↦ by
      rw [FlowGraph.flow_modifyFlow]
      split <;> rfl
  rw [modifyFlow]
  generalize a₁.graph.modifyFlow f ({ · with alive := false }) = G at hG halive hanchored ⊢
  have hlive : ∀ g, ({ a₁ with graph := G } : Analysis).Live g ↔ a'.Live g ∧ g ≠ f := fun g ↦ by
    rw [← hm.live]
    change g.index < G.flows.size ∧ (G.flow g).alive = true ↔ _
    rw [halive, hG.flows_size, Live]
    by_cases hg : g = f <;> simp [hg]
  constructor
  case wellFormed =>
    refine hc.wellFormed.resembles hG (fun g hg ↦ ((hlive g).mp hg).1) (fun g hg ↦ hg.2)
      fun g hg ↦ ?_
    rw [halive] at hg
    split at hg
    · cases hg
    · exact hg
  case live =>
    intro g
    rw [hlive, hp.live, not_or, and_assoc]
  case tree =>
    intro g hg
    obtain ⟨hg, hgf⟩ := (hlive g).mp hg
    rw [tree_of_resembles hG, hm.other g hg hgf, hp.tree g hg]
  case growth => exact fun g ↦ (hG.growth g).trans ((hc.growth g).trans (hp.growth g))
  case statement => exact fun b ↦ (hc.statement b).trans (hp.statement b)
  case jumpsTo =>
    intro g d hg
    rw [not_or] at hg
    exact (hG.jumpsTo g d).trans ((hc.thinned.other g d hg.2).trans (hp.jumpsTo g d hg.1))
  case cleared =>
    intro g hg
    refine (hG.keys g).trans ?_
    by_cases hgf : g = f
    · exact hgf ▸ hnil
    · rw [hc.wellFormed.linked.toChained.keys_eq_nil]
      intro d
      rw [hc.thinned.other g d hgf]
      exact hp.wellFormed.linked.toChained.keys_eq_nil.mp (hp.cleared g (hg.resolve_right hgf)) d
  case destination =>
    exact fun j ↦ (congrArg Jump.destination (hG.jump j)).trans
      ((hc.thinned.destination j).trans (hp.destination j))
  case anchored => exact hp.anchored.trans (hc.thinned.anchored.trans hanchored)
  case exprs => exact hc.exprs.trans hp.exprs
  case entry => exact (congrArg Analysis.entry hm.rest :).trans hp.entry

theorem Pruned.dropAll {D : FlowId → Prop} {dead : List FlowId} (hp : Pruned D a a')
    (hn : dead.Nodup) (hdead : ∀ f ∈ dead, a'.Live f) :
    Pruned (fun g ↦ D g ∨ g ∈ dead) a (dead.foldl (fun a f ↦
      (a.removeJumps f).modifyFlow f ({ · with alive := false })) a') := by
  induction dead generalizing D a' with
  | nil => simpa using hp
  | cons f dead ih =>
    rw [List.nodup_cons] at hn
    rw [List.forall_mem_cons] at hdead
    have hstep := hp.drop hdead.1
    rw [List.foldl_cons]
    have := ih hstep hn.2 fun g hg ↦ (hstep.live g).mpr ?_
    · simpa only [List.mem_cons, or_assoc] using this
    · obtain ⟨hl, hD⟩ := (hp.live g).mp (hdead.2 g hg)
      refine ⟨hl, not_or.mpr ⟨hD, ?_⟩⟩
      rintro rfl
      exact hn.1 hg

end Drop

section Reach

theorem strikeReached_spec (a : Analysis) (unreached queue : List FlowId) (hn : unreached.Nodup) :
    (a.strikeReached unreached queue).Sublist unreached ∧
      (∀ f ∈ queue, f ∉ a.strikeReached unreached queue) ∧
      ∀ f ∈ unreached, f ∉ a.strikeReached unreached queue →
        ∀ d ∈ a.graph.keys f, d ∉ a.strikeReached unreached queue := by
  fun_induction strikeReached a unreached queue with
  | case1 unreached => exact ⟨.refl _, by simp, fun f hf hf' ↦ absurd hf hf'⟩
  | case2 unreached f queue hf ih =>
    obtain ⟨hsub, hqueue, hclosed⟩ := ih (hn.erase f)
    refine ⟨hsub.trans (List.erase_sublist ..), fun g hg ↦ ?_, fun g hg hg' ↦ ?_⟩
    · rcases List.mem_cons.mp hg with rfl | hg
      · exact fun hm ↦ absurd (hsub.subset hm) (by simp [hn.mem_erase_iff])
      · exact hqueue g (List.mem_append_right _ hg)
    · by_cases hgf : g = f
      · subst hgf
        exact fun d hd ↦ hqueue d (List.mem_append_left _ hd)
      · exact hclosed g (hn.mem_erase_iff.mpr ⟨hgf, hg⟩) hg'
  | case3 unreached f queue hf ih =>
    obtain ⟨hsub, hqueue, hclosed⟩ := ih hn
    exact ⟨hsub, List.forall_mem_cons.mpr ⟨fun hm ↦ hf (hsub.subset hm), hqueue⟩, hclosed⟩

end Reach

section Remove

theorem nodup_live (g : FlowGraph) : g.live.Nodup := by
  rw [FlowGraph.live, (List.mergeSort_perm _ _).nodup_iff]
  refine List.Nodup.filter _ ?_
  exact List.nodup_range.map fun _ _ h ↦ FlowId.mk.inj h

theorem Sound.detach (h : a.Sound) (hf : ¬ a.Live f) (hs : f.isSentinel = false) :
    (a.detach f).Sound ∧ ∀ g, (a.detach f).Live g ↔ a.Live g := by
  have hpred : ∀ p ∈ (a.flow f).predecessors, p.isSentinel = true := fun p hp ↦ by
    by_contra hps
    exact hf (h.live_of_pred hp (by simpa using hps) hs)
  have hskip : ∀ (ps : List FlowId) (b : Analysis), (∀ p ∈ ps, p.isSentinel = true) →
      ps.foldl (fun a pred ↦
        if pred.isSentinel then a else a.modifyFlow pred (·.eraseEdge f)) b = b := by
    intro ps b hps
    induction ps with
    | nil => rfl
    | cons p ps ih =>
      rw [List.foldl_cons, if_pos (hps p (by simp))]
      exact ih fun q hq ↦ hps q (by simp [hq])
  have hG : a.graph.Resembles (a.graph.modifyFlow f ({ · with predecessors := [] })) :=
    .modifyFlow _ _ (fun _ ↦ ⟨rfl, rfl, rfl⟩) fun p hp ↦ by
      refine iff_of_false (by simp) fun hm ↦ ?_
      rw [hpred p hm] at hp
      cases hp
  have halive : ∀ g, ((a.graph.modifyFlow f ({ · with predecessors := [] })).flow g).alive =
      (a.flow g).alive := fun g ↦ by
    rw [FlowGraph.flow_modifyFlow]
    split <;> rfl
  rw [Analysis.detach, hskip _ _ hpred]
  refine ⟨h.resembles hG halive ?_, fun g ↦ ?_⟩
  · rw [FlowGraph.flow_modifyFlow_of_ne]
    · exact h.entered
    · rintro he
      exact hf (he ▸ h.entry)
  · exact live_of_resembles hG halive g

theorem Sound.detachAll {dead : List FlowId} (h : a.Sound)
    (hdead : ∀ f ∈ dead, ¬ a.Live f ∧ f.isSentinel = false) : (dead.foldl Analysis.detach a).Sound := by
  induction dead generalizing a with
  | nil => exact h
  | cons f dead ih =>
    rw [List.forall_mem_cons] at hdead
    obtain ⟨hs, hlive⟩ := h.detach hdead.1.1 hdead.1.2
    exact ih hs fun g hg ↦ ⟨mt (hlive g).mp (hdead.2 g hg).1, (hdead.2 g hg).2⟩

theorem Sound.setRange (h : a.Sound) (f : FlowId) (k : Flow → Nat × Nat) :
    (a.modifyFlow f fun x ↦ { x with addr := (k x).1, length := (k x).2 }).Sound := by
  refine h.resembles (.modifyFlow _ _ (fun _ ↦ ⟨rfl, rfl, rfl⟩) fun _ _ ↦ .rfl) (fun g ↦ ?_) ?_
  · rw [FlowGraph.flow_modifyFlow]
    split <;> rfl
  · rw [FlowGraph.flow_modifyFlow]
    split <;> exact h.entered

theorem Sound.yieldRange (h : a.Sound) (f : FlowId) : (a.yieldRange f).Sound := by
  rw [Analysis.yieldRange]
  split
  · exact h.setRange _ fun x ↦ (x.addr, _)
  · split
    · exact h.setRange _ fun x ↦ (_, _)
    · exact h

theorem Sound.yieldAll (h : a.Sound) (dead : List FlowId) : (dead.foldl Analysis.yieldRange a).Sound := by
  induction dead generalizing a with
  | nil => exact h
  | cons f dead ih => exact ih (h.yieldRange f)

theorem Sound.removeUnreachable (h : a.Sound) (handlers : List Nat) :
    (a.removeUnreachable handlers).Sound := by
  obtain ⟨hsub, hqueue, hclosed⟩ := strikeReached_spec a a.graph.live
    (a.entry :: handlers.filterMap a.graph.flowStartingAt) (nodup_live a.graph)
  rw [Analysis.removeUnreachable, unreachable]
  generalize a.strikeReached a.graph.live _ = dead at hsub hqueue hclosed ⊢
  have hlive : ∀ f ∈ dead, a.Live f := fun f hf ↦ mem_live.mp (hsub.subset hf)
  have hp := (Pruned.refl h.wellFormed).dropAll ((nodup_live a.graph).sublist hsub) hlive
  have hs := hp.sound h (fun f d hf hD hd ↦ ?_) ?_
  · refine ((hs.detachAll fun f hf ↦ ⟨fun hl ↦ ?_, ?_⟩).yieldAll dead).checkpoint
    · exact ((hp.live f).mp hl).2 (.inr hf)
    · exact h.wellFormed.proper f (hlive f hf)
  · rw [false_or] at hD ⊢
    exact hclosed f (mem_live.mpr hf) hD d hd
  · rw [false_or]
    exact hqueue a.entry (by simp)

end Remove

end Analysis

end Decompile
