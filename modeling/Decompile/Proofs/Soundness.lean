import Decompile.Proofs.FoldRuns
import Decompile.Proofs.GraphRuns
import Decompile.Proofs.Rules

/-!
What holds of the state all along the reduction: the trees of the live flow blocks are well formed,
control leaves them through jumps only, and jumps lead to live flow blocks or to the end of the
method. Joining a successor, closing a loop, merging a case and folding by a rule keep it.
-/

namespace Decompile

open Proc

theorem FlowGraph.Chained.keys_eq_nil {g : FlowGraph} {f : FlowId} (h : g.Chained) :
    g.keys f = [] ↔ ∀ d, g.jumpsTo f d = [] := by
  rw [List.eq_nil_iff_forall_not_mem]
  exact forall_congr' fun d ↦ by rw [← h.jumpsTo_ne_nil, not_not]

theorem Tree.FollowedBy.held_subset {B S N : Tree} (h : FollowedBy B S N) (hB : B.jump = none)
    {x : BlockId × JumpId} (hx : x ∈ B.held) : x ∈ N.held := by
  cases h with
  | void =>
    rw [Tree.held_eq, hB] at hx
    rw [Tree.held_withJump]
    exact List.mem_append_right _ (by simpa using hx)
  | sequence => simp [Tree.held, hx]

namespace Analysis

variable {a a' : Analysis} {f s g d : FlowId} {σ ε : Type} {I : Interp σ ε}

/-- What holds of the state at every step of the reduction. -/
structure Sound (a : Analysis) : Prop where
  wellFormed : a.WellFormed a.Live
  orderly : ∀ f, a.Live f → (a.tree f).Orderly
  closed : ∀ f, a.Live f → (a.tree f).Closed a.exprs fun j ↦ (a.jump j).destination
  dead : ∀ f, ¬ a.Live f → a.graph.keys f = []
  leads : ∀ f d, d ∈ a.graph.keys f → a.Live d ∨ d = .endOfMethod
  grows : ∀ f, a.Live f → (a.statement (a.flow f).growth).isSwitch →
    (a.flow f).growth ∈ (a.tree f).ids
  entry : a.Live a.entry
  entered : .methodEntry ∈ (a.flow a.entry).predecessors

namespace Sound

theorem live_pred (h : a.Sound) (hf : f ∈ (a.flow d).predecessors) (hs : f.isSentinel = false) :
    a.Live f := by
  by_contra hdead
  have := (h.wellFormed.linked.pred_iff f d hs).mp hf
  rw [h.dead f hdead] at this
  cases this

theorem live_of_pred (h : a.Sound) (hf : f ∈ (a.flow d).predecessors) (hs : f.isSentinel = false)
    (hd : d.isSentinel = false) : a.Live d := by
  refine (h.leads f d ((h.wellFormed.linked.pred_iff f d hs).mp hf)).resolve_right ?_
  rintro rfl
  exact absurd hd (by decide)

theorem isOut (h : a.Sound) (hf : a.Live f) (hI : I.Fits a.exprs) {x : Outcome}
    (hx : ((a.tree f).run I fun j ↦ (a.jump j).destination).Yields x) : x.IsOut :=
  (h.closed f hf).isOut hI.within hx

theorem congr (h : a.Sound) (hb : a'.blocks = a.blocks) (hg : a'.graph = a.graph)
    (he : a'.exprs = a.exprs) (hn : a'.entry = a.entry) : a'.Sound := by
  obtain ⟨exprs, blocks, _, graph, _, _, entry⟩ := a
  obtain ⟨_, _, _, _, _, _, _⟩ := a'
  obtain rfl : _ = blocks := hb
  obtain rfl : _ = graph := hg
  obtain rfl : _ = exprs := he
  obtain rfl : _ = entry := hn
  obtain ⟨⟨hp, h₁, h₂, h₃, h₄, h₅⟩, ho, hc, hd, hl, hgr, hen, hed⟩ := h
  exact ⟨⟨⟨hp.1, hp.2, hp.3, hp.4, hp.5, hp.6, hp.7, hp.8, hp.9⟩, h₁, h₂, h₃, h₄, h₅⟩, ho, hc, hd,
    hl, hgr, hen, hed⟩

theorem entry_ne (h : a.Sound) (hf : a.Live f) (hpred : (a.flow s).predecessors = [f]) :
    a.entry ≠ s := by
  rintro rfl
  obtain rfl : _ = f := by simpa [hpred] using h.entered
  exact absurd (h.wellFormed.proper _ hf) (by decide)

/-- One flow block takes over another, and its tree then does what the two have done. -/
theorem merged (h : a.Sound) (hm : Merged a.Live f s a a') (hf : a.Live f) (hs : a.Live s)
    (hfs : f ≠ s) (hpred : (a.flow s).predecessors = [f]) (ho : (a'.tree f).Orderly)
    (hrun : (a'.tree f).run (lax a'.exprs) (fun j ↦ (a'.jump j).destination) =
      (a.tree f).run (lax a'.exprs) (fun j ↦ (a.jump j).destination) >>=
        handle s ((a.tree s).run (lax a'.exprs) fun j ↦ (a.jump j).destination))
    (hgrown : (a'.flow f).growth ∈ (a'.tree f).ids) : a'.Sound := by
  have hchained := hm.wellFormed.linked.toChained
  have hdest : (fun j ↦ (a'.jump j).destination) = fun j ↦ (a.jump j).destination :=
    funext hm.destination
  have hclosed : ∀ g, a.Live g → (a.tree g).Closed a'.exprs fun j ↦ (a.jump j).destination :=
    fun g hg ↦ (h.closed g hg).mono hm.exprs.keepsLiterals
  have hentry : a'.entry = a.entry := (congrArg Analysis.entry hm.rest :)
  have hne := h.entry_ne hf hpred
  constructor
  case wellFormed =>
    exact (funext fun g ↦ propext (hm.live g) : a'.Live = _) ▸ hm.wellFormed
  case orderly =>
    intro g hg
    obtain ⟨hg, hgs⟩ := (hm.live g).mp hg
    by_cases hgf : g = f
    · exact hgf ▸ ho
    · exact hm.other g hg hgf hgs ▸ h.orderly g hg
  case closed =>
    intro g hg
    obtain ⟨hg, hgs⟩ := (hm.live g).mp hg
    by_cases hgf : g = f
    · subst hgf
      intro x hx
      rw [hrun] at hx
      obtain ⟨y, hy, hx⟩ := hx.of_bind
      by_cases hys : y = .jumps s
      · rw [hys, handle_jump] at hx
        exact hclosed s hs x hx
      · rw [handle_of_ne hys] at hx
        exact yields_pure hx ▸ hclosed g hg y hy
    · rw [hm.other g hg hgf hgs, hdest]
      exact hclosed g hg
  case dead =>
    intro g hg
    rw [hchained.keys_eq_nil]
    intro d
    rw [hm.jumpsTo]
    split
    · rfl
    next hgs =>
      have hdead : ¬ a.Live g := fun hl ↦ hg ((hm.live g).mpr ⟨hl, fun hs ↦ hgs (.inl hs)⟩)
      rw [h.wellFormed.linked.toChained.keys_eq_nil.mp (h.dead g hdead) d,
        if_neg fun hgf : g = f ↦ hdead (hgf ▸ hf), List.append_nil]
  case leads =>
    intro g d hd
    rw [← hchained.jumpsTo_ne_nil, hm.jumpsTo] at hd
    split at hd
    · exact absurd rfl hd
    next hn =>
      have hlinked := h.wellFormed.linked.toChained
      have hsome : ∃ x, d ∈ a.graph.keys x ∧ (d = s → x ≠ f) := by
        by_cases hto : a.graph.jumpsTo g d = []
        · split at hd
          next hgf =>
            exact ⟨s, hlinked.jumpsTo_ne_nil.mp (by simpa [hto] using hd), fun _ ↦ hfs.symm⟩
          · simp [hto] at hd
        · exact ⟨g, hlinked.jumpsTo_ne_nil.mp hto, fun hds hgf ↦ hn (.inr ⟨hgf, hds⟩)⟩
      obtain ⟨x, hx, hxs⟩ := hsome
      refine (h.leads x d hx).imp_left fun hl ↦ (hm.live d).mpr ⟨hl, fun hds ↦ ?_⟩
      have hp := h.wellFormed.pred_of_jumpsTo (hlinked.jumpsTo_ne_nil.mpr hx)
      rw [hds, hpred, List.mem_singleton] at hp
      exact hxs hds hp
  case grows =>
    intro g hg hw
    obtain ⟨hg, hgs⟩ := (hm.live g).mp hg
    by_cases hgf : g = f
    · exact hgf ▸ hgrown
    · rw [hm.growth g hg hgf hgs] at hw ⊢
      rw [hm.other g hg hgf hgs]
      refine h.grows g hg ?_
      have hp := h.wellFormed.planted
      have hsame := hm.off.same _ (hp.growths g hg) fun hb ↦
        hb.elim (hp.growth g f hg hf hgf) (hp.growth g s hg hs hgs)
      rwa [statement, hsame.1] at hw
  case entry => exact hentry ▸ (hm.live _).mpr ⟨h.entry, hne⟩
  case entered => exact hentry ▸ (hm.anchored _ _ hne (by decide)).mpr h.entered

/-- The tree of one flow block changes, and its jumps may become fewer. -/
theorem edited {T : Tree} (h : a.Sound) (hf : a.Live f) (hwf : a'.WellFormed a.Live)
    (hm : Moves (fun _ ↦ False) a.Live f T a a') (hlit : a.exprs.KeepsLiterals a'.exprs)
    (hdest : ∀ i, (a'.jump i).destination = (a.jump i).destination)
    (hto : ∀ g d, a'.graph.jumpsTo g d ≠ [] → a.graph.jumpsTo g d ≠ [])
    (hanchored : a.graph.Anchored a'.graph) (ho : (a'.tree f).Orderly)
    (hclosed : (a'.tree f).Closed a'.exprs fun j ↦ (a.jump j).destination)
    (hgrown : (a'.statement (a'.flow f).growth).isSwitch → (a'.flow f).growth ∈ (a'.tree f).ids) :
    a'.Sound := by
  have hkeys : ∀ g d, d ∈ a'.graph.keys g → d ∈ a.graph.keys g := fun g d hd ↦
    h.wellFormed.linked.jumpsTo_ne_nil.mp (hto g d (hwf.linked.jumpsTo_ne_nil.mpr hd))
  have hentry : a'.entry = a.entry := (congrArg Analysis.entry hm.rest :)
  constructor
  case wellFormed => exact (funext fun g ↦ propext (hm.live g) : a'.Live = _) ▸ hwf
  case orderly =>
    intro g hg
    by_cases hgf : g = f
    · exact hgf ▸ ho
    · have hg := (hm.live g).mp hg
      exact hm.other g hg hgf ▸ h.orderly g hg
  case closed =>
    intro g hg
    rw [show (fun j ↦ (a'.jump j).destination) = _ from funext hdest]
    by_cases hgf : g = f
    · exact hgf ▸ hclosed
    · have hg := (hm.live g).mp hg
      exact hm.other g hg hgf ▸ (h.closed g hg).mono hlit
  case dead =>
    intro g hg
    rw [List.eq_nil_iff_forall_not_mem]
    intro d hd
    have := hkeys g d hd
    rw [h.dead g fun hl ↦ hg ((hm.live g).mpr hl)] at this
    cases this
  case leads =>
    intro g d hd
    exact (h.leads g d (hkeys g d hd)).imp_left (hm.live d).mpr
  case grows =>
    intro g hg hw
    by_cases hgf : g = f
    · exact hgf ▸ hgrown (hgf ▸ hw)
    · have hg := (hm.live g).mp hg
      rw [hm.growth g hg hgf] at hw ⊢
      rw [hm.other g hg hgf]
      refine h.grows g hg ?_
      have hp := h.wellFormed.planted
      have hsame := hm.blocks.off.same _ (hp.growths g hg) (by simpa using hp.growth g f hg hf hgf)
      rwa [statement, hsame.1] at hw
  case entry => exact hentry ▸ (hm.live _).mpr h.entry
  case entered => exact hentry ▸ (hanchored _ _ (by decide)).mpr h.entered

end Sound

variable {b : BlockId} {j : JumpId}

theorem WellFormed.jumpsTo_of_held {L : FlowId → Prop} (h : a.WellFormed L) (hf : L f)
    (hj : (b, j) ∈ (a.tree f).held) : j ∈ a.graph.jumpsTo f (a.jump j).destination :=
  h.linked.toChained.mem_listed.mp ((h.holding f hf b j).mp hj).1

theorem Merged.not_held (hm : Merged a.Live f s a a') (hf : a.Live f) (hfs : f ≠ s)
    (hj : (b, j) ∈ (a'.tree f).held) : (a.jump j).destination ≠ s := by
  intro hjs
  have hto := hm.wellFormed.jumpsTo_of_held ⟨hf, hfs⟩ hj
  rw [hm.destination, hjs, hm.jumpsTo, if_pos (.inr ⟨rfl, rfl⟩)] at hto
  cases hto

section Steps

variable (h : a.Sound) (hf : a.Live f)
include h hf

theorem Joined.run_eq (hj : Joined a.Live f s a a') (hfs : f ≠ s) (hI : I.Fits a'.exprs) :
    (a'.tree f).run I (fun j ↦ (a'.jump j).destination) =
      (a.tree f).run I (fun j ↦ (a.jump j).destination) >>=
        handle s ((a.tree s).run I fun j ↦ (a.jump j).destination) := by
  obtain ⟨C, B, N, hy, hC, hBk, hB, hN, htree⟩ := hj.tree
  have hwf := hj.wellFormed
  rw [show (fun j ↦ (a'.jump j).destination) = _ from funext hj.destination, htree]
  refine Tree.Yields.run_eq hI.negates (fun c hc ↦ hI.literal c false hc) hy (h.orderly f hf)
    (fun x hx ↦ h.isOut hf (hI.of_extends hj.exprs) hx) hC hB hN (htree ▸ hwf.tidy f ⟨hf, hfs⟩)
    fun b j hheld hjs ↦ ?_
  have hheld' : (b, j) ∈ (a'.tree f).held := by
    rw [htree, mem_held_plug]
    exact (mem_held_plug.mp hheld).imp_left (hN.held_subset hB)
  exact hj.not_held hf hfs hheld' hjs

theorem Joined.upholds (hj : Joined a.Live f s a a') (hs : a.Live s) :
    Tree.Upholds (fun j ↦ (a.jump j).destination ≠ s) (a.tree f) (a'.tree f) := by
  obtain ⟨C, B, N, hy, hC, -, -, hN, htree⟩ := hj.tree
  have hu := hy.upholds (h.orderly f hf)
  rw [htree]
  exact hu.trans ((hN.upholds (Tree.Orderly.of_plug (C := C) hu.orderly)
    (h.orderly s hs)).plug_rest hu.orderly hC)

theorem Joined.sound (hj : Joined a.Live f s a a') (hs : a.Live s) (hfs : f ≠ s)
    (hpred : (a.flow s).predecessors = [f]) : a'.Sound :=
  h.merged hj.toMerged hf hs hfs hpred (hj.upholds h hf hs).orderly
    (hj.run_eq h hf hfs (fits_lax fun _ _ h ↦ h)) hj.grown.mem_ids

variable {w : BlockId}

theorem CaseMerged.run_eq (hc : CaseMerged a.Live f s w a a') (hs : a.Live s) (hfs : f ≠ s)
    (hI : I.Fits a'.exprs) :
    (a'.tree f).run I (fun j ↦ (a'.jump j).destination) =
      (a.tree f).run I (fun j ↦ (a.jump j).destination) >>=
        handle s ((a.tree s).run I fun j ↦ (a.jump j).destination) := by
  rw [show (fun j ↦ (a'.jump j).destination) = _ from funext hc.destination]
  exact hc.merges.run_eq (h.orderly f hf) (fun x hx ↦ h.isOut hs (hI.of_extends hc.exprs) hx)
    fun b j hj ↦ hc.not_held hf hfs hj

theorem CaseMerged.sound (hc : CaseMerged a.Live f s w a a') (hs : a.Live s) (hfs : f ≠ s)
    (hpred : (a.flow s).predecessors = [f]) (hw : w ∈ (a'.tree f).ids) : a'.Sound := by
  refine h.merged hc.toMerged hf hs hfs hpred ?_ (hc.run_eq h hf hs hfs (fits_lax fun _ _ h ↦ h))
    (hc.grown ▸ hw)
  exact (hc.merges.upholds (h.orderly f hf) (h.orderly s hs)).orderly

theorem LoopedBack.goes (hl : LoopedBack a.Live f w a a') (hI : I.Fits a'.exprs) :
    Tree.Goes I (fun j ↦ (a.jump j).destination) (fun c ↦ a'.exprs.get c = .const (.bool true)) f w
      (a.tree f) (a'.tree f) := by
  obtain ⟨kind, T₁, T₂, continues, hloop, hclose, hdo, hsplit⟩ := hl.tree
  have hheld : ∀ b j, (b, j) ∈ (a'.tree f).held → (a.jump j).destination ≠ f := by
    intro b j hj hjf
    have hto := hl.wellFormed.jumpsTo_of_held hf hj
    rw [hl.destination, hjf, hl.self] at hto
    cases hto
  have htidy := h.wellFormed.tidy f hf
  have hout := (hI.of_extends hl.exprs).within
  obtain ⟨_, _, _, -, hkind⟩ := hloop.shape
  rcases hkind with rfl | ⟨rfl, -⟩
  · obtain rfl := hdo rfl
    -- The body of a do-while loop has no increment set apart.
    have hT : a'.tree f = T₂ := by
      refine hsplit.resolve_right fun ⟨_, hs⟩ ↦ ?_
      obtain ⟨_, _, _, hT₂, -⟩ := hloop.shape
      generalize a'.tree f = T' at hs
      cases hs
      cases hT₂
    rw [hT] at hheld ⊢
    exact hloop.goes_doWhile htidy (h.closed f hf) hout hheld
  · exact hloop.goes_while hclose hsplit (h.orderly f hf) htidy (h.closed f hf) hout hI.negates hheld

theorem LoopedBack.upholds (hl : LoopedBack a.Live f w a a') :
    Tree.Upholds (fun j ↦ (a.jump j).destination ≠ f) (a.tree f) (a'.tree f) := by
  obtain ⟨kind, T₁, T₂, continues, hloop, hclose, -, hsplit⟩ := hl.tree
  have hu := hloop.upholds (J := fun j ↦ (a.jump j).destination ≠ f) (h.orderly f hf)
  have hu' := hu.trans (hclose.upholds hu.orderly)
  rcases hsplit with hT | ⟨-, hs⟩
  · exact hT ▸ hu'
  · exact hu'.trans (hs.upholds hu'.orderly)

theorem LoopedBack.sound (hl : LoopedBack a.Live f w a a') : a'.Sound := by
  obtain ⟨T, hm⟩ := hl.moves
  have hgoes := hl.goes h hf (I := lax a'.exprs) (fits_lax fun _ _ h ↦ h)
  refine h.edited hf hl.wellFormed hm hl.exprs.keepsLiterals hl.destination (fun g d hd ↦ ?_)
    hl.anchored (hl.upholds h hf).orderly (fun x hx ↦ ?_) fun _ ↦ ?_
  · by_cases hgd : g = f ∧ d = f
    · rw [hgd.1, hgd.2, hl.self] at hd
      exact absurd rfl hd
    · rwa [hl.jumpsTo g d hgd] at hd
  · have hle := hgoes.run_le (fun c ↦ ?_) fun c hc ↦ (loop_lax hc).le
    · have hy := (Tree.selfLoop_yields (hx.mono hle)).1
      exact (h.closed f hf).mono hl.exprs.keepsLiterals x hy
    · exact fun _ _ _ _ ↦ trivial
  · obtain ⟨_, _, _, _, _, _, hT', -⟩ := hgoes
    rw [hl.growth, hT']
    exact Tree.id_mem_ids (.node w ..)

theorem Folded.sound (hr : Folded a.Live f a a') : a'.Sound := by
  obtain ⟨T, hm⟩ := hr.moves
  have hu : Tree.Upholds (fun _ ↦ True) (a.tree f) (a'.tree f) := hr.folds.upholds (h.orderly f hf)
  refine h.edited hf hr.wellFormed hm hr.literal hr.thinned.destination (fun g d hd ↦ ?_)
    hr.thinned.anchored hu.orderly ?_ fun hw ↦ ?_
  · by_cases hgf : g = f
    · obtain ⟨i, hi⟩ := List.exists_mem_of_ne_nil _ hd
      subst hgf
      exact List.ne_nil_of_mem (hr.thinned.own d i hi)
    · rwa [hr.thinned.other g d hgf] at hd
  · exact hr.folds.closed (h.orderly f hf) ((h.closed f hf).mono hr.literal)
  · have hw' := hr.switches.isSwitch _ hw
    have hp := h.wellFormed.planted
    -- A switch at the old growth point is still there, and no other switch can have come up.
    have hmem : (a'.flow f).growth ∈ (a.tree f).ids := by
      rcases hm.grown with heq | hmem | hX | hnew
      · rw [heq] at hw' ⊢
        exact h.grows f hf hw'
      · exact hmem
      · exact hX.elim
      · rw [statement, Blocks.statement, Blocks.get_of_size_le _ hnew] at hw'
        cases hw'
    obtain ⟨N, hN, hid⟩ := Tree.mem_ids.mp hmem
    obtain ⟨o, hholds⟩ := (hp.holds f hf).of_mem hN
    have hswitch : N.kind.isSwitch := by
      rw [← hholds.kind, hid, Statement.isSwitch_kind]
      exact hw'
    obtain ⟨N', hN', hid', -⟩ := hu.switches _ _ ⟨N, hN, hid, hswitch, rfl⟩
    exact Tree.mem_ids.mpr ⟨N', hN', hid'⟩

end Steps

end Analysis

end Decompile
