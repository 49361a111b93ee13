import Mathlib.Data.Set.Lattice
import Mathlib.Order.Interval.Set.Basic
import Decompile.Proofs.Mirroring
import Decompile.Proofs.Origins

/-!
The live flow blocks divide the code among themselves. As long as there are no subroutines, this
stays so from the graph of the instructions on until nothing can be reduced any more, with every
exception table: whoever takes over a range has it next to its own.
-/

namespace Decompile

/-- From the first instruction to the end of the last. -/
def Window.ofCode (code : List Instruction) : Window :=
  ⟨(code.head?.map (·.address)).getD 0, (code.getLast?.map (·.nextAddress)).getD 0⟩

namespace Contiguous

variable {code : List Instruction} {i j : Instruction} {n : Nat}

theorem tail (h : Contiguous (i :: code)) : Contiguous code :=
  ⟨fun j hj ↦ h.positive j (List.mem_cons_of_mem i hj), h.adjacent.tail⟩

theorem covers (h : Contiguous code) :
    (Window.ofCode code).start ≤ n ∧ n < (Window.ofCode code).stop ↔
      ∃ i ∈ code, i.address ≤ n ∧ n < i.nextAddress := by
  induction code generalizing n with
  | nil => simp [Window.ofCode]
  | cons i code ih =>
    cases code with
    | nil => simp [Window.ofCode]
    | cons j code =>
      have hadj : j.address = i.nextAddress := (List.isChain_cons_cons.mp h.adjacent).1
      have hstart : (Window.ofCode (i :: j :: code)).start = i.address := rfl
      have hstart' : (Window.ofCode (j :: code)).start = j.address := rfl
      have hstop : (Window.ofCode (i :: j :: code)).stop = (Window.ofCode (j :: code)).stop := by
        rw [Window.ofCode]
        rfl
      have hj : j.address < j.nextAddress :=
        Nat.lt_add_of_pos_right (h.tail.positive j List.mem_cons_self)
      have hlast := (ih h.tail).mpr ⟨j, List.mem_cons_self, le_rfl, hj⟩
      have hi : i.address < i.nextAddress :=
        Nat.lt_add_of_pos_right (h.positive i List.mem_cons_self)
      rw [hstart, List.exists_mem_cons_iff, ← ih h.tail]
      omega

end Contiguous

namespace Analysis

variable {a a' a'' : Analysis} {L L' : FlowId → Prop} {w : Window} {f g s d : FlowId}

/-- The ranges of the flow blocks in `L` are disjoint and make up the window. -/
structure Tiles (a : Analysis) (L : FlowId → Prop) (w : Window) : Prop where
  nonempty : ∀ f, L f → (a.flow f).addr < (a.flow f).stop
  disjoint : ∀ f g, L f → L g → f ≠ g →
    (a.flow f).stop ≤ (a.flow g).addr ∨ (a.flow g).stop ≤ (a.flow f).addr
  covers : ∀ n, w.start ≤ n ∧ n < w.stop ↔ ∃ f, L f ∧ (a.flow f).addr ≤ n ∧ n < (a.flow f).stop

/-- The addresses of a flow block. -/
def addresses (a : Analysis) (f : FlowId) : Set Nat := Set.Ico (a.flow f).addr (a.flow f).stop

namespace Tiles

theorem congr (h : a.Tiles L w) (hL : ∀ g, L' g ↔ L g)
    (haddr : ∀ g, L g → (a'.flow g).addr = (a.flow g).addr)
    (hstop : ∀ g, L g → (a'.flow g).stop = (a.flow g).stop) : a'.Tiles L' w where
  nonempty f hf := by
    rw [hL] at hf
    rw [haddr f hf, hstop f hf]
    exact h.nonempty f hf
  disjoint f g hf hg hfg := by
    rw [hL] at hf hg
    rw [haddr f hf, hstop f hf, haddr g hg, hstop g hg]
    exact h.disjoint f g hf hg hfg
  covers n := by
    rw [h.covers]
    refine exists_congr fun f ↦ ?_
    rw [hL]
    exact and_congr_right fun hf ↦ by rw [haddr f hf, hstop f hf]

theorem lt_of_le (h : a.Tiles L w) (hf : L f) (hg : L g) (hfg : f ≠ g)
    (hle : (a.flow f).addr ≤ (a.flow g).addr) : (a.flow f).addr < (a.flow g).addr := by
  have hne := h.nonempty f hf
  have hne' := h.nonempty g hg
  have hdisj := h.disjoint f g hf hg hfg
  omega

theorem pairwiseDisjoint (h : a.Tiles L w) : {f | L f}.PairwiseDisjoint a.addresses := by
  intro f hf g hg hfg
  refine Set.disjoint_left.mpr fun n hn hn' ↦ ?_
  rw [addresses, Set.mem_Ico] at hn hn'
  have hdisj := h.disjoint f g hf hg hfg
  omega

theorem iUnion_addresses (h : a.Tiles L w) : ⋃ f ∈ {f | L f}, a.addresses f = Set.Ico w.start w.stop := by
  ext n
  rw [Set.mem_Ico, h.covers]
  simp only [Set.mem_iUnion, exists_prop, addresses, Set.mem_Ico, Set.mem_ofPred_eq]

theorem flowAt_eq_some (h : a.Tiles a.Live w) (n : Nat) (f : FlowId) :
    a.graph.flowAt n = some f ↔ a.Live f ∧ n ∈ a.addresses f := by
  have hfind {g : FlowId} (hg : a.graph.flowAt n = some g) : a.Live g ∧ n ∈ a.addresses g := by
    have hcover := List.find?_some hg
    rw [Bool.and_eq_true, decide_eq_true_eq, decide_eq_true_eq] at hcover
    exact ⟨flowAt_live hg, hcover⟩
  refine ⟨hfind, fun hf ↦ ?_⟩
  have hsome : (a.graph.flowAt n).isSome := by
    rw [FlowGraph.flowAt, List.find?_isSome]
    refine ⟨f, mem_live.mpr hf.1, ?_⟩
    rw [Bool.and_eq_true, decide_eq_true_eq, decide_eq_true_eq]
    exact hf.2
  obtain ⟨g, hg⟩ := Option.isSome_iff_exists.mp hsome
  have hgn := hfind hg
  obtain rfl : g = f := by
    by_contra hne
    exact Set.disjoint_left.mp (h.pairwiseDisjoint hgn.1 hf.1 hne) hgn.2 hf.2
  exact hg

/-- One range takes in another next to it. -/
theorem join (h : a.Tiles L w) (hf : L f) (hs : L s) (hfs : f ≠ s)
    (hadj : (a.flow s).addr = (a.flow f).stop ∨ (a.flow s).stop = (a.flow f).addr)
    (haddr : (a'.flow f).addr = min (a.flow f).addr (a.flow s).addr)
    (hstop : (a'.flow f).stop = max (a.flow f).stop (a.flow s).stop)
    (hrest : ∀ g, g ≠ f → g ≠ s → (a'.flow g).addr = (a.flow g).addr ∧
      (a'.flow g).stop = (a.flow g).stop)
    (hL : ∀ g, L' g ↔ L g ∧ g ≠ s) : a'.Tiles L' w := by
  have hnf := h.nonempty f hf
  -- How the joined range lies to one that stays.
  have hside (g : FlowId) (hg : L g) (hgf : g ≠ f) (hgs : g ≠ s) :
      (a'.flow f).stop ≤ (a'.flow g).addr ∨ (a'.flow g).stop ≤ (a'.flow f).addr := by
    have hdf := h.disjoint f g hf hg hgf.symm
    have hds := h.disjoint s g hs hg hgs.symm
    have hng := h.nonempty g hg
    rw [haddr, (hrest g hgf hgs).1, (hrest g hgf hgs).2]
    omega
  constructor
  case nonempty =>
    intro g hg
    rw [hL] at hg
    by_cases hgf : g = f
    · rw [hgf]
      omega
    · rw [(hrest g hgf hg.2).1, (hrest g hgf hg.2).2]
      exact h.nonempty g hg.1
  case disjoint =>
    intro g g' hg hg' hne
    rw [hL] at hg hg'
    by_cases hgf : g = f
    · subst hgf
      exact hside g' hg'.1 hne.symm hg'.2
    · by_cases hgf' : g' = f
      · subst hgf'
        exact (hside g hg.1 hne hg.2).symm
      · rw [(hrest g hgf hg.2).1, (hrest g hgf hg.2).2, (hrest g' hgf' hg'.2).1,
          (hrest g' hgf' hg'.2).2]
        exact h.disjoint g g' hg.1 hg'.1 hne
  case covers =>
    intro n
    rw [h.covers]
    constructor
    · rintro ⟨g, hg, hn⟩
      by_cases hgfs : g = f ∨ g = s
      · refine ⟨f, (hL f).mpr ⟨hf, hfs⟩, ?_⟩
        rw [haddr]
        obtain rfl | rfl := hgfs <;> omega
      · obtain ⟨hgf, hgs⟩ := not_or.mp hgfs
        refine ⟨g, (hL g).mpr ⟨hg, hgs⟩, ?_⟩
        rwa [(hrest g hgf hgs).1, (hrest g hgf hgs).2]
    · rintro ⟨g, hg, hn⟩
      rw [hL] at hg
      by_cases hgf : g = f
      · rw [hgf] at hn
        -- The two ranges touch, so there is nothing else between their ends.
        by_cases hnf : (a.flow f).addr ≤ n ∧ n < (a.flow f).stop
        · exact ⟨f, hf, hnf⟩
        · exact ⟨s, hs, by omega⟩
      · rw [(hrest g hgf hg.2).1, (hrest g hgf hg.2).2] at hn
        exact ⟨g, hg.1, hn⟩

end Tiles

/-- The live flow blocks divide the window among themselves, with their edges at both ends, and no
block calls a subroutine. -/
structure Divided (w : Window) (a : Analysis) : Prop where
  tiles : a.Tiles a.Live w
  mirrored : a.Mirrored
  callFree : a.CallFree

/-- Nothing jumps to `s`, which lies next to `f`. -/
structure Absorbable (a : Analysis) (f s : FlowId) : Prop where
  flow : a.Live f
  succ : a.Live s
  ne : f ≠ s
  adjacent : (a.flow s).addr = (a.flow f).stop ∨ (a.flow s).stop = (a.flow f).addr
  entered : ∀ p ∈ (a.flow s).predecessors, p.isSentinel = true

theorem Absorbable.edits (h : Absorbable a f s) (he : Edits a a') : Absorbable a' f s where
  flow := (he.live_iff f).mpr h.flow
  succ := (he.live_iff s).mpr h.succ
  ne := h.ne
  adjacent := by
    rw [he.addr_eq, he.addr_eq, he.stop_eq, he.stop_eq]
    exact h.adjacent
  entered p hp := h.entered p (he.trims.predecessors s hp)

namespace Divided

variable {lo : Nat} {edge : Edge}

theorem guarded (h : Divided w a) : Guarded Proper a := h.mirrored.guarded

theorem edits (h : Divided w a) (he : Edits a a') : Divided w a' where
  tiles := h.tiles.congr he.live_iff (fun g _ ↦ he.addr_eq g) fun g _ ↦ he.stop_eq g
  mirrored := h.mirrored.trims he.trims
  callFree := he.originates lasts_callFree h.callFree

theorem absorb (h : Divided w a) (hs : Absorbable a f s) (edge : Edge) :
    Divided w (a.absorb f s edge) := by
  obtain ⟨hm, had⟩ := h.mirrored.absorb hs.flow hs.succ hs.ne hs.entered edge
  refine ⟨?_, hm, ?_⟩
  · have hspan := span_absorb a hs.ne edge
    refine h.tiles.join hs.flow hs.succ hs.ne hs.adjacent ?_ ?_ (fun g hgf hgs ↦ ?_) fun g ↦ ?_
    · rw [(hspan f).2.1, if_pos ⟨rfl, hs.flow.1⟩]
    · rw [(hspan f).2.2, if_pos ⟨rfl, hs.flow.1⟩]
    · rw [(hspan g).2.1, (hspan g).2.2, if_neg fun he ↦ hgf he.1, if_neg fun he ↦ hgf he.1]
      exact ⟨rfl, rfl⟩
    · rw [Live, Live, had.flows_size, (hspan g).1]
      by_cases hg : g = s
      · simp [hg, hs.succ.1]
      · simp [hg]
  · exact h.callFree.absorb lasts_callFree f s edge

theorem exists_absorbable (h : Divided w a) (hb : Borders Proper lo a f s) (hab : Absorbs f s a a') :
    ∃ a₁ edge, Edits a a₁ ∧ Absorbable a₁ f s ∧ Edits (a₁.absorb f s edge) a' := by
  obtain ⟨a₁, a₂, edge, h₁, h₂, h₃⟩ := hab
  obtain ⟨hf, hs⟩ := h.mirrored.live_of_pred (hb.pred.symm ▸ List.mem_singleton_self f) hb.flow hb.succ
  have hedits := (h₁.removeEdge f s).trans h₂
  have hsize : s.index < a₁.graph.flows.size := h₁.trims.flows_size.symm ▸ hs.1
  refine ⟨a₂, edge, hedits, ?_, h₃⟩
  constructor
  case flow => exact (hedits.live_iff f).mpr hf
  case succ => exact (hedits.live_iff s).mpr hs
  case ne => exact hb.ne.symm
  case adjacent =>
    rw [hedits.addr_eq, hedits.addr_eq, hedits.stop_eq, hedits.stop_eq]
    exact hb.adjacent
  case entered =>
    intro p hp
    have hp₁ := h₂.trims.predecessors s hp
    rw [FlowGraph.mem_predecessors_removeEdge hsize] at hp₁
    have hpf := h₁.trims.predecessors s hp₁.1
    rw [← Analysis.flow, hb.pred, List.mem_singleton] at hpf
    exact absurd ⟨hpf, rfl⟩ hp₁.2

theorem advance (h : Divided w a) (ha : Advance Proper lo a a') : Divided w a' := by
  obtain he | ⟨f, s, hb, hab⟩ := ha.edits_or_absorbs
  · exact h.edits he
  · obtain ⟨a₁, edge, h₁, hs, h₂⟩ := h.exists_absorbable hb hab
    exact ((h.edits h₁).absorb hs edge).edits h₂

theorem advances (h : Divided w a) (ha : Advances Proper lo a a') : Divided w a' := by
  induction ha with
  | refl => exact h
  | tail _ h' ih => exact ih.advance h'

theorem predecessors_eq_nil (h : Divided w a) (ha : Advances Proper lo a a')
    (hg : g.isSentinel = false) (hp : (a.flow g).predecessors = []) :
    (a'.flow g).predecessors = [] := by
  have hedits {a a' : Analysis} (he : Edits a a') (hp : (a.flow g).predecessors = []) :
      (a'.flow g).predecessors = [] := by
    have hsub := he.trims.predecessors g
    rw [← flow, ← flow, hp] at hsub
    exact List.subset_nil.mp hsub
  induction ha with
  | refl => exact hp
  | tail ha h' ih =>
    have hb := h.advances ha
    obtain he | ⟨f, s, hb', hab⟩ := h'.edits_or_absorbs
    · exact hedits he ih
    · obtain ⟨a₁, edge, h₁, hs, h₂⟩ := hb.exists_absorbable hb' hab
      have hm := (hb.edits h₁).mirrored
      have hp₁ := hedits h₁ ih
      refine hedits h₂ (List.eq_nil_iff_forall_not_mem.mpr fun p hp ↦ ?_)
      rw [(hm.absorb hs.flow hs.succ hs.ne hs.entered edge).2.predecessors, hp₁] at hp
      obtain ⟨-, ⟨hp, -⟩ | ⟨hkey, -⟩⟩ := hp
      · cases hp
      · have hpred := (hm.leads s g hs.succ hkey hg).2
        rw [hp₁] at hpred
        cases hpred

end Divided

section Heads

variable {P : FlowId → Prop} {lo n : Nat} {win : Window}

theorem Absorbs.live_of_ne (h : Absorbs f s a a') (hfs : f ≠ s) (hg : a.Live g) (hgs : g ≠ s) :
    a'.Live g := by
  obtain ⟨a₁, a₂, edge, h₁, h₂, h₃⟩ := h
  have hg₂ := (((h₁.removeEdge f s).trans h₂).live_iff g).mpr hg
  rw [h₃.live_iff, Live, size_absorb, (span_absorb a₂ hfs edge g).1, if_neg fun he ↦ hgs he.1]
  exact hg₂

theorem Advance.span_le (h : Advance P lo a a') (g : FlowId) :
    (a'.flow g).addr ≤ (a.flow g).addr ∧ (a.flow g).stop ≤ (a'.flow g).stop := by
  obtain he | ⟨f, s, hb, a₁, a₂, edge, h₁, h₂, h₃⟩ := h.edits_or_absorbs
  · exact ⟨(he.addr_eq g).le, (he.stop_eq g).ge⟩
  · have hedits := (h₁.removeEdge f s).trans h₂
    have hspan := (span_absorb a₂ hb.ne.symm edge g).2
    rw [h₃.addr_eq, h₃.stop_eq, hspan.1, hspan.2, ← hedits.addr_eq, ← hedits.stop_eq]
    constructor
    · split
      next hg => exact hg.1 ▸ min_le_left _ _
      next => exact le_rfl
    · split
      next hg => exact hg.1 ▸ le_max_left _ _
      next => exact le_rfl

theorem Advances.span_le (h : Advances P lo a a') (g : FlowId) :
    (a'.flow g).addr ≤ (a.flow g).addr ∧ (a.flow g).stop ≤ (a'.flow g).stop := by
  induction h with
  | refl => exact ⟨le_rfl, le_rfl⟩
  | tail _ h' ih => exact ⟨(h'.span_le g).1.trans ih.1, ih.2.trans (h'.span_le g).2⟩

theorem Advances.live_or_le (h : Advances P lo a a') (hg : a.Live g) :
    a'.Live g ∨ lo ≤ (a'.flow g).addr := by
  induction h with
  | refl => exact .inl hg
  | tail _ h' ih =>
    obtain hlive | hle := ih
    · obtain he | ⟨f, s, hb, hab⟩ := h'.edits_or_absorbs
      · exact .inl ((he.live_iff g).mpr hlive)
      · by_cases hgs : g = s
        · exact .inr (h'.le_addr (hgs ▸ hb.lo_le))
        · exact .inl (hab.live_of_ne hb.ne.symm hlive hgs)
    · exact .inr (h'.le_addr hle)

/-- The flow block is live and starts no later than the window. -/
structure Heads (w win : Window) (f : FlowId) (a : Analysis) : Prop where
  divided : Divided w a
  live : a.Live f
  start : (a.flow f).addr ≤ win.start

namespace Heads

theorem beyond (h : Heads w win f a) (hlo : (a.flow f).addr < lo) (ha : Advances Proper lo a a') :
    Heads w win f a' := by
  have hle := (ha.span_le f).1
  refine ⟨h.divided.advances ha, (ha.live_or_le h.live).resolve_right ?_, hle.trans h.start⟩
  omega

theorem absorbs (h : Heads w win f a) (hb : Borders Proper lo a f s) (ha : Advance Proper lo a a')
    (hab : Absorbs f s a a') : Heads w win f a' :=
  ⟨h.divided.advance ha, hab.live_of_ne hb.ne.symm h.live hb.ne.symm,
    (ha.span_le f).1.trans h.start⟩

end Heads

variable {reduce : FlowId → Window → Analysis → Analysis × Bool}

theorem heads_mergeCases (hr : ∀ lo, Forward Proper lo reduce) (h : Heads w win f a)
    {switch : BlockId} {cases : List BlockId} {previous : Option BlockId} {changed : Bool} :
    Heads w win f (mergeCases reduce f win switch cases previous changed a).1 := by
  induction cases generalizing previous changed a with
  | nil => exact h
  | cons c rest ih =>
    rw [mergeCases]
    split
    next => exact ih h
    next b j s hp =>
      split
      · exact h
      next hs =>
        obtain ⟨hsf, hwin⟩ : s ≠ f ∧ (a.flow s).inWindow win = true := by simpa using hs
        have hdest := destination_of_pendingCase? hp
        have hsl : a.Live s := hdest ▸ live_of_inWindow (h.divided.mirrored.range j) (hdest.symm ▸ hwin)
        obtain ⟨⟨-, hstart⟩, -⟩ := inWindow_eq_true.mp hwin
        have hlt := h.divided.tiles.lt_of_le h.live hsl hsf.symm (h.start.trans hstart)
        have hsent := h.divided.mirrored.proper s hsl
        extract_lets addr
        have hred := hr addr s ⟨addr, a.caseBoundary rest addr win.stop⟩ a h.divided.guarded hsent
          le_rfl le_rfl
        generalize reduce s ⟨addr, a.caseBoundary rest addr win.stop⟩ a = r at hred ⊢
        obtain ⟨a', reduced⟩ := r
        dsimp only at hred ⊢
        have h' := h.beyond hlt hred
        split
        next hguard =>
          have hb : Borders Proper addr a' f s :=
            ⟨h.divided.mirrored.proper f h.live, hsent, hsf, .inl hguard.1, hguard.2.1,
              hred.le_addr le_rfl⟩
          exact ih (h'.absorbs hb (.merge hb) (exists_mergeCase ..))
        next => exact h'

theorem rounds_heads (w : Window) :
    Rounds fun f win a a' ↦ Heads w win f a → Heads w win f a' where
  refl _ _ _ := id
  trans h h' := h' ∘ h
  tick ht h := h.beyond (Nat.lt_succ_self _) ((Advances.refl _).step (.tick ht))
  switch n f win a _ h := by
    rw [mergeSwitch]
    split
    · exact heads_mergeCases (fun lo ↦ forward_reduceWithin Proper lo n false) h
    · exact h
  loop hc h :=
    h.beyond (Nat.lt_succ_self _) (advances_closeLoop (h.divided.mirrored.proper _ h.live) hc)
  append {f _ _ a' s} _ hsf hwin h hadj hpred h₀ := by
    have h := h h₀
    have hb : Borders Proper 0 a' f s := ⟨h.divided.mirrored.proper f h.live,
      h₀.divided.guarded s (inWindow_eq_true.mp hwin).1.1, hsf, hadj, hpred, Nat.zero_le _⟩
    obtain ⟨a₁, a₂, edge, h₁, h₂, he⟩ := exists_joinSuccessor a' f s
    have hjoin : Heads _ _ f (a'.joinSuccessor f s).1 :=
      h.absorbs hb (.join hb) ⟨a₁, a₂, edge, h₁, h₂, he ▸ .refl _⟩
    exact hjoin.beyond (Nat.lt_succ_self _)
      (((Advances.refl _).step .check).trans (advances_foldWithin Proper _ _ _ _))
  inner n _ _ _ hwin h hle _ h₀ := by
    have h := h h₀
    exact h.beyond (h.divided.tiles.nonempty _ h.live) (forward_reduceWithin Proper _ n false _ _ _
      h.divided.guarded (h₀.divided.guarded _ (inWindow_eq_true.mp hwin).1.1) le_rfl hle)

theorem heads_reduce (h : Heads w win f a) : Heads w win f (a.reduce f win).1 :=
  (rounds_heads w).reduceWithin _ _ _ _ _ h

end Heads

section Rows

variable {row : ExceptionRow} {outer : List ExceptionRow} {body handler : FlowId}

theorem edits_foldFrom (a : Analysis) (f : FlowId) (start : BlockId) :
    Edits a (a.foldFrom f start) := by
  have h : Advances (fun _ ↦ False) 0 a (a.foldFrom f start) := advances_foldWithin _ _ _ _ a
  generalize a.foldFrom f start = a' at h ⊢
  induction h with
  | refl => exact .refl a
  | tail _ h' ih =>
    obtain he | ⟨f, s, hb, -⟩ := h'.edits_or_absorbs
    · exact ih.trans he
    · exact hb.flow.elim

theorem Divided.reduceRow (h : Divided w a) (hr : a.reduceRow row outer = .ok (a', body, handler)) :
    Divided w a' ∧ Absorbable a' body handler := by
  obtain ⟨a₁, hbody, rfl, -, hhandler, hpred, rfl, hadj⟩ := exists_reduceRow hr
  obtain ⟨hlive, hstart, -⟩ := startingAt_eq_ok hbody
  have h₁ : Heads w ⟨row.start, max row.stop row.handler⟩ body
      (a.reduce body ⟨row.start, max row.stop row.handler⟩).1 :=
    heads_reduce ⟨h, mem_live.mp hlive, hstart.le⟩
  generalize (a.reduce body ⟨row.start, max row.stop row.handler⟩).1 = a₁ at *
  obtain ⟨hlive', hstart', -⟩ := startingAt_eq_ok hhandler
  have h₂ : Heads w ⟨row.handler, row.boundary outer⟩ handler
      (a₁.reduce handler ⟨row.handler, row.boundary outer⟩).1 :=
    heads_reduce ⟨h₁.divided, mem_live.mp hlive', hstart'.le⟩
  have hsent := h₁.divided.mirrored.proper handler (mem_live.mp hlive')
  have hadv : Advances Proper row.handler a₁ (a₁.reduce handler ⟨row.handler, row.boundary outer⟩).1 :=
    advances_reduce h₁.divided.guarded hsent le_rfl hstart'.ge
  generalize (a₁.reduce handler ⟨row.handler, row.boundary outer⟩).1 = a₂ at *
  have hbefore : (a₂.flow body).addr < (a₂.flow body).stop := by
    have hne := h₁.divided.tiles.nonempty body h₁.live
    have hspan := hadv.span_le body
    omega
  -- The handler starts at the end of the protected code, and what is absorbed starts there or beyond.
  have hkept : a₂.Live body := by
    refine (hadv.live_or_le h₁.live).resolve_right fun hle ↦ ?_
    have := h₂.start
    dsimp only at this
    omega
  refine ⟨h₂.divided, hkept, h₂.live, ?_, .inl hadj, ?_⟩
  · rintro rfl
    omega
  · rw [h₁.divided.predecessors_eq_nil hadv hsent hpred]
    exact fun p hp ↦ by cases hp

theorem finallySubroutine?_eq_none (h : a.CallFree) (handler : FlowId) :
    a.finallySubroutine? handler = none := by
  rw [finallySubroutine?]
  split
  next store jsr throws _ =>
    cases a.storedException? store with
    | none => rfl
    | some exception =>
      dsimp only [Option.bind_eq_bind]
      split
      next call hjsr =>
        exact absurd rfl (h jsr none (by rw [hjsr]; rfl))
      next => rfl
  next => rfl

theorem edits_wrapSynchronized (a : Analysis) (body : FlowId) (monitor : LocalId) :
    Edits a (a.wrapSynchronized body monitor).1 :=
  ((edits_removeReleases a (a.root body) monitor).alloc rfl).setRoot body _

theorem exists_absorbHandler_of_makeSynchronized (h : a.makeSynchronized body handler = some a') :
    ∃ a₁, Edits a a₁ ∧ Edits (a₁.absorbHandler body handler) a' := by
  obtain ⟨monitor, -, h⟩ := Option.bind_eq_some_iff.mp h
  have hwrap := edits_wrapSynchronized a body monitor
  generalize a.wrapSynchronized body monitor = r at h hwrap
  cases h
  have hfold := hwrap.trans (edits_foldFrom r.1 body r.2)
  exact ⟨_, hfold.discardTree handler, (Edits.refl _).checkpoint⟩

theorem exists_absorbHandler_addCatch (s : Structuring) (row : ExceptionRow) (body handler : FlowId)
    (existing : Bool) : ∃ a₁, Edits s.analysis a₁ ∧
      Edits (a₁.absorbHandler body handler) (s.addCatch row body handler existing).analysis := by
  have hcatch := edits_makeCatch s.analysis handler row.type
  unfold Structuring.addCatch
  dsimp only
  split
  next => exact ⟨_, (hcatch.setStatement _ rfl).setOuter _ _, (Edits.refl _).checkpoint⟩
  next => exact ⟨_, (hcatch.alloc rfl).setRoot body _, (Edits.refl _).checkpoint⟩

theorem Divided.addRow {s s' : Structuring} (h : Divided w s.analysis)
    (hs : s.addRow row outer = .ok s') : Divided w s'.analysis := by
  obtain ⟨a, body, handler, hred, hcases⟩ := Structuring.addRow_cases hs
  obtain ⟨ha, habs⟩ := h.reduceRow hred
  have habsorb {a' : Analysis} (he : ∃ a₁, Edits a a₁ ∧ Edits (a₁.absorbHandler body handler) a') :
      Divided w a' := by
    obtain ⟨a₁, h₁, h₂⟩ := he
    have htaken := (ha.edits h₁).absorb (habs.edits h₁) { gen := (a₁.flow body).writes }
    exact htaken.edits (((Edits.refl _).setGrowth body _).trans h₂)
  obtain ⟨a', hfin, rfl⟩ | ⟨a', hsync, rfl⟩ | ⟨existing, rfl⟩ := hcases
  · rw [makeFinally, finallySubroutine?_eq_none ha.callFree] at hfin
    cases hfin
  · exact habsorb (exists_absorbHandler_of_makeSynchronized hsync)
  · exact habsorb (exists_absorbHandler_addCatch { s with analysis := a } row body handler existing)

end Rows

section Prune

/-- Nothing about flow blocks changes but their edges. -/
def SameCores (a a' : Analysis) : Prop :=
  a'.graph.flows.size = a.graph.flows.size ∧ ∀ g, (a'.flow g).core = (a.flow g).core

namespace SameCores

theorem refl (a : Analysis) : SameCores a a := ⟨rfl, fun _ ↦ rfl⟩

theorem trans (h : SameCores a a') (h' : SameCores a' a'') : SameCores a a'' :=
  ⟨h'.1.trans h.1, fun g ↦ (h'.2 g).trans (h.2 g)⟩

theorem modifyFlow (a : Analysis) (f : FlowId) {k : Flow → Flow} (hk : ∀ x, (k x).core = x.core) :
    SameCores a (a.modifyFlow f k) := by
  refine ⟨FlowGraph.size_modifyFlow .., fun g ↦ ?_⟩
  rw [Analysis.modifyFlow, flow, FlowGraph.flow_modifyFlow]
  split
  · exact hk _
  · rfl

theorem foldl {α : Type} {k : Analysis → α → Analysis} (hk : ∀ a x, SameCores a (k a x))
    (l : List α) (a : Analysis) : SameCores a (l.foldl k a) :=
  List.foldlRecOn l k (refl a) fun a' h x _ ↦ h.trans (hk a' x)

theorem detach (a : Analysis) (f : FlowId) : SameCores a (a.detach f) := by
  refine .trans (.foldl (fun a p ↦ ?_) _ a) (.modifyFlow _ f fun _ ↦ rfl)
  split
  · exact .refl a
  · exact .modifyFlow a p fun _ ↦ rfl

end SameCores

theorem sorted_live (g : FlowGraph) :
    g.live.Pairwise fun f f' ↦ (g.flow f).addr ≤ (g.flow f').addr := by
  refine (List.pairwise_mergeSort (fun x y z hxy hyz ↦ ?_) (fun x y ↦ ?_) _).imp of_decide_eq_true
  · exact decide_eq_true ((of_decide_eq_true hxy).trans (of_decide_eq_true hyz))
  · simpa using Nat.le_total _ _

/-- The flow block before a dead one takes over its range. -/
theorem yieldRange_eq {ds : List FlowId} {e : FlowId} (h : a.Tiles (fun g ↦ a.Live g ∨ g ∈ f :: ds) w)
    (hf : ¬ a.Live f) (hds : ∀ g ∈ ds, (a.flow f).addr ≤ (a.flow g).addr) (he : a.Live e)
    (hstart : (a.flow e).addr = w.start) : ∃ before, a.Live before ∧
      (a.flow before).stop = (a.flow f).addr ∧
      a.yieldRange f = a.modifyFlow before fun x ↦ { x with length := x.length + (a.flow f).length } := by
  have hfl : a.Live f ∨ f ∈ f :: ds := .inr List.mem_cons_self
  have hef : e ≠ f := fun heq ↦ hf (heq ▸ he)
  have hne := h.nonempty f hfl
  have hlow : w.start < (a.flow f).addr := by
    have hle := ((h.covers _).mpr ⟨f, hfl, le_rfl, hne⟩).1
    have hene := h.nonempty e (.inl he)
    have hdisj := h.disjoint e f (.inl he) hfl hef
    omega
  obtain ⟨g, hg, hgle, hglt⟩ := (h.covers ((a.flow f).addr - 1)).mp (by
    have hin := (h.covers (a.flow f).addr).mpr ⟨f, hfl, le_rfl, hne⟩
    omega)
  have hgf : g ≠ f := by
    rintro rfl
    omega
  have hgstop : (a.flow g).stop = (a.flow f).addr := by
    have hdisj := h.disjoint g f hg hfl hgf
    omega
  have hglive : a.Live g := by
    refine hg.resolve_right fun hmem ↦ ?_
    have hafter := hds g (List.mem_of_ne_of_mem hgf hmem)
    omega
  have hsome : (a.graph.live.find? fun other ↦ (a.flow other).stop = (a.flow f).addr).isSome := by
    rw [List.find?_isSome]
    exact ⟨g, mem_live.mpr hglive, decide_eq_true hgstop⟩
  obtain ⟨before, hbefore⟩ := Option.isSome_iff_exists.mp hsome
  refine ⟨before, mem_live.mp (List.mem_of_find?_eq_some hbefore),
    of_decide_eq_true (List.find?_some hbefore :), ?_⟩
  rw [yieldRange, hbefore]

/-- Dead flow blocks that go one after the other leave no gap, since the first of all is alive. -/
theorem Tiles.yieldAll {ds : List FlowId} {e : FlowId} (h : a.Tiles (fun g ↦ a.Live g ∨ g ∈ ds) w)
    (hdead : ∀ f ∈ ds, ¬ a.Live f) (hn : ds.Nodup)
    (hsorted : ds.Pairwise fun f g ↦ (a.flow f).addr ≤ (a.flow g).addr) (he : a.Live e)
    (hstart : (a.flow e).addr = w.start) :
    (ds.foldl yieldRange a).Tiles (ds.foldl yieldRange a).Live w := by
  induction ds generalizing a with
  | nil => exact h.congr (fun g ↦ by simp) (fun _ _ ↦ rfl) fun _ _ ↦ rfl
  | cons f ds ih =>
    rw [List.forall_mem_cons] at hdead
    obtain ⟨hfds, hn⟩ := List.nodup_cons.mp hn
    obtain ⟨hfirst, hsorted⟩ := List.pairwise_cons.mp hsorted
    obtain ⟨before, hbefore, hadj, heq⟩ := yieldRange_eq h hdead.1 hfirst he hstart
    have hflow (g : FlowId) : ((a.yieldRange f).flow g).addr = (a.flow g).addr ∧
        ((a.yieldRange f).flow g).alive = (a.flow g).alive ∧
        ((a.yieldRange f).flow g).stop =
          if g = before then (a.flow f).stop else (a.flow g).stop := by
      rw [heq, modifyFlow, flow, FlowGraph.flow_modifyFlow]
      by_cases hg : g = before
      · subst hg
        rw [if_pos ⟨rfl, hbefore.1⟩, if_pos rfl]
        refine ⟨rfl, rfl, ?_⟩
        have hstop : (a.flow g).addr + (a.flow g).length = (a.flow f).addr := hadj
        dsimp only [Flow.stop]
        rw [← Nat.add_assoc, ← flow, hstop]
      · rw [if_neg fun hc ↦ hg hc.1, if_neg hg]
        exact ⟨rfl, rfl, rfl⟩
    have hlive (g : FlowId) : (a.yieldRange f).Live g ↔ a.Live g := by
      rw [Live, Live, (hflow g).2.1, heq]
      simp [modifyFlow]
    have hbf : before ≠ f := fun hc ↦ hdead.1 (hc ▸ hbefore)
    have hfl : a.Live f ∨ f ∈ f :: ds := .inr List.mem_cons_self
    refine ih ?_ ?_ hn ?_ ((hlive e).mpr he) ((hflow e).1.trans hstart)
    · have hbne := h.nonempty before (.inl hbefore)
      have hfne := h.nonempty f hfl
      refine h.join (.inl hbefore) hfl hbf (.inl hadj.symm) ?_ ?_ (fun g hgb _ ↦ ?_) fun g ↦ ?_
      · rw [(hflow before).1]
        omega
      · rw [(hflow before).2.2, if_pos rfl]
        omega
      · rw [(hflow g).1, (hflow g).2.2, if_neg hgb]
        exact ⟨rfl, rfl⟩
      · rw [hlive, List.mem_cons]
        constructor
        · rintro (hg | hg)
          · exact ⟨.inl hg, fun hc ↦ hdead.1 (hc ▸ hg)⟩
          · exact ⟨.inr (.inr hg), fun hc ↦ hfds (hc ▸ hg)⟩
        · rintro ⟨hg | hg | hg, hne⟩
          · exact .inl hg
          · exact absurd hg hne
          · exact .inr hg
    · exact fun g hg ↦ mt (hlive g).mp (hdead.2 g hg)
    · refine hsorted.imp fun {x y} hxy ↦ ?_
      rwa [(hflow x).1, (hflow y).1]

theorem span_dropAll (dead : List FlowId) (a : Analysis) (g : FlowId) :
    let a' := dead.foldl (fun a f ↦ (a.removeJumps f).modifyFlow f ({ · with alive := false })) a
    (a'.Live g ↔ a.Live g ∧ g ∉ dead) ∧ (a'.flow g).addr = (a.flow g).addr ∧
      (a'.flow g).stop = (a.flow g).stop := by
  induction dead generalizing a with
  | nil => simp
  | cons f dead ih =>
    have hcut := (Edits.refl a).removeJumps f
    obtain ⟨hlive, haddr, hstop⟩ := ih ((a.removeJumps f).modifyFlow f ({ · with alive := false }))
    have hflow : ((((a.removeJumps f).modifyFlow f ({ · with alive := false })).Live g) ↔
        a.Live g ∧ g ≠ f) ∧
        (((a.removeJumps f).modifyFlow f ({ · with alive := false })).flow g).addr = (a.flow g).addr ∧
        (((a.removeJumps f).modifyFlow f ({ · with alive := false })).flow g).stop =
          (a.flow g).stop := by
      rw [← hcut.live_iff, ← hcut.addr_eq, ← hcut.stop_eq, Live, Live]
      simp only [modifyFlow, flow, FlowGraph.flow_modifyFlow]
      by_cases hg : g = f
      · split <;> simp_all [Flow.stop]
      · simp [hg]
    rw [List.foldl_cons]
    refine ⟨?_, haddr.trans hflow.2.1, hstop.trans hflow.2.2⟩
    rw [hlive, hflow.1, List.mem_cons, not_or, and_assoc]

/-- Dropping what is unreachable leaves the code to the rest. -/
theorem divided_removeUnreachable (hs : a.Sound) (ht : a.Tiles a.Live w)
    (hstart : (a.flow a.entry).addr = w.start) (hc : a.CallFree) (handlers : List Nat) :
    Divided w (a.removeUnreachable handlers) := by
  refine ⟨?_, .of_sound (hs.removeUnreachable handlers), originates_removeUnreachable hc lasts_callFree handlers⟩
  obtain ⟨hsub, hqueue, -⟩ := strikeReached_spec a a.graph.live
    (a.entry :: handlers.filterMap a.graph.flowStartingAt) (nodup_live a.graph)
  rw [removeUnreachable, unreachable]
  generalize a.strikeReached a.graph.live _ = dead at hsub hqueue ⊢
  have hdrop := span_dropAll dead a
  generalize dead.foldl (fun a f ↦ (a.removeJumps f).modifyFlow f ({ · with alive := false })) a = a₁
    at hdrop ⊢
  have hdetach := SameCores.foldl SameCores.detach dead a₁
  generalize dead.foldl detach a₁ = a₂ at hdetach ⊢
  have hlive (g : FlowId) : a₂.Live g ↔ a.Live g ∧ g ∉ dead := by
    rw [← (hdrop g).1, Live, hdetach.1]
    exact and_congr_right fun _ ↦ Bool.eq_iff_iff.mp (congrArg Flow.alive (hdetach.2 g) :)
  have haddr (g : FlowId) : (a₂.flow g).addr = (a.flow g).addr :=
    (congrArg Flow.addr (hdetach.2 g) :).trans (hdrop g).2.1
  have hstop (g : FlowId) : (a₂.flow g).stop = (a.flow g).stop :=
    (congrArg Flow.stop (hdetach.2 g) :).trans (hdrop g).2.2
  have hdead (g : FlowId) (hg : g ∈ dead) : a.Live g := mem_live.mp (hsub.subset hg)
  have htiles : (dead.foldl yieldRange a₂).Tiles (dead.foldl yieldRange a₂).Live w := by
    refine Tiles.yieldAll (ht.congr (fun g ↦ ?_) (fun g _ ↦ haddr g) fun g _ ↦ hstop g) ?_
      ((nodup_live a.graph).sublist hsub) ?_ ((hlive a.entry).mpr ⟨hs.entry, hqueue _ ?_⟩)
      ((haddr a.entry).trans hstart)
    · rw [hlive]
      by_cases hg : g ∈ dead
      · simp [hg, hdead g hg]
      · simp [hg]
    · exact fun g hg hl ↦ ((hlive g).mp hl).2 hg
    · refine List.Pairwise.imp (fun {x y} hxy ↦ ?_) (List.Pairwise.sublist hsub (sorted_live a.graph))
      rwa [haddr, haddr]
    · exact List.mem_cons_self
  have hcheck := (Edits.refl (dead.foldl yieldRange a₂)).checkpoint
  exact htiles.congr hcheck.live_iff (fun g _ ↦ hcheck.addr_eq g) fun g _ ↦ hcheck.stop_eq g

end Prune

section Build

variable {m : MethodInfo} {code : List Instruction} {rows : List ExceptionRow} {o : Options}

theorem Placed.tiles (h : Placed code a) (hc : Contiguous code) :
    a.Tiles a.Live (Window.ofCode code) where
  nonempty f hf := by
    obtain ⟨k, hk, rfl⟩ := (h.live f).mp hf
    have hi := List.getElem?_eq_getElem hk
    rw [h.stop hi, (h.range k _ hi).1]
    exact hc.pos hi
  disjoint f g hf hg hfg := by
    obtain ⟨k, hk, rfl⟩ := (h.live f).mp hf
    obtain ⟨l, hl, rfl⟩ := (h.live g).mp hg
    have hi := List.getElem?_eq_getElem hk
    have hj := List.getElem?_eq_getElem hl
    rw [h.stop hi, h.stop hj, (h.range k _ hi).1, (h.range l _ hj).1]
    rcases Nat.lt_trichotomy k l with hlt | heq | hlt
    · exact .inl (hc.nextAddress_le hi hj hlt)
    · exact absurd (congrArg placeId heq) hfg
    · exact .inr (hc.nextAddress_le hj hi hlt)
  covers n := by
    rw [hc.covers]
    constructor
    · rintro ⟨i, hi, hn⟩
      obtain ⟨k, hk⟩ := List.mem_iff_getElem?.mp hi
      refine ⟨placeId k, (h.live _).mpr ⟨k, (List.getElem?_eq_some_iff.mp hk).1, rfl⟩, ?_⟩
      rwa [h.stop hk, (h.range k _ hk).1]
    · rintro ⟨f, hf, hn⟩
      obtain ⟨k, hk, rfl⟩ := (h.live f).mp hf
      have hi := List.getElem?_eq_getElem hk
      rw [h.stop hi, (h.range k _ hi).1] at hn
      exact ⟨code[k], List.getElem_mem hk, hn⟩

variable (hc : Contiguous code) (hop : ∀ i ∈ code, ∀ target, i.opcode ≠ .jsr target)
include hc hop

theorem divided_of_build (h : build m code o = .ok a) : Divided (Window.ofCode code) a :=
  ⟨(isGraphOf_of_build hc h).placed.tiles hc, .of_sound (sound_of_build h), callFree_of_build h hop⟩

theorem divided_of_prune (h : build m code o = .ok a) (handlers : List Nat) :
    Divided (Window.ofCode code) (a.removeUnreachable handlers) := by
  have hs := divided_of_build hc hop h
  have hg := isGraphOf_of_build hc h
  refine divided_removeUnreachable (sound_of_build h) hs.tiles ?_ hs.callFree handlers
  obtain ⟨first, rest, rfl⟩ := List.exists_cons_of_ne_nil (buildable_of_build hc h).nonempty
  rw [hg.entry, (hg.placed.range 0 first rfl).1]
  rfl

theorem divided_of_structures {rest : List ExceptionRow} {s : Structuring}
    (h : Structures Proper m code rows o rest s) : Divided (Window.ofCode code) s.analysis := by
  induction h with
  | build h => exact divided_of_build hc hop h
  | prune h => exact divided_of_prune hc hop h _
  | advance _ h' ih => exact ih.advance h'
  | row _ h' ih => exact ih.addRow h'

/-- In every state from the graph of the instructions to the last step of the reduction, also in the
midst of a step that edits trees, the live flow blocks divide the code among themselves, and each
address is looked up in its own. -/
theorem live_tile {rest : List ExceptionRow} {s : Structuring}
    (h : Structures Proper m code rows o rest s) (he : Edits s.analysis a) :
    {f | a.Live f}.PairwiseDisjoint a.addresses ∧
      ⋃ f ∈ {f | a.Live f}, a.addresses f =
        Set.Ico (Window.ofCode code).start (Window.ofCode code).stop ∧
      ∀ n f, a.graph.flowAt n = some f ↔ a.Live f ∧ n ∈ a.addresses f := by
  have ht := ((divided_of_structures hc hop h).edits he).tiles
  exact ⟨ht.pairwiseDisjoint, ht.iUnion_addresses, ht.flowAt_eq_some⟩

omit hc hop in
theorem guarded_of_build (h : build m code o = .ok a) : Guarded Proper a ∧ Proper a.entry := by
  have hm := Mirrored.of_sound (sound_of_build h)
  refine ⟨hm.guarded, hm.proper _ (sound_of_build h).entry⟩

/-- Starts with a jump over an instruction that is never reached, and handles every exception of the
increment. -/
def guardedBump : List Instruction :=
  [⟨0, 3, .goto 4⟩, ⟨3, 1, .nop⟩, ⟨4, 3, .iinc 0 1⟩, ⟨7, 1, .returns none⟩, ⟨8, 1, .stack .pop⟩,
    ⟨9, 1, .returns none⟩]

omit hc hop in
theorem live_tile_guardedBump : ∃ s,
    Structures Proper takesInt guardedBump [⟨4, 7, 8, none⟩] {} [] s ∧
      {f | s.analysis.Live f}.PairwiseDisjoint s.analysis.addresses ∧
      ⋃ f ∈ {f | s.analysis.Live f}, s.analysis.addresses f = Set.Ico 0 10 ∧
      ∀ n f, s.analysis.graph.flowAt n = some f ↔ s.analysis.Live f ∧ n ∈ s.analysis.addresses f := by
  have hb : (build takesInt guardedBump {}).toOption.any (fun a ↦
      (a.structureAll [⟨4, 7, 8, none⟩] 100).toOption.any fun r ↦ !r.2) = true := by cbv
  obtain ⟨a, ha, hs⟩ := exists_build hb
  obtain ⟨⟨b, degraded⟩, hs, -⟩ : ∃ r, a.structureAll [⟨4, 7, 8, none⟩] 100 = .ok r ∧
      (!r.2) = true := by
    cases hr : a.structureAll [⟨4, 7, 8, none⟩] 100 with
    | error e => rw [hr] at hs; cases hs
    | ok r => rw [hr] at hs; exact ⟨r, rfl, hs⟩
  obtain ⟨hg, he⟩ := guarded_of_build ha
  obtain ⟨s, hstr, -⟩ := Structures.of_structureAll ha hg he hs
  exact ⟨s, hstr, live_tile ⟨by decide, by decide⟩ (by simp [guardedBump]) hstr (.refl _)⟩

end Build

end Analysis

end Decompile
