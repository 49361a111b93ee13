import Decompile.Proofs.InstructionGraph
import Decompile.Proofs.Structuring

/-!
Edges between live flow blocks stand at both of their ends. Edits take an edge away from both, and
when one flow block absorbs another, its edges move at both as well. Nothing is asked of the chains
of jumps or of trees here.
-/

namespace Decompile

namespace FlowGraph

variable {g g' g'' : FlowGraph} {f d s : FlowId}

/-- Edges may be gone, each from both of its ends. -/
structure Trims (g g' : FlowGraph) : Prop where
  flows_size : g'.flows.size = g.flows.size
  core : ∀ f, (g'.flow f).core = (g.flow f).core
  destination : ∀ j, (g'.jump j).destination = (g.jump j).destination
  keys : ∀ f, g'.keys f ⊆ g.keys f
  predecessors : ∀ f, (g'.flow f).predecessors ⊆ (g.flow f).predecessors
  ends : ∀ f d, f.index < g.flows.size → d.index < g.flows.size → d ∈ g.keys f →
    f ∈ (g.flow d).predecessors → (d ∈ g'.keys f ↔ f ∈ (g'.flow d).predecessors)

namespace Trims

theorem refl (g : FlowGraph) : Trims g g where
  flows_size := rfl
  core _ := rfl
  destination _ := rfl
  keys _ := List.Subset.refl _
  predecessors _ := List.Subset.refl _
  ends _ _ _ _ hd hf := iff_of_true hd hf

theorem trans (h : Trims g g') (h' : Trims g' g'') : Trims g g'' where
  flows_size := h'.flows_size.trans h.flows_size
  core f := (h'.core f).trans (h.core f)
  destination j := (h'.destination j).trans (h.destination j)
  keys f := List.Subset.trans (h'.keys f) (h.keys f)
  predecessors f := List.Subset.trans (h'.predecessors f) (h.predecessors f)
  ends f d hf hd hk hp := by
    have hends := h.ends f d hf hd hk hp
    rw [← h.flows_size] at hf hd
    constructor
    · intro hk''
      have hk' := h'.keys f hk''
      exact (h'.ends f d hf hd hk' (hends.mp hk')).mp hk''
    · intro hp''
      have hp' := h'.predecessors d hp''
      exact (h'.ends f d hf hd (hends.mpr hp') hp').mpr hp''

theorem of_eq (hsize : g'.flows.size = g.flows.size) (hcore : ∀ f, (g'.flow f).core = (g.flow f).core)
    (hdest : ∀ j, (g'.jump j).destination = (g.jump j).destination)
    (hkeys : ∀ f d, d ∈ g'.keys f ↔ d ∈ g.keys f)
    (hpreds : ∀ f, (g'.flow f).predecessors = (g.flow f).predecessors) : Trims g g' where
  flows_size := hsize
  core := hcore
  destination := hdest
  keys f d := (hkeys f d).mp
  predecessors f := fun _ hp ↦ hpreds f ▸ hp
  ends f d _ _ hk hp := iff_of_true ((hkeys f d).mpr hk) ((hpreds d).symm ▸ hp)

theorem of_keeps (h : Keeps g g') : Trims g g' :=
  .of_eq h.flows_size h.core h.destination
    (fun f d ↦ by rw [FlowGraph.keys, FlowGraph.keys, h.successors])
    h.predecessors

end Trims

theorem keys_modifyFlow (g : FlowGraph) (f d : FlowId) {k : Flow → Flow}
    (hk : ∀ x, (k x).successors = x.successors) : (g.modifyFlow d k).keys f = g.keys f := by
  rw [keys, keys, flow_modifyFlow]
  split
  · rw [hk]
  · rfl

theorem keys_removeEdge (g : FlowGraph) (s d f : FlowId) : (g.removeEdge s d).keys f =
    if f = s ∧ s.index < g.flows.size then (g.keys f).filter (· ≠ d) else g.keys f := by
  have hkeys : (g.removeEdge s d).keys f = (g.modifyFlow s (·.eraseEdge d)).keys f :=
    keys_modifyFlow _ _ _ fun _ ↦ rfl
  rw [hkeys, keys, flow_modifyFlow]
  split
  · rw [keys, List.filter_map]
    rfl
  · rfl

theorem mem_keys_removeEdge {d' : FlowId} (hs : s.index < g.flows.size) :
    d' ∈ (g.removeEdge s d).keys f ↔ d' ∈ g.keys f ∧ ¬ (f = s ∧ d' = d) := by
  rw [keys_removeEdge]
  by_cases hf : f = s
  · simp [hf, hs]
  · simp [hf]

theorem trims_removeEdge (g : FlowGraph) (s d : FlowId) : Trims g (g.removeEdge s d) where
  flows_size := (Relinked.removeEdge g s d).flows_size
  core := (Relinked.removeEdge g s d).core
  destination := (Relinked.removeEdge g s d).destination
  keys f := by
    rw [keys_removeEdge]
    split
    · exact List.filter_subset_self _
    · exact List.Subset.refl _
  predecessors f p hp := by
    rw [removeEdge, flow_modifyFlow, flow_modifyFlow] at hp
    split at hp
    · replace hp := List.mem_of_mem_filter hp
      split at hp <;> exact hp
    · split at hp <;> exact hp
  ends f d' hf hd' hk hp := by
    by_cases hsd : f = s ∧ d' = d
    · obtain ⟨rfl, rfl⟩ := hsd
      rw [mem_keys_removeEdge hf, mem_predecessors_removeEdge hd']
      simp
    · refine iff_of_true ?_ ?_
      · by_cases hs : s.index < g.flows.size
        · exact (mem_keys_removeEdge hs).mpr ⟨hk, hsd⟩
        · rwa [keys_removeEdge, if_neg fun h ↦ hs h.2]
      · by_cases hd : d.index < g.flows.size
        · exact (mem_predecessors_removeEdge hd).mpr ⟨hp, hsd⟩
        · have hne : d' ≠ d := fun he ↦ hd (he ▸ hd')
          rw [removeEdge, flow_modifyFlow_of_ne _ _ hne, flow_modifyFlow]
          split <;> exact hp

theorem trims_setChain (js : List JumpId) (hd : d ∈ g.keys s) : Trims g (g.setChain s d js) := by
  have hr := Relinked.setChain g s d js
  refine .of_eq hr.flows_size hr.core hr.destination (fun f d' ↦ ?_) (flow_setChain g s d · js)
  rw [setChain, keys, flow_modifyFlow, flow_thread]
  split
  next hf =>
    obtain ⟨rfl, -⟩ := hf
    by_cases he : d' = d
    · subst he
      exact iff_of_true (by simp [Flow.setEdge]) hd
    · simp [Flow.setEdge, keys, he]
  next => rfl

theorem trims_unlinkJump (g : FlowGraph) (s : FlowId) (j : JumpId) :
    Trims g (g.unlinkJump s j) := by
  have hlast (g : FlowGraph) : Trims g (g.modifyJump j ({ · with next := none })) := by
    have hr := Relinked.modifyJump g j none
    exact .of_eq hr.flows_size hr.core hr.destination (fun _ _ ↦ .rfl) fun _ ↦ rfl
  rw [unlinkJump]
  split
  · exact (trims_removeEdge g s _).trans (hlast _)
  next hrest =>
    refine (trims_setChain _ ?_).trans (hlast _)
    -- A jump is left on the edge, so there is one.
    by_contra hkey
    rw [Chained.jumpsTo_of_not_mem hkey] at hrest
    exact hrest rfl

end FlowGraph

namespace Analysis

/-- Flow blocks that hold code. -/
def Proper (f : FlowId) : Prop := f.isSentinel = false

variable {a a' : Analysis} {f g s d : FlowId}

theorem Edit.trims (h : Edit a a') : a.graph.Trims a'.graph := by
  cases h with
  | source j b => exact .of_keeps (.modifyJump a.graph j b)
  | unlink f j => exact FlowGraph.trims_unlinkJump a.graph f j
  | dropEdge f d => exact FlowGraph.trims_removeEdge a.graph f d
  | outline f k hk => exact .of_keeps (.modifyFlow a.graph f hk)
  | _ => exact .refl _

theorem Edits.trims (h : Edits a a') : a.graph.Trims a'.graph := by
  induction h with
  | refl => exact .refl _
  | tail _ h' ih => exact ih.trans h'.trims

theorem Edits.live_iff (h : Edits a a') (g : FlowId) : a'.Live g ↔ a.Live g := by
  rw [Live, Live, h.trims.flows_size, h.alive_eq]

/-- Edges between live flow blocks stand at both of their ends, and there are no others. -/
structure Mirrored (a : Analysis) : Prop where
  sentinels : 3 ≤ a.graph.flows.size
  proper : ∀ f, a.Live f → f.isSentinel = false
  leads : ∀ f d, a.Live f → d ∈ a.graph.keys f → d.isSentinel = false →
    a.Live d ∧ f ∈ (a.flow d).predecessors
  led : ∀ p d, p.isSentinel = false → d.isSentinel = false → p ∈ (a.flow d).predecessors →
    a.Live p ∧ d ∈ a.graph.keys p
  range : ∀ j, (a.jump j).destination.index < a.graph.flows.size

namespace Mirrored

theorem of_sound (h : a.Sound) : a.Mirrored where
  sentinels := (isSentinel_eq_false.mp (h.wellFormed.proper _ h.entry)).trans h.entry.1.le
  proper := h.wellFormed.proper
  leads f d hf hd hs := by
    have hlive := (h.leads f d hd).resolve_right fun he ↦ by
      rw [he] at hs
      cases hs
    exact ⟨hlive, (h.wellFormed.linked.pred_iff f d (h.wellFormed.proper f hf)).mpr hd⟩
  led p d hp _ hpd := ⟨h.live_pred hpd hp, (h.wellFormed.linked.pred_iff p d hp).mp hpd⟩
  range := h.wellFormed.range

theorem trims (h : a.Mirrored) (ht : a.graph.Trims a'.graph) : a'.Mirrored := by
  have hlive (g : FlowId) : a'.Live g ↔ a.Live g := by
    rw [Live, Live, ht.flows_size]
    exact and_congr_right fun _ ↦ Bool.eq_iff_iff.mp (congrArg Flow.alive (ht.core g) :)
  constructor
  case sentinels => exact ht.flows_size.symm ▸ h.sentinels
  case proper => exact fun f hf ↦ h.proper f ((hlive f).mp hf)
  case leads =>
    intro f d hf hd hs
    rw [hlive] at hf
    obtain ⟨hdl, hp⟩ := h.leads f d hf (ht.keys f hd) hs
    exact ⟨(hlive d).mpr hdl, (ht.ends f d hf.1 hdl.1 (ht.keys f hd) hp).mp hd⟩
  case led =>
    intro p d hp hd hpd
    obtain ⟨hpl, hk⟩ := h.led p d hp hd (ht.predecessors d hpd)
    obtain ⟨hdl, hp'⟩ := h.leads p d hpl hk hd
    exact ⟨(hlive p).mpr hpl, (ht.ends p d hpl.1 hdl.1 hk hp').mpr hpd⟩
  case range =>
    intro j
    rw [ht.flows_size]
    exact (ht.destination j) ▸ h.range j

variable (h : a.Mirrored)
include h

theorem index_lt (hf : a.Live f) (hd : d ∈ a.graph.keys f) : d.index < a.graph.flows.size := by
  cases hs : d.isSentinel with
  | false => exact (h.leads f d hf hd hs).1.1
  | true =>
    have htwo : d.index ≤ 2 := of_decide_eq_true hs
    exact htwo.trans_lt h.sentinels

theorem guarded : Guarded Proper a := by
  intro g hg
  by_cases hlt : g.index < a.graph.flows.size
  · exact h.proper g ⟨hlt, hg⟩
  · exact isSentinel_eq_false.mpr (h.sentinels.trans (Nat.le_of_not_lt hlt))

theorem live_of_pred (hp : f ∈ (a.flow s).predecessors) (hf : f.isSentinel = false)
    (hs : s.isSentinel = false) : a.Live f ∧ a.Live s := by
  obtain ⟨hlive, hk⟩ := h.led f s hf hs hp
  exact ⟨hlive, (h.leads f s hlive hk hs).1⟩

/-- What nothing jumps to any more can be absorbed. -/
theorem absorb (hf : a.Live f) (hs : a.Live s) (hfs : f ≠ s)
    (hpreds : ∀ p ∈ (a.flow s).predecessors, p.isSentinel = true) (edge : Edge) :
    (a.absorb f s edge).Mirrored ∧ Adopted f s a (a.absorb f s edge) := by
  have hlonely (g : FlowId) (hg : a.Live g) : s ∉ a.graph.keys g := by
    intro hkey
    have hp := hpreds g (h.leads g s hg hkey (h.proper s hs)).2
    rw [h.proper g hg] at hp
    cases hp
  have had := adopted_absorb edge hfs hf.1 hs.1 (hlonely s hs) fun d hd ↦ h.index_lt hs hd
  have hlive (g : FlowId) : (a.absorb f s edge).Live g ↔ a.Live g ∧ g ≠ s := by
    rw [Live, Live, had.flows_size, (span_absorb a hfs edge g).1]
    by_cases hg : g = s
    · simp [hg, hs.1]
    · simp [hg]
  refine ⟨?_, had⟩
  constructor
  case sentinels => exact had.flows_size.symm ▸ h.sentinels
  case proper => exact fun g hg ↦ h.proper g ((hlive g).mp hg).1
  case leads =>
    intro g d hg hd hsent
    rw [hlive] at hg
    rw [had.keys] at hd
    rw [hlive, had.predecessors]
    obtain ⟨-, hd | ⟨rfl, hd⟩⟩ := hd
    · obtain ⟨hdl, hp⟩ := h.leads g d hg.1 hd hsent
      have hds : d ≠ s := fun he ↦ hlonely g hg.1 (he ▸ hd)
      exact ⟨⟨hdl, hds⟩, hds, .inl ⟨hp, fun hps ↦ hg.2 hps.2⟩⟩
    · obtain ⟨hdl, hp⟩ := h.leads s d hs hd hsent
      have hds : d ≠ s := fun he ↦ hlonely s hs (he ▸ hd)
      exact ⟨⟨hdl, hds⟩, hds, .inr ⟨hd, rfl⟩⟩
  case led =>
    intro p d hp hd hpd
    rw [had.predecessors] at hpd
    rw [hlive, had.keys]
    obtain ⟨hds, ⟨hpd, hnot⟩ | ⟨hkey, rfl⟩⟩ := hpd
    · obtain ⟨hpl, hk⟩ := h.led p d hp hd hpd
      have hps : p ≠ s := by
        rintro rfl
        exact hnot ⟨hk, rfl⟩
      exact ⟨⟨hpl, hps⟩, hps, .inl hk⟩
    · exact ⟨⟨hf, hfs⟩, hfs, .inr ⟨rfl, hkey⟩⟩
  case range =>
    intro j
    rw [had.flows_size]
    obtain hold | hkey := had.destination j
    · rw [hold]
      exact h.range j
    · exact h.index_lt hs hkey

end Mirrored

end Analysis

end Decompile
