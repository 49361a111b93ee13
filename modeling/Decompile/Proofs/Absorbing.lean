import Decompile.Liveness
import Decompile.Proofs.WellFormed

namespace Decompile

namespace Flow

/-- A flow block without its edges and locals. -/
def hull (f : Flow) : Flow := { f.bare with reads := {}, writes := {} }

/-- The range from the first address of the two to the last. -/
def stretch (other f : Flow) : Flow :=
  { f with
    addr := min f.addr other.addr
    length := max f.stop other.stop - min f.addr other.addr }

/-- Nothing is left of it. -/
def retire (f : Flow) : Flow := { f with alive := false, predecessors := [], reads := {} }

theorem stop_stretch (other f : Flow) : (stretch other f).stop = max f.stop other.stop := by
  simp only [stretch, stop]
  omega

end Flow

namespace FlowGraph

variable {g g' : FlowGraph} {f s d : FlowId} {j : JumpId} {js : List JumpId} {e : Edge}
  {outs : List (FlowId × Edge)}

section Inherit

theorem jump_foldl_destination (g : FlowGraph) (js : List JumpId) (d : FlowId) (j : JumpId) :
    ((js.foldl (fun g j ↦ g.modifyJump j ({ · with destination := d })) g).jump j).next =
        (g.jump j).next ∧
      ((js.foldl (fun g j ↦ g.modifyJump j ({ · with destination := d })) g).jump j).source =
        (g.jump j).source ∧
      ((∀ i ∈ js, (g.jump i).destination = d) →
        ((js.foldl (fun g j ↦ g.modifyJump j ({ · with destination := d })) g).jump j).destination =
          (g.jump j).destination) := by
  induction js generalizing g with
  | nil => exact ⟨rfl, rfl, fun _ ↦ rfl⟩
  | cons i js ih =>
    obtain ⟨hn, hs, hd⟩ := ih (g.modifyJump i ({ · with destination := d }))
    rw [List.foldl_cons, hn, hs, jump_modifyJump]
    refine ⟨by split <;> rfl, by split <;> rfl, fun h ↦ ?_⟩
    have hsame : ∀ x, ((g.modifyJump i ({ · with destination := d })).jump x).destination =
        (g.jump x).destination := fun x ↦ by
      rw [jump_modifyJump]
      split
      next hx => rw [hx.1, h i (by simp)]
      next => rfl
    rw [hd fun x hx ↦ (hsame x).trans (h x (by simp [hx])), hsame]

theorem flows_foldl_destination (g : FlowGraph) (js : List JumpId) (d : FlowId) :
    (js.foldl (fun g j ↦ g.modifyJump j ({ · with destination := d })) g).flows = g.flows ∧
      (js.foldl (fun g j ↦ g.modifyJump j ({ · with destination := d })) g).jumps.size =
        g.jumps.size := by
  induction js generalizing g with
  | nil => exact ⟨rfl, rfl⟩
  | cons i js ih => simpa using ih (g.modifyJump i ({ · with destination := d }))

variable (g) (f s d : FlowId) (e : Edge)

theorem jump_inheritEdge (js : List JumpId) (j : JumpId) :
    (g.inheritEdge f s d e js).jump j =
      (js.foldl (fun g j ↦ g.modifyJump j ({ · with destination := d })) (g.thread js)).jump j := by
  rw [inheritEdge, Linked.jump_addPredecessor]
  rfl

theorem flow_foldl_destination (js : List JumpId) (x : FlowId) :
    (js.foldl (fun g j ↦ g.modifyJump j ({ · with destination := d })) (g.thread js)).flow x =
      g.flow x := by
  rw [flow, (flows_foldl_destination ..).1, flows_thread]
  rfl

theorem sizes_inheritEdge (js : List JumpId) :
    (g.inheritEdge f s d e js).flows.size = g.flows.size ∧
      (g.inheritEdge f s d e js).jumps.size = g.jumps.size := by
  obtain ⟨hf, hj⟩ := flows_foldl_destination (g.thread js) js d
  rw [inheritEdge, (Relinked.addPredecessor ..).flows_size, (Relinked.addPredecessor ..).jumps_size]
  simp only [size_modifyFlow, jumps_modifyFlow, hf, hj]
  simp

theorem bare_inheritEdge (js : List JumpId) (x : FlowId) :
    ((g.inheritEdge f s d e js).flow x).bare = (g.flow x).bare := by
  rw [inheritEdge, (Linked.flow_addPredecessor ..).2, flow_modifyFlow, flow_modifyFlow,
    flow_foldl_destination]
  split <;> split <;> rfl

theorem successors_inheritEdge (js : List JumpId) (x : FlowId) (hf : f.index < g.flows.size) :
    ((g.inheritEdge f s d e js).flow x).successors =
      if x = f then (g.flow f).successors.filter (·.1 ≠ d) ++ [(d, { e with jumps := js.head? })]
      else (g.flow x).successors := by
  have hsize : f.index < (js.foldl (fun g j ↦ g.modifyJump j ({ · with destination := d }))
      (g.thread js)).flows.size := by
    rw [(flows_foldl_destination ..).1, flows_thread]
    exact hf
  rw [inheritEdge, (Linked.flow_addPredecessor ..).1, flow_modifyFlow, flow_modifyFlow,
    flow_foldl_destination]
  by_cases hx : x = f
  · subst hx
    simp only [true_and]
    split <;> rfl
  · simp only [hx]
    split <;> rfl

theorem mem_predecessors_inheritEdge (js : List JumpId) (x y : FlowId) (hd : d.index < g.flows.size) :
    y ∈ ((g.inheritEdge f s d e js).flow x).predecessors ↔
      y ∈ (g.flow x).predecessors ∧ ¬ (x = d ∧ y = s) ∨ x = d ∧ y = f := by
  have hsize : ∀ k, d.index < ((js.foldl (fun g j ↦ g.modifyJump j ({ · with destination := d }))
      (g.thread js)).modifyFlow f k).flows.size := fun k ↦ by
    rw [size_modifyFlow, (flows_foldl_destination ..).1, flows_thread]
    exact hd
  have hpred : ∀ k : Flow → Flow, (∀ z, (k z).predecessors = z.predecessors) →
      (((js.foldl (fun g j ↦ g.modifyJump j ({ · with destination := d }))
        (g.thread js)).modifyFlow f k).flow x).predecessors = (g.flow x).predecessors := fun k hk ↦ by
    rw [flow_modifyFlow, flow_foldl_destination]
    split
    · exact hk _
    · rfl
  rw [inheritEdge, Linked.mem_predecessors_addPredecessor (by rw [size_modifyFlow]; exact hsize _),
    flow_modifyFlow]
  by_cases hx : x = d
  · subst hx
    simp only [hsize, hpred (·.setEdge x _) fun _ ↦ rfl]
    simp
  · simp [hx, hpred (·.setEdge d _) fun _ ↦ rfl]

theorem next_inheritEdge_of_not_mem (hj : j ∉ js) :
    ((g.inheritEdge f s d e js).jump j).next = (g.jump j).next := by
  rw [jump_inheritEdge, (jump_foldl_destination ..).1, jump_thread_of_not_mem hj]

theorem relinked_inheritEdge (hjs : ∀ j ∈ js, (g.jump j).destination = d) :
    Relinked g (g.inheritEdge f s d e js) where
  flows_size := (sizes_inheritEdge ..).1
  jumps_size := (sizes_inheritEdge ..).2
  bare := bare_inheritEdge g f s d e js
  source j := by
    rw [jump_inheritEdge, (jump_foldl_destination ..).2.1, (jump_thread ..).2]
  destination j := by
    rw [jump_inheritEdge, (jump_foldl_destination ..).2.2, (jump_thread ..).1]
    exact fun i hi ↦ (jump_thread ..).1.trans (hjs i hi)

theorem destination_inheritEdge (js : List JumpId) (j : JumpId) :
    ((g.inheritEdge f s d e js).jump j).destination = (g.jump j).destination ∨
      ((g.inheritEdge f s d e js).jump j).destination = d := by
  have hfold (is : List JumpId) (g : FlowGraph) :
      ((is.foldl (fun g j ↦ g.modifyJump j ({ · with destination := d })) g).jump j).destination =
          (g.jump j).destination ∨
        ((is.foldl (fun g j ↦ g.modifyJump j ({ · with destination := d })) g).jump j).destination =
          d := by
    induction is generalizing g with
    | nil => exact .inl rfl
    | cons i is ih =>
      obtain hold | hnew := ih (g.modifyJump i ({ · with destination := d }))
      · rw [List.foldl_cons, hold, jump_modifyJump]
        split
        · exact .inr rfl
        · exact .inl rfl
      · exact .inr hnew
  rw [jump_inheritEdge, ← (jump_thread g js j).1]
  exact hfold js _

end Inherit

/-- The edges `outs` have been given up, and nobody has taken them over yet. -/
structure Bequeaths (outs : List (FlowId × Edge)) (g : FlowGraph) : Prop extends g.Chained where
  nodup : (outs.map (·.1)).Nodup
  open_filed : ∀ d e, (d, e) ∈ outs → g.Filed d e (g.chain e.jumps)
  apart : ∀ d e, (d, e) ∈ outs → ∀ j ∈ g.chain e.jumps, ∀ f d', j ∉ g.jumpsTo f d'

section Take

variable (h : g.Bequeaths ((d, e) :: outs)) (hf : f.index < g.flows.size) (s : FlowId) (e' : Edge)
include h

theorem Bequeaths.mem_chain (hj : j ∈ g.jumpsTo f d ++ g.chain e.jumps) :
    (g.jump j).destination = d ∧ j.index < g.jumps.size ∧ ∀ f' d', j ∈ g.jumpsTo f' d' → f' = f := by
  have hopen := h.open_filed d e (by simp)
  rcases List.mem_append.mp hj with hj | hj
  · exact ⟨h.destination hj, h.lt_size hj, fun f' d' hj' ↦ h.own _ _ _ _ j hj' hj⟩
  · exact ⟨hopen.destination j hj, hopen.isChain.lt_size hj, fun f' d' hj' ↦
      absurd hj' (h.apart d e (by simp) j hj f' d')⟩

include hf in
theorem Bequeaths.rechained : Rechained f d (g.jumpsTo f d ++ g.chain e.jumps) g
    (g.inheritEdge f s d e' (g.jumpsTo f d ++ g.chain e.jumps)) := by
  have hopen := h.open_filed d e (by simp)
  have hmem : ∀ j ∈ g.jumpsTo f d ++ g.chain e.jumps, _ := fun j ↦ h.mem_chain
  have hn : (g.jumpsTo f d ++ g.chain e.jumps).Nodup := List.nodup_append'.mpr
    ⟨h.nodup_jumpsTo, hopen.nodup, fun j hj hj' ↦ h.apart d e (by simp) j hj' f d hj⟩
  have hre := relinked_inheritEdge g f s d e' fun j hj ↦ (hmem j hj).1
  have hnext : ∀ j, ((g.inheritEdge f s d e' (g.jumpsTo f d ++ g.chain e.jumps)).jump j).next =
      ((g.thread (g.jumpsTo f d ++ g.chain e.jumps)).jump j).next := fun j ↦ by
    rw [jump_inheritEdge, (jump_foldl_destination ..).1]
  have hne : g.jumpsTo f d ++ g.chain e.jumps ≠ [] := fun he ↦
    hopen.ne_nil (List.append_eq_nil_iff.mp he).2
  generalize g.jumpsTo f d ++ g.chain e.jumps = js at *
  refine ⟨hre.jumps_size.ge, fun x hx ↦ ?_, ⟨[(d, { e' with jumps := js.head? })], ?_,
    .inr ⟨_, rfl, hne, hn, ?_, ?_⟩⟩, fun x d' j hj hxd ↦ ?_, fun j hj ↦ (hmem j hj).2.2⟩
  · rw [successors_inheritEdge _ _ _ _ _ _ _ hf, if_neg hx]
  · rw [successors_inheritEdge _ _ _ _ _ _ _ hf, if_pos rfl]
  · exact (isChain_thread hn fun j hj ↦ (hmem j hj).2.1).congr
      (by rw [size_jumps_thread, hre.jumps_size]) fun j _ ↦ hnext j
  · exact fun j hj ↦ (hre.destination j).trans (hmem j hj).1
  · have hjs : j ∉ js := fun hm ↦ hxd ⟨(hmem j hm).2.2 x d' hj, by
      rw [← (hmem j hm).1, h.destination hj]⟩
    exact ⟨next_inheritEdge_of_not_mem _ _ _ _ _ hjs, hre.destination j⟩

include hf in
/-- One edge has found its new owner. -/
theorem Bequeaths.inheritEdge :
    (g.inheritEdge f s d e' (g.jumpsTo f d ++ g.chain e.jumps)).Bequeaths outs ∧
      (∀ x y, (g.inheritEdge f s d e' (g.jumpsTo f d ++ g.chain e.jumps)).jumpsTo x y =
        if x = f ∧ y = d then g.jumpsTo f d ++ g.chain e.jumps else g.jumpsTo x y) ∧
      (∀ x ∈ outs, (g.inheritEdge f s d e' (g.jumpsTo f d ++ g.chain e.jumps)).chain x.2.jumps =
        g.chain x.2.jumps) ∧
      Relinked g (g.inheritEdge f s d e' (g.jumpsTo f d ++ g.chain e.jumps)) := by
  have hr := h.rechained hf s e'
  have hmem : ∀ j ∈ g.jumpsTo f d ++ g.chain e.jumps, _ := fun j ↦ h.mem_chain
  have hre := relinked_inheritEdge g f s d e' fun j hj ↦ (hmem j hj).1
  have hto : ∀ x y, (g.inheritEdge f s d e' (g.jumpsTo f d ++ g.chain e.jumps)).jumpsTo x y =
      if x = f ∧ y = d then g.jumpsTo f d ++ g.chain e.jumps else g.jumpsTo x y :=
    fun x y ↦ hr.jumpsTo_eq h.toChained
  have hchained := hr.chained h.toChained
  have hdouts : d ∉ outs.map (·.1) := (List.nodup_cons.mp h.nodup).1
  -- The jumps still open go elsewhere, so they keep their links.
  have hout : ∀ d₁ e₁, (d₁, e₁) ∈ outs → ∀ j ∈ g.chain e₁.jumps,
      j ∉ g.jumpsTo f d ++ g.chain e.jumps := fun d₁ e₁ hm j hj hj' ↦ by
    refine hdouts (List.mem_map.mpr ⟨_, hm, ?_⟩)
    rw [← (hmem j hj').1, (h.open_filed d₁ e₁ (by simp [hm])).destination j hj]
  have hopen : ∀ d₁ e₁, (d₁, e₁) ∈ outs →
      (g.inheritEdge f s d e' (g.jumpsTo f d ++ g.chain e.jumps)).Filed d₁ e₁ (g.chain e₁.jumps) :=
    fun d₁ e₁ hm ↦ (h.open_filed d₁ e₁ (by simp [hm])).congr hre.jumps_size.ge fun j hj ↦
      ⟨next_inheritEdge_of_not_mem _ _ _ _ _ (hout d₁ e₁ hm j hj), hre.destination j⟩
  refine ⟨⟨hchained, (List.nodup_cons.mp h.nodup).2, fun d₁ e₁ hm ↦ ?_,
    fun d₁ e₁ hm j hj x y hj' ↦ ?_⟩, hto, fun x hx ↦ (hopen x.1 x.2 hx).chain, hre⟩
  · rw [(hopen d₁ e₁ hm).chain]
    exact hopen d₁ e₁ hm
  · rw [(hopen d₁ e₁ hm).chain] at hj
    rw [hto] at hj'
    split at hj'
    · exact hout d₁ e₁ hm j hj hj'
    · exact h.apart d₁ e₁ (by simp [hm]) j hj x y hj'

end Take

section Ends

theorem chain_eq_of_jumps (h : g'.jumps = g.jumps) (head : Option JumpId) :
    g'.chain head = g.chain head := by
  have : ∀ n head, g'.chainWithin n head = g.chainWithin n head := by
    intro n
    induction n with
    | zero => intro head; cases head <;> rfl
    | succ n ih =>
      intro head
      cases head with
      | none => rfl
      | some j => rw [chainWithin, chainWithin, ih, jump, h, jump]
  rw [chain, chain, h, this]

theorem Filed.of_jumps (h : g.Filed d e js) (hj : g'.jumps = g.jumps) : g'.Filed d e js :=
  h.congr (congrArg Table.size hj).ge fun j _ ↦ by simp [jump, hj]

theorem jumpsTo_eq_of_successors (h : g'.jumps = g.jumps)
    (hs : (g'.flow f).successors = (g.flow f).successors) (d : FlowId) :
    g'.jumpsTo f d = g.jumpsTo f d := by
  simp only [jumpsTo, Flow.edge?, hs, chain_eq_of_jumps h]

theorem Chained.thin {p : FlowId → Prop} [DecidablePred p] (h : g.Chained) (hj : g'.jumps = g.jumps)
    (hsucc : ∀ f, (g'.flow f).successors = if p f then [] else (g.flow f).successors) :
    g'.Chained ∧ ∀ f d, g'.jumpsTo f d = if p f then [] else g.jumpsTo f d := by
  have hto : ∀ f d, g'.jumpsTo f d = if p f then [] else g.jumpsTo f d := fun f d ↦ by
    split
    next hf => simp [jumpsTo, Flow.edge?, hsucc, hf]
    next hf => exact jumpsTo_eq_of_successors hj (by rw [hsucc, if_neg hf]) d
  refine ⟨⟨fun f ↦ ?_, fun f d e hm ↦ ?_, fun f f' d d' j hf hf' ↦ ?_⟩, hto⟩
  · rw [hsucc]
    split
    · exact List.nodup_nil
    · exact h.keys f
  · rw [hsucc] at hm
    split at hm
    · cases hm
    · rw [chain_eq_of_jumps hj]
      exact (h.filed f d e hm).of_jumps hj
  · rw [hto] at hf hf'
    split at hf
    · simp at hf
    · split at hf'
      · simp at hf'
      · exact h.own f f' d d' j hf hf'

/-- A flow block can give up its edges. -/
theorem Bequeaths.of_chained (h : g.Chained) (hj : g'.jumps = g.jumps)
    (hsucc : ∀ f, (g'.flow f).successors = if f = s then [] else (g.flow f).successors) :
    g'.Bequeaths (g.flow s).successors ∧
      ∀ f d, g'.jumpsTo f d = if f = s then [] else g.jumpsTo f d := by
  obtain ⟨hc, hto⟩ := h.thin hj hsucc
  refine ⟨⟨hc, h.keys s, fun d e hm ↦ ?_, fun d e hm j hj' f d' hj'' ↦ ?_⟩, hto⟩
  · rw [chain_eq_of_jumps hj]
    exact (h.filed s d e hm).of_jumps hj
  · rw [chain_eq_of_jumps hj, ← h.jumpsTo_of_mem hm] at hj'
    rw [hto] at hj''
    split at hj''
    · simp at hj''
    next hf => exact hf (h.own f s d' d j hj'' hj')

theorem Chained.of_jumps (h : g.Chained) (hj : g'.jumps = g.jumps)
    (hsucc : ∀ f, (g'.flow f).successors = (g.flow f).successors) :
    g'.Chained ∧ ∀ f d, g'.jumpsTo f d = g.jumpsTo f d := by
  simpa using h.thin (p := fun _ ↦ False) hj (by simpa using hsucc)

end Ends

/-- The jumps that the edges hold for a destination. -/
def jumpsOf (g : FlowGraph) (outs : List (FlowId × Edge)) (d : FlowId) : List JumpId :=
  ((outs.lookup d).map fun e ↦ g.chain e.jumps).getD []

end FlowGraph

namespace Analysis

variable {a a' : Analysis} {L : FlowId → Prop} {f s : FlowId} {edge : Edge}
  {outs : List (FlowId × Edge)}

section Take

/-- The destination of an edge of `s` once it has become one of `f`. -/
def inherited (f s d : FlowId) : FlowId := if d = s then f else d

theorem exists_takeEdge (f s : FlowId) (edge : Edge) (a : Analysis) (out : FlowId × Edge) :
    ∃ e, takeEdge f s edge a out = { a with
      graph := a.graph.inheritEdge f s (inherited f s out.1) e
        (a.graph.jumpsTo f (inherited f s out.1) ++ a.graph.chain out.2.jumps) } :=
  ⟨_, rfl⟩

theorem foldl_takeEdge_eq (f s : FlowId) (edge : Edge) (outs : List (FlowId × Edge))
    (a : Analysis) :
    outs.foldl (takeEdge f s edge) a = { a with graph := (outs.foldl (takeEdge f s edge) a).graph } ∧
      (outs.foldl (takeEdge f s edge) a).graph.flows.size = a.graph.flows.size ∧
      ∀ g, ((outs.foldl (takeEdge f s edge) a).flow g).bare = (a.flow g).bare := by
  induction outs generalizing a with
  | nil => exact ⟨rfl, rfl, fun _ ↦ rfl⟩
  | cons out outs ih =>
    obtain ⟨e, he⟩ := exists_takeEdge f s edge a out
    obtain ⟨heq, hsize, hbare⟩ := ih (takeEdge f s edge a out)
    rw [List.foldl_cons]
    refine ⟨by rw [heq, he], hsize.trans ?_, fun g ↦ (hbare g).trans ?_⟩
    · simp only [he, FlowGraph.sizes_inheritEdge]
    · simp only [he, flow, FlowGraph.bare_inheritEdge]

/-- All edges of `s` have become edges of `f`. -/
theorem foldl_takeEdge (edge : Edge) (h : a.graph.Bequeaths outs)
    (hf : f.index < a.graph.flows.size) (hd : ∀ x ∈ outs, x.1 ≠ s) :
    (outs.foldl (takeEdge f s edge) a).graph.Chained ∧
      (∀ x y, (outs.foldl (takeEdge f s edge) a).graph.jumpsTo x y =
        a.graph.jumpsTo x y ++ if x = f then a.graph.jumpsOf outs y else []) ∧
      a.graph.Relinked (outs.foldl (takeEdge f s edge) a).graph := by
  induction outs generalizing a with
  | nil => exact ⟨h.toChained, by simp [FlowGraph.jumpsOf], .refl _⟩
  | cons x outs ih =>
    obtain ⟨d, e⟩ := x
    rw [List.forall_mem_cons] at hd
    obtain ⟨e', he'⟩ := exists_takeEdge f s edge a (d, e)
    rw [inherited, if_neg hd.1] at he'
    obtain ⟨hb, hto, hchain, hre⟩ := h.inheritEdge hf s e'
    rw [List.foldl_cons, he']
    generalize a.graph.inheritEdge f s d e' (a.graph.jumpsTo f d ++ a.graph.chain e.jumps) = g' at *
    obtain ⟨hb', hto', hre'⟩ := ih (a := { a with graph := g' }) hb (hre.flows_size ▸ hf) hd.2
    refine ⟨hb', fun x y ↦ ?_, hre.trans hre'⟩
    rw [hto' x y, hto x y]
    by_cases hx : x = f
    · subst hx
      have hof : ∀ y, g'.jumpsOf outs y = a.graph.jumpsOf outs y := fun y ↦ by
        rw [FlowGraph.jumpsOf, FlowGraph.jumpsOf]
        cases hl : outs.lookup y with
        | none => rfl
        | some e₁ => exact hchain (y, e₁) (FlowGraph.mem_of_lookup_eq_some hl)
      by_cases hy : y = d
      · subst hy
        have hnone : outs.lookup y = none := by
          rw [List.lookup_eq_none_iff]
          intro z hz
          have : z.1 ≠ y := fun he ↦
            (List.nodup_cons.mp h.nodup).1 (List.mem_map.mpr ⟨z, hz, he⟩)
          simpa using Ne.symm this
        simp [FlowGraph.jumpsOf, hnone]
      · simp only [hy, hof]
        have : (y == d) = false := by simpa using hy
        simp [FlowGraph.jumpsOf, List.lookup_cons, this]
    · simp [hx]

variable (edge : Edge)

theorem mem_keys_foldl_takeEdge (hf : f.index < a.graph.flows.size) (houts : ∀ o ∈ outs, o.1 ≠ s)
    (g d : FlowId) : d ∈ (outs.foldl (takeEdge f s edge) a).graph.keys g ↔
      d ∈ a.graph.keys g ∨ g = f ∧ d ∈ outs.map (·.1) := by
  induction outs generalizing a with
  | nil => simp
  | cons out outs ih =>
    rw [List.forall_mem_cons] at houts
    obtain ⟨e, he⟩ := exists_takeEdge f s edge a out
    rw [inherited, if_neg houts.1] at he
    have hsize : (takeEdge f s edge a out).graph.flows.size = a.graph.flows.size :=
      (foldl_takeEdge_eq f s edge [out] a).2.1
    rw [List.foldl_cons, ih (hsize.symm ▸ hf) houts.2, he, FlowGraph.keys,
      FlowGraph.successors_inheritEdge _ _ _ _ _ _ _ hf]
    by_cases hg : g = f
    · subst hg
      by_cases hd : d = out.1
      · simp [hd]
      · simp [hd, FlowGraph.keys]
    · simp [hg, FlowGraph.keys]

theorem mem_predecessors_foldl_takeEdge (hfs : f ≠ s)
    (houts : ∀ o ∈ outs, o.1 ≠ s ∧ o.1.index < a.graph.flows.size) (g p : FlowId) :
    p ∈ ((outs.foldl (takeEdge f s edge) a).flow g).predecessors ↔
      p ∈ (a.flow g).predecessors ∧ ¬ (g ∈ outs.map (·.1) ∧ p = s) ∨
        g ∈ outs.map (·.1) ∧ p = f := by
  induction outs generalizing a with
  | nil => simp
  | cons out outs ih =>
    rw [List.forall_mem_cons] at houts
    obtain ⟨⟨hout, hlt⟩, houts⟩ := houts
    obtain ⟨e, he⟩ := exists_takeEdge f s edge a out
    rw [inherited, if_neg hout] at he
    have hsize : (takeEdge f s edge a out).graph.flows.size = a.graph.flows.size :=
      (foldl_takeEdge_eq f s edge [out] a).2.1
    rw [← hsize] at houts
    rw [List.foldl_cons, ih houts, he, flow,
      FlowGraph.mem_predecessors_inheritEdge _ _ _ _ _ _ _ _ hlt]
    by_cases hp : p = f
    · subst hp
      by_cases hg : g = out.1 <;> simp [hg, hfs, flow]
    · by_cases hps : p = s
      · by_cases hg : g = out.1 <;> simp [hg, hps, flow, hfs.symm]
      · simp [hp, hps, flow]

theorem destination_foldl_takeEdge (outs : List (FlowId × Edge)) (a : Analysis) (j : JumpId) :
    ((outs.foldl (takeEdge f s edge) a).jump j).destination = (a.jump j).destination ∨
      ∃ o ∈ outs, ((outs.foldl (takeEdge f s edge) a).jump j).destination = inherited f s o.1 := by
  induction outs generalizing a with
  | nil => exact .inl rfl
  | cons out outs ih =>
    rw [List.foldl_cons]
    obtain hold | ⟨o, ho, hnew⟩ := ih (takeEdge f s edge a out)
    · obtain ⟨e, he⟩ := exists_takeEdge f s edge a out
      rw [hold, jump, he]
      dsimp only
      obtain hold | hnew := FlowGraph.destination_inheritEdge a.graph f s (inherited f s out.1) e _ j
      · exact .inl hold
      · exact .inr ⟨out, List.mem_cons_self, hnew⟩
    · exact .inr ⟨o, List.mem_cons_of_mem _ ho, hnew⟩

end Take

section Absorb

theorem mergeBySlot_eq (a : Analysis) (reads writes : VariableSet) :
    a.mergeBySlot reads writes = { a with locals := (a.mergeBySlot reads writes).locals } := by
  have inner : ∀ (l : List LocalId) (read : LocalId) (a : Analysis),
      l.foldl (fun a write ↦ a.mergeLocals read write) a =
        { a with locals := (l.foldl (fun a write ↦ a.mergeLocals read write) a).locals } := by
    intro l read
    induction l with
    | nil => exact fun _ ↦ rfl
    | cons x l ih => exact fun a ↦ ih (a.mergeLocals read x)
  rw [mergeBySlot]
  generalize reads.members = l
  induction l generalizing a with
  | nil => rfl
  | cons x l ih =>
    rw [List.foldl_cons, ih, inner]

/-- How `f` absorbs `s`: the edges of `s` are given up, which leads to `a₁`, then `f` takes them over,
which leads to `a₂`, and last the range. -/
structure Absorption (f s : FlowId) (edge : Edge) (a a₁ a₂ a' : Analysis) : Prop where
  given : a₁ = { a with
    locals := (a.mergeBySlot (a.flow s).reads edge.gen).locals, graph := a₁.graph }
  jumps : a₁.graph.jumps = a.graph.jumps
  size : a₁.graph.flows.size = a.graph.flows.size
  successors : ∀ g, (a₁.flow g).successors =
    if g = s ∧ s.index < a.graph.flows.size then [] else (a.flow g).successors
  predecessors : ∀ g, (a₁.flow g).predecessors = (a.flow g).predecessors
  hull : ∀ g, (a₁.flow g).hull = (a.flow g).hull
  reads : ∀ g, (a₁.flow g).reads = if g = f ∧ f.index < a.graph.flows.size then
    (a.flow g).reads.union ((a.flow s).reads.withoutKilled edge.kill a₁.locals)
    else (a.flow g).reads
  taken : (a.flow s).successors.foldl (takeEdge f s edge) a₁ = a₂
  rest : a' = { a₂ with graph := a'.graph }
  jumps_last : a'.graph.jumps = a₂.graph.jumps
  size_last : a'.graph.flows.size = a.graph.flows.size
  flow : ∀ g, a'.flow g = (if g = s ∧ s.index < a.graph.flows.size then Flow.retire else id)
    ((if g = f ∧ f.index < a.graph.flows.size then Flow.stretch (a.flow s) else id) (a₂.flow g))

theorem exists_absorption (a : Analysis) (f s : FlowId) (edge : Edge) :
    ∃ a₁ a₂, Absorption f s edge a a₁ a₂ (a.absorb f s edge) := by
  have hmerge := mergeBySlot_eq a (a.flow s).reads edge.gen
  rw [absorb]
  generalize hlocals : a.mergeBySlot (a.flow s).reads edge.gen = b at hmerge ⊢
  have hgraph : b.graph = a.graph := by rw [hmerge]
  generalize ha₁ : (b.modifyFlow f _).modifyFlow s ({ · with successors := [] }) = a₁
  have hsize : a₁.graph.flows.size = a.graph.flows.size := by simp [← ha₁, modifyFlow, hgraph]
  have hsize₂ := (foldl_takeEdge_eq f s edge (a.flow s).successors a₁).2.1
  refine ⟨a₁, _, ?_, ?_, hsize, fun g ↦ ?_, fun g ↦ ?_, fun g ↦ ?_, fun g ↦ ?_, rfl, rfl, rfl, ?_,
    fun g ↦ ?_⟩
  · have hb : a₁ = { b with graph := a₁.graph } := by rw [← ha₁]; rfl
    rw [hlocals]
    exact hb.trans (congrArg (fun c : Analysis ↦ { c with graph := a₁.graph }) hmerge)
  · rw [← ha₁, ← hgraph]
    rfl
  iterate 4
    rw [← ha₁, modifyFlow, modifyFlow, flow, FlowGraph.flow_modifyFlow, FlowGraph.flow_modifyFlow,
      FlowGraph.size_modifyFlow, hgraph]
    split_ifs <;> rfl
  · simp [modifyFlow, hsize₂, hsize]
  · rw [modifyFlow, modifyFlow, flow, FlowGraph.flow_modifyFlow, FlowGraph.flow_modifyFlow,
      FlowGraph.size_modifyFlow, hsize₂, hsize]
    split <;> split <;> rfl

namespace Absorption

variable {a₁ a₂ : Analysis} (h : Absorption f s edge a a₁ a₂ a')
include h

theorem hull_taken (g : FlowId) : (a₂.flow g).hull = (a.flow g).hull := by
  rw [← h.hull g, ← h.taken]
  exact (congrArg Flow.hull ((foldl_takeEdge_eq f s edge _ a₁).2.2 g) :)

end Absorption

theorem absorb_eq (a : Analysis) (f s : FlowId) (edge : Edge) : a.absorb f s edge = { a with
    locals := (a.mergeBySlot (a.flow s).reads edge.gen).locals
    graph := (a.absorb f s edge).graph } := by
  obtain ⟨a₁, a₂, h⟩ := exists_absorption a f s edge
  conv_lhs => rw [h.rest, ← h.taken, (foldl_takeEdge_eq ..).1, h.given]

theorem size_absorb (a : Analysis) (f s : FlowId) (edge : Edge) :
    (a.absorb f s edge).graph.flows.size = a.graph.flows.size := by
  obtain ⟨a₁, a₂, h⟩ := exists_absorption a f s edge
  exact h.size_last

theorem alive_of_absorb {g : FlowId} (h : ((a.absorb f s edge).flow g).alive = true) :
    (a.flow g).alive = true := by
  obtain ⟨a₁, a₂, ha⟩ := exists_absorption a f s edge
  have halive : (a₂.flow g).alive = (a.flow g).alive := (congrArg Flow.alive (ha.hull_taken g) :)
  rw [ha.flow] at h
  split at h
  · cases h
  · split at h <;> exact halive ▸ h

/-- The range and the life of every flow block after `f` has absorbed `s`. -/
theorem span_absorb (a : Analysis) (hfs : f ≠ s) (edge : Edge) (g : FlowId) :
    ((a.absorb f s edge).flow g).alive = (if g = s ∧ s.index < a.graph.flows.size then false
        else (a.flow g).alive) ∧
      ((a.absorb f s edge).flow g).addr = (if g = f ∧ f.index < a.graph.flows.size then
        min (a.flow f).addr (a.flow s).addr else (a.flow g).addr) ∧
      ((a.absorb f s edge).flow g).stop = if g = f ∧ f.index < a.graph.flows.size then
        max (a.flow f).stop (a.flow s).stop else (a.flow g).stop := by
  obtain ⟨a₁, a₂, ha⟩ := exists_absorption a f s edge
  have halive : (a₂.flow g).alive = (a.flow g).alive := (congrArg Flow.alive (ha.hull_taken g) :)
  have haddr : (a₂.flow g).addr = (a.flow g).addr := (congrArg Flow.addr (ha.hull_taken g) :)
  have hstop : (a₂.flow g).stop = (a.flow g).stop := (congrArg Flow.stop (ha.hull_taken g) :)
  rw [ha.flow]
  split_ifs with hs hf hf
  · exact absurd (hf.1.symm.trans hs.1) hfs
  · exact ⟨rfl, haddr, hstop⟩
  · rw [← hf.1]
    exact ⟨halive, congrArg (min · _) haddr, (Flow.stop_stretch ..).trans (congrArg (max · _) hstop)⟩
  · exact ⟨halive, haddr, hstop⟩

/-- What becomes of edges once `f` has absorbed `s`, which does not jump to itself. -/
structure Adopted (f s : FlowId) (a a' : Analysis) : Prop where
  flows_size : a'.graph.flows.size = a.graph.flows.size
  keys : ∀ g d, d ∈ a'.graph.keys g ↔
    g ≠ s ∧ (d ∈ a.graph.keys g ∨ g = f ∧ d ∈ a.graph.keys s)
  predecessors : ∀ g p, p ∈ (a'.flow g).predecessors ↔ g ≠ s ∧
    (p ∈ (a.flow g).predecessors ∧ ¬ (g ∈ a.graph.keys s ∧ p = s) ∨ g ∈ a.graph.keys s ∧ p = f)
  destination : ∀ j, (a'.jump j).destination = (a.jump j).destination ∨
    (a'.jump j).destination ∈ a.graph.keys s

theorem adopted_absorb (edge : Edge) (hfs : f ≠ s) (hf : f.index < a.graph.flows.size)
    (hs : s.index < a.graph.flows.size) (hself : s ∉ a.graph.keys s)
    (hrange : ∀ d ∈ a.graph.keys s, d.index < a.graph.flows.size) :
    Adopted f s a (a.absorb f s edge) := by
  have houts : ∀ o ∈ (a.flow s).successors, o.1 ≠ s ∧ o.1.index < a.graph.flows.size := by
    intro o ho
    have hkey : o.1 ∈ a.graph.keys s := List.mem_map_of_mem ho
    exact ⟨fun he ↦ hself (he ▸ hkey), hrange _ hkey⟩
  obtain ⟨a₁, a₂, ha⟩ := exists_absorption a f s edge
  generalize a.absorb f s edge = a' at ha ⊢
  have hkeys := mem_keys_foldl_takeEdge edge (ha.size ▸ hf) fun o ho ↦ (houts o ho).1
  have hpreds := mem_predecessors_foldl_takeEdge edge hfs (ha.size ▸ houts)
  have hdest := destination_foldl_takeEdge (f := f) (s := s) edge (a.flow s).successors a₁
  rw [ha.taken] at hkeys hpreds hdest
  have hflow := ha.flow
  simp only [hs, hf, and_true] at hflow
  constructor
  case flows_size => exact ha.size_last
  case keys =>
    intro g d
    have hkeys' : a'.graph.keys g = a₂.graph.keys g := by
      rw [FlowGraph.keys, ← flow, hflow]
      split <;> split <;> rfl
    rw [hkeys', hkeys, FlowGraph.keys, ← flow, ha.successors]
    by_cases hg : g = s
    · simp [hg, hs, hfs.symm]
    · simp [hg, FlowGraph.keys, flow]
  case predecessors =>
    intro g p
    rw [hflow]
    by_cases hg : g = s
    · simp [hg, Flow.retire]
    · have hkeep : ((if g = f then Flow.stretch (a.flow s) else id) (a₂.flow g)).predecessors =
          (a₂.flow g).predecessors := by
        split <;> rfl
      rw [if_neg hg, id, hkeep, hpreds, ha.predecessors]
      simp [hg, FlowGraph.keys, flow]
  case destination =>
    intro j
    rw [jump, jump, FlowGraph.jump, FlowGraph.jump, ha.jumps_last, ← ha.jumps]
    refine (hdest j).imp id ?_
    rintro ⟨o, ho, hnew⟩
    rw [inherited, if_neg (houts o ho).1] at hnew
    exact List.mem_map.mpr ⟨o, ho, hnew.symm⟩

/-- The flow block `f` has taken over the edges and the range of `s`. -/
structure Absorbed (f s : FlowId) (a a' : Analysis) : Prop where
  linked : a'.graph.Linked
  jumpsTo : ∀ x y, a'.graph.jumpsTo x y = if x = s then [] else
    a.graph.jumpsTo x y ++ if x = f then a.graph.jumpsTo s y else []
  flows_size : a'.graph.flows.size = a.graph.flows.size
  jumps_size : a'.graph.jumps.size = a.graph.jumps.size
  source : ∀ j, (a'.jump j).source = (a.jump j).source
  destination : ∀ j, (a'.jump j).destination = (a.jump j).destination
  blocks : a'.blocks = a.blocks
  exprs : a'.exprs = a.exprs
  rest : a'.frame = a.frame
  root : ∀ g, a'.root g = a.root g
  growth : ∀ g, (a'.flow g).growth = (a.flow g).growth
  alive : ∀ g, (a'.flow g).alive = if g = s then false else (a.flow g).alive
  range : ∀ g, g ≠ f → (a'.flow g).addr = (a.flow g).addr ∧ (a'.flow g).length = (a.flow g).length
  addr : (a'.flow f).addr = min (a.flow f).addr (a.flow s).addr
  stop : (a'.flow f).stop = max (a.flow f).stop (a.flow s).stop
  anchored : ∀ p g, g ≠ s → p.isSentinel = true →
    (p ∈ (a'.flow g).predecessors ↔ p ∈ (a.flow g).predecessors)

theorem absorb_absorbed (h : a.graph.Linked) (hfs : f ≠ s) (hf : f.index < a.graph.flows.size)
    (hf' : f.isSentinel = false) (hs : s.index < a.graph.flows.size) (hs' : s.isSentinel = false)
    (hlonely : ∀ x, s ∉ a.graph.keys x) (hd : ∀ d ∈ a.graph.keys s, d.index < a.graph.flows.size) :
    Absorbed f s a (a.absorb f s edge) := by
  obtain ⟨a₁, a₂, ha⟩ := exists_absorption a f s edge
  have heq := absorb_eq a f s edge
  have hspan := span_absorb a hfs edge
  have had := adopted_absorb edge hfs hf hs (hlonely s) hd
  generalize a.absorb f s edge = a' at ha heq hspan had ⊢
  obtain ⟨hb, hto₁⟩ := FlowGraph.Bequeaths.of_chained h.toChained ha.jumps fun x ↦
    (ha.successors x).trans (by simp only [hs, and_true]; rfl)
  have htaken := foldl_takeEdge edge hb (ha.size ▸ hf) fun x hx he ↦
    hlonely s (List.mem_map.mpr ⟨x, hx, he⟩)
  rw [← flow, ha.taken] at htaken
  obtain ⟨hb₂, hto₂, hre⟩ := htaken
  have hof : ∀ y, a₁.graph.jumpsOf (a.flow s).successors y = a.graph.jumpsTo s y := fun y ↦ by
    rw [FlowGraph.jumpsOf]
    simp only [FlowGraph.chain_eq_of_jumps ha.jumps]
    rfl
  have hflow : ∀ x, a'.flow x = (if x = s then Flow.retire else id)
      ((if x = f then Flow.stretch (a.flow s) else id) (a₂.flow x)) := fun x ↦ by
    simpa [hs, hf] using ha.flow x
  have hhull := ha.hull_taken
  obtain ⟨hchained, hto⟩ := hb₂.of_jumps ha.jumps_last
    fun x ↦ by rw [← flow, hflow]; split <;> split <;> rfl
  have hjump : ∀ j, a'.jump j = a₂.jump j := fun j ↦ by
    rw [jump, FlowGraph.jump, ha.jumps_last]
    rfl
  have hjump₁ : ∀ j, a₁.jump j = a.jump j := fun j ↦ by rw [jump, FlowGraph.jump, ha.jumps]; rfl
  constructor
  case linked =>
    refine ⟨hchained, fun p d hp ↦ ?_, fun x hx ↦ ?_⟩
    · rw [← flow, had.predecessors, had.keys, flow, h.pred_iff p d hp]
      by_cases hds : d = s
      · simp [hds, hlonely]
      · by_cases hps : p = s
        · simp [hps, hfs.symm]
        · simp [hds, hps, and_comm]
    · refine List.eq_nil_iff_forall_not_mem.mpr fun e he ↦ ?_
      obtain ⟨-, hk | ⟨rfl, -⟩⟩ := (had.keys x e.1).mp (List.mem_map_of_mem he)
      · simp [FlowGraph.keys, h.sentinel x hx] at hk
      · simp [hf'] at hx
  case jumpsTo =>
    intro x y
    rw [hto, hto₂, hto₁, hof]
    by_cases hx : x = s
    · simp [hx, hfs.symm]
    · simp [hx]
  case flows_size => exact ha.size_last
  case jumps_size => rw [ha.jumps_last, hre.jumps_size, ha.jumps]
  case source =>
    intro j
    rw [hjump, ← hjump₁]
    exact hre.source j
  case destination =>
    intro j
    rw [hjump, ← hjump₁]
    exact hre.destination j
  case blocks | exprs | rest =>
    rw [heq]
    try rfl
  case root =>
    intro g
    rw [root, hflow]
    split <;> split <;> exact (congrArg Flow.root (hhull g) :)
  case growth =>
    intro g
    rw [hflow]
    split <;> split <;> exact (congrArg Flow.growth (hhull g) :)
  case alive => simpa only [hs, and_true] using fun g ↦ (hspan g).1
  case range =>
    intro g hg
    rw [hflow]
    split <;> exact ⟨(congrArg Flow.addr (hhull g) :), (congrArg Flow.length (hhull g) :)⟩
  case addr => simpa [hf] using (hspan f).2.1
  case stop => simpa [hf] using (hspan f).2.2
  case anchored =>
    intro p g hg hp
    have hpf : p ≠ f := fun he ↦ by simp [he, hf'] at hp
    have hps : p ≠ s := fun he ↦ by simp [he, hs'] at hp
    simp [had.predecessors, hg, hpf, hps]

end Absorb

end Analysis

end Decompile
