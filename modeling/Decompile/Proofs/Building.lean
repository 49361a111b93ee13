import Decompile.Proofs.Lowering

/-!
One flow block per instruction. The trees of the instructions stand side by side before any edge is
made, and the edges then put a jump on every block that control would otherwise run out of.
-/

namespace Decompile

namespace FlowGraph

variable {g g' : FlowGraph} {f d : FlowId} {e : Edge} {j : JumpId} {js : List JumpId}

/-- The links of an edge, whatever is known of its paths. -/
def link (e : FlowId × Edge) : FlowId × Option JumpId := (e.1, e.2.jumps)

/-- The graph may change in what is known of its paths, and in jumps that are on no edge. -/
theorem Linked.congr (h : g.Linked) (hsize : g.jumps.size ≤ g'.jumps.size)
    (hsucc : ∀ f, (g'.flow f).successors.map link = (g.flow f).successors.map link)
    (hpred : ∀ f p, p.isSentinel = false →
      (p ∈ (g'.flow f).predecessors ↔ p ∈ (g.flow f).predecessors))
    (hj : ∀ f d, ∀ j ∈ g.jumpsTo f d, (g'.jump j).next = (g.jump j).next ∧
      (g'.jump j).destination = (g.jump j).destination) :
    g'.Linked ∧ ∀ f d, g'.jumpsTo f d = g.jumpsTo f d := by
  have hkeys : ∀ f, g'.keys f = g.keys f := fun f ↦ by
    have := congrArg (List.map Prod.fst) (hsucc f)
    rwa [List.map_map, List.map_map] at this
  have hedge : ∀ f d e', (d, e') ∈ (g'.flow f).successors →
      ∃ e, (d, e) ∈ (g.flow f).successors ∧ e.jumps = e'.jumps := by
    intro f d e' he
    have hmem : link (d, e') ∈ (g.flow f).successors.map link :=
      hsucc f ▸ List.mem_map_of_mem he
    obtain ⟨⟨d', e⟩, hm, heq⟩ := List.mem_map.mp hmem
    obtain ⟨rfl, hjumps⟩ := Prod.mk.inj heq
    exact ⟨e, hm, hjumps⟩
  have hfiled : ∀ f d e', (d, e') ∈ (g'.flow f).successors →
      g'.Filed d e' (g.jumpsTo f d) := by
    intro f d e' he
    obtain ⟨e, hm, hjumps⟩ := hedge f d e' he
    have hto := h.jumpsTo_of_mem hm
    have hold := (h.filed f d e hm).congr hsize fun j hj' ↦ hj f d j (hto ▸ hj')
    rw [← hto] at hold
    exact ⟨hold.ne_nil, hold.nodup, hjumps ▸ hold.isChain, hold.destination⟩
  have hchained : ∀ f d e', (d, e') ∈ (g'.flow f).successors →
      g'.chain e'.jumps = g.jumpsTo f d := fun f d e' he ↦ (hfiled f d e' he).chain
  have hnodup : ∀ f, ((g'.flow f).successors.map (·.1)).Nodup := fun f ↦ by
    have := h.keys f
    rw [← FlowGraph.keys, ← hkeys] at this
    exact this
  have hto : ∀ f d, g'.jumpsTo f d = g.jumpsTo f d := by
    intro f d
    by_cases hd : d ∈ g'.keys f
    · obtain ⟨e', he⟩ := mem_keys.mp hd
      rw [← hchained f d e' he, jumpsTo, Flow.edge?, lookup_eq_some_of_mem (hnodup f) he]
      rfl
    · rw [Chained.jumpsTo_of_not_mem hd, Chained.jumpsTo_of_not_mem (hkeys f ▸ hd)]
  refine ⟨⟨⟨hnodup, fun f d e' he ↦ hchained f d e' he ▸ hfiled f d e' he, ?_⟩, ?_, ?_⟩, hto⟩
  · intro f f' d d' i hi hi'
    rw [hto] at hi hi'
    exact h.own f f' d d' i hi hi'
  · intro p x hp
    rw [hpred x p hp, hkeys, h.pred_iff p x hp]
  · intro x hx
    have := hsucc x
    rw [h.sentinel x hx] at this
    simpa using this

theorem flowAt_congr (hsize : g'.flows.size = g.flows.size)
    (hbare : ∀ f, (g'.flow f).bare = (g.flow f).bare) (addr : Nat) :
    g'.flowAt addr = g.flowAt addr := by
  have halive : ∀ f, (g'.flow f).alive = (g.flow f).alive := fun f ↦
    (congrArg Flow.alive (hbare f) :)
  have haddr : ∀ f, (g'.flow f).addr = (g.flow f).addr := fun f ↦
    (congrArg Flow.addr (hbare f) :)
  have hstop : ∀ f, (g'.flow f).stop = (g.flow f).stop := fun f ↦
    (congrArg Flow.stop (hbare f) :)
  simp only [flowAt, live, ids, hsize, halive, haddr, hstop]

theorem Linked.allocJump (h : g.Linked) (d : FlowId) (b : BlockId) :
    (g.allocJump d b).1.Linked ∧ ∀ f d', (g.allocJump d b).1.jumpsTo f d' = g.jumpsTo f d' := by
  refine h.congr (by simp [FlowGraph.allocJump]) (fun _ ↦ rfl) (fun _ _ _ ↦ .rfl) fun f d' j hj ↦ ?_
  have hne : j.index ≠ g.jumps.size := (h.lt_size hj).ne
  simp [FlowGraph.allocJump, jump, Table.get_push, hne]

/-- Gives the jumps, which are on no edge, the destination `d` and files them there. -/
def refile (f d : FlowId) (js : List JumpId) (g : FlowGraph) : FlowGraph :=
  js.foldl (fun g j ↦
    (g.modifyJump j ({ · with destination := d, next := none })).linkJump f j) g

theorem refile_one (f d : FlowId) (j : JumpId) (g : FlowGraph) : refile f d [j] g =
    (g.modifyJump j ({ · with destination := d, next := none })).linkJump f j := by
  rw [refile, List.foldl_cons, List.foldl_nil]

theorem refile_cons (f d : FlowId) (j : JumpId) (js : List JumpId) (g : FlowGraph) :
    refile f d (j :: js) g = refile f d js (refile f d [j] g) := by
  rw [refile_one, refile, List.foldl_cons, refile]

theorem flow_addFlow (g : FlowGraph) (addr length : Nat) (root : BlockId) (k : Flow → Flow)
    (f : FlowId) : ((g.addFlow addr length root).1.modifyFlow ⟨g.flows.size⟩ k).flow f =
      if f = ⟨g.flows.size⟩ then k { addr, length, root, growth := root } else g.flow f := by
  rw [flow_modifyFlow]
  by_cases hf : f = ⟨g.flows.size⟩
  · simp [hf, addFlow, flow, Table.get_push]
  · have hne : f.index ≠ g.flows.size := fun he ↦ hf (congrArg FlowId.mk he)
    simp [hf, addFlow, flow, Table.get_push, hne]

/-- Jumps are on one edge of `f` now, and all that has changed is where they lead. -/
structure Refiled (f d : FlowId) (js : List JumpId) (g g' : FlowGraph) : Prop extends
    Rerouted g g' where
  linked : g'.Linked
  jumpsTo : ∀ x y, g'.jumpsTo x y = if x = f ∧ y = d then g.jumpsTo x y ++ js else g.jumpsTo x y
  destination : ∀ j, (g'.jump j).destination = if j ∈ js then d else (g.jump j).destination
  anchored : g.Anchored g'

theorem Anchored.linkJump (hf : f.isSentinel = false)
    (hd : (g.jump j).destination.index < g.flows.size) : g.Anchored (g.linkJump f j) := by
  intro p x hp
  rw [FlowGraph.linkJump, Linked.mem_predecessors_addPredecessor (by simpa [setChain] using hd),
    flow_setChain, or_iff_left]
  rintro ⟨rfl, -⟩
  rw [hp] at hf
  cases hf

/-- One jump more. -/
theorem Linked.refileOne (h : g.Linked) (hf : f.index < g.flows.size) (hf' : f.isSentinel = false)
    (hd : d.index < g.flows.size) (hj : j.index < g.jumps.size) (hfree : ∀ x y, j ∉ g.jumpsTo x y) :
    Refiled f d [j] g (g.refile f d [j]) := by
  let g₁ := g.modifyJump j ({ · with destination := d, next := none })
  have hother : ∀ i, i ≠ j → g₁.jump i = g.jump i := fun i hi ↦ jump_modifyJump_of_ne _ _ _ hi
  have hself : g₁.jump j = { g.jump j with destination := d, next := none } := by
    rw [jump_modifyJump, if_pos ⟨rfl, hj⟩]
  obtain ⟨hl₁, hto₁⟩ : g₁.Linked ∧ ∀ x y, g₁.jumpsTo x y = g.jumpsTo x y := by
    refine h.congr (by simp [g₁]) (fun x ↦ by simp [g₁]) (fun x p _ ↦ by simp [g₁]) fun x y i hi ↦ ?_
    rw [hother i fun he ↦ hfree x y (he ▸ hi)]
    exact ⟨rfl, rfl⟩
  have hdest : (g₁.jump j).destination = d := by rw [hself]
  obtain ⟨hl, hto⟩ := hl₁.linkJump (by simpa [g₁] using hf) hf' (by simpa [g₁] using hj)
    (fun x y ↦ hto₁ x y ▸ hfree x y) (by simpa [hdest, g₁] using hd)
  have hre := Relinked.linkJump g₁ f j
  have hanchored : g₁.Anchored (g₁.linkJump f j) :=
    Anchored.linkJump hf' (by simpa [hdest, g₁] using hd)
  rw [refile_one]
  constructor
  case toRerouted => exact (Rerouted.modifyJump g j fun _ ↦ rfl : g.Rerouted g₁).trans hre.toRerouted
  case linked => exact hl
  case jumpsTo =>
    intro x y
    refine (hto x y).trans ?_
    rw [hdest, hto₁]
  case destination =>
    intro i
    refine (hre.destination i).trans ?_
    by_cases hi : i = j
    · rw [hi, hdest, if_pos (by simp)]
    · rw [hother i hi, if_neg (by simpa using hi)]
  case anchored => exact Anchored.trans (.of_eq fun x ↦ by simp [g₁]) hanchored

theorem Linked.refile (h : g.Linked) (hf : f.index < g.flows.size) (hf' : f.isSentinel = false)
    (hd : d.index < g.flows.size) (hn : js.Nodup) (hlt : ∀ j ∈ js, j.index < g.jumps.size)
    (hfree : ∀ j ∈ js, ∀ x y, j ∉ g.jumpsTo x y) : Refiled f d js g (g.refile f d js) := by
  induction js generalizing g with
  | nil =>
    exact ⟨(Relinked.refl g).toRerouted, h, fun x y ↦ by simp [FlowGraph.refile],
      fun _ ↦ by simp [FlowGraph.refile], .of_eq fun _ ↦ rfl⟩
  | cons j js ih =>
    rw [List.nodup_cons] at hn
    rw [List.forall_mem_cons] at hlt hfree
    have h₁ := h.refileOne hf hf' hd hlt.1 hfree.1
    rw [refile_cons]
    generalize g.refile f d [j] = g₁ at h₁ ⊢
    have h₂ := ih h₁.linked (h₁.flows_size ▸ hf) (h₁.flows_size ▸ hd) hn.2
      (fun i hi ↦ h₁.jumps_size ▸ hlt.2 i hi) fun i hi x y ↦ by
        have hij : i ≠ j := by
          rintro rfl
          exact hn.1 hi
        rw [h₁.jumpsTo]
        split
        · simpa [hij] using hfree.2 i hi x y
        · exact hfree.2 i hi x y
    constructor
    case toRerouted => exact h₁.toRerouted.trans h₂.toRerouted
    case linked => exact h₂.linked
    case jumpsTo =>
      intro x y
      refine (h₂.jumpsTo x y).trans ?_
      rw [h₁.jumpsTo]
      split
      · rw [List.append_assoc, List.singleton_append]
      · rfl
    case destination =>
      intro i
      refine (h₂.destination i).trans ?_
      rw [h₁.destination]
      by_cases hi : i ∈ js <;> simp [hi]
    case anchored => exact h₁.anchored.trans h₂.anchored

/-- Every flow block keeps its jumps, wherever they lead now. -/
structure Relisted (g g' : FlowGraph) : Prop extends Rerouted g g' where
  linked : g'.Linked
  listed : ∀ x j, j ∈ g'.listed x ↔ j ∈ g.listed x

/-- The jumps from `f` to `n` lead to `d` instead. -/
structure Redirected (f n d : FlowId) (g g' : FlowGraph) : Prop extends Relisted g g' where
  destination : ∀ j, (g'.jump j).destination =
    if j ∈ g.jumpsTo f n then d else (g.jump j).destination

theorem Linked.redirect {n : FlowId} (h : g.Linked) (hf : f.index < g.flows.size)
    (hf' : f.isSentinel = false) (hn : n.index < g.flows.size) (hd : d.index < g.flows.size) :
    Redirected f n d g ((g.removeEdge f n).refile f d (g.jumpsTo f n)) := by
  obtain ⟨hl₁, hto₁⟩ := h.removeEdge hf hf' hn
  have hre := Relinked.removeEdge g f n
  generalize g.removeEdge f n = g₁ at hl₁ hto₁ hre ⊢
  have hfree : ∀ j ∈ g.jumpsTo f n, ∀ x y, j ∉ g₁.jumpsTo x y := fun j hj x y hx ↦ by
    rw [hto₁] at hx
    split at hx
    · cases hx
    next hne => exact hne ⟨h.own _ _ _ _ j hx hj, (h.destination hx).symm.trans (h.destination hj)⟩
  have h₂ := hl₁.refile (hre.flows_size ▸ hf) hf' (hre.flows_size ▸ hd)
    h.nodup_jumpsTo (fun j hj ↦ hre.jumps_size ▸ h.lt_size hj) hfree
  generalize g₁.refile f d (g.jumpsTo f n) = g₂ at h₂ ⊢
  have hdest : ∀ j, (g₂.jump j).destination =
      if j ∈ g.jumpsTo f n then d else (g.jump j).destination := fun j ↦ by
    rw [h₂.destination, hre.destination]
  refine ⟨⟨hre.toRerouted.trans h₂.toRerouted, h₂.linked, fun x j ↦ ?_⟩, hdest⟩
  rw [h₂.linked.mem_listed, h.mem_listed, h₂.jumpsTo, hdest]
  by_cases hj : j ∈ g.jumpsTo f n
  · rw [if_pos hj, h.destination hj]
    by_cases hx : x = f
    · simp [hx, hj]
    · rw [if_neg fun hc ↦ hx hc.1]
      exact iff_of_false (hfree j hj x d) fun hc ↦ hx (h.own _ _ _ _ j hc hj)
  · have hiff : j ∈ g₁.jumpsTo x (g.jump j).destination ↔
        j ∈ g.jumpsTo x (g.jump j).destination := by
      rw [hto₁]
      split
      next hc => exact iff_of_false List.not_mem_nil fun hm ↦ hj (hc.1 ▸ hc.2 ▸ hm)
      next => rfl
    rw [if_neg hj, ← hiff]
    split
    · rw [List.mem_append, or_iff_left hj]
    · rfl

end FlowGraph

namespace Analysis

variable {a a' : Analysis} {f g : FlowId} {T : Tree} {ps qs : List Pending} {i : Instruction}
  {b : BlockId}

/-- The flow block of an instruction, before it has edges. -/
def instructionFlow (i : Instruction) (l : Lowered) (root : BlockId) : Flow where
  addr := i.address
  length := i.length
  root := root
  growth := root
  reads := .ofList l.reads.toList
  writes := .ofList l.writes.toList

/-- A new flow block for the instruction, with the tree `T`, waits for the edges `qs`. -/
structure Adds (a a' : Analysis) (i : Instruction) (f : FlowId) (T : Tree) (qs : List Pending) :
    Prop where
  new : f = ⟨a.graph.flows.size⟩
  size : a'.graph.flows.size = a.graph.flows.size + 1
  other : ∀ g, g ≠ f → a'.flow g = a.flow g
  flow : ∃ l, a'.flow f = instructionFlow i l T.id
  jumps : a'.graph.jumps = a.graph.jumps
  off : Blocks.Off (fun _ ↦ False) a.blocks a'.blocks
  linked : a.blocks.Linked → a'.blocks.Linked
  jumpless : (∀ b, a.blocks.jump b = none) → ∀ b, a'.blocks.jump b = none
  holds : a'.blocks.Holds none T
  nodup : T.ids.Nodup
  fresh : ∀ b ∈ T.ids, a.blocks.size ≤ b.index
  sources : (qs.map (·.source)).Nodup
  inside : ∀ q ∈ qs, q.flow = f ∧ q.source ∈ T.ids
  isSealed : ∀ e : BlockId → Option JumpId,
    (∀ b ∈ T.ids, (e b).isSome ↔ b ∈ qs.map (·.source)) → (T.mark e).Sealed

/-- The edges that a lowered instruction waits for. -/
def pendingOf (f : FlowId) (root : BlockId) (l : Lowered) : List Pending :=
  l.continuation.toList.map (fun c ↦ ⟨f, root, c⟩) ++
    l.branches.map fun x ↦ ⟨f, x.1, .address x.2⟩

theorem source_pendingOf (f : FlowId) (root : BlockId) (l : Lowered) :
    (pendingOf f root l).map (·.source) =
      l.continuation.toList.map (fun _ ↦ root) ++ l.branches.map (·.1) := by
  simp [pendingOf, Function.comp_def]

theorem addInstruction_eq_ok (h : a.addInstruction i = .ok (a', f, qs)) :
    ∃ a₁ l, a.lower i.opcode = .ok (a₁, l) ∧ f = ⟨a₁.graph.flows.size⟩ ∧
      a'.blocks = (a₁.blocks.alloc l.statement).1 ∧ a'.exprs = a₁.exprs ∧
      a'.graph.jumps = a₁.graph.jumps ∧ a'.graph.flows.size = a₁.graph.flows.size + 1 ∧
      (∀ g, a'.flow g = if g = f then instructionFlow i l ⟨a₁.blocks.size⟩ else a₁.flow g) ∧
      qs = pendingOf f ⟨a₁.blocks.size⟩ l := by
  rw [addInstruction] at h
  simp only [bind, Except.bind] at h
  split at h
  · cases h
  next r hr =>
    obtain ⟨a₁, l⟩ := r
    cases h
    refine ⟨a₁, l, hr, rfl, rfl, rfl, rfl, by simp [modifyFlow, addFlow, alloc, FlowGraph.addFlow], ?_,
      rfl⟩
    intro g
    exact FlowGraph.flow_addFlow ..

/-- Adding an instruction makes a flow block with a tree of its own. -/
theorem adds_of_addInstruction (h : a.addInstruction i = .ok (a', f, qs)) :
    ∃ T, Adds a a' i f T qs := by
  obtain ⟨a₁, l, hl, hf, hb, -, hj, hsize, hflow, rfl⟩ := addInstruction_eq_ok h
  obtain ⟨kids, hk⟩ := lowers_of_lower hl
  have hholds : a'.blocks.Holds none (.node ⟨a₁.blocks.size⟩ none l.statement.kind kids) :=
    hb ▸ Blocks.holds_alloc hk.children (fun c hc ↦ ⟨none, hk.holds c hc⟩) hk.nodup
  have hlt : ∀ b ∈ kids.flatMap Tree.ids, b.index < a₁.blocks.size := fun b hb' ↦ by
    obtain ⟨c, hc, hb'⟩ := List.mem_flatMap.mp hb'
    exact (hk.holds c hc).lt_of_mem_ids hb'
  have hnew : (⟨a₁.blocks.size⟩ : BlockId) ∉ kids.flatMap Tree.ids := fun hb' ↦
    absurd (hlt _ hb') (lt_irrefl _)
  have hbranches : ∀ b ∈ l.branches.map (·.1), b ∈ kids.flatMap Tree.ids := fun b hb' ↦ by
    obtain ⟨p, hp, rfl⟩ := List.mem_map.mp hb'
    exact hk.inside p hp
  refine ⟨.node ⟨a₁.blocks.size⟩ none l.statement.kind kids, ?_⟩
  constructor
  case new => rw [hf, hk.graph]
  case size => rw [hsize, hk.graph]
  case other =>
    intro g hg
    rw [hflow, if_neg hg, flow, hk.graph, flow]
  case flow => exact ⟨l, by rw [hflow, if_pos rfl, Tree.id_node]⟩
  case jumps => rw [hj, hk.graph]
  case off =>
    rw [hb]
    refine hk.off.alloc fun c hc ↦ .inr ?_
    rw [hk.children] at hc
    obtain ⟨x, hx, rfl⟩ := List.mem_map.mp hc
    exact hk.fresh _ (List.mem_flatMap.mpr ⟨x, hx, x.id_mem_ids⟩)
  case linked => exact fun hl ↦ hb ▸ (hk.linked hl).alloc _
  case jumpless => exact fun hj ↦ hb ▸ Blocks.jump_alloc (hk.jumpless hj) _
  case holds => exact hholds
  case nodup =>
    rw [Tree.ids]
    exact List.nodup_cons.mpr ⟨hnew, hk.nodup⟩
  case fresh =>
    rw [Tree.ids, List.forall_mem_cons]
    exact ⟨hk.off.size_le, hk.fresh⟩
  case sources =>
    rw [source_pendingOf]
    cases l.continuation with
    | none => simpa using hk.sources
    | some c =>
      refine List.nodup_cons.mpr ⟨fun hb' ↦ hnew (hbranches _ ?_), ?_⟩
      · simpa using hb'
      · simpa using hk.sources
  case inside =>
    intro q hq
    rw [pendingOf, List.mem_append, List.mem_map, List.mem_map] at hq
    rw [Tree.ids]
    rcases hq with ⟨c, -, rfl⟩ | ⟨x, hx, rfl⟩
    · exact ⟨rfl, by simp⟩
    · exact ⟨rfl, List.mem_cons_of_mem _ (hk.inside x hx)⟩
  case isSealed =>
    intro e he
    rw [Tree.ids, List.forall_mem_cons, source_pendingOf] at he
    refine hk.isSealed e _ (he.1.trans ?_) fun b hb' ↦ (he.2 b hb').trans ?_
    · have := mt (hbranches _) hnew
      cases l.continuation with
      | none => simpa using this
      | some c => simp
    · rw [List.mem_append, or_iff_right]
      intro hb''
      obtain ⟨-, -, rfl⟩ := List.mem_map.mp hb''
      exact hnew hb'

/-- All flow blocks made so far have their trees side by side, wait for the edges `ps`, and have none
yet. -/
structure Laid (a : Analysis) (ps : List Pending) : Prop where
  planted : a.Planted a.Live
  proper : ∀ f, a.Live f → f.isSentinel = false
  sentinels : 3 ≤ a.graph.flows.size
  jumpless : ∀ b, a.blocks.jump b = none
  edgeless : ∀ f, (a.flow f).successors = [] ∧ (a.flow f).predecessors = []
  jumps : a.graph.jumps.size = 0
  grows : ∀ f, a.Live f → (a.flow f).growth = a.root f
  sources : (ps.map (·.source)).Nodup
  inside : ∀ p ∈ ps, a.Live p.flow ∧ p.source ∈ (a.tree p.flow).ids
  isSealed : ∀ f, a.Live f → ∀ e : BlockId → Option JumpId,
    (∀ b ∈ (a.tree f).ids, (e b).isSome ↔ b ∈ ps.map (·.source)) → ((a.tree f).mark e).Sealed

theorem Laid.mem_sources (h : a.Laid ps) (hf : a.Live f) (hb : b ∈ (a.tree f).ids) :
    b ∈ ps.map (·.source) ↔ ∃ p ∈ ps, p.flow = f ∧ p.source = b := by
  rw [List.mem_map]
  refine exists_congr fun p ↦ and_congr_right fun hp ↦ ⟨fun hs ↦ ⟨?_, hs⟩, (·.2)⟩
  by_contra hne
  obtain ⟨hl, hi⟩ := h.inside p hp
  exact h.planted.apart p.flow f hl hf hne (hs ▸ hi) hb

namespace Adds

variable (h : Adds a a' i f T qs)
include h

theorem live_iff : a'.Live g ↔ a.Live g ∨ g = f := by
  obtain ⟨l, hflow⟩ := h.flow
  by_cases hg : g = f
  · subst hg
    rw [Live, hflow, h.size]
    simp [h.new, instructionFlow]
  · have hne : g.index ≠ a.graph.flows.size := fun he ↦
      hg (h.new ▸ congrArg FlowId.mk he)
    rw [Live, h.other g hg, h.size, or_iff_left hg]
    refine and_congr_left fun _ ↦ ?_
    omega

theorem not_live : ¬ a.Live f := fun hl ↦ by
  have := hl.1
  rw [h.new] at this
  exact lt_irrefl _ this

theorem root_new : a'.root f = T.id := by
  obtain ⟨l, hflow⟩ := h.flow
  rw [root, hflow, instructionFlow]

theorem tree_new : a'.tree f = T := by
  rw [tree, h.root_new]
  exact h.holds.tree h.nodup

theorem holds_old (hp : a.Planted a.Live) (hg : a.Live g) : a'.blocks.Holds none (a.tree g) :=
  (hp.holds g hg).of_same (hp.nodup g hg) h.off.size_le fun b hb ↦
    h.off.same b ((hp.holds g hg).lt_of_mem_ids hb) not_false

theorem tree_old (hp : a.Planted a.Live) (hg : a.Live g) : a'.tree g = a.tree g := by
  have hne : g ≠ f := by
    rintro rfl
    exact h.not_live hg
  have hroot : a'.root g = (a.tree g).id := by rw [root, h.other g hne, id_tree, root]
  rw [tree, hroot]
  exact (h.holds_old hp hg).tree (hp.nodup g hg)

theorem disjoint (hp : a.Planted a.Live) (hg : a.Live g) : (a.tree g).ids.Disjoint T.ids :=
  fun b hb hb' ↦ absurd ((hp.holds g hg).lt_of_mem_ids hb) (Nat.not_lt.mpr (h.fresh b hb'))

theorem planted (hp : a.Planted a.Live) : a'.Planted a'.Live := by
  obtain ⟨l, hflow⟩ := h.flow
  have hother : ∀ g, a.Live g → a'.flow g = a.flow g := fun g hg ↦ h.other g fun he ↦
    h.not_live (he ▸ hg)
  have hgrowth : (a'.flow f).growth = T.id := by rw [hflow, instructionFlow]
  have hfresh : ∀ {b : BlockId}, b.index < a.blocks.size → b ∉ T.ids := fun hb hT ↦
    absurd hb (Nat.not_lt.mpr (h.fresh _ hT))
  constructor
  case live => exact fun g hg ↦ hg
  case holds =>
    intro g hg
    rcases h.live_iff.mp hg with hg | rfl
    · exact h.tree_old hp hg ▸ h.holds_old hp hg
    · exact h.tree_new ▸ h.holds
  case nodup =>
    intro g hg
    rcases h.live_iff.mp hg with hg | rfl
    · exact h.tree_old hp hg ▸ hp.nodup g hg
    · exact h.tree_new ▸ h.nodup
  case apart =>
    intro x y hx hy hxy
    rcases h.live_iff.mp hx with hx | rfl <;> rcases h.live_iff.mp hy with hy | rfl
    · rw [h.tree_old hp hx, h.tree_old hp hy]
      exact hp.apart x y hx hy hxy
    · rw [h.tree_old hp hx, h.tree_new]
      exact h.disjoint hp hx
    · rw [h.tree_old hp hy, h.tree_new]
      exact fun b hb hb' ↦ h.disjoint hp hy hb' hb
    · exact absurd rfl hxy
  case owner =>
    intro x y hx hy hr
    rcases h.live_iff.mp hx with hx | rfl <;> rcases h.live_iff.mp hy with hy | rfl
    · rw [h.tree_old hp hx, root, hother y hy] at hr
      exact hp.owner x y hx hy hr
    · rw [h.tree_old hp hx, h.root_new] at hr
      exact absurd T.id_mem_ids (h.disjoint hp hx hr)
    · rw [h.tree_new, root, hother y hy] at hr
      exact absurd hr (hfresh (hp.roots y hy))
    · rfl
  case roots =>
    intro g hg
    rcases h.live_iff.mp hg with hg | rfl
    · rw [root, hother g hg]
      exact (hp.roots g hg).trans_le h.off.size_le
    · exact h.root_new ▸ h.holds.lt_size
  case growth =>
    intro x y hx hy hxy
    rcases h.live_iff.mp hx with hx | rfl <;> rcases h.live_iff.mp hy with hy | rfl
    · rw [hother x hx, h.tree_old hp hy]
      exact hp.growth x y hx hy hxy
    · rw [hother x hx, h.tree_new]
      exact hfresh (hp.growths x hx)
    · rw [hgrowth, h.tree_old hp hy]
      exact fun hb ↦ h.disjoint hp hy hb T.id_mem_ids
    · exact absurd rfl hxy
  case growths =>
    intro g hg
    rcases h.live_iff.mp hg with hg | rfl
    · rw [hother g hg]
      exact (hp.growths g hg).trans_le h.off.size_le
    · exact hgrowth ▸ h.holds.lt_size
  case linked => exact h.linked hp.linked

theorem laid (hl : a.Laid ps) : a'.Laid (ps ++ qs) := by
  have hp := hl.planted
  obtain ⟨l, hflow⟩ := h.flow
  have hmem : ∀ p ∈ ps, p.source.index < a.blocks.size := fun p hmem ↦
    (hp.holds _ (hl.inside p hmem).1).lt_of_mem_ids (hl.inside p hmem).2
  have hnew : ∀ q ∈ qs, a.blocks.size ≤ q.source.index := fun q hq ↦ h.fresh _ (h.inside q hq).2
  constructor
  case planted => exact h.planted hp
  case proper =>
    intro g hg
    rcases h.live_iff.mp hg with hg | rfl
    · exact hl.proper g hg
    · have := hl.sentinels
      simp [h.new, FlowId.isSentinel, FlowId.methodEntry]
      omega
  case sentinels => exact h.size ▸ hl.sentinels.trans (Nat.le_succ _)
  case jumpless => exact h.jumpless hl.jumpless
  case edgeless =>
    intro g
    by_cases hg : g = f
    · rw [hg, hflow]
      exact ⟨rfl, rfl⟩
    · exact h.other g hg ▸ hl.edgeless g
  case jumps => exact h.jumps ▸ hl.jumps
  case grows =>
    intro g hg
    rcases h.live_iff.mp hg with hg | rfl
    · rw [root, h.other g fun he ↦ h.not_live (he ▸ hg)]
      exact hl.grows g hg
    · rw [root, hflow, instructionFlow]
  case sources =>
    rw [List.map_append, List.nodup_append']
    refine ⟨hl.sources, h.sources, fun b hb hb' ↦ ?_⟩
    obtain ⟨p, hp', rfl⟩ := List.mem_map.mp hb
    obtain ⟨q, hq, he⟩ := List.mem_map.mp hb'
    exact absurd (hmem p hp') (Nat.not_lt.mpr (he ▸ hnew q hq))
  case inside =>
    intro p hp'
    rcases List.mem_append.mp hp' with hp' | hp'
    · obtain ⟨hlive, hin⟩ := hl.inside p hp'
      exact ⟨h.live_iff.mpr (.inl hlive), h.tree_old hp hlive ▸ hin⟩
    · obtain ⟨hf, hin⟩ := h.inside p hp'
      rw [hf]
      exact ⟨h.live_iff.mpr (.inr rfl), h.tree_new ▸ hin⟩
  case isSealed =>
    intro g hg e he
    simp only [List.map_append, List.mem_append] at he
    rcases h.live_iff.mp hg with hg | rfl
    · rw [h.tree_old hp hg] at he ⊢
      refine hl.isSealed g hg e fun b hb ↦ (he b hb).trans (or_iff_left fun hb' ↦ ?_)
      obtain ⟨q, hq, rfl⟩ := List.mem_map.mp hb'
      exact absurd ((hp.holds g hg).lt_of_mem_ids hb) (Nat.not_lt.mpr (hnew q hq))
    · rw [h.tree_new] at he ⊢
      refine h.isSealed e fun b hb ↦ (he b hb).trans (or_iff_right fun hb' ↦ ?_)
      obtain ⟨p, hp', rfl⟩ := List.mem_map.mp hb'
      exact absurd (hmem p hp') (Nat.not_lt.mpr (h.fresh _ hb))

end Adds

section Code

variable {maxLocals : Nat} {code : List Instruction} {flows flows' : List (Nat × FlowId)}
  {later : List Pending}

/-- The first instruction accesses no local that there is not, and the others follow it. -/
theorem addInstructions_cons_eq_ok :
    addInstructions maxLocals (i :: code) flows a = .ok (a', flows', later) ↔
      (∀ slot ∈ i.opcode.localSlot, slot < maxLocals) ∧
      ∃ a₁ f ps qs, a.addInstruction i = .ok (a₁, f, ps) ∧
        addInstructions maxLocals code ((i.address, f) :: flows) a₁ = .ok (a', flows', qs) ∧
        later = ps ++ qs := by
  rw [addInstructions]
  have hrest : (a.addInstruction i >>= fun r ↦
      addInstructions maxLocals code ((i.address, r.2.1) :: flows) r.1 >>= fun s ↦
        pure (s.1, s.2.1, r.2.2 ++ s.2.2)) = Except.ok (a', flows', later) ↔
      ∃ a₁ f ps qs, a.addInstruction i = .ok (a₁, f, ps) ∧
        addInstructions maxLocals code ((i.address, f) :: flows) a₁ = .ok (a', flows', qs) ∧
        later = ps ++ qs := by
    cases hi : a.addInstruction i with
    | error e => simp [bind, Except.bind]
    | ok r =>
      obtain ⟨a₁, f, ps⟩ := r
      cases hc : addInstructions maxLocals code ((i.address, f) :: flows) a₁ with
      | error e => simp [bind, Except.bind, hc]
      | ok s =>
        simp only [bind, Except.bind, pure, Except.pure]
        grind
  cases hs : i.opcode.localSlot with
  | none => simpa using hrest
  | some slot =>
    by_cases hlt : slot < maxLocals
    · have hle : ¬ maxLocals ≤ slot := by omega
      simpa [hlt, hle] using hrest
    · have hle : maxLocals ≤ slot := by omega
      simp only [hle, Option.mem_some_iff, forall_eq', hlt, false_and, iff_false]
      intro h
      cases h

theorem addInstructions_induct {P : Analysis → List Pending → Prop}
    (step : ∀ {a ps i a' f qs}, P a ps → addInstruction a i = .ok (a', f, qs) → P a' (ps ++ qs))
    (h₀ : P a ps) (h : addInstructions maxLocals code flows a = .ok (a', flows', later)) :
    P a' (ps ++ later) := by
  induction code generalizing a ps flows later with
  | nil =>
    cases h
    rwa [List.append_nil]
  | cons i code ih =>
    obtain ⟨_, a₁, f, ps₁, qs, hi, hrest, rfl⟩ := addInstructions_cons_eq_ok.mp h
    rw [← List.append_assoc]
    exact ih (step h₀ hi) hrest

theorem Laid.addInstructions (hl : a.Laid ps)
    (h : addInstructions maxLocals code flows a = .ok (a', flows', later)) :
    a'.Laid (ps ++ later) := by
  refine addInstructions_induct (fun hl hi ↦ ?_) hl h
  obtain ⟨T, hT⟩ := adds_of_addInstruction hi
  exact hT.laid hl

theorem addInstructions_flows
    (h : addInstructions maxLocals code flows a = .ok (a', flows', later)) :
    flows' = (code.mapIdx fun k i ↦ (i.address, ⟨a.graph.flows.size + k⟩)).reverse ++ flows ∧
      a'.graph.flows.size = a.graph.flows.size + code.length := by
  induction code generalizing a flows later with
  | nil =>
    cases h
    exact ⟨rfl, rfl⟩
  | cons i code ih =>
    obtain ⟨_, a₁, f, ps₁, qs, hi, hrest, rfl⟩ := addInstructions_cons_eq_ok.mp h
    obtain ⟨T, hT⟩ := adds_of_addInstruction hi
    obtain ⟨hflows, hsize⟩ := ih hrest
    refine ⟨?_, ?_⟩
    · rw [hflows, hT.new, hT.size]
      simp [Nat.add_assoc, Nat.add_comm 1]
    · rw [hsize, hT.size, List.length_cons]
      omega

theorem addInstructions_live
    (h : addInstructions maxLocals code flows a = .ok (a', flows', later)) :
    a'.Live g ↔ a.Live g ∨ a.graph.flows.size ≤ g.index ∧
      g.index < a.graph.flows.size + code.length := by
  induction code generalizing a flows later with
  | nil =>
    cases h
    simp
  | cons i code ih =>
    obtain ⟨_, a₁, f, ps₁, qs, hi, hrest, rfl⟩ := addInstructions_cons_eq_ok.mp h
    obtain ⟨T, hT⟩ := adds_of_addInstruction hi
    have hg : g = f ↔ g.index = a.graph.flows.size := by
      rw [hT.new]
      exact ⟨fun h ↦ h ▸ rfl, fun h ↦ congrArg FlowId.mk h⟩
    rw [ih hrest, hT.live_iff, hT.size, hg, List.length_cons, or_assoc]
    refine or_congr_right ?_
    omega

end Code

section Start

theorem Laid.congr (h : a.Laid ps) (hb : a'.blocks = a.blocks) (hg : a'.graph = a.graph) :
    a'.Laid ps := by
  obtain ⟨_, blocks, _, graph⟩ := a
  obtain rfl : _ = blocks := hb
  obtain rfl : _ = graph := hg
  obtain ⟨⟨h₁, h₂, h₃, h₄, h₅, h₆, h₇, h₈, h₉⟩, hp, hs, hj, he, hn, hgr, hso, hi, hse⟩ := h
  exact ⟨⟨h₁, h₂, h₃, h₄, h₅, h₆, h₇, h₈, h₉⟩, hp, hs, hj, he, hn, hgr, hso, hi, hse⟩

theorem laid_new (checked : Bool) (fuel : Nat) : (Analysis.new checked fuel).Laid [] := by
  have hget : ∀ b : BlockId, (Analysis.new checked fuel).blocks.get b = {} := by
    rintro ⟨_ | _ | _ | n⟩ <;> rfl
  have hflow : ∀ f : FlowId, f.index < 3 → (Analysis.new checked fuel).flow f =
      { addr := 4294967295, length := 0, root := ⟨f.index⟩, growth := ⟨f.index⟩, alive := false } := by
    rintro ⟨_ | _ | _ | n⟩ hf
    · rfl
    · rfl
    · rfl
    · exact absurd hf (by simp)
  have hdead : ∀ f, ¬ (Analysis.new checked fuel).Live f := by
    rintro f ⟨hlt, ha⟩
    rw [hflow f hlt] at ha
    cases ha
  have hlinked : (Analysis.new checked fuel).blocks.Linked := fun x p hx ↦ by
    rw [Blocks.outer, hget] at hx
    cases hx
  constructor
  case planted =>
    exact ⟨fun f hf ↦ hf, fun f hf ↦ absurd hf (hdead f), fun f hf ↦ absurd hf (hdead f),
      fun f _ hf ↦ absurd hf (hdead f), fun f _ hf ↦ absurd hf (hdead f),
      fun f hf ↦ absurd hf (hdead f), fun f _ hf ↦ absurd hf (hdead f),
      fun f hf ↦ absurd hf (hdead f), hlinked⟩
  case proper => exact fun f hf ↦ absurd hf (hdead f)
  case sentinels => exact le_rfl
  case jumpless =>
    intro b
    rw [Blocks.jump, hget]
  case edgeless =>
    intro f
    by_cases hf : f.index < 3
    · rw [hflow f hf]
      exact ⟨rfl, rfl⟩
    · rw [flow, FlowGraph.flow, Table.get_of_size_le _ (Nat.le_of_not_lt hf)]
      exact ⟨rfl, rfl⟩
  case jumps => rfl
  case grows => exact fun f hf ↦ absurd hf (hdead f)
  case sources => exact List.nodup_nil
  case inside => simp
  case isSealed => exact fun f hf ↦ absurd hf (hdead f)

theorem bindParameters_eq (isStatic : Bool) (parameters : List Parameter) (a : Analysis) :
    (parameters.foldl (bindParameter isStatic) a).blocks = a.blocks ∧
      (parameters.foldl (bindParameter isStatic) a).graph = a.graph := by
  induction parameters generalizing a with
  | nil => exact ⟨rfl, rfl⟩
  | cons p parameters ih => exact ih (bindParameter isStatic a p)

end Start

/-- Nothing differs but which blocks hold jumps, and the edges. -/
structure Rejumps (a a' : Analysis) : Prop where
  size : a'.blocks.size = a.blocks.size
  blocks : ∀ b, a'.blocks.statement b = a.blocks.statement b ∧ a'.blocks.outer b = a.blocks.outer b
  flows : a'.graph.flows.size = a.graph.flows.size
  bare : ∀ f, (a'.flow f).bare = (a.flow f).bare

namespace Rejumps

variable (h : Rejumps a a')
include h

theorem live_iff : a'.Live f ↔ a.Live f := by
  have halive : (a'.flow f).alive = (a.flow f).alive := (congrArg Flow.alive (h.bare f) :)
  rw [Live, h.flows, halive, Live]

theorem root_eq (f : FlowId) : a'.root f = a.root f := (congrArg Flow.root (h.bare f) :)

theorem growth_eq (f : FlowId) : (a'.flow f).growth = (a.flow f).growth :=
  (congrArg Flow.growth (h.bare f) :)

variable {L : FlowId → Prop} (hp : a.Planted L)
include hp

theorem holds (hf : L f) : a'.blocks.Holds none ((a.tree f).mark a'.blocks.jump) :=
  (hp.holds f hf).mark h.size.ge fun b _ ↦ h.blocks b

theorem tree_eq (hf : L f) : a'.tree f = (a.tree f).mark a'.blocks.jump := by
  have hroot : a'.root f = ((a.tree f).mark a'.blocks.jump).id := by
    rw [h.root_eq, Tree.id_mark, id_tree]
  rw [tree, hroot]
  refine (h.holds hp hf).tree ?_
  rw [Tree.ids_mark]
  exact hp.nodup f hf

theorem ids_tree (hf : L f) : (a'.tree f).ids = (a.tree f).ids := by
  rw [h.tree_eq hp hf, Tree.ids_mark]

theorem planted : a'.Planted L := by
  constructor
  case live => exact fun g hg ↦ h.live_iff.mpr (hp.live g hg)
  case holds => exact fun g hg ↦ h.tree_eq hp hg ▸ h.holds hp hg
  case nodup => exact fun g hg ↦ h.ids_tree hp hg ▸ hp.nodup g hg
  case apart =>
    intro x y hx hy hxy
    rw [h.ids_tree hp hx, h.ids_tree hp hy]
    exact hp.apart x y hx hy hxy
  case owner =>
    intro x y hx hy hr
    rw [h.ids_tree hp hx, h.root_eq] at hr
    exact hp.owner x y hx (h.live_iff.mp hy) hr
  case roots => exact fun g hg ↦ h.root_eq g ▸ h.size ▸ hp.roots g (h.live_iff.mp hg)
  case growth =>
    intro x y hx hy hxy
    rw [h.ids_tree hp hy, h.growth_eq]
    exact hp.growth x y hx hy hxy
  case growths => exact fun g hg ↦ h.growth_eq g ▸ h.size ▸ hp.growths g hg
  case linked =>
    intro x q hx
    rw [(h.blocks x).2] at hx
    rw [(h.blocks q).1]
    exact hp.linked x q hx

end Rejumps

/-- The edges `ps` have been made between the flow blocks of `a₀`, each to where `dest` says. -/
structure Wired (a₀ : Analysis) (dest : Pending → FlowId) (ps : List Pending) (a : Analysis) :
    Prop extends Rejumps a₀ a where
  exprs : a.exprs = a₀.exprs
  linked : a.graph.Linked
  held : ∀ b j, a.blocks.jump b = some j ↔ j.index < a.graph.jumps.size ∧ (a.jump j).source = b
  sources : ∀ b, (a.blocks.jump b).isSome ↔ b ∈ ps.map (·.source)
  listed : ∀ f j, j ∈ a.graph.listed f ↔ j.index < a.graph.jumps.size ∧
    ∃ p ∈ ps, p.flow = f ∧ p.source = (a.jump j).source
  range : ∀ j, (a.jump j).destination.index < a.graph.flows.size
  destination : ∀ p ∈ ps, ∀ j, a.blocks.jump p.source = some j → (a.jump j).destination = dest p

section Wired

variable {a₀ : Analysis} {dest dest' : Pending → FlowId} {p : Pending} {d : FlowId}

theorem Laid.wired (h : a.Laid ps) (dest : Pending → FlowId) : Wired a dest [] a where
  exprs := rfl
  size := rfl
  blocks _ := ⟨rfl, rfl⟩
  flows := rfl
  bare _ := rfl
  linked := by
    have hs : ∀ f, (a.graph.flow f).successors = [] := fun f ↦ (h.edgeless f).1
    have hp : ∀ f, (a.graph.flow f).predecessors = [] := fun f ↦ (h.edgeless f).2
    refine ⟨⟨fun f ↦ ?_, fun f d e he ↦ ?_, fun f f' d d' j hj ↦ ?_⟩, fun f d _ ↦ ?_, fun f _ ↦ hs f⟩
    · rw [hs]
      exact List.nodup_nil
    · rw [hs] at he
      cases he
    · rw [FlowGraph.jumpsTo, Flow.edge?, hs] at hj
      cases hj
    · rw [FlowGraph.keys, hs, hp]
      simp
  held b j := by
    rw [h.jumpless, h.jumps]
    simp
  sources b := by
    rw [h.jumpless]
    simp
  listed f j := by
    rw [FlowGraph.listed, show (a.graph.flow f).successors = [] from (h.edgeless f).1]
    simp
  range j := by
    rw [jump, FlowGraph.jump, Table.get_of_size_le _ (h.jumps ▸ Nat.zero_le _)]
    exact (Nat.zero_lt_succ 2).trans_le h.sentinels
  destination := by simp

namespace Wired

variable (h : Wired a₀ dest ps a)
include h

theorem mem_keys : d ∈ a.graph.keys f ↔ ∃ p ∈ ps, p.flow = f ∧ dest p = d := by
  constructor
  · intro hd
    obtain ⟨j, hj⟩ := List.exists_mem_of_ne_nil _ (h.linked.jumpsTo_ne_nil.mpr hd)
    obtain ⟨hlt, p, hp, hpf, hps⟩ := (h.listed f j).mp (h.linked.mem_listed_of_mem hj)
    refine ⟨p, hp, hpf, ?_⟩
    rw [← h.destination p hp j ((h.held _ _).mpr ⟨hlt, hps.symm⟩)]
    exact h.linked.destination hj
  · rintro ⟨p, hp, rfl, rfl⟩
    obtain ⟨j, hj⟩ := Option.isSome_iff_exists.mp
      ((h.sources p.source).mpr (List.mem_map_of_mem hp))
    obtain ⟨hlt, hs⟩ := (h.held _ _).mp hj
    rw [← h.linked.jumpsTo_ne_nil, ← h.destination p hp j hj]
    exact List.ne_nil_of_mem (h.linked.mem_listed.mp
      ((h.listed p.flow j).mpr ⟨hlt, p, hp, rfl, hs.symm⟩))

/-- Edges may lead elsewhere. -/
theorem relist {G : FlowGraph} (hr : a.graph.Relisted G)
    (hrange : ∀ j, (G.jump j).destination.index < G.flows.size)
    (hdest : ∀ p ∈ ps, ∀ j, a.blocks.jump p.source = some j → (G.jump j).destination = dest' p) :
    Wired a₀ dest' ps { a with graph := G } where
  toRejumps :=
    ⟨h.size, h.blocks, hr.flows_size.trans h.flows, fun x ↦ (hr.bare x).trans (h.bare x)⟩
  exprs := h.exprs
  linked := hr.linked
  held b j := by
    change _ ↔ j.index < G.jumps.size ∧ (G.jump j).source = b
    rw [hr.jumps_size, hr.source]
    exact h.held b j
  sources := h.sources
  listed x j := by
    change j ∈ G.listed x ↔ j.index < G.jumps.size ∧
      ∃ p ∈ ps, p.flow = x ∧ p.source = (G.jump j).source
    rw [hr.listed, hr.jumps_size, hr.source]
    exact h.listed x j
  range := hrange
  destination := hdest

/-- The graph may change in what is known of its paths. -/
theorem congr {G : FlowGraph} (hflows : G.flows.size = a.graph.flows.size)
    (hjumps : G.jumps = a.graph.jumps)
    (hbare : ∀ f, (G.flow f).bare = (a.graph.flow f).bare)
    (hsucc : ∀ f, (G.flow f).successors.map FlowGraph.link =
      (a.graph.flow f).successors.map FlowGraph.link)
    (hpred : ∀ f p, p.isSentinel = false →
      (p ∈ (G.flow f).predecessors ↔ p ∈ (a.graph.flow f).predecessors)) :
    Wired a₀ dest ps { a with graph := G } := by
  have hjump : ∀ j, G.jump j = a.graph.jump j := fun j ↦ by
    rw [FlowGraph.jump, hjumps, FlowGraph.jump]
  obtain ⟨hl, hto⟩ := h.linked.congr (hjumps ▸ le_rfl) hsucc hpred fun f d j _ ↦ by
    rw [hjump]
    exact ⟨rfl, rfl⟩
  refine h.relist ⟨⟨hflows, by rw [hjumps], hbare, fun j ↦ by rw [hjump]⟩, hl, fun f j ↦ ?_⟩
    (fun j ↦ ?_) fun p hp j hj ↦ ?_
  · rw [hl.mem_listed, h.linked.mem_listed, hto, hjump]
  · rw [hjump, hflows]
    exact h.range j
  · rw [hjump]
    exact h.destination p hp j hj

/-- One more edge. -/
theorem addJump (hf : p.flow.index < a.graph.flows.size) (hf' : p.flow.isSentinel = false)
    (hb : p.source.index < a.blocks.size) (hnew : p.source ∉ ps.map (·.source))
    (hd : (dest p).index < a.graph.flows.size) :
    Wired a₀ dest (ps ++ [p]) (a.addJump p.flow p.source (dest p)).1 := by
  let j : JumpId := ⟨a.graph.jumps.size⟩
  let G := (a.graph.allocJump (dest p) p.source).1
  have hjump : ∀ i, G.jump i =
      if i = j then { destination := dest p, source := p.source } else a.graph.jump i := fun i ↦ by
    by_cases hi : i = j
    · simp [G, hi, j, FlowGraph.allocJump, FlowGraph.jump, Table.get_push]
    · have hne : i.index ≠ a.graph.jumps.size := fun he ↦ hi (congrArg JumpId.mk he)
      simp [G, hi, FlowGraph.allocJump, FlowGraph.jump, Table.get_push, hne]
  have hself : G.jump j = { destination := dest p, source := p.source } := by
    rw [hjump, if_pos rfl]
  have hother : ∀ i : JumpId, i.index < a.graph.jumps.size → G.jump i = a.graph.jump i :=
    fun i hi ↦ by
      rw [hjump, if_neg]
      rintro rfl
      exact lt_irrefl _ hi
  have hsize : G.jumps.size = a.graph.jumps.size + 1 := by simp [G, FlowGraph.allocJump]
  obtain ⟨hlG, htoG⟩ := h.linked.allocJump (dest p) p.source
  have hfree : ∀ x y, j ∉ G.jumpsTo x y := fun x y hx ↦ by
    rw [htoG] at hx
    exact lt_irrefl _ (h.linked.lt_size hx)
  obtain ⟨hl, hto⟩ := hlG.linkJump hf hf' (by simp [G, j, hsize]) hfree
    (by rw [hself]; exact hd)
  have hre := FlowGraph.Relinked.linkJump G p.flow j
  change Wired a₀ dest (ps ++ [p])
    { a with graph := G.linkJump p.flow j, blocks := a.blocks.setJump p.source (some j) }
  generalize G.linkJump p.flow j = G' at hl hto hre ⊢
  have hlisted : ∀ x i, i ∈ G'.listed x ↔ i ∈ a.graph.listed x ∨ i = j ∧ x = p.flow := fun x i ↦ by
    rw [hl.mem_listed, hto, hre.destination, htoG]
    by_cases hi : i = j
    · rw [hi, hself]
      have hnot : j ∉ a.graph.listed x := fun hm ↦
        lt_irrefl _ (h.linked.lt_size (h.linked.mem_listed.mp hm))
      have hnot' : j ∉ a.graph.jumpsTo x (dest p) := fun hm ↦ hfree x _ (htoG x _ ▸ hm)
      by_cases hx : x = p.flow <;> simp [hx, hnot, hnot']
    · have hiff : i ∈ a.graph.listed x ↔ i ∈ a.graph.jumpsTo x (G.jump i).destination := by
        rw [h.linked.mem_listed, hjump, if_neg hi]
      rw [hiff]
      split <;> simp [hi]
  have hsource : ∀ i, (G'.jump i).source = (G.jump i).source := hre.source
  have hsize' : G'.jumps.size = a.graph.jumps.size + 1 := hre.jumps_size.trans hsize
  have hlt : ∀ {i : JumpId}, i.index < a.graph.jumps.size + 1 ↔ i.index < a.graph.jumps.size ∨ i = j :=
    fun {i} ↦ by
      rw [Nat.lt_succ_iff_lt_or_eq]
      exact or_congr_right ⟨fun he ↦ congrArg JumpId.mk he, fun he ↦ he ▸ rfl⟩
  have hjb : ∀ b, (a.blocks.setJump p.source (some j)).jump b =
      if b = p.source then some j else a.blocks.jump b := fun b ↦ Blocks.jump_setJump _ _ b hb _
  have hold : ∀ i : JumpId, i.index < a.graph.jumps.size → (a.jump i).source ∈ ps.map (·.source) :=
    fun i hi ↦ (h.sources _).mp (Option.isSome_iff_exists.mpr ⟨i, (h.held _ i).mpr ⟨hi, rfl⟩⟩)
  constructor
  case toRejumps =>
    refine ⟨(Blocks.size_setJump ..).trans h.size, fun b ↦ ?_, hre.flows_size.trans h.flows,
      fun f ↦ (hre.bare f).trans (h.bare f)⟩
    rw [Blocks.statement_setJump, Blocks.outer_setJump]
    exact h.blocks b
  case exprs => exact h.exprs
  case linked => exact hl
  case held =>
    intro b i
    change (a.blocks.setJump p.source (some j)).jump b = some i ↔
      i.index < G'.jumps.size ∧ (G'.jump i).source = b
    rw [hjb, hsize', hlt, hsource]
    by_cases hi : i = j
    · rw [hi, hself]
      by_cases hbp : b = p.source
      · simp [hbp]
      · simp only [hbp, if_false, or_true, true_and]
        rw [h.held]
        exact ⟨fun hc ↦ absurd hc.1 (lt_irrefl _), fun hc ↦ absurd hc.symm hbp⟩
    · rw [or_iff_left hi, hjump, if_neg hi]
      by_cases hbp : b = p.source
      · rw [if_pos hbp, hbp]
        refine ⟨fun hc ↦ absurd (Option.some.inj hc).symm hi, fun hc ↦ absurd ?_ hnew⟩
        exact hc.2 ▸ hold i hc.1
      · rw [if_neg hbp]
        exact h.held b i
  case sources =>
    intro b
    rw [hjb, List.map_append, List.mem_append, List.map_singleton, List.mem_singleton]
    by_cases hbp : b = p.source
    · simp [hbp]
    · rw [if_neg hbp, or_iff_left hbp]
      exact h.sources b
  case listed =>
    intro x i
    change i ∈ G'.listed x ↔ i.index < G'.jumps.size ∧
      ∃ q ∈ ps ++ [p], q.flow = x ∧ q.source = (G'.jump i).source
    rw [hlisted, h.listed, hsize', hlt, hsource]
    by_cases hi : i = j
    · rw [hi, hself]
      have hirr : ¬ j.index < a.graph.jumps.size := lt_irrefl _
      simp only [hirr, false_and, false_or, true_and, List.mem_append, List.mem_singleton]
      constructor
      · rintro rfl
        exact ⟨p, .inr rfl, rfl, rfl⟩
      · rintro ⟨q, hq | rfl, rfl, hs⟩
        · exact absurd (hs ▸ List.mem_map_of_mem hq) hnew
        · rfl
    · rw [hjump]
      simp only [hi, false_and, or_false, List.mem_append, List.mem_singleton]
      refine and_congr_right fun hil ↦ exists_congr fun q ↦ and_congr_left fun hq ↦
        (or_iff_left ?_).symm
      rintro rfl
      exact hnew (hq.2 ▸ hold i hil)
  case range =>
    intro i
    change (G'.jump i).destination.index < G'.flows.size
    rw [hre.destination, hre.flows_size, hjump]
    split
    · exact hd
    · exact h.range i
  case destination =>
    intro q hq i hi
    change (G'.jump i).destination = dest q
    rw [hjb] at hi
    rw [hre.destination]
    rcases List.mem_append.mp hq with hq | hq
    · have hne : q.source ≠ p.source := fun he ↦ hnew (he ▸ List.mem_map_of_mem hq)
      rw [if_neg hne] at hi
      rw [hother i ((h.held _ _).mp hi).1]
      exact h.destination q hq i hi
    · obtain rfl : q = p := by simpa using hq
      rw [if_pos rfl] at hi
      obtain rfl : j = i := Option.some.inj hi
      rw [hself]

end Wired

/-- Where an edge leads that is not to the next address. -/
def Pending.goal (flows : List (Nat × FlowId)) (p : Pending) : FlowId :=
  (p.destination flows).toOption.getD .endOfMethod

variable {flows : List (Nat × FlowId)}

theorem Pending.destination_eq_ok (h : p.destination flows = .ok d) :
    (∃ target, flows.lookup target = some d) ∨ d = .nextByAddress ∨ d = .endOfMethod := by
  rw [destination] at h
  split at h
  next target _ =>
    split at h
    next f hf =>
      cases h
      exact .inl ⟨target, hf⟩
    next => cases h
  next =>
    cases h
    exact .inr (.inl rfl)
  next =>
    cases h
    exact .inr (.inr rfl)

theorem Pending.goal_lt (hflows : ∀ x ∈ flows, x.2.index < a.graph.flows.size)
    (h3 : 3 ≤ a.graph.flows.size) (p : Pending) : (p.goal flows).index < a.graph.flows.size := by
  rw [goal, destination]
  cases p.continuation with
  | address target =>
    dsimp only
    split
    next f hf =>
      obtain ⟨before, after, rfl, -⟩ := List.lookup_eq_some_iff.mp hf
      exact hflows (target, f) (by simp)
    next => exact (by decide : FlowId.endOfMethod.index < 3).trans_le h3
  | next => exact (by decide : FlowId.nextByAddress.index < 3).trans_le h3
  | methodEnd => exact (by decide : FlowId.endOfMethod.index < 3).trans_le h3

theorem Wired.linkPending {done rest : List Pending} (hl : a₀.Laid (done ++ rest))
    (hflows : ∀ x ∈ flows, x.2.index < a₀.graph.flows.size)
    (h : Wired a₀ (Pending.goal flows) done a) (hlink : linkPending flows rest a = .ok a') :
    Wired a₀ (Pending.goal flows) (done ++ rest) a' ∧
      ∀ p ∈ rest, p.destination flows = .ok (p.goal flows) := by
  induction rest generalizing done a with
  | nil =>
    cases hlink
    exact ⟨by rwa [List.append_nil], by simp⟩
  | cons p rest ih =>
    simp only [Analysis.linkPending, bind, Except.bind] at hlink
    split at hlink
    · cases hlink
    next d hd =>
      have hgoal : p.goal flows = d := by
        rw [Pending.goal, hd]
        rfl
      subst hgoal
      obtain ⟨hlive, hin⟩ := hl.inside p (by simp)
      have hlt := (hl.planted.holds _ hlive).lt_of_mem_ids hin
      have hnew : p.source ∉ done.map (·.source) := by
        have := hl.sources
        rw [List.map_append, List.nodup_append'] at this
        exact fun hm ↦ this.2.2 hm (by simp)
      have hstep := h.addJump (h.flows ▸ hlive.1) (hl.proper _ hlive) (h.size ▸ hlt) hnew
        (h.flows ▸ Pending.goal_lt hflows hl.sentinels p)
      rw [List.append_cons] at hl ⊢
      obtain ⟨hw, hrest⟩ := ih hl hstep hlink
      exact ⟨hw, List.forall_mem_cons.mpr ⟨hd, hrest⟩⟩

/-- The flow block at the address after `f`. -/
def nextOf (a : Analysis) (f : FlowId) : FlowId :=
  (a.graph.flowAt (a.flow f).stop).getD .endOfMethod

/-- Where an edge leads once those of `fs` to the next address have been resolved. -/
def resolved (a : Analysis) (fs : List FlowId) (dest : Pending → FlowId) (p : Pending) : FlowId :=
  if p.flow ∈ fs ∧ dest p = .nextByAddress then a.nextOf p.flow else dest p

theorem Wired.congr_dest (h : Wired a₀ dest ps a) (hd : ∀ p ∈ ps, dest' p = dest p) :
    Wired a₀ dest' ps a :=
  { h with destination := fun p hp j hj ↦ (h.destination p hp j hj).trans (hd p hp).symm }

theorem Wired.mem_jumpsTo (h : Wired a₀ dest ps a) {j : JumpId} (hp : p ∈ ps)
    (hj : a.blocks.jump p.source = some j) : j ∈ a.graph.jumpsTo p.flow (dest p) := by
  obtain ⟨hlt, hs⟩ := (h.held _ _).mp hj
  rw [← h.destination p hp j hj]
  exact h.linked.mem_listed.mp ((h.listed _ _).mpr ⟨hlt, p, hp, rfl, hs.symm⟩)

theorem flowAt_live {addr : Nat} (h : a.graph.flowAt addr = some f) : a.Live f :=
  mem_live.mp (List.mem_of_find?_eq_some h)

theorem Wired.redirect {G : FlowGraph} (h : Wired a₀ dest ps a)
    (hr : FlowGraph.Redirected f .nextByAddress (a₀.nextOf f) a.graph G)
    (hlt : (a₀.nextOf f).index < a.graph.flows.size) :
    Wired a₀ (a₀.resolved [f] dest) ps { a with graph := G } := by
  refine h.relist hr.toRelisted (fun j ↦ ?_) fun p hp j hj ↦ ?_
  · rw [hr.flows_size, hr.destination]
    split
    · exact hlt
    · exact h.range j
  · have hmem := h.mem_jumpsTo hp hj
    rw [hr.destination, resolved]
    simp only [List.mem_singleton]
    by_cases hc : p.flow = f ∧ dest p = .nextByAddress
    · rw [hc.1, hc.2] at hmem
      rw [if_pos hmem, if_pos hc, hc.1]
    · rw [if_neg hc, if_neg]
      · exact h.destination p hp j hj
      · intro hj'
        exact hc ⟨h.linked.own _ _ _ _ j hmem hj',
          (h.linked.destination hmem).symm.trans (h.linked.destination hj')⟩

theorem Wired.resolveNext (h : Wired a₀ dest ps a) (hl : a₀.Laid ps) (hf : a₀.Live f)
    (hr : a.resolveNext f = .ok a') :
    Wired a₀ (a₀.resolved [f] dest) ps a' ∧
      ∀ p ∈ ps, p.flow = f → dest p = .nextByAddress → a₀.Live (a₀.nextOf f) := by
  have hf' := hl.proper f hf
  rw [Analysis.resolveNext] at hr
  split at hr
  next hedge =>
    cases hr
    have hnone : ∀ p ∈ ps, p.flow = f → dest p ≠ .nextByAddress := fun p hp hpf hd ↦ by
      have hk := h.mem_keys.mpr ⟨p, hp, hpf, hd⟩
      obtain ⟨e, he⟩ := FlowGraph.mem_keys.mp hk
      rw [flow, h.linked.edge?_eq_some he] at hedge
      cases hedge
    refine ⟨h.congr_dest fun p hp ↦ if_neg fun hc ↦ ?_, fun p hp hpf hd ↦ absurd hd (hnone p hp hpf)⟩
    exact hnone p hp (by simpa using hc.1) hc.2
  next edge hedge =>
    dsimp only at hr
    split at hr
    · cases hr
    next next hnext =>
      have hre := FlowGraph.Relinked.removeEdge a.graph f .nextByAddress
      have hjs : a.graph.jumpsTo f .nextByAddress =
          (a.graph.removeEdge f .nextByAddress).chain edge.jumps := by
        rw [h.linked.jumpsTo_of_mem (FlowGraph.mem_of_lookup_eq_some hedge)]
        exact (FlowGraph.chain_eq_of_jumps (by simp [FlowGraph.removeEdge]) _).symm
      have hat : a₀.graph.flowAt (a₀.flow f).stop = some next := by
        have hstop : ((a.graph.removeEdge f .nextByAddress).flow f).stop = (a₀.flow f).stop :=
          (congrArg Flow.stop ((hre.bare f).trans (h.bare f)) :)
        rw [← hstop, ← hnext]
        exact (FlowGraph.flowAt_congr (hre.flows_size.trans h.flows)
          (fun x ↦ (hre.bare x).trans (h.bare x)) _).symm
      have hnextOf : a₀.nextOf f = next := by rw [nextOf, hat, Option.getD_some]
      have hlive := flowAt_live hat
      have hred := h.linked.redirect (h.flows ▸ hf.1) hf'
        (h.flows ▸ (by decide : FlowId.nextByAddress.index < 3).trans_le hl.sentinels)
        (h.flows ▸ hlive.1)
      rw [hjs] at hred
      cases hr
      refine ⟨?_, fun _ _ _ _ ↦ hnextOf ▸ hlive⟩
      exact h.redirect (hnextOf ▸ hred) (hnextOf ▸ h.flows ▸ hlive.1)

theorem resolved_cons (fs : List FlowId) (dest : Pending → FlowId) (hl : a₀.Laid ps)
    (hlive : ∀ p ∈ ps, p.flow = f → dest p = .nextByAddress → a₀.Live (a₀.nextOf f)) :
    ∀ p ∈ ps, a₀.resolved (f :: fs) dest p = a₀.resolved fs (a₀.resolved [f] dest) p := by
  intro p hp
  simp only [resolved]
  by_cases hd : dest p = .nextByAddress
  · by_cases hf : p.flow = f
    · have hne : a₀.nextOf f ≠ .nextByAddress := fun he ↦ by
        have := hl.proper _ (hlive p hp hf hd)
        rw [he] at this
        cases this
      simp [hd, hf]
    · simp [hf]
  · simp [hd]

theorem Wired.resolveAll {fs : List FlowId} (h : Wired a₀ dest ps a) (hl : a₀.Laid ps)
    (hfs : ∀ f ∈ fs, a₀.Live f) (hr : fs.foldlM Analysis.resolveNext a = .ok a') :
    Wired a₀ (a₀.resolved fs dest) ps a' ∧
      ∀ p ∈ ps, p.flow ∈ fs → dest p = .nextByAddress → a₀.Live (a₀.nextOf p.flow) := by
  induction fs generalizing a dest with
  | nil =>
    cases hr
    exact ⟨h.congr_dest fun p _ ↦ by simp [resolved], by simp⟩
  | cons f fs ih =>
    simp only [List.foldlM_cons, bind, Except.bind] at hr
    split at hr
    · cases hr
    next a₁ h₁ =>
      rw [List.forall_mem_cons] at hfs
      obtain ⟨hw, hlive⟩ := h.resolveNext hl hfs.1 h₁
      obtain ⟨hw', hlive'⟩ := ih hw hfs.2 hr
      refine ⟨hw'.congr_dest (resolved_cons fs dest hl hlive), fun p hp hpf hd ↦ ?_⟩
      by_cases hf : p.flow = f
      · exact hf ▸ hlive p hp hf hd
      · refine hlive' p hp ((List.mem_cons.mp hpf).resolve_left hf) ?_
        rw [resolved, if_neg fun hc ↦ hf (by simpa using hc.1), hd]

theorem Wired.setTransfer (h : Wired a₀ dest ps a) (f : FlowId) :
    Wired a₀ dest ps (a.setTransfer f) := by
  refine h.congr (by simp) (by simp) (fun x ↦ ?_) (fun x ↦ ?_) fun x p _ ↦ ?_
  all_goals rw [FlowGraph.flow_modifyFlow]; split
  · rfl
  · rfl
  · simp [FlowGraph.link]
  · rfl
  · rfl
  · rfl

theorem Wired.setTransfers (h : Wired a₀ dest ps a) (fs : List FlowId) :
    Wired a₀ dest ps (fs.foldl Analysis.setTransfer a) := by
  induction fs generalizing a with
  | nil => exact h
  | cons f fs ih => exact ih (h.setTransfer f)

theorem Wired.enter (h : Wired a₀ dest ps a) (f : FlowId) : Wired a₀ dest ps (a.modifyFlow f
    fun f ↦ { f with predecessors := f.predecessors ++ [.methodEntry] }) := by
  refine h.congr (by simp) (by simp) (fun x ↦ ?_) (fun x ↦ ?_) fun x p hp ↦ ?_
  all_goals rw [FlowGraph.flow_modifyFlow]; split
  · rfl
  · rfl
  · rfl
  · rfl
  · rw [List.mem_append, or_iff_left]
    intro hm
    rw [List.mem_singleton.mp hm] at hp
    cases hp
  · rfl

theorem Wired.withEntry (h : Wired a₀ dest ps a) (f : FlowId) :
    Wired a₀ dest ps { a with entry := f } :=
  ⟨⟨h.size, h.blocks, h.flows, h.bare⟩, h.exprs, h.linked, h.held, h.sources, h.listed, h.range,
    h.destination⟩

section Sound

variable (h : Wired a₀ dest ps a) (hl : a₀.Laid ps)
include h hl

theorem Wired.tree_eq (hf : a₀.Live f) : a.tree f = (a₀.tree f).mark a.blocks.jump :=
  h.toRejumps.tree_eq hl.planted hf

theorem Wired.isSealed (hf : a₀.Live f) : (a.tree f).Sealed :=
  h.tree_eq hl hf ▸ hl.isSealed f hf a.blocks.jump fun b _ ↦ h.sources b

theorem Wired.planted : a.Planted a.Live := by
  have hlive : a.Live = a₀.Live := funext fun f ↦ propext h.live_iff
  exact hlive ▸ h.toRejumps.planted hl.planted

theorem Wired.wellFormed : a.WellFormed a.Live where
  planted := h.planted hl
  linked := h.linked
  holding f hf b j := by
    have hf := h.live_iff.mp hf
    rw [h.tree_eq hl hf, Tree.mem_held_mark, h.listed, h.held]
    constructor
    · rintro ⟨hb, hlt, rfl⟩
      refine ⟨⟨hlt, ?_⟩, rfl⟩
      have hs := (h.sources _).mp (Option.isSome_iff_exists.mpr ⟨j, (h.held _ j).mpr ⟨hlt, rfl⟩⟩)
      exact (hl.mem_sources hf hb).mp hs
    · rintro ⟨⟨hlt, p, hp, rfl, hs⟩, rfl⟩
      exact ⟨hs ▸ (hl.inside p hp).2, hlt, rfl⟩
  tidy f hf := (h.isSealed hl (h.live_iff.mp hf)).tidy
  proper f hf := hl.proper f (h.live_iff.mp hf)
  range := h.range

theorem Wired.sound (hd : ∀ p ∈ ps, a₀.Live (dest p) ∨ dest p = .endOfMethod)
    (hentry : a₀.Live a.entry) (hentered : .methodEntry ∈ (a.flow a.entry).predecessors) :
    a.Sound where
  wellFormed := h.wellFormed hl
  orderly f hf := (h.isSealed hl (h.live_iff.mp hf)).orderly
  closed f hf := (h.isSealed hl (h.live_iff.mp hf)).closed _ _
  dead f hf := by
    rw [List.eq_nil_iff_forall_not_mem]
    intro d hk
    obtain ⟨p, hp, rfl, -⟩ := h.mem_keys.mp hk
    exact hf (h.live_iff.mpr (hl.inside p hp).1)
  leads f d hk := by
    obtain ⟨p, hp, rfl, rfl⟩ := h.mem_keys.mp hk
    exact (hd p hp).imp_left h.live_iff.mpr
  grows f hf _ := by
    have hf := h.live_iff.mp hf
    rw [h.ids_tree hl.planted hf, h.growth_eq, hl.grows f hf, ← id_tree]
    exact Tree.id_mem_ids _
  entry := h.live_iff.mpr hentry
  entered := hentered

end Sound

end Wired

section Build

variable {m : MethodInfo} {code : List Instruction} {o : Options} {parameters : List Parameter}
  {returnsVoid : Bool} {flows : List (Nat × FlowId)}

/-- The state before any instruction has been added. -/
def opening (m : MethodInfo) (o : Options) (size : Nat) (returnsVoid : Bool)
    (parameters : List Parameter) : Analysis :=
  parameters.foldl (bindParameter m.isStatic)
    { Analysis.new o.checked (o.fuelFor size) with returnsVoid }

theorem laid_opening (m : MethodInfo) (o : Options) (size : Nat) (returnsVoid : Bool)
    (parameters : List Parameter) : (opening m o size returnsVoid parameters).Laid [] := by
  obtain ⟨hb, hg⟩ := bindParameters_eq m.isStatic parameters
    { Analysis.new o.checked (o.fuelFor size) with returnsVoid }
  exact (laid_new o.checked (o.fuelFor size)).congr hb hg

/-- The stages of building. -/
theorem build_eq_ok (h : build m code o = .ok a) :
    ∃ first rest returnsVoid parameters a₀ flows ps a₁ a₂, code = first :: rest ∧
      m.returnsVoid? = some returnsVoid ∧ m.parameters? = some parameters ∧
      addInstructions m.maxLocals code [] (opening m o code.length returnsVoid parameters) =
        .ok (a₀, flows, ps) ∧
      linkPending flows ps a₀ = .ok a₁ ∧ a₁.graph.live.foldlM resolveNext a₁ = .ok a₂ ∧
      a = { (a₂.graph.live.foldl setTransfer a₂).modifyFlow
          ((flows.lookup first.address).getD .methodEntry)
          (fun f ↦ { f with predecessors := f.predecessors ++ [.methodEntry] }) with
        entry := (flows.lookup first.address).getD .methodEntry } := by
  cases code with
  | nil => cases h
  | cons first rest =>
    simp only [build] at h
    split at h
    next returnsVoid hrv =>
      split at h
      next parameters hp =>
        simp only [bind, Except.bind] at h
        split at h
        · cases h
        next r hr =>
          obtain ⟨a₀, flows, ps⟩ := r
          split at h
          · cases h
          next a₁ h₁ =>
            split at h
            · cases h
            next a₂ h₂ =>
              cases h
              exact ⟨first, rest, returnsVoid, parameters, a₀, flows, ps, a₁, a₂, rfl, hrv, hp, hr,
                h₁, h₂, rfl⟩
      next => cases h
    next => cases h

/-- Where an edge of the code leads. -/
def destinationOf (a : Analysis) (flows : List (Nat × FlowId)) (p : Pending) : FlowId :=
  a.resolved a.graph.live (Pending.goal flows) p

theorem lookup_isSome_of_mem {α : Type} {l : List (Nat × α)} {n : Nat} (h : n ∈ l.map (·.1)) :
    ∃ x, l.lookup n = some x := by
  cases hx : l.lookup n with
  | some x => exact ⟨x, rfl⟩
  | none =>
    rw [List.lookup_eq_none_iff] at hx
    obtain ⟨y, hy, rfl⟩ := List.mem_map.mp h
    exact absurd (hx y hy) (by simp)

theorem live_of_mem_flows {ps : List Pending} {a₀ : Analysis} {maxLocals : Nat} {x : Nat × FlowId}
    (hadd : addInstructions maxLocals code [] a = .ok (a₀, flows, ps)) (hx : x ∈ flows) :
    a₀.Live x.2 := by
  rw [(addInstructions_flows hadd).1, List.append_nil, List.mem_reverse, List.mem_mapIdx] at hx
  obtain ⟨k, hk, rfl⟩ := hx
  exact (addInstructions_live hadd).mpr (.inr ⟨Nat.le_add_right _ _, Nat.add_lt_add_left hk _⟩)

theorem Laid.wired_of_link {a₀ a₁ a₂ : Analysis} {ps : List Pending} (hl : a₀.Laid ps)
    (hflows : ∀ x ∈ flows, a₀.Live x.2) (hlink : linkPending flows ps a₀ = .ok a₁)
    (hnext : a₁.graph.live.foldlM resolveNext a₁ = .ok a₂) :
    (∀ p ∈ ps, p.destination flows = .ok (p.goal flows)) ∧
      (∀ p ∈ ps, p.goal flows = .nextByAddress → a₀.Live (a₀.nextOf p.flow)) ∧
      Wired a₀ (a₀.destinationOf flows) ps (a₂.graph.live.foldl setTransfer a₂) := by
  have hl' : a₀.Laid ([] ++ ps) := hl
  obtain ⟨hw₁, hgoal⟩ :=
    (hl.wired (Pending.goal flows)).linkPending hl' (fun x hx ↦ (hflows x hx).1) hlink
  obtain ⟨hw₂, hnexts⟩ := hw₁.resolveAll hl (fun f hf ↦ hw₁.live_iff.mp (mem_live.mp hf)) hnext
  have hmem : ∀ p ∈ ps, p.flow ∈ a₁.graph.live ∧ p.flow ∈ a₀.graph.live := fun p hp ↦
    ⟨mem_live.mpr (hw₁.live_iff.mpr (hl.inside p hp).1), mem_live.mpr (hl.inside p hp).1⟩
  refine ⟨hgoal, fun p hp ↦ hnexts p hp (hmem p hp).1, ?_⟩
  refine (hw₂.congr_dest fun p hp ↦ ?_).setTransfers _
  simp only [destinationOf, resolved, hmem p hp]

/-- What has been built from the code of a method. -/
theorem wired_of_build (h : build m code o = .ok a) : ∃ a₀ flows ps, a₀.Laid ps ∧
      Wired a₀ (a₀.destinationOf flows) ps a ∧
      (∀ p ∈ ps, a₀.Live (a₀.destinationOf flows p) ∨
        a₀.destinationOf flows p = .endOfMethod) ∧
      a₀.Live a.entry ∧ .methodEntry ∈ (a.flow a.entry).predecessors := by
  obtain ⟨first, rest, returnsVoid, parameters, a₀, flows, ps, a₁, a₂, rfl, -, -, hadd, hlink, hnext,
    ha⟩ := build_eq_ok h
  have hopen := laid_opening m o (first :: rest).length returnsVoid parameters
  have hl : a₀.Laid ps := hopen.addInstructions hadd
  have hlive : ∀ x ∈ flows, a₀.Live x.2 := fun x hx ↦ live_of_mem_flows hadd hx
  obtain ⟨hgoal, hnexts, hw⟩ := hl.wired_of_link hlive hlink hnext
  obtain ⟨f, hf⟩ : ∃ f, flows.lookup first.address = some f := by
    refine lookup_isSome_of_mem ?_
    rw [(addInstructions_flows hadd).1]
    simp
  have hlook : ∀ {n g}, flows.lookup n = some g → a₀.Live g := fun {n g} hg ↦ by
    obtain ⟨before, after, hsplit, -⟩ := List.lookup_eq_some_iff.mp hg
    exact hlive (n, g) (by simp [hsplit])
  have hfl := hlook hf
  rw [hf] at ha
  refine ⟨a₀, flows, ps, hl, ha ▸ (hw.enter f).withEntry f, fun p hp ↦ ?_, ha ▸ hfl, ?_⟩
  · rw [destinationOf, resolved]
    split
    next hc => exact .inl (hnexts p hp hc.2)
    next hc =>
      rcases Pending.destination_eq_ok (hgoal p hp) with ⟨n, hn⟩ | hn | hn
      · exact .inl (hlook hn)
      · exact absurd ⟨mem_live.mpr (hl.inside p hp).1, hn⟩ hc
      · exact .inr hn
  · have hlt : f.index < (a₂.graph.live.foldl setTransfer a₂).graph.flows.size := hw.flows ▸ hfl.1
    rw [ha]
    change .methodEntry ∈ (FlowGraph.flow (FlowGraph.modifyFlow _ f _) f).predecessors
    rw [FlowGraph.flow_modifyFlow_self _ _ hlt]
    simp

theorem sound_of_build (h : build m code o = .ok a) : a.Sound := by
  obtain ⟨a₀, flows, ps, hl, hw, hd, hentry, hentered⟩ := wired_of_build h
  exact hw.sound hl hd hentry hentered

end Build

end Analysis

end Decompile
