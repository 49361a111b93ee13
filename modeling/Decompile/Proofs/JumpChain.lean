import Decompile.Proofs.View
import Decompile.Proofs.Walk

namespace Decompile

/-- All of a flow block but its edges. -/
def Flow.bare (f : Flow) : Flow := { f with successors := [], predecessors := [] }

namespace FlowGraph

variable {g g' : FlowGraph} {f s d : FlowId} {j : JumpId} {js : List JumpId} {e : Edge}

section Fields

variable (g f d j) (k : Flow → Flow) (m : Jump → Jump)

theorem flow_modifyFlow : (g.modifyFlow d k).flow f =
    if f = d ∧ d.index < g.flows.size then k (g.flow f) else g.flow f := by
  obtain ⟨i⟩ := f
  obtain ⟨i'⟩ := d
  simp only [flow, modifyFlow, Table.get_modify]
  by_cases h : i = i'
  · simp [h]
  · simp [h, Ne.symm h]

theorem jump_modifyJump (i : JumpId) : (g.modifyJump j m).jump i =
    if i = j ∧ j.index < g.jumps.size then m (g.jump i) else g.jump i := by
  obtain ⟨n⟩ := i
  obtain ⟨n'⟩ := j
  simp only [jump, modifyJump, Table.get_modify]
  by_cases h : n = n'
  · simp [h]
  · simp [h, Ne.symm h]

@[simp] theorem jump_modifyFlow : (g.modifyFlow d k).jump j = g.jump j := rfl

@[simp] theorem jumps_modifyFlow : (g.modifyFlow d k).jumps = g.jumps := rfl

@[simp] theorem flow_modifyJump : (g.modifyJump j m).flow f = g.flow f := rfl

@[simp] theorem flows_modifyJump : (g.modifyJump j m).flows = g.flows := rfl

@[simp] theorem size_modifyFlow : (g.modifyFlow d k).flows.size = g.flows.size :=
  Table.size_modify ..

@[simp] theorem size_modifyJump : (g.modifyJump j m).jumps.size = g.jumps.size :=
  Table.size_modify ..

variable {f d}

theorem flow_modifyFlow_self (h : f.index < g.flows.size) :
    (g.modifyFlow f k).flow f = k (g.flow f) := by
  rw [flow_modifyFlow, if_pos ⟨rfl, h⟩]

theorem flow_modifyFlow_of_ne (h : f ≠ d) : (g.modifyFlow d k).flow f = g.flow f := by
  rw [flow_modifyFlow, if_neg fun h' ↦ h h'.1]

theorem jump_modifyJump_of_ne {i : JumpId} (h : i ≠ j) : (g.modifyJump j m).jump i = g.jump i := by
  rw [jump_modifyJump, if_neg fun h' ↦ h h'.1]

end Fields

/-- The links lead from the first of the jumps through all of them. -/
def IsChain (g : FlowGraph) : Option JumpId → List JumpId → Prop
  | none, [] => True
  | some j, i :: js => j = i ∧ j.index < g.jumps.size ∧ g.IsChain (g.jump j).next js
  | _, _ => False

theorem isChain_cons {head : Option JumpId} :
    g.IsChain head (j :: js) ↔
      head = some j ∧ j.index < g.jumps.size ∧ g.IsChain (g.jump j).next js := by
  cases head with
  | none => simp [IsChain]
  | some i =>
    simp only [Option.some.injEq]
    constructor
    · rintro ⟨rfl, h⟩
      exact ⟨rfl, h⟩
    · rintro ⟨rfl, h⟩
      exact ⟨rfl, h⟩

theorem isChain_nil {head : Option JumpId} : g.IsChain head [] ↔ head = none := by
  cases head <;> simp [IsChain]

theorem IsChain.lt_size {head : Option JumpId} (h : g.IsChain head js) (hj : j ∈ js) :
    j.index < g.jumps.size := by
  induction js generalizing head with
  | nil => simp at hj
  | cons i js ih =>
    obtain ⟨-, hlt, h⟩ := isChain_cons.mp h
    rcases List.mem_cons.mp hj with rfl | hj
    · exact hlt
    · exact ih h hj

theorem IsChain.congr {head : Option JumpId} (h : g.IsChain head js)
    (hsize : g.jumps.size ≤ g'.jumps.size) (hj : ∀ j ∈ js, (g'.jump j).next = (g.jump j).next) :
    g'.IsChain head js := by
  induction js generalizing head with
  | nil => exact isChain_nil.mpr (isChain_nil.mp h)
  | cons i js ih =>
    obtain ⟨hhead, hlt, h⟩ := isChain_cons.mp h
    refine isChain_cons.mpr ⟨hhead, by omega, ?_⟩
    rw [hj i (by simp)]
    exact ih h fun j hj' ↦ hj j (by simp [hj'])

theorem IsChain.chainWithin {head : Option JumpId} {n : Nat} (h : g.IsChain head js)
    (hn : js.length ≤ n) : g.chainWithin n head = js := by
  induction js generalizing head n with
  | nil =>
    rw [isChain_nil.mp h]
    cases n <;> rfl
  | cons i js ih =>
    obtain ⟨rfl, -, h⟩ := isChain_cons.mp h
    obtain ⟨n, rfl⟩ : ∃ m, n = m + 1 := ⟨n - 1, by simp at hn; omega⟩
    rw [FlowGraph.chainWithin, ih h (by simpa using hn)]

theorem IsChain.chain {head : Option JumpId} (h : g.IsChain head js) (hn : js.Nodup) :
    g.chain head = js := by
  have hn' : (js.map JumpId.index).Nodup := hn.map fun x y h ↦ by
    cases x
    cases y
    simpa using h
  have := length_le_of_nodup_of_lt hn' fun i hi ↦ by
    obtain ⟨j, hj, rfl⟩ := List.mem_map.mp hi
    exact h.lt_size hj
  exact h.chainWithin (by simpa using this)

/-- An edge to `d` with a chain of jumps to it. -/
structure Filed (g : FlowGraph) (d : FlowId) (e : Edge) (js : List JumpId) : Prop where
  ne_nil : js ≠ []
  nodup : js.Nodup
  isChain : g.IsChain e.jumps js
  destination : ∀ j ∈ js, (g.jump j).destination = d

theorem Filed.chain (h : g.Filed d e js) : g.chain e.jumps = js := h.isChain.chain h.nodup

theorem Filed.congr (h : g.Filed d e js) (hsize : g.jumps.size ≤ g'.jumps.size)
    (hj : ∀ j ∈ js, (g'.jump j).next = (g.jump j).next ∧
      (g'.jump j).destination = (g.jump j).destination) : g'.Filed d e js where
  ne_nil := h.ne_nil
  nodup := h.nodup
  isChain := h.isChain.congr hsize fun j hjs ↦ (hj j hjs).1
  destination j hjs := (hj j hjs).2.trans (h.destination j hjs)

/-- Every edge has its own chain of jumps, filed under their destination. -/
structure Chained (g : FlowGraph) : Prop where
  keys : ∀ f, ((g.flow f).successors.map (·.1)).Nodup
  filed : ∀ f d e, (d, e) ∈ (g.flow f).successors → g.Filed d e (g.chain e.jumps)
  own : ∀ f f' d d' j, j ∈ g.jumpsTo f d → j ∈ g.jumpsTo f' d' → f = f'

section Lookup

variable {l : List (FlowId × Edge)}

theorem lookup_eq_some_of_mem (hl : (l.map (·.1)).Nodup) (h : (d, e) ∈ l) :
    l.lookup d = some e := by
  induction l with
  | nil => simp at h
  | cons x l ih =>
    obtain ⟨hx, hl⟩ := List.nodup_cons.mp hl
    rcases List.mem_cons.mp h with rfl | h
    · simp
    · have hne : d ≠ x.1 := fun he ↦ hx (List.mem_map.mpr ⟨_, h, he⟩)
      rw [List.lookup_cons, beq_false_of_ne hne]
      exact ih hl h

theorem mem_of_lookup_eq_some (h : l.lookup d = some e) : (d, e) ∈ l := by
  induction l with
  | nil => simp at h
  | cons x l ih =>
    rw [List.lookup_cons] at h
    split at h
    next hb =>
      obtain rfl : x.2 = e := by simpa using h
      simp [eq_of_beq hb]
    next => exact List.mem_cons_of_mem _ (ih h)

end Lookup

/-- The destinations of the edges of a flow block. -/
def keys (g : FlowGraph) (f : FlowId) : List FlowId := (g.flow f).successors.map (·.1)

theorem mem_keys : d ∈ g.keys f ↔ ∃ e, (d, e) ∈ (g.flow f).successors := by
  simp [keys]

namespace Chained

variable (h : g.Chained)
include h

theorem edge?_eq_some (hm : (d, e) ∈ (g.flow f).successors) : (g.flow f).edge? d = some e :=
  lookup_eq_some_of_mem (h.keys f) hm

theorem jumpsTo_of_mem (hm : (d, e) ∈ (g.flow f).successors) : g.jumpsTo f d = g.chain e.jumps := by
  rw [jumpsTo, h.edge?_eq_some hm]
  rfl

omit h in
theorem jumpsTo_of_not_mem (hm : d ∉ g.keys f) : g.jumpsTo f d = [] := by
  have : (g.flow f).edge? d = none := by
    rw [Flow.edge?, List.lookup_eq_none_iff]
    intro x hx
    have hne : d ≠ x.1 := by
      rintro rfl
      exact hm (List.mem_map_of_mem hx)
    simpa using hne
  rw [jumpsTo, this]
  rfl

theorem jumpsTo_ne_nil : g.jumpsTo f d ≠ [] ↔ d ∈ g.keys f := by
  constructor
  · exact fun hne ↦ by_contra fun hm ↦ hne (jumpsTo_of_not_mem hm)
  · intro hm
    obtain ⟨e, hm⟩ := mem_keys.mp hm
    rw [h.jumpsTo_of_mem hm]
    exact (h.filed _ _ _ hm).ne_nil

theorem filed_jumpsTo (hj : j ∈ g.jumpsTo f d) :
    ∃ e, (d, e) ∈ (g.flow f).successors ∧ g.Filed d e (g.jumpsTo f d) := by
  have hm := h.jumpsTo_ne_nil.mp (List.ne_nil_of_mem hj)
  obtain ⟨e, hm⟩ := mem_keys.mp hm
  exact ⟨e, hm, h.jumpsTo_of_mem hm ▸ h.filed _ _ _ hm⟩

theorem destination (hj : j ∈ g.jumpsTo f d) : (g.jump j).destination = d := by
  obtain ⟨e, -, hf⟩ := h.filed_jumpsTo hj
  exact hf.destination j hj

theorem lt_size (hj : j ∈ g.jumpsTo f d) : j.index < g.jumps.size := by
  obtain ⟨e, -, hf⟩ := h.filed_jumpsTo hj
  exact hf.isChain.lt_size hj

theorem nodup_jumpsTo : (g.jumpsTo f d).Nodup := by
  by_cases hm : d ∈ g.keys f
  · obtain ⟨e, hm⟩ := mem_keys.mp hm
    rw [h.jumpsTo_of_mem hm]
    exact (h.filed _ _ _ hm).nodup
  · rw [jumpsTo_of_not_mem hm]
    exact List.nodup_nil

end Chained

/-- The jumps on all edges of a flow block. -/
def listed (g : FlowGraph) (f : FlowId) : List JumpId :=
  (g.flow f).successors.flatMap fun e ↦ g.chain e.2.jumps

theorem Chained.mem_listed (h : g.Chained) :
    j ∈ g.listed f ↔ j ∈ g.jumpsTo f (g.jump j).destination := by
  constructor
  · intro hj
    obtain ⟨⟨d, e⟩, hm, hj⟩ := List.mem_flatMap.mp hj
    rw [← h.jumpsTo_of_mem hm] at hj
    rwa [h.destination hj]
  · intro hj
    obtain ⟨e, hm, hf⟩ := h.filed_jumpsTo hj
    exact List.mem_flatMap.mpr ⟨(_, e), hm, hf.chain ▸ hj⟩

theorem Chained.mem_listed_of_mem (h : g.Chained) (hj : j ∈ g.jumpsTo f d) : j ∈ g.listed f :=
  h.mem_listed.mpr (h.destination hj ▸ hj)

variable {f' : FlowId} {g'' : FlowGraph}

section Update

/-- Just the edge from `s` to `d` changes: it gets the chain `js`, or goes if that is empty. -/
structure Rechained (s d : FlowId) (js : List JumpId) (g g' : FlowGraph) : Prop where
  size : g.jumps.size ≤ g'.jumps.size
  other : ∀ f ≠ s, (g'.flow f).successors = (g.flow f).successors
  self : ∃ new, (g'.flow s).successors = (g.flow s).successors.filter (·.1 ≠ d) ++ new ∧
    (new = [] ∧ js = [] ∨ ∃ e, new = [(d, e)] ∧ g'.Filed d e js)
  jump : ∀ f d' j, j ∈ g.jumpsTo f d' → ¬ (f = s ∧ d' = d) →
    (g'.jump j).next = (g.jump j).next ∧ (g'.jump j).destination = (g.jump j).destination
  free : ∀ j ∈ js, ∀ f d', j ∈ g.jumpsTo f d' → f = s

namespace Rechained

variable (h : Rechained s d js g g') (hg : g.Chained)
include h hg

theorem filed_of_mem (hm : (f, e) ∈ (g.flow s).successors) (hf : f ≠ d) :
    g'.Filed f e (g.chain e.jumps) ∧ g'.chain e.jumps = g.chain e.jumps := by
  have hfiled := (hg.filed _ _ _ hm).congr h.size fun j hj ↦
    h.jump s f j (hg.jumpsTo_of_mem hm ▸ hj) fun h ↦ hf h.2
  exact ⟨hfiled, hfiled.chain⟩

theorem filed_of_ne (hf : f' ≠ s) (hm : (f, e) ∈ (g.flow f').successors) :
    g'.Filed f e (g.chain e.jumps) ∧ g'.chain e.jumps = g.chain e.jumps := by
  have hfiled := (hg.filed _ _ _ hm).congr h.size fun j hj ↦
    h.jump f' f j (hg.jumpsTo_of_mem hm ▸ hj) fun h ↦ hf h.1
  exact ⟨hfiled, hfiled.chain⟩

omit hg in
theorem keys_eq : g'.keys s = (g.keys s).filter (· ≠ d) ++ if js = [] then [] else [d] := by
  obtain ⟨new, hself, hnew⟩ := h.self
  have hfilter : ((g.flow s).successors.filter (·.1 ≠ d)).map (·.1) =
      ((g.flow s).successors.map (·.1)).filter (· ≠ d) := by
    rw [List.filter_map]
    rfl
  rw [keys, hself, List.map_append, hfilter]
  rcases hnew with ⟨rfl, rfl⟩ | ⟨e, rfl, hf⟩
  · simp [keys]
  · simp [keys, hf.ne_nil]

variable {d' : FlowId}

omit hg in
theorem edges_self (hm : (d', e) ∈ (g'.flow s).successors) :
    ((d', e) ∈ (g.flow s).successors ∧ d' ≠ d) ∨ d' = d ∧ g'.Filed d e js := by
  obtain ⟨new, hself, hnew⟩ := h.self
  rw [hself, List.mem_append, List.mem_filter] at hm
  rcases hm with ⟨hm, hd⟩ | hm
  · exact .inl ⟨hm, by simpa using hd⟩
  · rcases hnew with ⟨rfl, rfl⟩ | ⟨e', rfl, hf⟩
    · simp at hm
    · obtain ⟨rfl, rfl⟩ : d' = d ∧ e = e' := by simpa using hm
      exact .inr ⟨rfl, hf⟩

theorem nodup_keys (f : FlowId) : (g'.keys f).Nodup := by
  by_cases hf : f = s
  · subst hf
    rw [h.keys_eq, List.nodup_append']
    refine ⟨(hg.keys f).filter _, by split <;> simp, ?_⟩
    intro x hx hx'
    split at hx'
    · simp at hx'
    · simp only [List.mem_singleton] at hx'
      simp [hx'] at hx
  · rw [keys, h.other f hf]
    exact hg.keys f

theorem jumpsTo_eq : g'.jumpsTo f d' = if f = s ∧ d' = d then js else g.jumpsTo f d' := by
  have hedge : ∀ {f d' e}, (d', e) ∈ (g'.flow f).successors →
      g'.jumpsTo f d' = g'.chain e.jumps := fun hm ↦ by
    rw [jumpsTo, Flow.edge?, lookup_eq_some_of_mem (h.nodup_keys hg _) hm]
    rfl
  by_cases hf : f = s
  · subst hf
    by_cases hm : d' ∈ g'.keys f
    · obtain ⟨e, hm⟩ := mem_keys.mp hm
      rw [hedge hm]
      rcases h.edges_self hm with ⟨hold, hd⟩ | ⟨rfl, hfiled⟩
      · rw [if_neg fun h ↦ hd h.2, hg.jumpsTo_of_mem hold]
        exact (h.filed_of_mem hg hold hd).2
      · rw [if_pos ⟨rfl, rfl⟩, hfiled.chain]
    · rw [Chained.jumpsTo_of_not_mem hm]
      rw [h.keys_eq, List.mem_append, not_or] at hm
      by_cases hd : d' = d
      · subst hd
        rw [if_pos ⟨rfl, rfl⟩]
        by_contra hjs
        exact hm.2 (by simp [Ne.symm hjs])
      · rw [if_neg fun h ↦ hd h.2, Chained.jumpsTo_of_not_mem]
        intro hk
        exact hm.1 (List.mem_filter.mpr ⟨hk, by simpa using hd⟩)
  · rw [if_neg fun h ↦ hf h.1]
    by_cases hm : d' ∈ g'.keys f
    · obtain ⟨e, hm⟩ := mem_keys.mp hm
      rw [hedge hm]
      rw [h.other f hf] at hm
      rw [hg.jumpsTo_of_mem hm]
      exact (h.filed_of_ne hg hf hm).2
    · rw [Chained.jumpsTo_of_not_mem hm, Chained.jumpsTo_of_not_mem]
      rwa [keys, h.other f hf] at hm

theorem chained : g'.Chained where
  keys := h.nodup_keys hg
  filed f d' e hm := by
    by_cases hf : f = s
    · subst hf
      rcases h.edges_self hm with ⟨hold, hd⟩ | ⟨rfl, hfiled⟩
      · obtain ⟨hfiled, hchain⟩ := h.filed_of_mem hg hold hd
        rwa [hchain]
      · rwa [hfiled.chain]
    · rw [h.other f hf] at hm
      obtain ⟨hfiled, hchain⟩ := h.filed_of_ne hg hf hm
      rwa [hchain]
  own f f' d₁ d₂ j hj hj' := by
    rw [h.jumpsTo_eq hg] at hj hj'
    split at hj
    next he =>
      split at hj'
      next he' => exact he.1.trans he'.1.symm
      next => exact he.1.trans (h.free j hj f' d₂ hj').symm
    next =>
      split at hj'
      next he' => exact (h.free j hj' f d₁ hj).trans he'.1.symm
      next => exact hg.own f f' d₁ d₂ j hj hj'

end Rechained

end Update

section Thread

@[simp] theorem flow_thread (g : FlowGraph) (js : List JumpId) (f : FlowId) :
    (g.thread js).flow f = g.flow f := by
  induction js generalizing g with
  | nil => rfl
  | cons i js ih => rw [thread, ih, flow_modifyJump]

@[simp] theorem flows_thread (g : FlowGraph) (js : List JumpId) : (g.thread js).flows = g.flows := by
  induction js generalizing g with
  | nil => rfl
  | cons i js ih => rw [thread, ih, flows_modifyJump]

@[simp] theorem size_jumps_thread (g : FlowGraph) (js : List JumpId) :
    (g.thread js).jumps.size = g.jumps.size := by
  induction js generalizing g with
  | nil => rfl
  | cons i js ih => rw [thread, ih, size_modifyJump]

theorem jump_thread_of_not_mem (h : j ∉ js) : (g.thread js).jump j = g.jump j := by
  induction js generalizing g with
  | nil => rfl
  | cons i js ih =>
    rw [List.mem_cons, not_or] at h
    rw [thread, ih h.2, jump_modifyJump_of_ne _ _ _ h.1]

theorem jump_thread (g : FlowGraph) (js : List JumpId) (j : JumpId) :
    ((g.thread js).jump j).destination = (g.jump j).destination ∧
      ((g.thread js).jump j).source = (g.jump j).source := by
  induction js generalizing g with
  | nil => exact ⟨rfl, rfl⟩
  | cons i js ih =>
    obtain ⟨hd, hs⟩ := ih (g.modifyJump i ({ · with next := js.head? }))
    rw [thread, hd, hs, jump_modifyJump]
    split <;> exact ⟨rfl, rfl⟩

theorem isChain_thread (hn : js.Nodup) (hlt : ∀ j ∈ js, j.index < g.jumps.size) :
    (g.thread js).IsChain js.head? js := by
  induction js generalizing g with
  | nil => exact isChain_nil.mpr rfl
  | cons i js ih =>
    obtain ⟨hi, hn⟩ := List.nodup_cons.mp hn
    have hnext : ((g.thread (i :: js)).jump i).next = js.head? := by
      rw [thread, jump_thread_of_not_mem hi, jump_modifyJump, if_pos ⟨rfl, hlt i (by simp)⟩]
    refine isChain_cons.mpr ⟨rfl, ?_, ?_⟩
    · rw [size_jumps_thread]
      exact hlt i (by simp)
    · rw [hnext]
      exact ih hn fun j hj ↦ by simpa using hlt j (by simp [hj])

end Thread

section Edges

theorem rechained_setChain (hg : g.Chained) (hs : s.index < g.flows.size) (hne : js ≠ [])
    (hn : js.Nodup) (hlt : ∀ j ∈ js, j.index < g.jumps.size)
    (hd : ∀ j ∈ js, (g.jump j).destination = d)
    (hfree : ∀ j ∈ js, ∀ f d', j ∈ g.jumpsTo f d' → f = s) :
    Rechained s d js g (g.setChain s d js) where
  size := by simp [setChain]
  other f hf := by rw [setChain, flow_modifyFlow_of_ne _ _ hf, flow_thread]
  self := by
    refine ⟨[(d, { ((g.flow s).edge? d).getD {} with jumps := js.head? })], ?_, .inr ⟨_, rfl, ?_⟩⟩
    · rw [setChain, flow_modifyFlow_self _ _ (by simpa using hs), flow_thread]
      rfl
    · refine ⟨hne, hn, ?_, fun j hj ↦ ?_⟩
      · exact (isChain_thread hn hlt).congr (by simp [setChain]) fun j _ ↦ rfl
      · rw [setChain, jump_modifyFlow, (jump_thread ..).1]
        exact hd j hj
  jump f d' j hj hne' := by
    have hjs : j ∉ js := fun hm ↦ hne' ⟨hfree j hm f d' hj, by
      rw [← hd j hm, hg.destination hj]⟩
    rw [setChain, jump_modifyFlow, jump_thread_of_not_mem hjs]
    exact ⟨rfl, rfl⟩
  free := hfree

theorem rechained_removeEdge (hs : s.index < g.flows.size) :
    Rechained s d [] g (g.removeEdge s d) where
  size := by simp [removeEdge]
  other f hf := by
    rw [removeEdge, flow_modifyFlow, flow_modifyFlow_of_ne _ _ hf]
    split <;> rfl
  self := by
    refine ⟨[], ?_, .inl ⟨rfl, rfl⟩⟩
    rw [removeEdge, flow_modifyFlow, flow_modifyFlow_self _ _ hs]
    split <;> simp [Flow.eraseEdge]
  jump f d' j _ _ := ⟨rfl, rfl⟩
  free := by simp

end Edges

/-- The two ends of every edge agree on it. The sentinels have no edges. -/
structure Linked (g : FlowGraph) : Prop extends g.Chained where
  pred_iff : ∀ f d, f.isSentinel = false → (f ∈ (g.flow d).predecessors ↔ d ∈ g.keys f)
  sentinel : ∀ f, f.isSentinel = true → (g.flow f).successors = []

namespace Linked

theorem of_rechained (h : g.Linked) (hr : Rechained s d js g g') (hs : s.isSentinel = false)
    (hp : ∀ f d', f.isSentinel = false → (f ∈ (g'.flow d').predecessors ↔
      if f = s ∧ d' = d then js ≠ [] else f ∈ (g.flow d').predecessors)) : g'.Linked where
  toChained := hr.chained h.toChained
  pred_iff f d' hf := by
    rw [hp f d' hf, ← (hr.chained h.toChained).jumpsTo_ne_nil, hr.jumpsTo_eq h.toChained]
    split
    · rfl
    · rw [h.pred_iff f d' hf, h.jumpsTo_ne_nil]
  sentinel f hf := by
    rw [hr.other f fun he ↦ by simp [he, hs] at hf]
    exact h.sentinel f hf

theorem mem_predecessors_addPredecessor {p : FlowId} (hd : d.index < g.flows.size) :
    f' ∈ ((g.addPredecessor d p).flow f).predecessors ↔
      f' ∈ (g.flow f).predecessors ∨ f' = p ∧ f = d := by
  rw [addPredecessor]
  split
  next hc =>
    constructor
    · exact .inl
    · rintro (h | ⟨rfl, rfl⟩)
      · exact h
      · simpa using hc
  next hc =>
    by_cases hf : f = d
    · subst hf
      simp [flow_modifyFlow_self _ _ hd]
    · simp [flow_modifyFlow_of_ne _ _ hf, hf]

theorem flow_addPredecessor (g : FlowGraph) (d p f : FlowId) :
    ((g.addPredecessor d p).flow f).successors = (g.flow f).successors ∧
      ((g.addPredecessor d p).flow f).bare = (g.flow f).bare := by
  rw [addPredecessor]
  split
  · exact ⟨rfl, rfl⟩
  · rw [flow_modifyFlow]
    split <;> exact ⟨rfl, rfl⟩

@[simp] theorem jump_addPredecessor (g : FlowGraph) (d p : FlowId) (j : JumpId) :
    (g.addPredecessor d p).jump j = g.jump j := by
  rw [addPredecessor]
  split <;> rfl

@[simp] theorem jumps_addPredecessor (g : FlowGraph) (d p : FlowId) :
    (g.addPredecessor d p).jumps = g.jumps := by
  rw [addPredecessor]
  split <;> rfl

end Linked

/-- An edit that leaves everything but edges, the links of jumps and where they lead as it was. -/
structure Rerouted (g g' : FlowGraph) : Prop where
  flows_size : g'.flows.size = g.flows.size
  jumps_size : g'.jumps.size = g.jumps.size
  bare : ∀ f, (g'.flow f).bare = (g.flow f).bare
  source : ∀ j, (g'.jump j).source = (g.jump j).source

theorem Rerouted.trans (h : Rerouted g g') (h' : Rerouted g' g'') : Rerouted g g'' where
  flows_size := h'.flows_size.trans h.flows_size
  jumps_size := h'.jumps_size.trans h.jumps_size
  bare f := (h'.bare f).trans (h.bare f)
  source j := (h'.source j).trans (h.source j)

theorem Rerouted.modifyJump (g : FlowGraph) (j : JumpId) {k : Jump → Jump}
    (hk : ∀ x, (k x).source = x.source) : Rerouted g (g.modifyJump j k) where
  flows_size := by simp
  jumps_size := by simp
  bare _ := rfl
  source i := by
    rw [jump_modifyJump]
    split
    · exact hk _
    · rfl

/-- An edit that leaves everything but edges and the links of jumps as it was. -/
structure Relinked (g g' : FlowGraph) : Prop extends Rerouted g g' where
  destination : ∀ j, (g'.jump j).destination = (g.jump j).destination

namespace Relinked

theorem refl (g : FlowGraph) : Relinked g g :=
  ⟨⟨rfl, rfl, fun _ ↦ rfl, fun _ ↦ rfl⟩, fun _ ↦ rfl⟩

theorem trans (h : Relinked g g') (h' : Relinked g' g'') : Relinked g g'' :=
  ⟨h.toRerouted.trans h'.toRerouted, fun j ↦ (h'.destination j).trans (h.destination j)⟩

theorem modifyFlow (g : FlowGraph) (f : FlowId) {k : Flow → Flow} (hk : ∀ x, (k x).bare = x.bare) :
    Relinked g (g.modifyFlow f k) where
  flows_size := by simp
  jumps_size := by simp
  bare x := by
    rw [flow_modifyFlow]
    split
    · exact hk _
    · rfl
  source _ := rfl
  destination _ := rfl

theorem modifyJump (g : FlowGraph) (j : JumpId) (next : Option JumpId) :
    Relinked g (g.modifyJump j ({ · with next := next })) where
  toRerouted := .modifyJump g j fun _ ↦ rfl
  destination i := by
    rw [jump_modifyJump]
    split <;> rfl

theorem thread (g : FlowGraph) (js : List JumpId) : Relinked g (g.thread js) where
  flows_size := by simp
  jumps_size := by simp
  bare f := by simp
  source j := (jump_thread g js j).2
  destination j := (jump_thread g js j).1

theorem setChain (g : FlowGraph) (s d : FlowId) (js : List JumpId) :
    Relinked g (g.setChain s d js) :=
  (thread g js).trans (modifyFlow _ _ fun _ ↦ rfl)

theorem removeEdge (g : FlowGraph) (s d : FlowId) : Relinked g (g.removeEdge s d) :=
  (modifyFlow g s (k := (·.eraseEdge d)) fun _ ↦ rfl).trans (modifyFlow _ _ fun _ ↦ rfl)

theorem addPredecessor (g : FlowGraph) (d p : FlowId) : Relinked g (g.addPredecessor d p) := by
  rw [FlowGraph.addPredecessor]
  split
  · exact refl g
  · exact modifyFlow _ _ fun _ ↦ rfl

theorem linkJump (g : FlowGraph) (s : FlowId) (j : JumpId) : Relinked g (g.linkJump s j) :=
  (setChain ..).trans (addPredecessor ..)

theorem unlinkJump (g : FlowGraph) (s : FlowId) (j : JumpId) : Relinked g (g.unlinkJump s j) := by
  refine .trans ?_ (modifyJump _ _ _)
  split
  · exact removeEdge ..
  · exact setChain ..

end Relinked

section Link

theorem Rechained.setNext (h : Rechained s d js g g') (i : JumpId)
    (hi : ∀ f d', i ∈ g.jumpsTo f d' → f = s ∧ d' = d) (hjs : i ∉ js) :
    Rechained s d js g (g'.modifyJump i ({ · with next := none })) where
  size := by simpa using h.size
  other := h.other
  self := by
    obtain ⟨new, hself, hnew⟩ := h.self
    refine ⟨new, hself, hnew.imp_right ?_⟩
    rintro ⟨e, rfl, hf⟩
    refine ⟨e, rfl, hf.congr (by simp) fun j hj ↦ ?_⟩
    have hne : j ≠ i := fun he ↦ hjs (he ▸ hj)
    rw [jump_modifyJump_of_ne _ _ _ hne]
    exact ⟨rfl, rfl⟩
  jump f d' j hj hne := by
    have hne' : j ≠ i := fun he ↦ hne (hi f d' (he ▸ hj))
    rw [jump_modifyJump_of_ne _ _ _ hne']
    exact h.jump f d' j hj hne
  free := h.free

theorem mem_predecessors_removeEdge (hd : d.index < g.flows.size) :
    f' ∈ ((g.removeEdge s d).flow f).predecessors ↔
      f' ∈ (g.flow f).predecessors ∧ ¬ (f' = s ∧ f = d) := by
  have hs : ((g.modifyFlow s (·.eraseEdge d)).flow f).predecessors = (g.flow f).predecessors := by
    rw [flow_modifyFlow]
    split <;> rfl
  rw [removeEdge]
  by_cases hf : f = d
  · subst hf
    rw [flow_modifyFlow_self _ _ (by simpa using hd), hs]
    simp
  · rw [flow_modifyFlow_of_ne _ _ hf, hs]
    simp [hf]

theorem Linked.removeEdge (h : g.Linked) (hs : s.index < g.flows.size)
    (hs' : s.isSentinel = false) (hd : d.index < g.flows.size) :
    (g.removeEdge s d).Linked ∧ ∀ f d', (g.removeEdge s d).jumpsTo f d' =
      if f = s ∧ d' = d then [] else g.jumpsTo f d' := by
  have hr := rechained_removeEdge (d := d) hs
  refine ⟨h.of_rechained hr hs' fun f d' _ ↦ ?_, fun f d' ↦ hr.jumpsTo_eq h.toChained⟩
  rw [mem_predecessors_removeEdge hd]
  by_cases hfd : f = s ∧ d' = d <;> simp [hfd]

theorem flow_setChain (g : FlowGraph) (s d f : FlowId) (js : List JumpId) :
    ((g.setChain s d js).flow f).predecessors = (g.flow f).predecessors := by
  rw [setChain, flow_modifyFlow, flow_thread]
  split <;> rfl

/-- The jump is the last of its chain now. -/
theorem Linked.linkJump (h : g.Linked) (hs : s.index < g.flows.size) (hs' : s.isSentinel = false)
    (hj : j.index < g.jumps.size) (hfree : ∀ f d, j ∉ g.jumpsTo f d)
    (hd : (g.jump j).destination.index < g.flows.size) :
    (g.linkJump s j).Linked ∧ ∀ f d, (g.linkJump s j).jumpsTo f d =
      if f = s ∧ d = (g.jump j).destination then g.jumpsTo f d ++ [j] else g.jumpsTo f d := by
  let d := (g.jump j).destination
  let js := g.jumpsTo s d ++ [j]
  have hr : Rechained s d js g (g.setChain s d js) := by
    refine rechained_setChain h.toChained hs (by simp [js]) ?_ ?_ ?_ ?_
    · refine List.nodup_append'.mpr ⟨h.nodup_jumpsTo, by simp, ?_⟩
      simpa using hfree s d
    · intro i hi
      rcases List.mem_append.mp hi with hi | hi
      · exact h.lt_size hi
      · obtain rfl : i = j := by simpa using hi
        exact hj
    · intro i hi
      rcases List.mem_append.mp hi with hi | hi
      · exact h.destination hi
      · obtain rfl : i = j := by simpa using hi
        rfl
    · intro i hi f d' hi'
      rcases List.mem_append.mp hi with hi | hi
      · exact h.own _ _ _ _ i hi' hi
      · obtain rfl : i = j := by simpa using hi
        exact absurd hi' (hfree f d')
  have hr' : Rechained s d js g (g.linkJump s j) := by
    refine ⟨?_, fun f hf ↦ ?_, ?_, fun f d' i hi hne ↦ ?_, hr.free⟩
    · simp [FlowGraph.linkJump, setChain]
    · rw [FlowGraph.linkJump, (Linked.flow_addPredecessor ..).1]
      exact hr.other f hf
    · obtain ⟨new, hself, hnew⟩ := hr.self
      refine ⟨new, ?_, hnew.imp_right ?_⟩
      · rw [FlowGraph.linkJump, (Linked.flow_addPredecessor ..).1]
        exact hself
      · rintro ⟨e, rfl, hf⟩
        exact ⟨e, rfl, hf.congr (by simp [FlowGraph.linkJump, js, d]) fun i _ ↦ by
          simp [FlowGraph.linkJump, js, d]⟩
    · rw [FlowGraph.linkJump, Linked.jump_addPredecessor]
      exact hr.jump f d' i hi hne
  refine ⟨h.of_rechained hr' hs' fun f d' hf ↦ ?_, fun f d' ↦ ?_⟩
  · rw [FlowGraph.linkJump, Linked.mem_predecessors_addPredecessor (by simpa [setChain] using hd),
      flow_setChain]
    by_cases hfd : f = s ∧ d' = d
    · simp [hfd, js, d]
    · rw [if_neg hfd]
      exact or_iff_left hfd
  · rw [hr'.jumpsTo_eq h.toChained]
    split
    next he => rw [he.1, he.2]
    next => rfl

/-- The jump is out of its chain, and the edge goes with its last jump. -/
theorem Linked.unlinkJump (h : g.Linked) (hs : s.index < g.flows.size) (hs' : s.isSentinel = false)
    (hd : (g.jump j).destination.index < g.flows.size) (hj : ∀ f d, j ∈ g.jumpsTo f d → f = s) :
    (g.unlinkJump s j).Linked ∧ ∀ f d, (g.unlinkJump s j).jumpsTo f d =
      if f = s ∧ d = (g.jump j).destination then (g.jumpsTo f d).filter (· ≠ j)
      else g.jumpsTo f d := by
  let d := (g.jump j).destination
  let js := (g.jumpsTo s d).filter (· ≠ j)
  let g₁ := if js.isEmpty then g.removeEdge s d else g.setChain s d js
  have hmem : ∀ i ∈ js, i ∈ g.jumpsTo s d := fun i hi ↦ (List.mem_filter.mp hi).1
  have hr : Rechained s d js g g₁ := by
    simp only [g₁]
    split
    next he =>
      rw [List.isEmpty_iff.mp he]
      exact rechained_removeEdge hs
    next he =>
      exact rechained_setChain h.toChained hs (by simpa using he) (h.nodup_jumpsTo.filter _)
        (fun i hi ↦ h.lt_size (hmem i hi)) (fun i hi ↦ h.destination (hmem i hi))
        fun i hi f d' hi' ↦ h.own _ _ _ _ i hi' (hmem i hi)
  have hr' : Rechained s d js g (g.unlinkJump s j) :=
    hr.setNext j (fun f d' hi ↦ ⟨hj f d' hi, (h.destination hi).symm⟩) (by simp [js])
  have hp : ∀ f, ((g.unlinkJump s j).flow f).predecessors = (g₁.flow f).predecessors := fun f ↦ rfl
  refine ⟨h.of_rechained hr' hs' fun f d' hf ↦ ?_, fun f d' ↦ ?_⟩
  · rw [hp]
    simp only [g₁]
    split
    next he =>
      rw [mem_predecessors_removeEdge (show d.index < _ from hd), List.isEmpty_iff.mp he]
      by_cases hfd : f = s ∧ d' = d <;> simp [hfd]
    next he =>
      rw [flow_setChain]
      by_cases hfd : f = s ∧ d' = d
      · have hne : js ≠ [] := by simpa using he
        obtain ⟨rfl, rfl⟩ := hfd
        obtain ⟨i, hi⟩ := List.exists_mem_of_ne_nil _ hne
        simp only [and_self, if_true, hne, ne_eq, not_false_eq_true, iff_true]
        rw [h.pred_iff f d hf, ← h.jumpsTo_ne_nil]
        exact List.ne_nil_of_mem (hmem i hi)
      · rw [if_neg hfd]
  · rw [hr'.jumpsTo_eq h.toChained]
    split
    next he => rw [he.1, he.2]
    next => rfl

theorem Linked.mem_listed_unlinkJump (h : g.Linked) (hs : s.index < g.flows.size)
    (hs' : s.isSentinel = false) (hd : (g.jump j).destination.index < g.flows.size)
    (hj : j ∈ g.listed s) :
    (g.unlinkJump s j).Linked ∧
      (∀ f d, (g.unlinkJump s j).jumpsTo f d =
        if f = s ∧ d = (g.jump j).destination then (g.jumpsTo f d).filter (· ≠ j)
        else g.jumpsTo f d) ∧
      ∀ f i, i ∈ (g.unlinkJump s j).listed f ↔ i ∈ g.listed f ∧ i ≠ j := by
  have hown : ∀ f d, j ∈ g.jumpsTo f d → f = s := fun f d hf ↦
    h.own _ _ _ _ j hf (h.mem_listed.mp hj)
  obtain ⟨hlinked, hjumps⟩ := h.unlinkJump hs hs' hd hown
  refine ⟨hlinked, hjumps, fun f i ↦ ?_⟩
  rw [hlinked.mem_listed, (Relinked.unlinkJump g s j).destination, hjumps, h.mem_listed]
  split
  · simp
  next hne =>
    refine ⟨fun hi ↦ ⟨hi, ?_⟩, And.left⟩
    rintro rfl
    exact hne ⟨hown f _ hi, rfl⟩

/-- Flow blocks keep the sentinels among their predecessors. -/
def Anchored (g g' : FlowGraph) : Prop :=
  ∀ p f, p.isSentinel = true → (p ∈ (g'.flow f).predecessors ↔ p ∈ (g.flow f).predecessors)

theorem Anchored.of_eq (h : ∀ f, (g'.flow f).predecessors = (g.flow f).predecessors) :
    g.Anchored g' := by
  intro p f _
  rw [h]

theorem Anchored.trans (h : g.Anchored g') (h' : g'.Anchored g'') :
    g.Anchored g'' := fun p f hp ↦ (h' p f hp).trans (h p f hp)

theorem Anchored.filter (hs : s.isSentinel = false) (d : FlowId) :
    g.Anchored (g.modifyFlow d fun f ↦ { f with predecessors := f.predecessors.filter (· ≠ s) }) := by
  intro p f hp
  have hne : p ≠ s := by
    rintro rfl
    simp [hp] at hs
  rw [flow_modifyFlow]
  split
  · simp [hne]
  · rfl

theorem Anchored.removeEdge (hs : s.isSentinel = false) (d : FlowId) :
    g.Anchored (g.removeEdge s d) := by
  refine .trans (.of_eq fun f ↦ ?_) (.filter hs d)
  rw [flow_modifyFlow]
  split <;> rfl

theorem Anchored.unlinkJump (hs : s.isSentinel = false) (j : JumpId) :
    g.Anchored (g.unlinkJump s j) := by
  rw [FlowGraph.unlinkJump]
  split
  · exact .removeEdge hs _
  · exact .of_eq fun f ↦ flow_setChain ..

end Link

end FlowGraph

end Decompile
