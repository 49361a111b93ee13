import Mathlib.Data.Set.NAry
import Decompile.Proofs.Absorbing
import Decompile.Proofs.Partition
import Decompile.Proofs.Scoping

/-!
An edge keeps the slots that all ways along it write and the locals that some way leaves behind, a
flow block the locals that some way reads from outside. Absorbing a flow block keeps both exact.
-/

namespace Decompile

theorem SlotSet.mem_insertSlot {slot n : Nat} {l : List Nat} :
    n ∈ insertSlot slot l ↔ n = slot ∨ n ∈ l := by
  induction l with
  | nil => simp [insertSlot]
  | cons s l ih =>
    unfold insertSlot
    split_ifs with hlt heq
    · rw [List.mem_cons]
    · simp [heq]
    · rw [List.mem_cons, ih, List.mem_cons]
      tauto

theorem SlotSet.mem_union {s t : SlotSet} {n : Nat} :
    n ∈ (s.union t).slots ↔ n ∈ s.slots ∨ n ∈ t.slots := by
  rw [union]
  generalize t.slots = l
  induction l generalizing s with
  | nil => simp
  | cons slot l ih =>
    rw [List.foldl_cons, ih, insert, mem_insertSlot, List.mem_cons]
    tauto

theorem SlotSet.mem_inter {s t : SlotSet} {n : Nat} :
    n ∈ (s.inter t).slots ↔ n ∈ s.slots ∧ n ∈ t.slots := by
  simp [inter, contains]

theorem VariableSet.mem_union {s t : VariableSet} {x : LocalId} :
    x ∈ (s.union t).members ↔ x ∈ s.members ∨ x ∈ t.members := mem_foldl_add

theorem VariableSet.mem_withoutKilled {s : VariableSet} {kill : SlotSet} {t : Locals}
    {x : LocalId} : x ∈ (s.withoutKilled kill t).members ↔
      x ∈ s.members ∧ ∀ n, t.slot x = some n → n ∉ kill.slots := by
  cases h : t.slot x <;> simp [withoutKilled, SlotSet.kills, SlotSet.contains, h]

/-- The writes on a way through the code, each of a local into its slot. -/
abbrev Writes := List (Nat × LocalId)

/-- What the slot holds after the writes, if one of them is to it. -/
def lastWrite (p : Writes) (n : Nat) : Option LocalId := p.reverse.lookup n

theorem lastWrite_append (p q : Writes) (n : Nat) :
    lastWrite (p ++ q) n = (lastWrite q n).or (lastWrite p n) := by
  rw [lastWrite, List.reverse_append, List.lookup_append]
  rfl

theorem mem_of_lastWrite {p : Writes} {n : Nat} {x : LocalId} (h : lastWrite p n = some x) :
    (n, x) ∈ p := by
  obtain ⟨before, after, hp, -⟩ := List.lookup_eq_some_iff.mp h
  rw [← List.mem_reverse, hp]
  simp

/-- What an edge keeps is what there is to know of the ways along it. -/
structure Edge.Exact (t : Locals) (P : Set Writes) (e : Edge) : Prop where
  nonempty : P.Nonempty
  slots : ∀ p ∈ P, ∀ w ∈ p, t.slot w.2 = some w.1
  kill : ∀ n, n ∈ e.kill.slots ↔ ∀ p ∈ P, lastWrite p n ≠ none
  gen : ∀ x, x ∈ e.gen.members ↔ ∃ p ∈ P, ∃ n, lastWrite p n = some x

/-- There are no ways where there is no edge. -/
structure Edge.Describes (t : Locals) (P : Set Writes) (o : Option Edge) : Prop where
  exact : ∀ e ∈ o, e.Exact t P
  empty : o = none → P = ∅

/-- The reads are those that some way comes to before it writes their slot. A way to a read is given
by the writes on it. -/
def VariableSet.Exact (t : Locals) (R : Set (Writes × LocalId)) (reads : VariableSet) : Prop :=
  ∀ x, x ∈ reads.members ↔ ∃ p, (p, x) ∈ R ∧ ∀ n, t.slot x = some n → lastWrite p n = none

/-- The ways that go along one of each. -/
def through (P Q : Set Writes) : Set Writes := Set.image2 (· ++ ·) P Q

namespace Edge

variable {t t' : Locals} {P Q : Set Writes} {e e' : Edge}

theorem Exact.congr (h : e.Exact t P) (ht : ∀ x, t'.slot x = t.slot x) (hk : e'.kill = e.kill)
    (hg : e'.gen = e.gen) : e'.Exact t' P where
  nonempty := h.nonempty
  slots p hp w hw := (ht w.2).trans (h.slots p hp w hw)
  kill n := by rw [hk, h.kill]
  gen x := by rw [hg, h.gen]

theorem Exact.exists_of_not_killed (h : e.Exact t P) {n : Nat} (hn : n ∉ e.kill.slots) :
    ∃ p ∈ P, lastWrite p n = none := by
  rw [h.kill] at hn
  push Not at hn
  exact hn

theorem Exact.spares_iff (h : e.Exact t P) (x : LocalId) :
    (∀ n, t.slot x = some n → n ∉ e.kill.slots) ↔
      ∃ p ∈ P, ∀ n, t.slot x = some n → lastWrite p n = none := by
  constructor
  · intro hx
    cases hslot : t.slot x with
    | none => exact h.nonempty.imp fun p hp ↦ ⟨hp, by simp⟩
    | some n => simpa using h.exists_of_not_killed (hx n hslot)
  · rintro ⟨p, hp, hx⟩ n hn hkill
    exact (h.kill n).mp hkill p hp (hx n hn)

/-- Along a way the writes add up, and the last one counts. -/
theorem Exact.compose (h : e.Exact t P) (h' : e'.Exact t Q) :
    (Analysis.composeEdges t e e').Exact t (through P Q) where
  nonempty := h.nonempty.image2 h'.nonempty
  slots := by
    rintro _ ⟨p, hp, q, hq, rfl⟩ w hw
    exact (List.mem_append.mp hw).elim (h.slots p hp w) (h'.slots q hq w)
  kill n := by
    refine SlotSet.mem_union.trans ⟨?_, fun hall ↦ ?_⟩
    · rintro hn _ ⟨p, hp, q, hq, rfl⟩ hnone
      rw [lastWrite_append, Option.or_eq_none_iff] at hnone
      rw [h.kill, h'.kill] at hn
      exact hn.elim (fun hn ↦ hn p hp hnone.2) fun hn ↦ hn q hq hnone.1
    · by_contra hn
      rw [not_or] at hn
      obtain ⟨p, hp, hpn⟩ := h.exists_of_not_killed hn.1
      obtain ⟨q, hq, hqn⟩ := h'.exists_of_not_killed hn.2
      exact hall _ ⟨p, hp, q, hq, rfl⟩ (by simp [lastWrite_append, hpn, hqn])
  gen x := by
    refine (VariableSet.mem_union.trans (or_congr (h'.gen x) VariableSet.mem_withoutKilled)).trans
      ⟨?_, ?_⟩
    · rintro (⟨q, hq, n, hx⟩ | ⟨hx, hlives⟩)
      · obtain ⟨p, hp⟩ := h.nonempty
        exact ⟨_, ⟨p, hp, q, hq, rfl⟩, n, by simp [lastWrite_append, hx]⟩
      · obtain ⟨p, hp, n, hx⟩ := (h.gen x).mp hx
        obtain ⟨q, hq, hqn⟩ :=
          h'.exists_of_not_killed (hlives n (h.slots p hp _ (mem_of_lastWrite hx)))
        exact ⟨_, ⟨p, hp, q, hq, rfl⟩, n, by simp [lastWrite_append, hx, hqn]⟩
    · rintro ⟨_, ⟨p, hp, q, hq, rfl⟩, n, hx⟩
      rw [lastWrite_append, Option.or_eq_some_iff] at hx
      obtain hx | ⟨hqn, hx⟩ := hx
      · exact .inl ⟨q, hq, n, hx⟩
      · refine .inr ⟨(h.gen x).mpr ⟨p, hp, n, hx⟩, fun m hm hkill ↦ ?_⟩
        obtain rfl : n = m := Option.some.inj ((h.slots p hp _ (mem_of_lastWrite hx)).symm.trans hm)
        exact (h'.kill n).mp hkill q hq hqn

/-- Of two ways one is taken, so both have to write a slot and one is enough to leave a local. -/
theorem Exact.join (h : e.Exact t P) (h' : e'.Exact t Q) :
    Exact t (P ∪ Q) { e with kill := e.kill.inter e'.kill, gen := e.gen.union e'.gen } where
  nonempty := h.nonempty.inl
  slots p hp := hp.elim (h.slots p) (h'.slots p)
  kill n := by
    rw [SlotSet.mem_inter, h.kill, h'.kill]
    simp only [Set.mem_union, or_imp, forall_and]
  gen x := by
    rw [VariableSet.mem_union, h.gen, h'.gen]
    simp only [Set.mem_union, or_and_right, exists_or]

end Edge

namespace Analysis

open Edge

variable {a : Analysis} {f s : FlowId} {edge : Edge} {E : Set Writes} {P Q : FlowId → Set Writes}

theorem slot_mergeBySlot (a : Analysis) (reads writes : VariableSet) (x : LocalId) :
    (a.mergeBySlot reads writes).locals.slot x = a.locals.slot x := by
  have hkeep (l : List LocalId) (op : Analysis → LocalId → Analysis)
      (hop : ∀ a y, (op a y).locals.slot x = a.locals.slot x) (a : Analysis) :
      (l.foldl op a).locals.slot x = a.locals.slot x := by
    induction l generalizing a with
    | nil => rfl
    | cons y l ih => exact (ih _).trans (hop a y)
  refine hkeep _ _ (fun a read ↦ hkeep _ _ (fun a write ↦ ?_) a) a
  exact Locals.slot_merge ..

/-- Taking over an edge adds the ways through it to those of its destination. -/
theorem describes_takeEdge {out : FlowId × Edge} (hf : f.index < a.graph.flows.size)
    (hE : edge.Exact a.locals E) (hP : ∀ d, Describes a.locals (P d) ((a.flow f).edge? d))
    (hQ : out.2.Exact a.locals (Q out.1)) (d : FlowId) :
    Describes a.locals (P d ∪ {p | inherited f s out.1 = d ∧ p ∈ through E (Q out.1)})
      (((takeEdge f s edge a out).flow f).edge? d) := by
  have hold := hP (inherited f s out.1)
  have hthrough := hE.compose hQ
  rw [takeEdge, Flow.edge?, flow]
  dsimp only
  rw [FlowGraph.successors_inheritEdge _ _ _ _ _ _ _ hf, if_pos rfl, List.lookup_append,
    show (if out.1 = s then f else out.1) = inherited f s out.1 from rfl]
  generalize inherited f s out.1 = c at *
  by_cases hd : c = d
  · subst hd
    simp only [lookup_filter_self, true_and, Set.ofPred_mem_eq, Option.none_or, List.lookup_cons,
      beq_self_eq_true]
    refine ⟨fun e he ↦ ?_, by simp⟩
    obtain rfl := Option.some.inj he
    split
    next e he => exact ((hold.exact e he).join hthrough).congr (fun _ ↦ rfl) rfl rfl
    next hnone =>
      rw [hold.empty hnone, Set.empty_union]
      exact hthrough.congr (fun _ ↦ rfl) rfl rfl
  · rw [lookup_filter_ne (Ne.symm hd), List.lookup_cons, beq_false_of_ne (Ne.symm hd)]
    simpa [hd, Flow.edge?, flow] using hP d

theorem describes_foldl_takeEdge {outs : List (FlowId × Edge)} (hf : f.index < a.graph.flows.size)
    (hE : edge.Exact a.locals E) (hP : ∀ d, Describes a.locals (P d) ((a.flow f).edge? d))
    (hQ : ∀ o ∈ outs, o.2.Exact a.locals (Q o.1)) (d : FlowId) :
    Describes a.locals
      (P d ∪ {p | ∃ o ∈ outs, inherited f s o.1 = d ∧ p ∈ through E (Q o.1)})
      (((outs.foldl (takeEdge f s edge) a).flow f).edge? d) := by
  induction outs generalizing a P with
  | nil => simpa using hP d
  | cons o outs ih =>
    rw [List.forall_mem_cons] at hQ
    have hstep := describes_takeEdge (s := s) (Q := Q) hf hE hP hQ.1
    obtain ⟨e, he⟩ := exists_takeEdge f s edge a o
    have hlocals : (takeEdge f s edge a o).locals = a.locals := by rw [he]
    have hsize : (takeEdge f s edge a o).graph.flows.size = a.graph.flows.size := by
      simp only [he, FlowGraph.sizes_inheritEdge]
    rw [List.foldl_cons]
    generalize takeEdge f s edge a o = a' at hstep hlocals hsize ⊢
    rw [← hlocals] at hE hQ hstep ⊢
    simpa only [Set.union_def, Set.mem_ofPred_eq, List.mem_cons, or_and_right, or_assoc, exists_or,
      exists_eq_left] using ih (hsize.symm ▸ hf) hE hstep hQ.2

/-- After `f` has absorbed `s`, each of its edges is exact for the ways there were and for those
that go through `s`, and its reads are exact for the code of both. -/
theorem absorb_exact {R S : Set (Writes × LocalId)} (hfs : f ≠ s)
    (hf : f.index < a.graph.flows.size) (hkeys : ((a.flow s).successors.map (·.1)).Nodup)
    (hE : edge.Exact a.locals E) (hP : ∀ d, Describes a.locals (P d) ((a.flow f).edge? d))
    (hQ : ∀ d, Describes a.locals (Q d) ((a.flow s).edge? d))
    (hR : (a.flow f).reads.Exact a.locals R) (hS : (a.flow s).reads.Exact a.locals S) :
    (∀ d, Describes (a.absorb f s edge).locals
        (P d ∪ {p | ∃ c, (if c = s then f else c) = d ∧ p ∈ through E (Q c)})
        (((a.absorb f s edge).flow f).edge? d)) ∧
      ((a.absorb f s edge).flow f).reads.Exact (a.absorb f s edge).locals
        (R ∪ {r | ∃ p ∈ E, ∃ q, (q, r.2) ∈ S ∧ r.1 = p ++ q}) := by
  obtain ⟨a₁, a₂, h⟩ := exists_absorption a f s edge
  obtain ⟨htaken, -, hbare⟩ := foldl_takeEdge_eq f s edge (a.flow s).successors a₁
  rw [h.taken] at htaken hbare
  have hlocals : (a.absorb f s edge).locals = a₁.locals := by rw [h.rest, htaken]
  have hslot (x : LocalId) : a₁.locals.slot x = a.locals.slot x := by
    rw [h.given]
    exact slot_mergeBySlot ..
  have hflow : (a.absorb f s edge).flow f = (a.flow s).stretch (a₂.flow f) := by
    rw [h.flow, if_neg fun hn ↦ hfs hn.1, if_pos ⟨rfl, hf⟩]
    rfl
  have hexact {e : Edge} {U : Set Writes} (he : e.Exact a.locals U) : e.Exact a₁.locals U :=
    he.congr hslot rfl rfl
  have hedges (d : FlowId) : (a₁.flow f).edge? d = (a.flow f).edge? d := by
    rw [Flow.edge?, h.successors, if_neg fun hn ↦ hfs hn.1]
    rfl
  have hreads : ((a.absorb f s edge).flow f).reads = (a₁.flow f).reads := by
    rw [hflow]
    exact (congrArg Flow.reads (hbare f) :)
  rw [hlocals, hreads, h.reads, if_pos ⟨rfl, hf⟩, hflow]
  refine ⟨fun d ↦ ?_, fun x ↦ ?_⟩
  · have hrun := describes_foldl_takeEdge (s := s) (P := P) (h.size.symm ▸ hf) (hexact hE)
      (fun d ↦ ⟨fun e he ↦ hexact ((hP d).exact e (hedges d ▸ he)), fun hn ↦
        (hP d).empty (hedges d ▸ hn)⟩)
      (fun o ho ↦ hexact ((hQ o.1).exact o.2 (FlowGraph.lookup_eq_some_of_mem hkeys ho))) d
    rw [h.taken] at hrun
    have hways (p : Writes) : (∃ o ∈ (a.flow s).successors, inherited f s o.1 = d ∧
        p ∈ through E (Q o.1)) ↔ ∃ c, (if c = s then f else c) = d ∧ p ∈ through E (Q c) := by
      constructor
      · rintro ⟨o, -, ho⟩
        exact ⟨o.1, ho⟩
      · rintro ⟨c, hc, hp⟩
        cases he : (a.flow s).edge? c with
        | some e => exact ⟨(c, e), FlowGraph.mem_of_lookup_eq_some he, hc, hp⟩
        | none => simp [(hQ c).empty he, through] at hp
    simp only [hways] at hrun
    exact hrun
  · rw [VariableSet.mem_union, VariableSet.mem_withoutKilled, hR x, hS x]
    simp only [hslot]
    rw [hE.spares_iff]
    constructor
    · rintro (⟨p, hp, hn⟩ | ⟨⟨q, hq, hqn⟩, p, hp, hpn⟩)
      · exact ⟨p, .inl hp, hn⟩
      · refine ⟨p ++ q, .inr ⟨p, hp, q, hq, rfl⟩, fun n hn ↦ ?_⟩
        rw [lastWrite_append, hqn n hn, hpn n hn]
        rfl
    · rintro ⟨_, hp | ⟨p, hp, q, hq, rfl⟩, hn⟩
      · exact .inl ⟨_, hp, hn⟩
      · have hnone n h := Option.or_eq_none_iff.mp ((lastWrite_append p q n).symm.trans (hn n h))
        exact .inr ⟨⟨q, hq, fun n h ↦ (hnone n h).1⟩, p, hp, fun n h ↦ (hnone n h).2⟩

/-- The second flow block reads slot 2 and writes slot 1 on its way back to itself. -/
def spinning : Analysis :=
  { (default : Analysis) with
    locals := ⟨⟨#[⟨.slot, some 1⟩, ⟨.slot, some 1⟩, ⟨.slot, some 2⟩]⟩, {}⟩
    graph.flows := ⟨#[default, { (default : Flow) with
      reads := ⟨[⟨2⟩]⟩
      successors := [(⟨1⟩, ⟨⟨[1]⟩, ⟨[⟨1⟩]⟩, none⟩)] }]⟩ }

theorem exact_single {t : Locals} {n : Nat} {x : LocalId} (h : t.slot x = some n) :
    Exact t {[(n, x)]} ⟨⟨[n]⟩, ⟨[x]⟩, none⟩ where
  nonempty := Set.singleton_nonempty _
  slots := by simpa using h
  kill m := by by_cases hm : m = n <;> simp [lastWrite, hm]
  gen y := by
    constructor
    · intro hy
      obtain rfl := List.mem_singleton.mp hy
      exact ⟨_, rfl, n, by simp [lastWrite]⟩
    · rintro ⟨_, rfl, m, hm⟩
      simpa using congrArg Prod.snd (List.mem_singleton.mp (mem_of_lastWrite hm))

theorem absorb_exact_spinning :
    ((spinning.absorb ⟨0⟩ ⟨1⟩ ⟨⟨[1]⟩, ⟨[⟨0⟩]⟩, none⟩).flow ⟨0⟩).edge? ⟨0⟩ ≠ none ∧
      ⟨2⟩ ∈ ((spinning.absorb ⟨0⟩ ⟨1⟩ ⟨⟨[1]⟩, ⟨[⟨0⟩]⟩, none⟩).flow ⟨0⟩).reads.members := by
  have hnone : Describes spinning.locals ∅ none := ⟨by simp, fun _ ↦ rfl⟩
  have hQ (d : FlowId) : Describes spinning.locals (if d = ⟨1⟩ then {[(1, ⟨1⟩)]} else ∅)
      ((spinning.flow ⟨1⟩).edge? d) := by
    by_cases hd : d = ⟨1⟩
    · rw [hd]
      exact ⟨fun e he ↦ Option.some.inj he ▸ exact_single rfl, fun he ↦ by cases he⟩
    · rw [show (spinning.flow ⟨1⟩).edge? d = none from List.lookup_eq_none_iff.mpr
        (List.forall_mem_singleton.mpr (bne_iff_ne.mpr hd)), if_neg hd]
      exact hnone
  have hR : (spinning.flow ⟨0⟩).reads.Exact spinning.locals ∅ := fun x ↦
    iff_of_false List.not_mem_nil (by simp)
  have hS : (spinning.flow ⟨1⟩).reads.Exact spinning.locals {([], ⟨2⟩)} := by
    intro x
    constructor
    · intro h
      exact ⟨[], congrArg _ (List.mem_singleton.mp h), fun _ _ ↦ rfl⟩
    · rintro ⟨_, h, -⟩
      exact List.mem_singleton.mpr (congrArg Prod.snd h)
  obtain ⟨hedge, hreads⟩ := absorb_exact (by decide) (by decide) (by decide)
    (exact_single (n := 1) (x := ⟨0⟩) rfl) (fun _ ↦ hnone) hQ hR hS
  refine ⟨fun he ↦ ?_, (hreads _).mpr ⟨_, .inr ⟨_, rfl, [], rfl, rfl⟩, fun n hn ↦ ?_⟩⟩
  · have hempty := (hedge ⟨0⟩).empty he
    exact (Set.ext_iff.mp hempty _).mp (.inr ⟨⟨1⟩, rfl, _, rfl, _, rfl, rfl⟩)
  · obtain rfl : 2 = n := Option.some.inj hn
    rfl

end Analysis

end Decompile
