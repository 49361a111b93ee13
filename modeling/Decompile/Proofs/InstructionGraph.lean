import Decompile.Proofs.Executions
import Decompile.Proofs.StackShape

/-!
The graph that is built from code without gaps is the graph of its instructions: which code it can be
built from, and where its edges lead.
-/

namespace Decompile

/-- Instructions that take up a range of addresses, each starting where the one before it ends. -/
structure Contiguous (code : List Instruction) : Prop where
  positive : ∀ i ∈ code, 0 < i.length
  adjacent : code.IsChain fun i j ↦ j.address = i.nextAddress

namespace Contiguous

variable {code : List Instruction} {i j : Instruction} {k l n : Nat}

variable (h : Contiguous code) (hi : code[k]? = some i)
include h hi

theorem nextAddress_le (hj : code[l]? = some j) (hkl : k < l) : i.nextAddress ≤ j.address := by
  have hchain : code.IsChain fun i j ↦ i.nextAddress ≤ j.address :=
    h.adjacent.imp fun _ _ he ↦ he.ge
  have htrans : ∀ {x y z : Instruction}, x.nextAddress ≤ y.address → y.nextAddress ≤ z.address →
      x.nextAddress ≤ z.address := fun {x y z} hxy hyz ↦ by
    rw [Instruction.nextAddress] at hyz
    omega
  have : IsTrans Instruction fun i j ↦ i.nextAddress ≤ j.address := ⟨fun _ _ _ ↦ htrans⟩
  obtain ⟨hl, rfl⟩ := List.getElem?_eq_some_iff.mp hj
  obtain ⟨hk, rfl⟩ := List.getElem?_eq_some_iff.mp hi
  exact List.pairwise_iff_getElem.mp (List.isChain_iff_pairwise.mp hchain) k l hk hl hkl

theorem address_succ (hj : code[k + 1]? = some j) :
    j.address = i.nextAddress := by
  obtain ⟨hl, rfl⟩ := List.getElem?_eq_some_iff.mp hj
  obtain ⟨hk, rfl⟩ := List.getElem?_eq_some_iff.mp hi
  exact List.isChain_iff_getElem.mp h.adjacent k hl

theorem pos : i.address < i.nextAddress := by
  have := h.positive i (List.mem_of_getElem? hi)
  rw [Instruction.nextAddress]
  omega

theorem lt_of_nextAddress_lt (hj : code[l]? = some j) (hlt : i.nextAddress < j.nextAddress) :
    k < l := by
  by_contra hle
  rcases Nat.lt_or_eq_of_le (Nat.le_of_not_lt hle) with hlk | heq
  · have := h.nextAddress_le hj hi hlk
    have := h.pos hi
    omega
  · obtain rfl : j = i := Option.some.inj (hj.symm.trans (heq ▸ hi))
    exact absurd hlt (lt_irrefl _)

theorem eq_of_covers (hj : code[l]? = some j) (hn : i.address ≤ n ∧ n < i.nextAddress)
    (hn' : j.address ≤ n ∧ n < j.nextAddress) : k = l := by
  rcases Nat.lt_trichotomy k l with hlt | heq | hlt
  · have := h.nextAddress_le hi hj hlt
    omega
  · exact heq
  · have := h.nextAddress_le hj hi hlt
    omega

theorem eq_of_address (hj : code[l]? = some j) (he : i.address = j.address) : k = l :=
  h.eq_of_covers hi hj ⟨le_rfl, h.pos hi⟩ ⟨he.ge, he ▸ h.pos hj⟩

end Contiguous

/-- Where control can go after an instruction: to its targets, on to the next one, or out of the
method. -/
def Opcode.Continues (op : Opcode) : Continuation → Prop
  | .address target => target ∈ op.controlFlow.targets
  | .next => op.controlFlow.fallsThrough
  | .methodEnd => ∃ kind, op = .returns kind

/-- The instruction accesses the local slot. A long or a double takes the slot after its own too. -/
def Opcode.Accesses (n : Nat) : Opcode → Prop
  | .load kind slot | .store kind slot =>
    n = slot ∨ (kind = .long ∨ kind = .double) ∧ n = slot + 1
  | .iinc slot _ | .ret slot => n = slot
  | _ => False

theorem Opcode.localSlot_lt {op : Opcode} {maxLocals : Nat} :
    (∀ slot ∈ op.localSlot, slot < maxLocals) ↔ ∀ n, op.Accesses n → n < maxLocals := by
  have hwide : ∀ (kind : ValueKind) slot, slot + kind.width - 1 < maxLocals ↔
      ∀ n, (n = slot ∨ (kind = .long ∨ kind = .double) ∧ n = slot + 1) → n < maxLocals := by
    intro kind slot
    cases kind <;> simp [ValueKind.width] <;> omega
  cases op with
  | load kind slot | store kind slot =>
    simp only [localSlot, Option.mem_some_iff, forall_eq']
    exact hwide kind slot
  | _ => simp [localSlot, Accesses]

namespace Analysis

variable {a a' : Analysis} {op : Opcode} {l : Lowered}

section Lower

theorem targets_lowerCases (previous : Option Nat) (cs : List (CaseValue × Nat)) (a : Analysis)
    (target : Nat) : target ∈ (lowerCases previous cs a).2.2.map (·.2) ↔ target ∈ cs.map (·.2) := by
  induction cs generalizing previous a with
  | nil => exact Iff.rfl
  | cons c cs ih =>
    obtain ⟨v, t⟩ := c
    rw [lowerCases_cons]
    dsimp only
    by_cases hs : (cs.head?.map (·.2) == some t) = true
    · rw [if_pos hs, ih, List.map_cons, List.mem_cons, or_iff_right_of_imp]
      intro ht
      subst ht
      obtain ⟨c, hc, hct⟩ := Option.map_eq_some_iff.mp (eq_of_beq hs)
      exact List.mem_map.mpr ⟨c, List.mem_of_head? hc, hct⟩
    · rw [if_neg hs, List.map_cons, List.map_cons, List.mem_cons, List.mem_cons, ih]

theorem targets_orderedCases (cases : List (Int × Nat)) (fallback target : Nat) :
    target ∈ (orderedCases cases fallback).map (·.2) ↔ target ∈ fallback :: cases.map (·.2) := by
  rw [orderedCases, ((List.mergeSort_perm _ _).map _).mem_iff]
  simp [or_comm]

theorem continues_of_lower (h : a.lower op = .ok (a', l)) (c : Continuation) :
    (l.continuation = some c ∨ ∃ x ∈ l.branches, c = .address x.2) ↔ op.Continues c := by
  cases op with
  | switch cases fallback =>
    cases h
    cases c with
    | address target =>
      change _ ↔ target ∈ fallback :: cases.map (·.2)
      rw [← targets_orderedCases, ← targets_lowerCases none _ a]
      simp [Opcode.controlFlow]
    | next => simp [Opcode.Continues]
    | methodEnd => simp [Opcode.Continues]
  | invoke kind ref =>
    rw [lower] at h
    split at h
    · cases h
    · cases h
      cases c <;> simp [Opcode.Continues, Opcode.controlFlow]
  | branch _ operand _ =>
    cases operand <;> cases h <;> cases c <;> simp [Opcode.Continues, Opcode.controlFlow]
  | returns kind =>
    cases kind <;> cases h <;> cases c <;> simp [Opcode.Continues, Opcode.controlFlow]
  | _ => cases h; cases c <;> simp [Opcode.Continues, Opcode.controlFlow, eq_comm]

theorem exists_lower (h : ∀ kind ref, op = .invoke kind ref →
    (MethodDescriptor.parse? ref.descriptor.chars).isSome) (a : Analysis) :
    ∃ a' l, a.lower op = .ok (a', l) := by
  cases op with
  | invoke kind ref =>
    obtain ⟨d, hd⟩ := Option.isSome_iff_exists.mp (h kind ref rfl)
    have hshape : ref.descriptor.callShape? = some d.callShape := by rw [Name.callShape?, hd]; rfl
    simp only [lower, hshape]
    exact ⟨_, _, rfl⟩
  | _ => exact ⟨_, _, rfl⟩

theorem parses_of_lower {kind : InvokeKind} {ref : MemberRef}
    (h : a.lower (.invoke kind ref) = .ok (a', l)) :
    (MethodDescriptor.parse? ref.descriptor.chars).isSome := by
  rw [lower] at h
  split at h
  · cases h
  next shape hs =>
    obtain ⟨d, hd, -⟩ := Option.map_eq_some_iff.mp hs
    exact Option.isSome_of_eq_some hd

end Lower

section Code

variable {maxLocals : Nat} {code : List Instruction} {flows flows' : List (Nat × FlowId)}
  {ps : List Pending} {i : Instruction} {f : FlowId} {c : Continuation}

/-- The instruction accesses no local that there is not, and a call has a descriptor. -/
structure Accepted (maxLocals : Nat) (op : Opcode) : Prop where
  slot : ∀ n, op.Accesses n → n < maxLocals
  call : ∀ kind ref, op = .invoke kind ref → (MethodDescriptor.parse? ref.descriptor.chars).isSome

theorem exists_addInstruction (h : ∀ kind ref, i.opcode = .invoke kind ref →
    (MethodDescriptor.parse? ref.descriptor.chars).isSome) (a : Analysis) :
    ∃ a' f ps, a.addInstruction i = .ok (a', f, ps) := by
  obtain ⟨a₁, l, hl⟩ := exists_lower h a
  rw [addInstruction, hl]
  exact ⟨_, _, _, rfl⟩

theorem addInstructions_isOk : (∃ a' flows' ps,
    addInstructions maxLocals code flows a = .ok (a', flows', ps)) ↔
      ∀ i ∈ code, Accepted maxLocals i.opcode := by
  induction code generalizing flows a with
  | nil => exact ⟨fun _ _ hi ↦ absurd hi List.not_mem_nil, fun _ ↦ ⟨a, flows, [], rfl⟩⟩
  | cons i code ih =>
    simp only [addInstructions_cons_eq_ok, List.forall_mem_cons]
    constructor
    · rintro ⟨a', flows', later, hslot, a₁, f, ps, qs, hi, hrest, _⟩
      obtain ⟨a₂, l, hl, -⟩ := addInstruction_eq_ok hi
      refine ⟨⟨Opcode.localSlot_lt.mp hslot, fun kind ref hop ↦ ?_⟩, ih.mp ⟨_, _, _, hrest⟩⟩
      rw [hop] at hl
      exact parses_of_lower hl
    · rintro ⟨hi, hrest⟩
      obtain ⟨a₁, f, ps, h₁⟩ := exists_addInstruction hi.call a
      obtain ⟨a₂, flows', qs, h₂⟩ := ih.mpr hrest
      exact ⟨a₂, flows', ps ++ qs, Opcode.localSlot_lt.mpr hi.slot, a₁, f, ps, qs, h₁, h₂, rfl⟩

theorem pending_of_addInstruction (h : a.addInstruction i = .ok (a', f, ps)) :
    (∀ p ∈ ps, p.flow = f) ∧ ((∃ p ∈ ps, p.continuation = c) ↔ i.opcode.Continues c) := by
  obtain ⟨a₁, l, hl, -, -, -, -, -, -, rfl⟩ := addInstruction_eq_ok h
  constructor
  · intro p hp
    rw [pendingOf, List.mem_append, List.mem_map, List.mem_map] at hp
    rcases hp with ⟨c, -, rfl⟩ | ⟨x, -, rfl⟩ <;> rfl
  · rw [← continues_of_lower hl c]
    simp only [pendingOf, List.mem_append, List.mem_map, Option.mem_toList]
    constructor
    · rintro ⟨p, hp, hc⟩
      rcases hp with ⟨c, hl, rfl⟩ | ⟨x, hx, rfl⟩
      · exact .inl (hc ▸ hl)
      · exact .inr ⟨x, hx, hc.symm⟩
    · rintro (hc | ⟨x, hx, rfl⟩)
      · exact ⟨_, .inl ⟨c, hc, rfl⟩, rfl⟩
      · exact ⟨_, .inr ⟨x, hx, rfl⟩, rfl⟩

/-- The edges to be made are those of the control flow of the instructions. -/
theorem pending_of_addInstructions
    (h : addInstructions maxLocals code flows a = .ok (a', flows', ps)) :
    (∃ p ∈ ps, p.flow = f ∧ p.continuation = c) ↔
      ∃ k i, code[k]? = some i ∧ f = ⟨a.graph.flows.size + k⟩ ∧ i.opcode.Continues c := by
  induction code generalizing a flows ps with
  | nil =>
    cases h
    simp
  | cons i code ih =>
    obtain ⟨-, a₁, f₁, qs, rs, hi, hrest, rfl⟩ := addInstructions_cons_eq_ok.mp h
    obtain ⟨T, hT⟩ := adds_of_addInstruction hi
    obtain ⟨hflow, hc⟩ := pending_of_addInstruction hi
    simp only [List.mem_append, or_and_right, exists_or]
    rw [ih hrest, hT.size]
    have hfirst : (∃ p ∈ qs, p.flow = f ∧ p.continuation = c) ↔
        f = ⟨a.graph.flows.size⟩ ∧ i.opcode.Continues c := by
      rw [← hc, ← hT.new]
      constructor
      · rintro ⟨p, hp, hpf, hpc⟩
        exact ⟨hpf.symm.trans (hflow p hp), p, hp, hpc⟩
      · rintro ⟨hf, p, hp, hpc⟩
        exact ⟨p, hp, (hflow p hp).trans hf.symm, hpc⟩
    rw [hfirst]
    constructor
    · rintro (⟨hf, hi⟩ | ⟨k, j, hj, hf, hcont⟩)
      · exact ⟨0, i, rfl, hf, hi⟩
      · exact ⟨k + 1, j, hj, hf.trans (by rw [Nat.add_assoc, Nat.add_comm 1]), hcont⟩
    · rintro ⟨k, j, hj, hf, hcont⟩
      cases k with
      | zero =>
        obtain rfl : i = j := Option.some.inj hj
        exact .inl ⟨hf, hcont⟩
      | succ k => exact .inr ⟨k, j, hj, hf.trans (by rw [Nat.add_assoc, Nat.add_comm 1]), hcont⟩

theorem flow_of_addInstructions
    (h : addInstructions maxLocals code flows a = .ok (a', flows', ps)) :
    (∀ g : FlowId, g.index < a.graph.flows.size → a'.flow g = a.flow g) ∧
      ∀ k i, code[k]? = some i → ∃ l root,
        a'.flow ⟨a.graph.flows.size + k⟩ = instructionFlow i l root := by
  induction code generalizing a flows ps with
  | nil =>
    cases h
    exact ⟨fun _ _ ↦ rfl, by simp⟩
  | cons i code ih =>
    obtain ⟨-, a₁, f, qs, rs, hi, hrest, rfl⟩ := addInstructions_cons_eq_ok.mp h
    obtain ⟨T, hT⟩ := adds_of_addInstruction hi
    obtain ⟨hold, hnew⟩ := ih hrest
    rw [hT.size] at hold hnew
    constructor
    · intro g hg
      rw [hold g (by omega), hT.other g]
      intro he
      rw [he, hT.new] at hg
      exact absurd hg (lt_irrefl _)
    · intro k j hj
      cases k with
      | zero =>
        obtain rfl : i = j := Option.some.inj hj
        obtain ⟨l, hl⟩ := hT.flow
        rw [hT.new] at hl
        exact ⟨l, T.id, by rw [Nat.add_zero, hold _ (by simp), hl]⟩
      | succ k =>
        obtain ⟨l, root, hl⟩ := hnew k j hj
        exact ⟨l, root, by rw [← hl, Nat.add_assoc, Nat.add_comm 1]⟩

end Code

section Link

variable {flows : List (Nat × FlowId)} {ps : List Pending} {a₀ : Analysis}
  {dest : Pending → FlowId} {fs : List FlowId}

theorem linkPending_isOk :
    (∃ a', linkPending flows ps a = .ok a') ↔ ∀ p ∈ ps, ∃ d, p.destination flows = .ok d := by
  induction ps generalizing a with
  | nil => simp [linkPending]
  | cons p ps ih =>
    rw [List.forall_mem_cons, linkPending]
    cases hd : p.destination flows with
    | error e => simp [bind, Except.bind]
    | ok d => simpa [bind, Except.bind] using ih

end Link

section Place

variable {m : MethodInfo} {code : List Instruction} {o : Options} {flows : List (Nat × FlowId)}
  {ps : List Pending} {a₀ : Analysis} {f d : FlowId} {n k : Nat} {i : Instruction} {p : Pending}

/-- The flow block that is made of the instruction at a place of the code. -/
def placeId (k : Nat) : FlowId := ⟨3 + k⟩

theorem placeId_inj {k l : Nat} (h : placeId k = placeId l) : k = l :=
  Nat.add_left_cancel (congrArg FlowId.index h)

theorem isSentinel_eq_false : f.isSentinel = false ↔ 3 ≤ f.index := by
  rw [FlowId.isSentinel, decide_eq_false_iff_not, Nat.not_le]
  exact Iff.rfl

theorem isSentinel_placeId (k : Nat) : (placeId k).isSentinel = false :=
  isSentinel_eq_false.mpr (Nat.le_add_right 3 k)

/-- The flow block of the instruction at an address. -/
def IsAt (code : List Instruction) (n : Nat) (f : FlowId) : Prop :=
  ∃ k i, code[k]? = some i ∧ i.address = n ∧ f = placeId k

theorem IsAt.eq (hc : Contiguous code) (hf : IsAt code n f) (hd : IsAt code n d) : f = d := by
  obtain ⟨k, i, hi, hin, rfl⟩ := hf
  obtain ⟨l, j, hj, hjn, rfl⟩ := hd
  rw [hc.eq_of_address hi hj (hin.trans hjn.symm)]

theorem IsAt.isSentinel (h : IsAt code n f) : f.isSentinel = false := by
  obtain ⟨k, i, -, -, rfl⟩ := h
  exact isSentinel_placeId k

/-- The live flow blocks are those of the instructions, each with the range of its own. -/
structure Placed (code : List Instruction) (a : Analysis) : Prop where
  live : ∀ f, a.Live f ↔ ∃ k < code.length, f = placeId k
  range : ∀ k i, code[k]? = some i →
    (a.flow (placeId k)).addr = i.address ∧ (a.flow (placeId k)).length = i.length

theorem Placed.stop (h : Placed code a) (hi : code[k]? = some i) :
    (a.flow (placeId k)).stop = i.nextAddress := by
  rw [Flow.stop, (h.range k i hi).1, (h.range k i hi).2, Instruction.nextAddress]

theorem Placed.flowAt_eq_some (h : Placed code a) (hc : Contiguous code) :
    a.graph.flowAt n = some f ↔
      ∃ k i, code[k]? = some i ∧ (i.address ≤ n ∧ n < i.nextAddress) ∧ f = placeId k := by
  have hfind : ∀ {f}, a.graph.flowAt n = some f →
      ∃ k i, code[k]? = some i ∧ (i.address ≤ n ∧ n < i.nextAddress) ∧ f = placeId k := by
    intro f hf
    obtain ⟨k, hk, rfl⟩ := (h.live f).mp (flowAt_live hf)
    have hi := List.getElem?_eq_getElem hk
    have hcover := List.find?_some hf
    rw [Bool.and_eq_true, decide_eq_true_eq, decide_eq_true_eq] at hcover
    exact ⟨k, code[k], hi, by rw [← h.stop hi, ← (h.range k _ hi).1]; exact hcover, rfl⟩
  refine ⟨hfind, ?_⟩
  rintro ⟨k, i, hi, hn, hf⟩
  have hsome : (a.graph.flowAt n).isSome := by
    rw [FlowGraph.flowAt, List.find?_isSome]
    refine ⟨placeId k, mem_live.mpr ((h.live _).mpr ⟨k, ?_, rfl⟩), ?_⟩
    · exact (List.getElem?_eq_some_iff.mp hi).1
    · rw [Bool.and_eq_true, decide_eq_true_eq, decide_eq_true_eq]
      change (a.flow _).addr ≤ n ∧ n < (a.flow _).stop
      rw [h.stop hi, (h.range k i hi).1]
      exact hn
  obtain ⟨d, hd⟩ := Option.isSome_iff_exists.mp hsome
  obtain ⟨l, j, hj, hn', rfl⟩ := hfind hd
  rw [hd, hf, hc.eq_of_covers hi hj hn hn']

theorem Placed.flowAt_stop (h : Placed code a) (hc : Contiguous code) (hi : code[k]? = some i) :
    a.graph.flowAt (a.flow (placeId k)).stop = some f ↔ IsAt code i.nextAddress f := by
  rw [h.stop hi, h.flowAt_eq_some hc]
  constructor
  · rintro ⟨l, j, hj, hn, hf⟩
    have hkl := hc.lt_of_nextAddress_lt hi hj hn.2
    have hlt : k + 1 < code.length := by
      have := (List.getElem?_eq_some_iff.mp hj).1
      omega
    have hnext := List.getElem?_eq_getElem hlt
    have haddr := hc.address_succ hi hnext
    have hpos := hc.pos hnext
    obtain rfl := hc.eq_of_covers hnext hj ⟨haddr.le, haddr ▸ hpos⟩ hn
    exact ⟨k + 1, code[k + 1], hnext, haddr, hf⟩
  · rintro ⟨l, j, hj, haddr, hf⟩
    exact ⟨l, j, hj, ⟨haddr.le, haddr ▸ hc.pos hj⟩, hf⟩

theorem isAt_nextAddress (hc : Contiguous code) (hi : code[k]? = some i) :
    (∃ f, IsAt code i.nextAddress f) ↔ k + 1 < code.length := by
  constructor
  · rintro ⟨f, l, j, hj, haddr, _⟩
    have hl := (List.getElem?_eq_some_iff.mp hj).1
    have hkl := hc.lt_of_nextAddress_lt hi hj (haddr ▸ hc.pos hj)
    omega
  · intro hlt
    have hnext := List.getElem?_eq_getElem hlt
    exact ⟨placeId (k + 1), k + 1, code[k + 1], hnext, hc.address_succ hi hnext, rfl⟩

theorem size_opening (m : MethodInfo) (o : Options) (size : Nat) (returnsVoid : Bool)
    (parameters : List Parameter) :
    (opening m o size returnsVoid parameters).graph.flows.size = 3 := by
  rw [opening, (bindParameters_eq ..).2]
  rfl

theorem not_live_opening (m : MethodInfo) (o : Options) (size : Nat) (returnsVoid : Bool)
    (parameters : List Parameter) (f : FlowId) :
    ¬ (opening m o size returnsVoid parameters).Live f := by
  intro hf
  have hlt := hf.1
  have hs := (laid_opening m o size returnsVoid parameters).proper f hf
  rw [isSentinel_eq_false] at hs
  rw [size_opening] at hlt
  omega

theorem lookup_eq_some (hc : Contiguous code)
    (hflows : flows = (code.mapIdx fun k i ↦ (i.address, placeId k)).reverse) :
    flows.lookup n = some f ↔ IsAt code n f := by
  have hmem : ∀ {f}, (n, f) ∈ flows ↔ IsAt code n f := by
    intro f
    rw [hflows, List.mem_reverse, List.mem_mapIdx]
    constructor
    · rintro ⟨k, hk, he⟩
      obtain ⟨haddr, hf⟩ := Prod.mk.inj he
      exact ⟨k, code[k], List.getElem?_eq_getElem hk, haddr, hf.symm⟩
    · rintro ⟨k, i, hi, haddr, hf⟩
      obtain ⟨hk, rfl⟩ := List.getElem?_eq_some_iff.mp hi
      exact ⟨k, hk, by rw [haddr, hf]⟩
  have hlook : ∀ {f}, flows.lookup n = some f → IsAt code n f := by
    intro f hf
    obtain ⟨before, after, hsplit, -⟩ := List.lookup_eq_some_iff.mp hf
    exact hmem.mp (by simp [hsplit])
  refine ⟨hlook, fun hf ↦ ?_⟩
  obtain ⟨d, hd⟩ := lookup_isSome_of_mem (List.mem_map_of_mem (hmem.mpr hf))
  rw [hd, (hlook hd).eq hc hf]

/-- The state after the flow blocks have been made and before they are linked. -/
structure Drafted (m : MethodInfo) (code : List Instruction) (a₀ : Analysis)
    (flows : List (Nat × FlowId)) (ps : List Pending) : Prop where
  laid : a₀.Laid ps
  placed : Placed code a₀
  flows : flows = (code.mapIdx fun k i ↦ (i.address, placeId k)).reverse
  pending : ∀ f c, (∃ p ∈ ps, p.flow = f ∧ p.continuation = c) ↔
    ∃ k i, code[k]? = some i ∧ f = placeId k ∧ i.opcode.Continues c

theorem drafted_of_addInstructions {returnsVoid : Bool} {parameters : List Parameter}
    (h : addInstructions m.maxLocals code [] (opening m o code.length returnsVoid parameters) =
      .ok (a₀, flows, ps)) : Drafted m code a₀ flows ps := by
  have hsize := size_opening m o code.length returnsVoid parameters
  have hflow := (flow_of_addInstructions h).2
  have hlive := fun f ↦ addInstructions_live (g := f) h
  have hpend := fun f c ↦ pending_of_addInstructions (f := f) (c := c) h
  have hfl := (addInstructions_flows h).1
  rw [hsize] at hflow hfl
  simp only [hsize] at hlive hpend
  constructor
  case laid => exact (laid_opening m o code.length returnsVoid parameters).addInstructions h
  case flows => exact hfl.trans (List.append_nil _)
  case pending => exact hpend
  case placed =>
    constructor
    · intro f
      rw [hlive, or_iff_right (not_live_opening m o code.length returnsVoid parameters f)]
      constructor
      · rintro ⟨hle, hlt⟩
        refine ⟨f.index - 3, by omega, ?_⟩
        rw [placeId, Nat.add_sub_cancel' hle]
      · rintro ⟨k, hk, hf⟩
        rw [hf]
        exact ⟨Nat.le_add_right .., Nat.add_lt_add_left hk 3⟩
    · intro k i hi
      obtain ⟨l, root, hl⟩ := hflow k i hi
      rw [placeId, hl]
      exact ⟨rfl, rfl⟩

/-- The flow block that an instruction leads to by one of the ways control can go. -/
def Leads (code : List Instruction) (i : Instruction) (d : FlowId) : Continuation → Prop
  | .address target => IsAt code target d
  | .next => IsAt code i.nextAddress d
  | .methodEnd => d = .endOfMethod

namespace Drafted

variable (hd : Drafted m code a₀ flows ps) (hc : Contiguous code)

include hd

theorem exists_place (hp : p ∈ ps) :
    ∃ k i, code[k]? = some i ∧ p.flow = placeId k ∧ i.opcode.Continues p.continuation :=
  (hd.pending p.flow p.continuation).mp ⟨p, hp, rfl, rfl⟩

include hc

theorem destination_eq_ok (p : Pending) :
    p.destination flows = .ok d ↔ (∃ t, p.continuation = .address t ∧ IsAt code t d) ∨
      p.continuation = .next ∧ d = .nextByAddress ∨
      p.continuation = .methodEnd ∧ d = .endOfMethod := by
  rw [Pending.destination]
  cases p.continuation with
  | address t =>
    simp only [Continuation.address.injEq, exists_eq_left']
    rw [← lookup_eq_some hc hd.flows]
    cases flows.lookup t <;> simp
  | next => simp [eq_comm]
  | methodEnd => simp [eq_comm]

theorem destinations_isOk : (∀ p ∈ ps, ∃ d, p.destination flows = .ok d) ↔
    ∀ i ∈ code, ∀ t ∈ i.opcode.controlFlow.targets, ∃ j ∈ code, j.address = t := by
  simp only [hd.destination_eq_ok hc]
  constructor
  · intro h i hi t ht
    obtain ⟨k, hk⟩ := List.mem_iff_getElem?.mp hi
    obtain ⟨p, hp, -, hpc⟩ := (hd.pending (placeId k) (.address t)).mpr ⟨k, i, hk, rfl, ht⟩
    obtain ⟨d, hdest⟩ := h p hp
    rw [hpc] at hdest
    simp only [Continuation.address.injEq, exists_eq_left', reduceCtorEq, false_and, or_false]
      at hdest
    obtain ⟨l, j, hj, haddr, -⟩ := hdest
    exact ⟨j, List.mem_of_getElem? hj, haddr⟩
  · intro h p hp
    obtain ⟨k, i, hi, -, hcont⟩ := hd.exists_place hp
    cases hpc : p.continuation with
    | address t =>
      rw [hpc] at hcont
      obtain ⟨j, hj, haddr⟩ := h i (List.mem_of_getElem? hi) t hcont
      obtain ⟨l, hl⟩ := List.mem_iff_getElem?.mp hj
      exact ⟨placeId l, .inl ⟨t, rfl, l, j, hl, haddr, rfl⟩⟩
    | next => exact ⟨_, .inr (.inl ⟨rfl, rfl⟩)⟩
    | methodEnd => exact ⟨_, .inr (.inr ⟨rfl, rfl⟩)⟩

theorem goal_eq_next (p : Pending) : p.goal flows = .nextByAddress ↔ p.continuation = .next := by
  constructor
  · intro h
    rw [Pending.goal] at h
    cases hdest : p.destination flows with
    | error e =>
      rw [hdest] at h
      cases h
    | ok d =>
      rw [hdest] at h
      obtain rfl : d = .nextByAddress := h
      rcases (hd.destination_eq_ok hc p).mp hdest with ⟨t, -, ht⟩ | ⟨hn, -⟩ | ⟨-, he⟩
      · cases ht.isSentinel
      · exact hn
      · cases he
  · intro h
    rw [Pending.goal, Pending.destination, h]
    rfl

/-- There is a flow block at each next address that control goes on to unless the last instruction
goes on. -/
theorem flowAt_isSome : (∀ p ∈ ps, p.goal flows = .nextByAddress →
    (a₀.graph.flowAt (a₀.flow p.flow).stop).isSome) ↔
      ∀ i ∈ code.getLast?, i.opcode.controlFlow.fallsThrough = false := by
  have hnext : ∀ {k i}, code[k]? = some i →
      ((a₀.graph.flowAt (a₀.flow (placeId k)).stop).isSome ↔ k + 1 < code.length) := by
    intro k i hi
    rw [Option.isSome_iff_exists, ← isAt_nextAddress hc hi]
    exact exists_congr fun f ↦ hd.placed.flowAt_stop hc hi
  constructor
  · intro h i hi
    rw [List.getLast?_eq_getElem?] at hi
    by_contra hfall
    rw [Bool.not_eq_false] at hfall
    obtain ⟨p, hp, hpf, hpc⟩ := (hd.pending _ .next).mpr ⟨_, i, hi, rfl, hfall⟩
    have hlt := h p hp ((hd.goal_eq_next hc p).mpr hpc)
    rw [hpf, hnext hi] at hlt
    omega
  · intro h p hp hgoal
    obtain ⟨k, i, hi, hpf, hcont⟩ := hd.exists_place hp
    rw [(hd.goal_eq_next hc p).mp hgoal] at hcont
    rw [hpf, hnext hi]
    by_contra hle
    have hk := (List.getElem?_eq_some_iff.mp hi).1
    have hlast : i ∈ code.getLast? := by
      rw [List.getLast?_eq_getElem?, Option.mem_def, ← hi]
      congr 1
      omega
    have hfall : i.opcode.controlFlow.fallsThrough = true := hcont
    rw [h i hlast] at hfall
    cases hfall

theorem destinationOf_eq (hok : ∀ p ∈ ps, p.destination flows = .ok (p.goal flows))
    (hlive : ∀ p ∈ ps, p.goal flows = .nextByAddress → a₀.Live (a₀.nextOf p.flow))
    (hp : p ∈ ps) (hi : code[k]? = some i) (hpf : p.flow = placeId k) :
    a₀.destinationOf flows p = d ↔ Leads code i d p.continuation := by
  have hmem : p.flow ∈ a₀.graph.live := mem_live.mpr (hd.laid.inside p hp).1
  have hgoal := hd.goal_eq_next hc p
  have hdest := (hd.destination_eq_ok hc p).mp (hok p hp)
  rw [destinationOf, resolved]
  cases hpc : p.continuation with
  | next =>
    have hg := hgoal.mpr hpc
    have hl := hlive p hp hg
    rw [if_pos ⟨hmem, hg⟩]
    change _ ↔ IsAt code i.nextAddress d
    rw [← hd.placed.flowAt_stop hc hi, ← hpf]
    rw [nextOf] at hl ⊢
    cases hat : a₀.graph.flowAt (a₀.flow p.flow).stop with
    | some e => rw [Option.getD_some, Option.some.injEq]
    | none =>
      rw [hat] at hl
      have hproper := hd.laid.proper _ hl
      cases hproper
  | address t =>
    simp only [hpc, Continuation.address.injEq, exists_eq_left', reduceCtorEq, false_and,
      or_false] at hdest hgoal
    rw [if_neg fun h ↦ hgoal.mp h.2]
    exact ⟨fun h ↦ h ▸ hdest, fun h ↦ hdest.eq hc h⟩
  | methodEnd =>
    simp only [hpc, reduceCtorEq, false_and, exists_false, true_and, false_or] at hdest hgoal
    rw [if_neg fun h ↦ hgoal.mp h.2, hdest]
    exact eq_comm

theorem mem_keys (hw : Wired a₀ (a₀.destinationOf flows) ps a)
    (hok : ∀ p ∈ ps, p.destination flows = .ok (p.goal flows))
    (hlive : ∀ p ∈ ps, p.goal flows = .nextByAddress → a₀.Live (a₀.nextOf p.flow))
    (hi : code[k]? = some i) :
    d ∈ a.graph.keys (placeId k) ↔ ∃ c, i.opcode.Continues c ∧ Leads code i d c := by
  rw [hw.mem_keys]
  constructor
  · rintro ⟨p, hp, hpf, hpd⟩
    obtain ⟨l, j, hj, hpl, hcont⟩ := hd.exists_place hp
    obtain rfl := placeId_inj (hpf.symm.trans hpl)
    obtain rfl : i = j := Option.some.inj (hi.symm.trans hj)
    exact ⟨p.continuation, hcont, (hd.destinationOf_eq hc hok hlive hp hi hpf).mp hpd⟩
  · rintro ⟨c, hcont, hleads⟩
    obtain ⟨p, hp, hpf, rfl⟩ := (hd.pending (placeId k) c).mpr ⟨k, i, hi, rfl, hcont⟩
    exact ⟨p, hp, hpf, (hd.destinationOf_eq hc hok hlive hp hi hpf).mpr hleads⟩

end Drafted

end Place

section Predecessors

variable {g g' : FlowGraph} {f d p : FlowId} {j : JumpId} {js : List JumpId}

/-- No predecessor is listed twice, and none is a sentinel. -/
def Enrolled (g : FlowGraph) : Prop :=
  ∀ f, (g.flow f).predecessors.Nodup ∧ ∀ p ∈ (g.flow f).predecessors, p.isSentinel = false

theorem Enrolled.congr (h : Enrolled g)
    (hp : ∀ f, (g'.flow f).predecessors = (g.flow f).predecessors) : Enrolled g' := by
  intro f
  rw [hp]
  exact h f

theorem Enrolled.addPredecessor (h : Enrolled g) (hp : p.isSentinel = false) :
    Enrolled (g.addPredecessor d p) := by
  intro f
  rw [FlowGraph.addPredecessor]
  split
  · exact h f
  next hnew =>
    rw [List.contains_iff_mem] at hnew
    rw [FlowGraph.flow_modifyFlow]
    split
    next hf =>
      obtain ⟨rfl, -⟩ := hf
      obtain ⟨hn, hs⟩ := h f
      refine ⟨List.nodup_append'.mpr ⟨hn, List.nodup_singleton p, ?_⟩, ?_⟩
      · rwa [List.disjoint_singleton]
      · rw [List.forall_mem_append, List.forall_mem_singleton]
        exact ⟨hs, hp⟩
    next => exact h f

theorem Enrolled.removeEdge (h : Enrolled g) : Enrolled (g.removeEdge f d) := by
  intro x
  have hsub : ((g.removeEdge f d).flow x).predecessors.Sublist (g.flow x).predecessors := by
    rw [FlowGraph.removeEdge, FlowGraph.flow_modifyFlow, FlowGraph.flow_modifyFlow]
    split
    · split
      · exact List.filter_sublist
      · exact List.filter_sublist
    · split
      · exact List.Sublist.refl _
      · exact List.Sublist.refl _
  exact ⟨(h x).1.sublist hsub, fun p hp ↦ (h x).2 p (hsub.subset hp)⟩

theorem Enrolled.linkJump (h : Enrolled g) (hf : f.isSentinel = false) (j : JumpId) :
    Enrolled (g.linkJump f j) :=
  (h.congr fun x ↦ FlowGraph.flow_setChain g f _ x _).addPredecessor hf

theorem Enrolled.refile (h : Enrolled g) (hf : f.isSentinel = false) :
    Enrolled (g.refile f d js) := by
  induction js generalizing g with
  | nil => exact h
  | cons j js ih =>
    rw [FlowGraph.refile_cons]
    refine ih ?_
    rw [FlowGraph.refile_one]
    exact (h.congr fun x ↦ by rw [FlowGraph.flow_modifyJump]).linkJump hf j

variable (h : Enrolled a.graph)
include h

theorem Enrolled.addJump (hf : f.isSentinel = false) (b : BlockId) :
    Enrolled (a.addJump f b d).1.graph := by
  have hj : Enrolled (a.graph.allocJump d b).1 := h.congr fun _ ↦ rfl
  rw [Analysis.addJump]
  dsimp only
  exact hj.linkJump hf (a.graph.allocJump d b).2

theorem Enrolled.linkPending {flows : List (Nat × FlowId)} {ps : List Pending}
    (hps : ∀ p ∈ ps, p.flow.isSentinel = false) (hlink : linkPending flows ps a = .ok a') :
    Enrolled a'.graph := by
  induction ps generalizing a with
  | nil =>
    cases hlink
    exact h
  | cons p ps ih =>
    rw [List.forall_mem_cons] at hps
    obtain ⟨d, -, hrest⟩ := ok_of_bind hlink
    exact ih (h.addJump hps.1 p.source) hps.2 hrest

theorem Enrolled.resolveNext (hf : f.isSentinel = false) (hr : a.resolveNext f = .ok a') :
    Enrolled a'.graph := by
  rw [Analysis.resolveNext] at hr
  split at hr
  · cases hr
    exact h
  · dsimp only at hr
    split at hr
    · cases hr
    · cases hr
      exact h.removeEdge.refile hf

theorem Enrolled.resolveAll {fs : List FlowId} (hfs : ∀ f ∈ fs, f.isSentinel = false)
    (hr : fs.foldlM Analysis.resolveNext a = .ok a') :
    Enrolled a'.graph := by
  induction fs generalizing a with
  | nil =>
    cases hr
    exact h
  | cons f fs ih =>
    rw [List.forall_mem_cons] at hfs
    obtain ⟨a₁, h₁, hrest⟩ := ok_of_bind hr
    exact ih (h.resolveNext hfs.1 h₁) hfs.2 hrest

theorem Enrolled.setTransfers (fs : List FlowId) :
    Enrolled (fs.foldl setTransfer a).graph := by
  induction fs generalizing a with
  | nil => exact h
  | cons f fs ih =>
    refine ih (h.congr fun x ↦ ?_)
    rw [setTransfer, modifyFlow, FlowGraph.flow_modifyFlow]
    split <;> rfl

end Predecessors

section Build

variable {m : MethodInfo} {code : List Instruction} {o : Options}

/-- What the code of a method has to be like for its graph to be built. -/
structure Buildable (m : MethodInfo) (code : List Instruction) : Prop where
  nonempty : code ≠ []
  descriptor : (MethodDescriptor.parse? m.descriptor.chars).isSome
  accepted : ∀ i ∈ code, Accepted m.maxLocals i.opcode
  targets : ∀ i ∈ code, ∀ t ∈ i.opcode.controlFlow.targets, ∃ j ∈ code, j.address = t
  last : ∀ i ∈ code.getLast?, i.opcode.controlFlow.fallsThrough = false

/-- The graph has one flow block for each instruction, edges wherever control can go, and the lists
of predecessors are the edges read backwards. -/
structure IsGraphOf (code : List Instruction) (a : Analysis) : Prop where
  placed : Placed code a
  entry : a.entry = placeId 0
  successors : ∀ k i d, code[k]? = some i → (d ∈ a.graph.keys (placeId k) ↔
    (∃ t ∈ i.opcode.controlFlow.targets, IsAt code t d) ∨
    (i.opcode.controlFlow.fallsThrough ∧ IsAt code i.nextAddress d) ∨
    ((∃ kind, i.opcode = .returns kind) ∧ d = .endOfMethod))
  nodup_successors : ∀ f, (a.graph.keys f).Nodup
  predecessors : ∀ f d, f ∈ (a.flow d).predecessors ↔
    d ∈ a.graph.keys f ∨ f = .methodEntry ∧ d = a.entry
  nodup_predecessors : ∀ d, (a.flow d).predecessors.Nodup

theorem buildable_of_build (hc : Contiguous code) (h : build m code o = .ok a) :
    Buildable m code := by
  obtain ⟨first, rest, returnsVoid, parameters, a₀, flows, ps, a₁, a₂, rfl, hrv, -, hadd, hlink,
    hnext, -⟩ := build_eq_ok h
  have hd := drafted_of_addInstructions hadd
  obtain ⟨-, hnexts, -⟩ :=
    hd.laid.wired_of_link (fun x hx ↦ live_of_mem_flows hadd hx) hlink hnext
  constructor
  case nonempty => exact List.cons_ne_nil first rest
  case descriptor =>
    obtain ⟨d, hparse, -⟩ := Option.map_eq_some_iff.mp hrv
    exact Option.isSome_of_eq_some hparse
  case accepted => exact addInstructions_isOk.mp ⟨a₀, flows, ps, hadd⟩
  case targets => exact (hd.destinations_isOk hc).mp (linkPending_isOk.mp ⟨a₁, hlink⟩)
  case last =>
    refine (hd.flowAt_isSome hc).mp fun p hp hgoal ↦ ?_
    have hlive := hnexts p hp hgoal
    rw [nextOf] at hlive
    cases hat : a₀.graph.flowAt (a₀.flow p.flow).stop with
    | some f => rfl
    | none =>
      rw [hat] at hlive
      cases hd.laid.proper _ hlive

theorem isGraphOf_of_build (hc : Contiguous code) (h : build m code o = .ok a) :
    IsGraphOf code a := by
  obtain ⟨first, rest, returnsVoid, parameters, a₀, flows, ps, a₁, a₂, hcode, -, -, hadd, hlink,
    hnext, ha⟩ := build_eq_ok h
  have hd := drafted_of_addInstructions hadd
  obtain ⟨hok, hnexts, hw⟩ :=
    hd.laid.wired_of_link (fun x hx ↦ live_of_mem_flows hadd hx) hlink hnext
  have hlaid : a₀.Laid ([] ++ ps) := hd.laid
  obtain ⟨hlinked, -⟩ := (hd.laid.wired (Pending.goal flows)).linkPending hlaid
    (fun x hx ↦ (live_of_mem_flows hadd hx).1) hlink
  have hfirst : code[0]? = some first := by rw [hcode]; rfl
  have hentry : flows.lookup first.address = some (placeId 0) :=
    (lookup_eq_some hc hd.flows).mpr ⟨0, first, hfirst, rfl, rfl⟩
  rw [hentry, Option.getD_some] at ha
  have hlive : a₀.Live (placeId 0) :=
    (hd.placed.live _).mpr ⟨0, (List.getElem?_eq_some_iff.mp hfirst).1, rfl⟩
  have henrolled : Enrolled (a₂.graph.live.foldl setTransfer a₂).graph := by
    refine Enrolled.setTransfers (Enrolled.resolveAll (Enrolled.linkPending ?_ ?_ hlink) ?_ hnext) _
    · intro f
      change (a₀.flow f).predecessors.Nodup ∧ ∀ p ∈ (a₀.flow f).predecessors, _
      rw [(hd.laid.edgeless f).2]
      exact ⟨List.nodup_nil, fun p hp ↦ absurd hp List.not_mem_nil⟩
    · intro p hp
      exact hd.laid.proper _ (hd.laid.inside p hp).1
    · intro f hf
      exact hd.laid.proper f (hlinked.live_iff.mp (mem_live.mp hf))
  generalize a₂.graph.live.foldl setTransfer a₂ = a₃ at ha hw henrolled
  have hW : Wired a₀ (a₀.destinationOf flows) ps a := ha ▸ (hw.enter _).withEntry _
  have hpred : ∀ d, (a.flow d).predecessors =
      (a₃.flow d).predecessors ++ if d = placeId 0 then [.methodEntry] else [] := by
    intro d
    rw [ha]
    change (FlowGraph.flow (FlowGraph.modifyFlow _ (placeId 0) _) d).predecessors = _
    rw [FlowGraph.flow_modifyFlow]
    by_cases hd0 : d = placeId 0
    · rw [if_pos ⟨hd0, hw.flows ▸ hlive.1⟩, if_pos hd0]
      rfl
    · rw [if_neg fun hc ↦ hd0 hc.1, if_neg hd0, List.append_nil]
      rfl
  have hentered : a.entry = placeId 0 := by rw [ha]
  constructor
  case entry => exact hentered
  case nodup_successors => exact hW.linked.keys
  case placed =>
    refine ⟨fun f ↦ hW.live_iff.trans (hd.placed.live f), fun k i hi ↦ ?_⟩
    have haddr : (a.flow (placeId k)).addr = (a₀.flow (placeId k)).addr :=
      (congrArg Flow.addr (hW.bare (placeId k)) :)
    have hlength : (a.flow (placeId k)).length = (a₀.flow (placeId k)).length :=
      (congrArg Flow.length (hW.bare (placeId k)) :)
    rw [haddr, hlength]
    exact hd.placed.range k i hi
  case successors =>
    intro k i d hi
    rw [hd.mem_keys hc hW hok hnexts hi]
    constructor
    · rintro ⟨c, hcont, hleads⟩
      cases c with
      | address t => exact .inl ⟨t, hcont, hleads⟩
      | next => exact .inr (.inl ⟨hcont, hleads⟩)
      | methodEnd => exact .inr (.inr ⟨hcont, hleads⟩)
    · rintro (⟨t, ht, hat⟩ | ⟨hfall, hat⟩ | ⟨hret, hat⟩)
      · exact ⟨.address t, ht, hat⟩
      · exact ⟨.next, hfall, hat⟩
      · exact ⟨.methodEnd, hret, hat⟩
  case predecessors =>
    intro f d
    cases hs : f.isSentinel with
    | false =>
      have hne : f ≠ .methodEntry := fun he ↦ by
        rw [he] at hs
        cases hs
      rw [or_iff_left fun hc ↦ hne hc.1]
      exact hW.linked.pred_iff f d hs
    | true =>
      have hkeys : d ∉ a.graph.keys f := by
        rw [FlowGraph.keys, hW.linked.sentinel f hs]
        exact List.not_mem_nil
      have hnot : f ∉ (a₃.flow d).predecessors := fun hf ↦ by
        have hfalse := (henrolled d).2 f hf
        rw [hs] at hfalse
        cases hfalse
      rw [or_iff_right hkeys, hpred, List.mem_append, or_iff_right hnot, hentered]
      by_cases hd0 : d = placeId 0 <;> simp [hd0]
  case nodup_predecessors =>
    intro d
    rw [hpred]
    obtain ⟨hn, hs⟩ := henrolled d
    split
    · refine List.nodup_append'.mpr ⟨hn, List.nodup_singleton _, ?_⟩
      rw [List.disjoint_singleton]
      intro hm
      cases hs _ hm
    · rwa [List.append_nil]

end Build

end Analysis

end Decompile
