import Decompile.Proofs.Executions
import Decompile.Proofs.StackStep
import Decompile.Proofs.Structuring

/-!
Locals are only ever joined with locals that are kept in the same place: in the same slot, or both
on the operand stack, both as caught exceptions or both as selectors of a dispatcher. This holds at
every stage of the analysis, with exception handlers and subroutines.
-/

namespace Decompile

namespace Locals

variable {t : Locals} {x y : LocalId}

/-- The kind of a local of its own, whatever its class. -/
def origin (t : Locals) (x : LocalId) : LocalKind := (t.infos.get x.index).kind

/-- Where a local is kept: in a slot, or among the values of one kind that have none. -/
def storage (t : Locals) (x : LocalId) : Nat ⊕ LocalKind := (t.slot x).elim (.inr (t.origin x)) .inl

variable {slot : Nat} {kind : LocalKind}

theorem storage_eq_inl : t.storage x = .inl slot ↔ t.slot x = some slot := by
  unfold storage
  cases t.slot x <;> simp

theorem storage_eq_inr : t.storage x = .inr kind ↔ t.slot x = none ∧ t.origin x = kind := by
  unfold storage
  cases t.slot x <;> simp

theorem slot_eq_of_storage (h : t.storage x = t.storage y) : t.slot x = t.slot y := by
  unfold storage at h
  cases hx : t.slot x <;> cases hy : t.slot y <;> simp_all

theorem storage_of_sameSlot (h : t.sameSlot x y = true) : t.storage x = t.storage y := by
  obtain ⟨hx, hxy⟩ := (Bool.and_eq_true _ _).mp h
  obtain ⟨slot, hslot⟩ := Option.isSome_iff_exists.mp hx
  rw [storage_eq_inl.mpr hslot, storage_eq_inl.mpr ((beq_iff_eq.mp hxy).symm.trans hslot)]

theorem lt_size_of_slot (h : t.slot x = some slot) : x.index < t.size := by
  by_contra hx
  rw [Locals.slot, Table.get_of_size_le _ (Nat.le_of_not_lt hx)] at h
  cases h

/-- The classes are in order, each local is kept where its leader is kept, and only values of the
operand stack, exceptions and selectors go without a slot. -/
structure Unmixed (t : Locals) : Prop extends t.WellFormed where
  storage_classOf : ∀ x, t.storage (t.classOf x) = t.storage x
  slotless : ∀ {x kind}, x.index < t.size → t.storage x = .inr kind →
    kind = .stack ∨ kind = .exception ∨ kind = .selector

theorem unmixed_empty : ({} : Locals).Unmixed where
  toWellFormed := wellFormed_empty
  storage_classOf _ := rfl
  slotless h := by cases h

theorem storage_add (t : Locals) (kind : LocalKind) (slot : Option Nat) (x : LocalId) :
    (t.add kind slot).1.storage x =
      if x.index = t.size then (slot.elim (.inr kind) .inl) else t.storage x := by
  by_cases h : x.index = t.infos.size <;>
    cases slot <;> simp [add, storage, Locals.slot, origin, Table.get_push, size, h]

theorem WellFormed.classOf_of_size_le (h : t.WellFormed) (hx : t.size ≤ x.index) :
    t.classOf x = x := by
  refine congrArg LocalId.mk (Partition.find_of_parent?_none ?_)
  rw [Partition.parent?, Table.get_of_size_le]
  · rfl
  · exact h.size_eq.le.trans hx

theorem WellFormed.classOf_lt (h : t.WellFormed) (hx : x.index < t.size) :
    (t.classOf x).index < t.size :=
  h.size_eq ▸ h.classes.find_lt h.bounded (h.size_eq.symm ▸ hx)

theorem Unmixed.add (h : t.Unmixed) {slot : Option Nat}
    (hk : slot = none → kind = .stack ∨ kind = .exception ∨ kind = .selector) :
    (t.add kind slot).1.Unmixed where
  toWellFormed := h.toWellFormed.add kind slot
  storage_classOf x := by
    have hclass : (t.add kind slot).1.classOf x = t.classOf x :=
      congrArg LocalId.mk (h.classes.add.2.2 x.index)
    rw [hclass]
    by_cases hx : x.index < t.size
    · have hlt := h.classOf_lt hx
      rw [storage_add, storage_add, if_neg (by omega), if_neg (by omega), h.storage_classOf]
    · rw [h.classOf_of_size_le (Nat.le_of_not_lt hx)]
  slotless {x k} hx hs := by
    rw [storage_add] at hs
    split at hs
    next =>
      cases slot with
      | none => exact Sum.inr.inj hs ▸ hk rfl
      | some slot => cases hs
    next hne =>
      rw [size_add] at hx
      exact h.slotless (by omega) hs

theorem Unmixed.kind_eq (h : t.Unmixed) (hx : t.storage x = .inr kind) : t.kind x = kind :=
  (storage_eq_inr.mp ((h.storage_classOf x).trans hx)).2

theorem Unmixed.storage_merge (h : t.Unmixed) (hx : x.index < t.size) (hy : y.index < t.size)
    (hxy : t.storage x = t.storage y) (z : LocalId) :
    (t.merge x y).1.storage z = t.storage z := by
  unfold merge
  dsimp only
  split
  case isFalse => rfl
  generalize hl : ((t.classes.merge x.index y.index).1.resolve x.index).2 = leader
  -- The leader comes from one of the two classes, so its storage is that of the two locals.
  have hleader : t.storage ⟨leader⟩ = t.storage x := by
    obtain ⟨l, hends, hfind⟩ := (h.classes.joins_merge h.bounded (h.size_eq.symm ▸ hx)
      (h.size_eq.symm ▸ hy)).find_eq
    obtain rfl : l = leader := by
      rw [← hl]
      exact ((hfind x.index).trans (if_pos (.inl rfl))).symm
    rcases hends with rfl | rfl
    · exact h.storage_classOf x
    · exact (h.storage_classOf y).trans hxy.symm
  have hslot : Locals.slot ⟨t.infos.modify leader ({ · with kind := (t.kind x).strongest (t.kind y) }),
      ((t.classes.merge x.index y.index).1.resolve x.index).1⟩ z = t.slot z := by
    rw [Locals.slot, Table.get_modify]
    split <;> rfl
  rw [storage, storage, hslot]
  cases hs : t.slot z with
  | some slot => rfl
  | none =>
    rw [Option.elim_none, Option.elim_none, origin, Table.get_modify]
    split
    next hz =>
      have hstore : t.storage x = .inr (t.origin z) := by
        rw [← hleader, hz.1]
        exact storage_eq_inr.mpr ⟨hs, rfl⟩
      simp only [h.kind_eq hstore, h.kind_eq (hxy.symm.trans hstore), LocalKind.strongest, le_refl,
        if_true]
    next => rfl

theorem Unmixed.merge (h : t.Unmixed) (hx : x.index < t.size) (hy : y.index < t.size)
    (hxy : t.storage x = t.storage y) : (t.merge x y).1.Unmixed where
  toWellFormed := h.toWellFormed.merge hx hy
  storage_classOf z := by
    rw [h.storage_merge hx hy hxy, h.storage_merge hx hy hxy]
    obtain ⟨l, hends, hfind⟩ := (h.joins_merge hx hy).find_eq
    rw [classOf, hfind]
    split_ifs with hz
    · have hleader : t.storage ⟨l⟩ = t.storage x := by
        rcases hends with rfl | rfl
        · exact h.storage_classOf x
        · exact (h.storage_classOf y).trans hxy.symm
      rw [hleader, ← h.storage_classOf z, classOf]
      rcases hz with hz | hz <;> rw [hz]
      · exact (h.storage_classOf x).symm
      · exact hxy.trans (h.storage_classOf y).symm
    · exact h.storage_classOf z
  slotless hz hs := by
    rw [h.storage_merge hx hy hxy] at hs
    exact h.slotless (by simpa using hz) hs

end Locals

namespace OperandStack

variable {s t : OperandStack} {locals locals' : Locals}

/-- Every entry stands for a local of the operand stack. -/
def Held (s : OperandStack) (locals : Locals) : Prop :=
  ∀ e ∈ s.entries, e.value.index < locals.size ∧ locals.storage e.value = .inr .stack

theorem held_empty (locals : Locals) : ({} : OperandStack).Held locals := fun e he ↦ by cases he

theorem Held.subset (h : s.Held locals) (ht : ∀ e ∈ t.entries, e ∈ s.entries) : t.Held locals :=
  fun e he ↦ h e (ht e he)

theorem Held.of_storage (h : s.Held locals) (hsize : locals'.size = locals.size)
    (hst : ∀ z, locals'.storage z = locals.storage z) : s.Held locals' := fun e he ↦ by
  rw [hsize, hst]
  exact h e he

theorem unmixed_mergeEntries {xs ys : List StackEntry} (hl : locals.Unmixed)
    (hx : Held ⟨xs⟩ locals) (hy : Held ⟨ys⟩ locals) :
    (mergeEntries xs ys locals).1.Unmixed ∧ (mergeEntries xs ys locals).1.size = locals.size ∧
      ∀ z, (mergeEntries xs ys locals).1.storage z = locals.storage z := by
  induction xs generalizing ys locals with
  | nil => exact ⟨hl, rfl, fun _ ↦ rfl⟩
  | cons x xs ih =>
    cases ys with
    | nil => exact ⟨hl, rfl, fun _ ↦ rfl⟩
    | cons y ys =>
      unfold mergeEntries
      split
      next =>
        obtain ⟨hxlt, hxs⟩ := hx x List.mem_cons_self
        obtain ⟨hylt, hys⟩ := hy y List.mem_cons_self
        have hxy := hxs.trans hys.symm
        have hmerge := hl.storage_merge hxlt hylt hxy
        have hx' : Held ⟨xs⟩ locals := hx.subset fun _ ↦ List.mem_cons_of_mem x
        have hy' : Held ⟨ys⟩ locals := hy.subset fun _ ↦ List.mem_cons_of_mem y
        have hsame := Locals.size_merge locals x.value y.value
        obtain ⟨hu, hsize, hst⟩ := ih (hl.merge hxlt hylt hxy) (hx'.of_storage hsame hmerge)
          (hy'.of_storage hsame hmerge)
        exact ⟨hu, hsize.trans hsame, fun z ↦ (hst z).trans (hmerge z)⟩
      next => exact ⟨hl, rfl, fun _ ↦ rfl⟩

theorem unmixed_merge (hl : locals.Unmixed) (hs : s.Held locals) (ht : t.Held locals) :
    (s.merge t locals).1.Unmixed ∧ (s.merge t locals).1.size = locals.size ∧
      ∀ z, (s.merge t locals).1.storage z = locals.storage z := by
  have h := unmixed_mergeEntries hl hs ht
  unfold merge
  split
  · split
    next he => rwa [he] at h
    next he => rwa [he] at h
  · exact ⟨hl, rfl, fun _ ↦ rfl⟩

end OperandStack

variable {α : Type}

namespace Analysis

variable {a a' : Analysis} {f s : FlowId}

theorem Edit.unmixed (h : Edit a a') (ha : a.locals.Unmixed) : a'.locals.Unmixed := by
  cases h with
  | join x y hs =>
    obtain ⟨hx, hxy⟩ := (Bool.and_eq_true _ _).mp hs
    obtain ⟨slot, hslot⟩ := Option.isSome_iff_exists.mp hx
    exact ha.merge (Locals.lt_size_of_slot hslot)
      (Locals.lt_size_of_slot ((beq_iff_eq.mp hxy).symm.trans hslot)) (Locals.storage_of_sameSlot hs)
  | catches => exact ha.add fun _ ↦ .inr (.inl rfl)
  | _ => exact ha

theorem Edits.unmixed (h : Edits a a') (ha : a.locals.Unmixed) : a'.locals.Unmixed := by
  induction h with
  | refl => exact ha
  | tail _ h' ih => exact h'.unmixed ih

theorem unmixed_absorb (ha : a.locals.Unmixed) (f s : FlowId) (edge : Edge) :
    (a.absorb f s edge).locals.Unmixed := by
  rw [absorb_eq]
  exact ((Edits.refl a).mergeBySlot _ _).unmixed ha

/-- A rework, something new, or a change beside the blocks and the locals. A new local is in a slot
or of a kind that is kept in none. -/
inductive Grow (a : Analysis) : Analysis → Prop
  | rework {a' : Analysis} : Rework a a' → Grow a a'
  | alloc (s : Statement) : Grow a (a.alloc s).1
  | addLocal (kind : LocalKind) (slot : Option Nat) :
    (slot = none → kind = .stack ∨ kind = .exception ∨ kind = .selector) →
    Grow a (a.addLocal kind slot).1
  | beside {a' : Analysis} : a'.blocks = a.blocks → a'.locals = a.locals → Grow a a'

def Grows : Analysis → Analysis → Prop := Relation.ReflTransGen Grow

theorem Reworks.grows (h : Reworks a a') : Grows a a' := by
  induction h with
  | refl => exact Relation.ReflTransGen.refl
  | tail _ h' ih => exact Relation.ReflTransGen.tail ih (.rework h')

theorem Edits.grows (h : Edits a a') : Grows a a' := h.reworks.grows

namespace Grows

variable {a'' : Analysis}

theorem refl (a : Analysis) : Grows a a := Relation.ReflTransGen.refl

theorem single (h : Grow a a') : Grows a a' := Relation.ReflTransGen.single h

theorem trans (h : Grows a a') (h' : Grows a' a'') : Grows a a'' := Relation.ReflTransGen.trans h h'

theorem step (h : Grows a a') (h' : Grow a' a'') : Grows a a'' := Relation.ReflTransGen.tail h h'

theorem foldl {k : Analysis → α → Analysis} (h : Grows a a') (hk : ∀ a x, Grows a (k a x))
    (l : List α) : Grows a (l.foldl k a') :=
  List.foldlRecOn l k h fun a' h x _ ↦ h.trans (hk a' x)

theorem modifyFlow (h : Grows a a') (f : FlowId) (k : Flow → Flow) : Grows a (a'.modifyFlow f k) :=
  h.step (.beside rfl rfl)

theorem unmixed (h : Grows a a') (ha : a.locals.Unmixed) : a'.locals.Unmixed := by
  induction h with
  | refl => exact ha
  | tail _ h' ih =>
    cases h' with
    | rework h' =>
      cases h' with
      | edit h' => exact h'.unmixed ih
      | absorb f s edge => exact unmixed_absorb ih f s edge
    | alloc s => exact ih
    | addLocal kind slot hk => exact ih.add hk
    | beside _ hl => exact hl.symm ▸ ih

end Grows

section Build

theorem grows_bindParameters (isStatic : Bool) (ps : List Parameter) (a : Analysis) :
    Grows a (ps.foldl (bindParameter isStatic) a) := by
  refine (Grows.refl a).foldl (fun a p ↦ ?_) ps
  exact (Grows.single (.addLocal _ (some p.slot) fun h ↦ by cases h)).step (.beside rfl rfl)

theorem grows_allocFrees (ws : List Nat) (a : Analysis) : Grows a (a.allocFrees ws).1 := by
  induction ws generalizing a with
  | nil => exact .refl a
  | cons w ws ih =>
    refine Grows.trans ?_ (ih (a.allocFree w).1)
    exact .single (.beside rfl rfl)

theorem grows_lowerCases (previous : Option Nat) (cases : List (CaseValue × Nat)) (a : Analysis) :
    Grows a (lowerCases previous cases a).1 := by
  induction cases generalizing previous a with
  | nil => exact .refl a
  | cons c cases ih => exact ((Grows.single (.alloc _)).step (.alloc _)).trans (ih _ _)

theorem grows_lower {opcode : Opcode} {l : Lowered} (h : a.lower opcode = .ok (a', l)) :
    Grows a a' := by
  have hslot (n : Nat) : Grows a (a.addLocal .slot n).1 := .single (.addLocal _ _ fun h ↦ by cases h)
  have halloc : Grows a (a.alloc .empty).1 := .single (.alloc _)
  cases opcode with
  | load | store | iinc | ret => cases h; exact (hslot _).step (.beside rfl rfl)
  | jsr => cases h; exact halloc
  | returns kind => cases kind <;> cases h <;> exact .single (.beside rfl rfl)
  | branch op operand target => cases operand <;> cases h <;> exact halloc.step (.beside rfl rfl)
  | getField isStatic | putField isStatic =>
    cases isStatic <;> cases h <;> exact .single (.beside rfl rfl)
  | switch cases fallback =>
    cases h
    exact (grows_lowerCases none (orderedCases cases fallback) a).step (.beside rfl rfl)
  | newArray element dimensions => cases h; exact (grows_allocFrees _ a).step (.beside rfl rfl)
  | invoke kind ref =>
    rw [lower] at h
    split at h
    · cases h
    · cases h
      refine Grows.step (.trans ?_ (grows_allocFrees _ (a.allocObject (kind == .static)).1))
        (.beside rfl rfl)
      unfold allocObject
      split <;> exact .single (.beside rfl rfl)
  | _ => cases h; exact .single (.beside rfl rfl)

variable {code : List Instruction} {ps : List Pending}

theorem grows_addInstructions {maxLocals : Nat} {flows flows' : List (Nat × FlowId)}
    (h : addInstructions maxLocals code flows a = .ok (a', flows', ps)) : Grows a a' := by
  induction code generalizing flows a ps with
  | nil =>
    cases h
    exact .refl _
  | cons i code ih =>
    obtain ⟨-, a₁, f, ps, qs, h₁, h₂, -⟩ := addInstructions_cons_eq_ok.mp h
    refine Grows.trans ?_ (ih h₂)
    obtain ⟨⟨a₂, l⟩, hl, h₁⟩ := ok_of_bind h₁
    cases h₁
    exact ((grows_lower hl).step (.alloc _)).step (.beside rfl rfl)

theorem grows_linkPending {flows : List (Nat × FlowId)} (h : linkPending flows ps a = .ok a') :
    Grows a a' := by
  induction ps generalizing a with
  | nil => exact Except.ok.inj h ▸ .refl a
  | cons p ps ih =>
    obtain ⟨d, -, h⟩ := ok_of_bind h
    refine Grows.trans ?_ (ih h)
    exact (Grows.single (.rework (.edit (.hold _ _)))).step (.beside rfl rfl)

theorem grows_resolveNexts {fs : List FlowId} (h : fs.foldlM resolveNext a = .ok a') :
    Grows a a' := by
  induction fs generalizing a with
  | nil => exact Except.ok.inj h ▸ .refl a
  | cons f fs ih =>
    obtain ⟨a₁, h₁, h⟩ := ok_of_bind h
    refine Grows.trans ?_ (ih h)
    unfold resolveNext at h₁
    split at h₁
    next => exact Except.ok.inj h₁ ▸ .refl a
    next =>
      dsimp only at h₁
      split at h₁
      next => cases h₁
      next => exact Except.ok.inj h₁ ▸ .single (.beside rfl rfl)

theorem grows_opening (m : MethodInfo) (o : Options) (size : Nat) (returnsVoid : Bool)
    (ps : List Parameter) :
    Grows (new o.checked (o.fuelFor size)) (opening m o size returnsVoid ps) := by
  refine Grows.trans ?_ (grows_bindParameters m.isStatic ps _)
  exact .single (.beside rfl rfl)

theorem grows_build {m : MethodInfo} {o : Options} (h : build m code o = .ok a) :
    Grows (new o.checked (o.fuelFor code.length)) a := by
  obtain ⟨first, rest, rv, ps, a₀, flows, qs, a₁, a₂, -, -, -, hadd, hlink, hnext, rfl⟩ :=
    build_eq_ok h
  have hlinked := (grows_addInstructions hadd).trans (grows_linkPending hlink)
  have hnexts := ((grows_opening ..).trans hlinked).trans (grows_resolveNexts hnext)
  exact (hnexts.foldl (fun a f ↦ (Grows.refl a).modifyFlow f _) _).step (.beside rfl rfl)

end Build

theorem grows_removeUnreachable (a : Analysis) (handlers : List Nat) :
    Grows a (a.removeUnreachable handlers) :=
  removeUnreachable_induction handlers (.refl a) (fun _ _ he h ↦ h.trans he.grows)
    fun _ f k _ h ↦ h.modifyFlow f k

section Dispatch

theorem Edits.allocSelect (h : Edits a a') (selector : LocalId) (index : Nat) :
    Edits a (a'.allocSelect selector index).1 :=
  (((h.allocExpr _).allocExpr _).allocExpr _).alloc rfl

theorem edits_allocRegions (index : Nat) (fs : List FlowId) (a : Analysis) :
    Edits a (a.allocRegions index fs).1 := by
  induction fs generalizing index a with
  | nil => exact .refl a
  | cons f fs ih => exact ((Edits.refl a).alloc rfl).trans (ih _ _)

theorem edits_dispatchJump (regions : List FlowId) (selector : LocalId) (looped : BlockId)
    (f dest : FlowId) (a : Analysis) (j : JumpId) :
    Edits a (dispatchJump regions selector looped f dest a j) := by
  unfold dispatchJump
  split
  next index _ =>
    refine (((Edits.allocSelect ?_ selector index).alloc rfl).alloc rfl).replaceJumpWith f j _
    exact .ite (fun _ ↦ (Edits.refl a).setLabeled looped) fun _ ↦ .refl a
  next =>
    exact .ite (fun _ ↦ ((Edits.refl a).alloc rfl).replaceJumpWith f j _)
      fun _ ↦ (Edits.refl a).removeJump f j

theorem edits_dispatchJumps (regions : List FlowId) (selector : LocalId) (looped : BlockId)
    (a : Analysis) (f : FlowId) : Edits a (dispatchJumps regions selector looped a f) :=
  (Edits.refl a).foldl (fun a dest ↦ (Edits.refl a).foldl
    (fun a j ↦ edits_dispatchJump regions selector looped f dest a j) _) _

theorem grows_degrade (a : Analysis) : Grows a a.degrade := by
  unfold degrade
  dsimp only
  have hadd : Grows a (a.addLocal .selector none).1 := .single (.addLocal _ _ fun _ ↦ .inr (.inr rfl))
  generalize a.addLocal .selector none = r at hadd ⊢
  generalize a.entry :: a.graph.live.filter (· ≠ a.entry) = regions
  have hselected := hadd.trans ((edits_allocRegions 0 regions r.1).allocExpr (.var r.2)).grows
  refine Grows.modifyFlow (.trans (.foldl ?_ (fun a f ↦ (Grows.refl a).modifyFlow f _) _)
    ((Edits.refl _).mergeBySlot _ _).grows) _ _
  exact (hselected.step (.alloc _)).trans (Edits.foldl
    (((((Edits.refl _).allocExpr _).alloc rfl).allocSelect r.2 0).alloc rfl)
    (fun a f ↦ edits_dispatchJumps regions r.2 _ a f) regions).grows

end Dispatch

/-- The states that the operand stack is threaded through from `a₀` on, each with the stacks met so
far: a stack is consumed, pushed to, shuffled or joined with another one. A join of stacks of
different shapes, which is an error, has joined the entries up to the difference. -/
inductive Threads (a₀ : Analysis) : Analysis → List OperandStack → Prop
  | start : Threads a₀ a₀ [{}]
  | consume {a : Analysis} {pool : List OperandStack} {s rest : OperandStack} {e : ExprId}
      {popped : List LocalId} : Threads a₀ a pool → s ∈ pool →
    s.pop ((a.exprs.freeOperands e).map a.exprs.freeWidth) = .ok (rest, popped) →
    Threads a₀ (Mapping.fill a (a.exprs.freeOperands e) popped) (rest :: pool)
  | push {a : Analysis} {pool : List OperandStack} {s : OperandStack} (b : BlockId) (e : ExprId)
      (width : Nat) : Threads a₀ a pool → s ∈ pool →
    Threads a₀ (Mapping.store ⟨a, [], []⟩ b e width s).1.analysis
      ((Mapping.store ⟨a, [], []⟩ b e width s).2 :: pool)
  | shuffle {a : Analysis} {pool : List OperandStack} {s t : OperandStack} {op : StackOp}
      (b : BlockId) : Threads a₀ a pool → s ∈ pool → s.shuffle op = .ok t →
    Threads a₀ (a.setStatement b .empty) (t :: pool)
  | meet {a : Analysis} {pool : List OperandStack} {s t : OperandStack} : Threads a₀ a pool →
    s ∈ pool → t ∈ pool → Threads a₀ { a with locals := (s.merge t a.locals).1 } pool

section Thread

variable {a₀ : Analysis} {pool : List OperandStack}

theorem locals_fill (es : List ExprId) (xs : List LocalId) (a : Analysis) :
    (Mapping.fill a es xs).locals = a.locals := by
  induction es generalizing xs a with
  | nil => cases xs <;> rfl
  | cons e es ih =>
    cases xs with
    | nil => rfl
    | cons x xs => exact (ih xs _).trans rfl

/-- Stacks hold locals of the operand stack only, so that joining them mixes no storage. -/
theorem Threads.unmixed (h : Threads a₀ a pool) (h₀ : a₀.locals.Unmixed) :
    a.locals.Unmixed ∧ ∀ s ∈ pool, s.Held a.locals := by
  induction h with
  | start => exact ⟨h₀, fun s hs ↦ List.mem_singleton.mp hs ▸ OperandStack.held_empty _⟩
  | @consume a pool s rest e popped _ hs hpop ih =>
    obtain ⟨hu, hheld⟩ := ih
    obtain ⟨taken, hentries, -⟩ := OperandStack.pop_eq hpop
    rw [locals_fill]
    refine ⟨hu, List.forall_mem_cons.mpr ⟨(hheld s hs).subset fun e he ↦ ?_, hheld⟩⟩
    exact hentries ▸ List.mem_append_left _ he
  | @push a pool s b e width _ hs ih =>
    obtain ⟨hu, hheld⟩ := ih
    have hkeep {t : OperandStack} (ht : t.Held a.locals) :
        t.Held (a.locals.add .stack none).1 := by
      intro e he
      obtain ⟨hlt, hst⟩ := ht e he
      rw [Locals.size_add, Locals.storage_add, if_neg (by omega)]
      exact ⟨by omega, hst⟩
    refine ⟨hu.add fun _ ↦ .inl rfl, List.forall_mem_cons.mpr ⟨fun e he ↦ ?_, fun t ht ↦
      hkeep (hheld t ht)⟩⟩
    obtain he | he := List.mem_append.mp he
    · exact hkeep (hheld s hs) e he
    · obtain rfl := List.mem_singleton.mp he
      change (a.locals.add .stack none).2.index < (a.locals.add .stack none).1.size ∧
        (a.locals.add .stack none).1.storage (a.locals.add .stack none).2 = .inr .stack
      rw [hu.index_add, Locals.storage_add, if_pos rfl]
      exact ⟨by simp, rfl⟩
  | @shuffle a pool s t op b _ hs hop ih =>
    obtain ⟨hu, hheld⟩ := ih
    refine ⟨hu, List.forall_mem_cons.mpr ⟨(hheld s hs).subset fun e he ↦ ?_, hheld⟩⟩
    exact OperandStack.mem_of_shuffle hop he
  | @meet a pool s t _ hs ht ih =>
    obtain ⟨hu, hheld⟩ := ih
    obtain ⟨hu', hsize, hst⟩ := OperandStack.unmixed_merge hu (hheld s hs) (hheld t ht)
    refine ⟨hu', fun r hr e he ↦ ?_⟩
    rw [hsize, hst]
    exact hheld r hr e he

theorem Threads.mem_empty (h : Threads a₀ a pool) : {} ∈ pool := by
  induction h with
  | start => exact List.mem_singleton.mpr rfl
  | consume _ _ _ ih => exact List.mem_cons_of_mem _ ih
  | push _ _ _ _ _ ih => exact List.mem_cons_of_mem _ ih
  | shuffle _ _ _ _ ih => exact List.mem_cons_of_mem _ ih
  | meet _ _ _ ih => exact ih

end Thread

end Analysis

namespace Mapping

variable {a₀ : Analysis} {m m' : Mapping} {pool : List OperandStack} {b : BlockId}
  {s t rest : OperandStack} {o o' out : Outgoing}

/-- The state is one that stacks are threaded through, and all the stacks it keeps are among them. -/
structure Threaded (a₀ : Analysis) (pool : List OperandStack) (m : Mapping) : Prop where
  threads : Analysis.Threads a₀ m.analysis pool
  breaks : ∀ p ∈ m.breaks, p.2 ∈ pool
  entries : ∀ p ∈ m.entries, p.2 ∈ pool

/-- The state comes about with stacks threaded on, and `out` is one of those. -/
def Leads (a₀ : Analysis) (pool : List OperandStack) (m : Mapping) (out : Outgoing) : Prop :=
  ∃ pool', pool ⊆ pool' ∧ m.Threaded a₀ pool' ∧ ∀ t ∈ out, t ∈ pool'

theorem Threaded.leads (h : m.Threaded a₀ pool) (ho : ∀ t ∈ out, t ∈ pool) : m.Leads a₀ pool out :=
  ⟨pool, List.Subset.refl _, h, ho⟩

theorem Threaded.consume {e : ExprId} (h : m.Threaded a₀ pool) (hs : s ∈ pool)
    (hc : m.consume e s = .ok (m', rest)) : m'.Leads a₀ pool (some rest) := by
  obtain ⟨⟨r, popped⟩, hpop, hc⟩ := ok_of_bind hc
  cases hc
  refine ⟨_ :: pool, fun _ ↦ List.mem_cons_of_mem _, ⟨h.threads.consume hs hpop,
    fun p hp ↦ List.mem_cons_of_mem _ (h.breaks p hp),
    fun p hp ↦ List.mem_cons_of_mem _ (h.entries p hp)⟩, fun t ht ↦ ?_⟩
  exact Option.some.inj ht ▸ List.mem_cons_self

theorem Threaded.consume? {e : Option ExprId} (h : m.Threaded a₀ pool) (hs : s ∈ pool)
    (hc : m.consume? e s = .ok (m', rest)) : m'.Leads a₀ pool (some rest) := by
  cases e with
  | none =>
    cases hc
    exact h.leads fun t ht ↦ Option.some.inj ht ▸ hs
  | some e => exact h.consume hs hc

theorem Threaded.meet (h : m.Threaded a₀ pool) (hs : s ∈ pool) (ht : t ∈ pool)
    (hm : m.meet s t = .ok (m', rest)) : m'.Threaded a₀ pool ∧ rest = s := by
  unfold Mapping.meet at hm
  split at hm
  next => cases hm
  next locals he =>
    cases hm
    have hthreads := h.threads.meet hs ht
    rw [he] at hthreads
    exact ⟨⟨hthreads, h.breaks, h.entries⟩, rfl⟩

theorem Threaded.join (h : m.Threaded a₀ pool) (ho : ∀ t ∈ o, t ∈ pool) (ho' : ∀ t ∈ o', t ∈ pool)
    (hj : m.join o o' = .ok (m', out)) : m'.Threaded a₀ pool ∧ ∀ t ∈ out, t ∈ pool := by
  cases o with
  | none =>
    cases o' with
    | none =>
      cases hj
      exact ⟨h, ho⟩
    | some t =>
      cases hj
      exact ⟨h, ho'⟩
  | some s =>
    cases o' with
    | none =>
      cases hj
      exact ⟨h, ho⟩
    | some t =>
      obtain ⟨⟨m₁, r⟩, hmeet, hj⟩ := ok_of_bind hj
      cases hj
      obtain ⟨h₁, rfl⟩ := h.meet (ho s rfl) (ho' t rfl) hmeet
      exact ⟨h₁, ho⟩

theorem mem_pool_of_lookup {l : List (BlockId × OperandStack)} (h : ∀ p ∈ l, p.2 ∈ pool)
    (ht : l.lookup b = some t) : t ∈ pool := by
  obtain ⟨before, after, rfl, -⟩ := List.lookup_eq_some_iff.mp ht
  exact h (b, t) (by simp)

theorem Threaded.joinBreaks (h : m.Threaded a₀ pool) (ho : ∀ t ∈ o, t ∈ pool)
    (hj : m.joinBreaks b o = .ok (m', out)) : m'.Threaded a₀ pool ∧ ∀ t ∈ out, t ∈ pool := by
  have h' : Threaded a₀ pool { m with breaks := m.breaks.filter (·.1 ≠ b) } :=
    ⟨h.threads, fun p hp ↦ h.breaks p (List.mem_filter.mp hp).1, h.entries⟩
  exact h'.join ho (fun _ ht ↦ mem_pool_of_lookup h.breaks ht) hj

theorem Leads.weaken {pool' : List OperandStack} (h : m.Leads a₀ pool' out) (hp : pool ⊆ pool') :
    m.Leads a₀ pool out := by
  obtain ⟨pool₁, hsub, h⟩ := h
  exact ⟨pool₁, List.Subset.trans hp hsub, h⟩

/-- The mapping of blocks leads on from every state with every stack at hand. -/
def Tracks (a₀ : Analysis)
    (map : BlockId → OperandStack → Mapping → Except StackError (Mapping × Outgoing)) : Prop :=
  ∀ {b s m m' out pool}, m.Threaded a₀ pool → s ∈ pool → map b s m = .ok (m', out) →
    m'.Leads a₀ pool out

variable {map : BlockId → OperandStack → Mapping → Except StackError (Mapping × Outgoing)}

theorem Threaded.mapCases (hmap : Tracks a₀ map) {cases : List BlockId} {hasDefault known : Bool}
    (h : m.Threaded a₀ pool) (hr : rest ∈ pool) (ho : ∀ t ∈ o, t ∈ pool)
    (hc : Mapping.mapCases map rest cases o hasDefault m = .ok (m', out, known)) :
    m'.Leads a₀ pool out := by
  induction cases generalizing m o hasDefault pool with
  | nil =>
    obtain ⟨rfl, hrest⟩ := Prod.mk.inj (Except.ok.inj hc)
    obtain ⟨rfl, -⟩ := Prod.mk.inj hrest
    exact h.leads ho
  | cons c cases ih =>
    rw [Mapping.mapCases] at hc
    split at hc
    next value body _ _ =>
      obtain ⟨⟨m₁, entry⟩, hj, hc⟩ := ok_of_bind hc
      obtain ⟨⟨m₂, o₂⟩, hb, hc⟩ := ok_of_bind hc
      obtain ⟨h₁, hentry⟩ := h.join (fun t ht ↦ Option.some.inj ht ▸ hr) ho hj
      have hget : entry.getD rest ∈ pool := by
        cases entry with
        | none => exact hr
        | some t => exact hentry t rfl
      obtain ⟨pool₂, hsub, h₂, ho₂⟩ := hmap h₁ hget hb
      exact (ih h₂ (hsub hr) ho₂ hc).weaken hsub
    next => exact ih h hr ho hc

theorem Threaded.mapHandlers (hmap : Tracks a₀ map) {handlers : List BlockId}
    (h : m.Threaded a₀ pool) (ho : ∀ t ∈ o, t ∈ pool)
    (hc : Mapping.mapHandlers map handlers o m = .ok (m', out)) : m'.Leads a₀ pool out := by
  induction handlers generalizing m o pool with
  | nil =>
    cases hc
    exact h.leads ho
  | cons c handlers ih =>
    obtain ⟨⟨m₁, o₁⟩, hb, hc⟩ := ok_of_bind hc
    obtain ⟨⟨m₂, o₂⟩, hj, hc⟩ := ok_of_bind hc
    obtain ⟨pool₁, hsub, h₁, ho₁⟩ := hmap h h.threads.mem_empty hb
    obtain ⟨h₂, ho₂⟩ := h₁.join (fun t ht ↦ hsub (ho t ht)) ho₁ hj
    exact (ih h₂ ho₂ hc).weaken hsub

/-- One case per kind of statement: what it does to the stacks is among the ways to thread them. -/
theorem tracks_mapWithin (a₀ : Analysis) (n : Nat) : Tracks a₀ (mapWithin n) := by
  induction n with
  | zero =>
    intro b s m m' out pool h hs hm
    cases hm
    exact h.leads fun t ht ↦ Option.some.inj ht ▸ hs
  | succ n ih =>
    intro b s m m' out pool h hs hm
    have hself : ∀ t ∈ some s, t ∈ pool := fun t ht ↦ Option.some.inj ht ▸ hs
    have hnone : ∀ t ∈ (none : Outgoing), t ∈ pool := fun t ht ↦ by cases ht
    replace hm := step_of_mapWithin hm
    generalize m.analysis.statement b = st at hm
    cases hm with
    | idle | jsr => exact h.leads hself
    | ret => exact h.leads hnone
    | evaluate hc => exact h.consume hs hc
    | @push e width m₁ rest _ hc =>
      obtain ⟨pool₁, hsub, h₁, hrest⟩ := h.consume hs hc
      refine ⟨_ :: pool₁, fun x hx ↦ List.mem_cons_of_mem _ (hsub hx),
        ⟨h₁.threads.push b e width (hrest rest rfl),
          fun p hp ↦ List.mem_cons_of_mem _ (h₁.breaks p hp),
          fun p hp ↦ List.mem_cons_of_mem _ (h₁.entries p hp)⟩, fun t ht ↦ ?_⟩
      exact Option.some.inj ht ▸ List.mem_cons_self
    | leave _ hc =>
      obtain ⟨pool₁, hsub, h₁, -⟩ := h.consume? hs hc
      exact ⟨pool₁, hsub, h₁, fun t ht ↦ by cases ht⟩
    | @shuffle op t hop =>
      refine ⟨t :: pool, fun _ ↦ List.mem_cons_of_mem _, ⟨h.threads.shuffle b hs hop,
        fun p hp ↦ List.mem_cons_of_mem _ (h.breaks p hp),
        fun p hp ↦ List.mem_cons_of_mem _ (h.entries p hp)⟩, fun t ht ↦ ?_⟩
      exact Option.some.inj ht ▸ List.mem_cons_self
    | @sequence _ _ _ between _ _ h₁ h₂ =>
      obtain ⟨pool₁, hsub, ht₁, ho₁⟩ := ih h hs h₁
      have hget : between.getD {} ∈ pool₁ := by
        cases between with
        | none => exact ht₁.threads.mem_empty
        | some t => exact ho₁ t rfl
      obtain ⟨pool₂, hsub₂, ht₂, ho₂⟩ := ih ht₁ hget h₂
      refine ⟨pool₂, List.Subset.trans hsub hsub₂, ht₂, fun t ht ↦ ?_⟩
      split at ht
      · exact ho₂ t ht
      · cases ht
    | conditional hc h₂ hm =>
      obtain ⟨pool₁, hsub, ht₁, hrest⟩ := h.consume hs hc
      obtain ⟨pool₂, hsub₂, ht₂, ho₂⟩ := ih ht₁ (hrest _ rfl) h₂
      obtain ⟨ht₃, ho₃⟩ := ht₂.join (fun t ht ↦ hsub₂ (hrest t ht)) ho₂ hm
      exact ⟨pool₂, List.Subset.trans hsub hsub₂, ht₃, ho₃⟩
    | ifElse hc h₂ hno hm =>
      obtain ⟨pool₁, hsub, ht₁, hrest⟩ := h.consume hs hc
      obtain ⟨pool₂, hsub₂, ht₂, ho₂⟩ := ih ht₁ (hrest _ rfl) h₂
      obtain ⟨rfl, rfl, rfl⟩ | ⟨c, rfl, h₃⟩ := hno
      · obtain ⟨ht₃, ho₃⟩ := ht₂.join ho₂ (fun t ht ↦ hsub₂ (hrest t ht)) hm
        exact ⟨pool₂, List.Subset.trans hsub hsub₂, ht₃, ho₃⟩
      · obtain ⟨pool₃, hsub₃, ht₃, ho₃⟩ := ih ht₂ (hsub₂ (hrest _ rfl)) h₃
        obtain ⟨ht₄, ho₄⟩ := ht₃.join (fun t ht ↦ hsub₃ (ho₂ t ht)) ho₃ hm
        exact ⟨pool₃, List.Subset.trans (List.Subset.trans hsub hsub₂) hsub₃, ht₄, ho₄⟩
    | within _ hc hm =>
      obtain ⟨pool₁, hsub, ht₁, hrest⟩ := h.consume? hs hc
      exact (ih ht₁ (hrest _ rfl) hm).weaken hsub
    | tryCatch h₁ hm =>
      obtain ⟨pool₁, hsub, ht₁, ho₁⟩ := ih h hs h₁
      exact (ht₁.mapHandlers ih ho₁ hm).weaken hsub
    | switch hc h₂ h₃ hm =>
      obtain ⟨pool₁, hsub, ht₁, hrest⟩ := h.consume hs hc
      obtain ⟨pool₂, hsub₂, ht₂, ho₂⟩ := ht₁.mapCases ih (hrest _ rfl) (fun t ht ↦ by cases ht) h₂
      obtain ⟨ht₃, ho₃⟩ := ht₂.join ho₂ (fun t ht ↦ by
        split at ht
        · cases ht
        · exact hsub₂ (hrest t ht)) h₃
      obtain ⟨ht₄, ho₄⟩ := ht₃.joinBreaks ho₃ hm
      exact ⟨pool₂, List.Subset.trans hsub hsub₂, ht₄, ho₄⟩
    | breakTo hm =>
      obtain ⟨seen, t, hseen, hmeet⟩ | ⟨-, rfl⟩ := hm
      · exact (h.meet (mem_pool_of_lookup h.breaks hseen) hs hmeet).1.leads hnone
      · exact Threaded.leads ⟨h.threads, List.forall_mem_cons.mpr ⟨hs, h.breaks⟩, h.entries⟩ hnone
    | continueTo hm =>
      obtain ⟨entry, t, hentry, hmeet⟩ | ⟨-, rfl⟩ := hm
      · exact (h.meet (mem_pool_of_lookup h.entries hentry) hs hmeet).1.leads hnone
      · exact h.leads hnone
    | @loop kind cond _ incr _ _ _ _ m₂ entry m₃ back m₄ m₅ _ _ h₁ h₂ h₃ hback hback' hi hi' hm =>
      obtain ⟨pool₁, hsub₁, ht₁, hentry₁⟩ := h.consume? hs h₁
      obtain ⟨pool₂, hsub₂, ht₂, hentry⟩ := ht₁.consume (hentry₁ _ rfl) h₂
      have hin := hentry entry rfl
      have hopen : (m₂.enter b entry).Threaded a₀ pool₂ :=
        ⟨ht₂.threads, ht₂.breaks, List.forall_mem_cons.mpr ⟨hin, fun p hp ↦
          ht₂.entries p (List.mem_filter.mp hp).1⟩⟩
      obtain ⟨pool₃, hsub₃, ht₃, ho₃⟩ := ih hopen hin h₃
      have ht₄ : m₄.Threaded a₀ pool₃ := by
        cases back with
        | none => exact hback' rfl ▸ ht₃
        | some t =>
          obtain ⟨t', hmeet⟩ := hback t rfl
          exact (ht₃.meet (ho₃ t rfl) (hsub₃ hin) hmeet).1
      obtain ⟨pool₅, hsub₅, ht₅⟩ : ∃ pool₅, pool₃ ⊆ pool₅ ∧ m₅.Threaded a₀ pool₅ := by
        cases incr with
        | none => exact ⟨pool₃, List.Subset.refl _, hi' rfl ▸ ht₄⟩
        | some i =>
          obtain ⟨o, hi⟩ := hi i rfl
          obtain ⟨pool₅, hsub₅, ht₅, -⟩ := ih ht₄ (hsub₃ hin) hi
          exact ⟨pool₅, hsub₅, ht₅⟩
      -- The loop is left with the stack of its entry or with the one at the end of its body.
      obtain ⟨ht₆, ho₆⟩ := ht₅.joinBreaks (fun t ht ↦ by
        split at ht
        · cases ht
        split at ht
        · exact hsub₅ (ho₃ t ht)
        · exact Option.some.inj ht ▸ hsub₅ (hsub₃ hin)) hm
      exact ⟨pool₅, List.Subset.trans (List.Subset.trans (List.Subset.trans hsub₁ hsub₂) hsub₃)
        hsub₅, ht₆, ho₆⟩

end Mapping

theorem Analysis.threads_mapStack {a a' : Analysis} (h : a.mapStack = .ok a') :
    ∃ pool, Threads a a' pool := by
  obtain ⟨⟨m, out⟩, hm, h⟩ := ok_of_bind h
  cases h
  obtain ⟨pool, -, hpool, -⟩ := Mapping.tracks_mapWithin a _
    ⟨.start, fun _ hp ↦ (by cases hp), fun _ hp ↦ (by cases hp)⟩ (List.mem_singleton.mpr rfl) hm
  exact ⟨pool, hpool.threads⟩

namespace Analysis

/-- The states that the analysis of a method comes to, whether it succeeds or not: while the
parameters are bound and the instructions lowered one by one, while flow blocks are joined and rows
of the exception table structured, after a dispatcher was made, and from one pass to the next while
the tree is finished. -/
inductive Visited (m : MethodInfo) (code : List Instruction) (rows : List ExceptionRow)
    (o : Options) : Analysis → Prop
  | bind {returnsVoid : Bool} {parameters bound : List Parameter} :
    m.returnsVoid? = some returnsVoid → m.parameters? = some parameters → bound <+: parameters →
    Visited m code rows o (opening m o code.length returnsVoid bound)
  | lower {returnsVoid : Bool} {parameters : List Parameter} {done : List Instruction}
      {flows : List (Nat × FlowId)} {pending : List Pending} {a : Analysis} :
    m.returnsVoid? = some returnsVoid → m.parameters? = some parameters → done <+: code →
    addInstructions m.maxLocals done [] (opening m o code.length returnsVoid parameters) =
      .ok (a, flows, pending) → Visited m code rows o a
  | structured {rest : List ExceptionRow} {s : Structuring} :
    Structures (fun _ ↦ True) m code rows o rest s → Visited m code rows o s.analysis
  | degrade {s : Structuring} : Structures (fun _ ↦ True) m code rows o [] s →
    Visited m code rows o { s.analysis.degrade with fuel := o.fuelFor code.length }
  | mergeEnd {a : Analysis} : Visited m code rows o a → Visited m code rows o (a.mergeEnd a.entry)
  | tick {a a' : Analysis} : Visited m code rows o a → a.tick = some a' → Visited m code rows o a'
  | fold {a : Analysis} {b : BlockId} {rule : Rule} {r : Analysis × BlockId} :
    Visited m code rows o a → rule.apply a b = some r →
    Visited m code rows o { r.1 with applied := r.1.applied + 1 }
  | restoreIncrements {a : Analysis} : Visited m code rows o a →
    Visited m code rows o (a.restoreIncrements (a.root a.entry))
  | removeTrailingReturn {a : Analysis} : Visited m code rows o a →
    Visited m code rows o (a.removeTrailingReturn (a.root a.entry))
  | thread {a a' : Analysis} {pool : List OperandStack} : Visited m code rows o a →
    Threads a a' pool → Visited m code rows o a'
  | inline {a a' : Analysis} : Visited m code rows o a → a.inlineOne? = some a' →
    Visited m code rows o a'
  | bindArguments {a : Analysis} : Visited m code rows o a →
    Visited m code rows o
      (a.mergeBySlot (a.flow a.entry).reads (VariableSet.ofList a.parameters))
  | placeDeclarations {a : Analysis} : Visited m code rows o a →
    Visited m code rows o a.placeDeclarations

section Visited

variable {m : MethodInfo} {code : List Instruction} {rows : List ExceptionRow} {o : Options}

theorem grows_structures {rest : List ExceptionRow} {P : FlowId → Prop} {s : Structuring}
    (h : Structures P m code rows o rest s) :
    Grows (new o.checked (o.fuelFor code.length)) s.analysis := by
  induction h with
  | build h => exact grows_build h
  | prune h => exact (grows_build h).trans (grows_removeUnreachable _ _)
  | advance _ h' ih => exact ih.trans (Advances.reworks (.single h')).grows
  | row _ h' ih => exact ih.trans (Structuring.reworks_addRow h').grows

theorem locals_placeDeclarations (a : Analysis) : a.placeDeclarations.locals = a.locals := by
  refine List.foldlRecOn (motive := fun b : Analysis ↦ b.locals = a.locals) _ _ rfl fun b h x _ ↦ ?_
  cases b.scopeOf? _ x <;> exact h

theorem Visited.unmixed (h : Visited m code rows o a) : a.locals.Unmixed := by
  induction h with
  | bind => exact (grows_opening ..).unmixed Locals.unmixed_empty
  | lower _ _ _ h =>
    exact ((grows_opening ..).trans (grows_addInstructions h)).unmixed Locals.unmixed_empty
  | structured h => exact (grows_structures h).unmixed Locals.unmixed_empty
  | degrade h =>
    exact ((grows_structures h).trans (grows_degrade _)).unmixed Locals.unmixed_empty
  | mergeEnd _ ih => exact (edits_mergeEnd _ _).unmixed ih
  | tick _ h ih => exact ((Edits.refl _).tick h).unmixed ih
  | fold _ h ih => exact ((offers_apply _ _ _ _ h).edits.step (.count _)).unmixed ih
  | restoreIncrements _ ih => exact (edits_restoreIncrements _ _).unmixed ih
  | removeTrailingReturn _ ih => exact (edits_removeTrailingReturn _ _).unmixed ih
  | thread _ h ih => exact (h.unmixed ih).1
  | inline _ h ih => exact (offers_inlineOne? _ h).unmixed ih
  | bindArguments _ ih => exact ((Edits.refl _).mergeBySlot _ _).unmixed ih
  | placeDeclarations _ ih => exact (locals_placeDeclarations _).symm ▸ ih

section Passes

variable {P : Analysis → Prop} {f : FlowId}

/-- What a tick of the budget and a folded rule preserve, folding until no rule matches does. -/
theorem fixpoint_induct (htick : ∀ {a a'}, P a → a.tick = some a' → P a')
    (hfold : ∀ {a b} {rule : Rule} {r}, P a → a.blocks.isWithin b (a.root f) → rule.apply a b = some r →
      P { r.1 with applied := r.1.applied + 1 }) (h : P a) : P (a.fixpoint f) := by
  have hpass (bs : List BlockId) (changed : Bool) (a : Analysis) (h : P a) :
      P (foldPass f bs changed a).1 := by
    fun_induction foldPass f bs changed a with
    | case1 changed a => exact h
    | case2 b rest changed a hin ht => exact h
    | case3 b rest changed a hin a₁ ht new a₂ happ ih =>
      obtain ⟨rule, -, r, hr, he⟩ := exists_of_applyFirst (applyFirst_of_applyRules happ)
      obtain ⟨rfl, -⟩ := Prod.mk.inj he
      exact ih (hfold (htick h ht) (tick_eq_some ht ▸ hin) hr)
    | case4 b rest changed a hin a₁ ht a₂ happ ih =>
      obtain rfl := (declined_of_applyRules happ).2
      exact ih (htick h ht)
    | case5 b rest changed a hin ih => exact ih h
  unfold fixpoint
  generalize a.fuel + 1 = n
  induction n generalizing a with
  | zero => exact h
  | succ n ih =>
    have hpass := hpass (a.blocks.subtree (a.root f)) false a h
    rw [fixpointWithin]
    split
    next a₁ he => exact ih (by rwa [he] at hpass)
    next r he => rwa [he] at hpass

theorem inlineStackLocals_induct (hinline : ∀ {a a'}, P a → a.inlineOne? = some a' → P a')
    (h : P a) : P a.inlineStackLocals := by
  unfold inlineStackLocals
  generalize a.blocks.size = n
  induction n generalizing a with
  | zero => exact h
  | succ n ih =>
    rw [inlineWithin]
    split
    next a₁ h₁ => exact ih (hinline h h₁)
    next => exact h

end Passes

theorem Visited.finish (h : Visited m code rows o a) (hf : a.finish = .ok a') :
    Visited m code rows o a' := by
  have hfixpoint {a : Analysis} (h : Visited m code rows o a) (f : FlowId) :
      Visited m code rows o (a.fixpoint f) := fixpoint_induct .tick (fun h _ ↦ .fold h) h
  have hfolded := (hfixpoint h.mergeEnd a.entry).restoreIncrements.removeTrailingReturn
  obtain ⟨a₁, hmap, hf⟩ := ok_of_bind hf
  generalize ((a.mergeEnd a.entry).fixpoint a.entry).restoreIncrements _ = a₂ at hfolded hmap
  generalize a₂.removeTrailingReturn _ = a₃ at hfolded hmap
  cases hm : a₃.mapStack with
  | error e => rw [hm] at hmap; cases hmap
  | ok a₄ =>
    rw [hm] at hmap
    cases hmap
    obtain ⟨pool, hpool⟩ := threads_mapStack hm
    cases hf
    have hinlined := inlineStackLocals_induct .inline (hfolded.thread hpool)
    exact (hfixpoint hinlined _).bindArguments.placeDeclarations

variable {body : MethodBody}

/-- A method that was analyzed was structured, perhaps with a dispatcher, and then finished. -/
theorem analyze_eq_ok (h : analyze m code rows o = .ok body) :
    ∃ s a₁, Structures (fun _ ↦ True) m code rows o [] s ∧
      (a₁ = s.analysis ∨ a₁ = { s.analysis.degrade with fuel := o.fuelFor code.length }) ∧
      a₁.finish = .ok body.analysis := by
  obtain ⟨a, hb, h⟩ := ok_of_bind h
  cases hbuild : build m code o with
  | error e => rw [hbuild] at hb; cases hb
  | ok a₀ =>
    rw [hbuild] at hb
    cases hb
    obtain ⟨⟨a₁, degraded⟩, hall, h⟩ := ok_of_bind h
    obtain ⟨a₂, hfinish, h⟩ := ok_of_bind h
    have hbody : body.analysis = a₂ := by
      dsimp only at h
      split at h
      next => cases h
      next =>
        split at h
        next =>
          obtain ⟨_, -, h⟩ := ok_of_bind h
          exact Except.ok.inj h ▸ rfl
        next => exact Except.ok.inj h ▸ rfl
    rw [hbody]
    obtain ⟨s, hs, rfl⟩ := Structures.of_structureAll hbuild
      (fun _ _ ↦ trivial) trivial hall
    cases degraded with
    | true => exact ⟨s, _, hs, .inr rfl, hfinish⟩
    | false => exact ⟨s, _, hs, .inl rfl, hfinish⟩

theorem visited_of_analyze (h : analyze m code rows o = .ok body) :
    Visited m code rows o body.analysis := by
  obtain ⟨s, a₁, hs, rfl | rfl, hfinish⟩ := analyze_eq_ok h
  · exact (Visited.structured hs).finish hfinish
  · exact (Visited.degrade hs).finish hfinish

/-- Locals of one class live in the same slot, or all go without one and are of one kind. -/
theorem slot_eq_of_same (h : Visited m code rows o a) {x y : LocalId}
    (hxy : a.locals.same x y = true) :
    a.locals.slot x = a.locals.slot y ∧ (a.locals.slot x = none →
      ∃ kind ∈ [LocalKind.stack, .exception, .selector],
        a.locals.origin x = kind ∧ a.locals.origin y = kind ∧ a.locals.kind x = kind) := by
  have hu := h.unmixed
  have hclass : a.locals.classOf x = a.locals.classOf y := congrArg LocalId.mk (beq_iff_eq.mp hxy)
  have hst : a.locals.storage x = a.locals.storage y := by
    rw [← hu.storage_classOf x, hclass, hu.storage_classOf y]
  refine ⟨Locals.slot_eq_of_storage hst, fun hnone ↦ ?_⟩
  have hx := Locals.storage_eq_inr.mpr ⟨hnone, rfl⟩
  refine ⟨_, ?_, rfl, (Locals.storage_eq_inr.mp (hst.symm.trans hx)).2, hu.kind_eq hx⟩
  by_cases hlt : x.index < a.locals.size
  · simpa using hu.slotless hlt hx
  · -- What was never handed out reads as a selector.
    rw [Locals.origin, Table.get_of_size_le _ (Nat.le_of_not_lt hlt)]
    decide

theorem exists_analyze {p : MethodBody → Bool} (h : (analyze m code rows o).toOption.any p = true) :
    ∃ body, analyze m code rows o = .ok body ∧ p body = true := by
  cases hb : analyze m code rows o with
  | error e => rw [hb] at h; cases h
  | ok body =>
    rw [hb] at h
    exact ⟨body, rfl, h⟩

/-- Adds one to the argument. -/
def bump : List Instruction := [⟨0, 3, .iinc 0 1⟩, ⟨3, 1, .returns none⟩]

theorem slot_eq_of_same_bump : ∃ body, analyze takesInt bump [] {} = .ok body ∧
    Visited takesInt bump [] {} body.analysis ∧ body.analysis.locals.same ⟨0⟩ ⟨1⟩ = true ∧
      body.analysis.locals.slot ⟨0⟩ = body.analysis.locals.slot ⟨1⟩ := by
  have h : (analyze takesInt bump [] {}).toOption.any
      (fun body ↦ body.analysis.locals.same ⟨0⟩ ⟨1⟩) = true := by cbv
  obtain ⟨body, hbody, hsame⟩ := exists_analyze h
  have hv := visited_of_analyze hbody
  exact ⟨body, hbody, hv, hsame, (slot_eq_of_same hv hsame).1⟩

end Visited

end Analysis

end Decompile
