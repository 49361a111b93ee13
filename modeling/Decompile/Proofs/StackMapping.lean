import Decompile.Proofs.StackStep
import Decompile.Proofs.Tree
import Decompile.Proofs.View

namespace Decompile

/-- Has no part in handlers or subroutines. -/
def Statement.isPlain : Statement → Bool
  | tryCatch .. | jsr _ | ret _ => false
  | _ => true

variable {labeled : Bool} {cond : ExprId} {body target : BlockId} {kind : LoopKind}
  {init : Option ExprId}

namespace Analysis

/-- The free operands that the statement of a block takes. -/
def operandsOf (a : Analysis) (b : BlockId) : List ExprId :=
  (a.statement b).exprs.flatMap a.exprs.freeOperands

/-- The cell of the value that a block has come to assign. -/
def cellOf (a : Analysis) (b : BlockId) : LocalId :=
  match a.statement b with
  | .evaluate e _ =>
    match a.expr e with
    | .assign target _ _ => a.locals.classOf ((a.expr target).local?.getD default)
    | _ => default
  | _ => default

/-- A tree of blocks with trees of expressions. Handlers and subroutines are left out. -/
structure WellFormedTree (a : Analysis) (r : BlockId) : Prop where
  tree : a.blocks.IsTree r
  lt_size : ∀ {b e f}, a.blocks.Below r b → e ∈ (a.statement b).exprs → f ∈ a.exprs.preorder e →
    f.index < a.exprs.size
  nests : ∀ {b e}, a.blocks.Below r b → e ∈ (a.statement b).exprs →
    a.exprs.nestsWithin a.exprs.size e
  nodup : ∀ {b}, a.blocks.Below r b → (a.operandsOf b).Nodup
  disjoint : ∀ {b c f}, a.blocks.Below r b → a.blocks.Below r c → f ∈ a.operandsOf b →
    f ∈ a.operandsOf c → b = c
  plain : ∀ {b}, a.blocks.Below r b → (a.statement b).isPlain

/-- A loop leaves the operand stack alone when it tests and steps, and a continue leads to a test
at the start of a loop. -/
def isSteady (a : Analysis) (b : BlockId) : Bool :=
  match a.statement b with
  | .loop _ cond _ incr _ _ => (a.exprs.freeOperands cond).isEmpty && incr.all fun i ↦
    match a.statement i with
    | .evaluate e 0 => (a.exprs.freeOperands e).isEmpty
    | _ => false
  | .continueTo target _ =>
    match a.statement target with
    | .loop .doWhile .. => false
    | _ => true
  | _ => true

def Steady (a : Analysis) (r : BlockId) : Prop := ∀ {b}, a.blocks.Below r b → a.isSteady b

section Steady

variable {a : Analysis} {r b : BlockId}

theorem Steady.of_list (l : List BlockId) (hr : r ∈ l)
    (hl : ∀ p ∈ l, a.isSteady p ∧ ∀ c ∈ (a.statement p).children, c ∈ l) : a.Steady r :=
  fun hb ↦ (hl _ (hb.mem_of_closed hr fun p hp ↦ (hl p hp).2)).1

theorem Steady.test {incr : Option BlockId} (hs : a.Steady r) (hb : a.blocks.Below r b)
    (h : a.statement b = .loop kind cond init incr body labeled) :
    a.exprs.freeOperands cond = [] := by
  have := hs hb
  simp_all [isSteady]

theorem Steady.incr {i : BlockId} (hs : a.Steady r) (hb : a.blocks.Below r b)
    (h : a.statement b = .loop kind cond init (some i) body labeled) :
    ∃ e, a.statement i = .evaluate e 0 ∧ a.exprs.freeOperands e = [] := by
  have := hs hb
  simp only [isSteady, h, Option.all_some, Bool.and_eq_true] at this
  split at this
  · next e he => exact ⟨e, he, by simpa using this.2⟩
  · simp at this

theorem Steady.continues (hs : a.Steady r) (hb : a.blocks.Below r b)
    (h : a.statement b = .continueTo target labeled) (cond : ExprId) (init : Option ExprId)
    (incr : Option BlockId) (body : BlockId) (l : Bool) :
    a.statement target ≠ .loop .doWhile cond init incr body l := by
  intro ht
  have := hs hb
  simp [isSteady, h, ht] at this

end Steady

section WellFormed

variable {a : Analysis} {r b first second yes : BlockId} {no : Option BlockId} {e : ExprId}
  (hw : a.WellFormedTree r) (hb : a.blocks.Below r b)
include hw hb

theorem WellFormedTree.nodup_children : (a.statement b).children.Nodup := hw.tree.nodup hb

theorem WellFormedTree.sequence_children (hst : a.statement b = .sequence first second) :
    first ∈ (a.statement b).children ∧ second ∈ (a.statement b).children ∧ first ≠ second := by
  have hnd := hw.nodup_children hb
  simp_all [Statement.children]

theorem WellFormedTree.branch_children (hst : (a.statement b).branch? = some (cond, yes, no)) :
    cond ∈ (a.statement b).exprs ∧ yes ∈ (a.statement b).children ∧
      (a.statement b).isLoop = false ∧
      ∀ c, no = some c → c ∈ (a.statement b).children ∧ yes ≠ c := by
  have hnd := hw.nodup_children hb
  refine ⟨?_, ?_, ?_, fun c hc ↦ ?_⟩ <;>
    cases hs : a.statement b <;>
    simp_all [Statement.branch?, Statement.exprs, Statement.children, Statement.isLoop]

theorem WellFormedTree.loop_parts {incr : Option BlockId}
    (hst : a.statement b = .loop kind cond init incr body labeled) :
    (∀ e, init = some e → e ∈ (a.statement b).exprs) ∧ cond ∈ (a.statement b).exprs ∧
      body ∈ (a.statement b).children ∧
      ∀ i, incr = some i → i ∈ (a.statement b).children ∧ body ≠ i := by
  have hnd := hw.nodup_children hb
  refine ⟨?_, ?_, ?_, fun i hi ↦ ?_⟩ <;> simp_all [Statement.exprs, Statement.children]

theorem WellFormedTree.mem_preorder (he : e ∈ (a.statement b).exprs) : e ∈ a.exprs.preorder e := by
  have hnest := hw.nests hb he
  unfold Expressions.preorder
  cases hsize : a.exprs.size with
  | zero => simp [hsize, Expressions.nestsWithin] at hnest
  | succ n => exact Expressions.mem_preorderWithin_self ..

theorem WellFormedTree.expr_lt (he : e ∈ (a.statement b).exprs) : e.index < a.exprs.size :=
  hw.lt_size hb he (hw.mem_preorder hb he)

end WellFormed

theorem body_children {before : Option ExprId} {a : Analysis} {b : BlockId}
    (hst : (a.statement b).body? = some (before, body)) :
    (∀ e, before = some e → e ∈ (a.statement b).exprs) ∧ body ∈ (a.statement b).children ∧
      (a.statement b).isLoop = false := by
  refine ⟨fun e he ↦ ?_, ?_, ?_⟩ <;> cases hs : a.statement b <;>
    simp_all [Statement.body?, Statement.exprs, Statement.children, Statement.isLoop]

theorem leaves_exprs {value : Option ExprId} {a : Analysis} {b : BlockId}
    (h : (a.statement b).leaves? = some value) (e : ExprId) (he : value = some e) :
    e ∈ (a.statement b).exprs := by
  cases hs : a.statement b <;> simp_all [Statement.leaves?, Statement.exprs]

theorem WellFormedTree.of_list {a : Analysis} {r : BlockId} (l : List BlockId) (hr : r ∈ l)
    (hroot : a.outer r = none)
    (hl : ∀ p ∈ l, p.index < a.blocks.size ∧ (a.statement p).isPlain ∧
      (a.statement p).children.Nodup ∧ ∀ c ∈ (a.statement p).children, c ∈ l ∧ a.outer c = some p)
    (he : ∀ p ∈ l, ∀ e ∈ (a.statement p).exprs, a.exprs.nestsWithin a.exprs.size e ∧
      ∀ f ∈ a.exprs.preorder e, f.index < a.exprs.size)
    (hops : ∀ p ∈ l, (a.operandsOf p).Nodup ∧
      ∀ q ∈ l, ∀ f ∈ a.operandsOf p, f ∈ a.operandsOf q → p = q) : a.WellFormedTree r := by
  have hmem {b : BlockId} (hb : a.blocks.Below r b) : b ∈ l :=
    hb.mem_of_closed hr fun p hp c hc ↦ ((hl p hp).2.2.2 c hc).1
  exact ⟨⟨hroot, fun hp hc ↦ ((hl _ (hmem hp)).2.2.2 _ hc).2, fun hp ↦ (hl _ (hmem hp)).2.2.1,
    fun hb ↦ (hl _ (hmem hb)).1⟩, fun hb h hf ↦ (he _ (hmem hb) _ h).2 _ hf,
    fun hb h ↦ (he _ (hmem hb) _ h).1, fun hb ↦ (hops _ (hmem hb)).1,
    fun hb hc ↦ (hops _ (hmem hb)).2 _ (hmem hc) _, fun hb ↦ (hl _ (hmem hb)).2.1⟩

end Analysis

namespace Mapping

/-- What is in place once stays: only free operands are still to be filled in. -/
structure Later (m m' : Analysis) : Prop where
  size_le : m.exprs.size ≤ m'.exprs.size
  keeps : ∀ {e}, e.index < m.exprs.size → (m.expr e).isFree = false → m'.expr e = m.expr e
  locals : Locals.Extends m.locals m'.locals

theorem Later.refl (m : Analysis) : Later m m := ⟨le_rfl, fun _ _ ↦ rfl, .refl _⟩

theorem Later.trans {m₁ m₂ m₃ : Analysis} (h : Later m₁ m₂) (h' : Later m₂ m₃) : Later m₁ m₃ :=
  ⟨h.size_le.trans h'.size_le, fun he hf ↦ by
    rw [← h.keeps he hf]
    exact h'.keeps (he.trans_le h.size_le) (by rw [h.keeps he hf]; exact hf),
    h.locals.trans h'.locals⟩

/-- A step of the mapping that concerns only the blocks in `P`. -/
structure Effect (a : Analysis) (P : BlockId → Prop) (m m' : Mapping) : Prop where
  later : Later m.analysis m'.analysis
  blocks : m'.analysis.blocks.size = m.analysis.blocks.size
  statement : ∀ {x}, ¬ P x → m'.analysis.statement x = m.analysis.statement x
  expr : ∀ {f}, f.index < a.exprs.size → (∀ x, P x → f ∉ a.operandsOf x) →
    m'.analysis.expr f = m.analysis.expr f
  entries : ∀ {t}, ¬ P t → m'.entries.lookup t = m.entries.lookup t
  breaks : ∀ {t s}, ¬ P t → m.breaks.lookup t = some s → m'.breaks.lookup t = some s

theorem Effect.refl (a : Analysis) (P : BlockId → Prop) (m : Mapping) : Effect a P m m :=
  ⟨.refl _, rfl, fun _ ↦ rfl, fun _ _ ↦ rfl, fun _ ↦ rfl, fun _ h ↦ h⟩

variable {a : Analysis} {P Q : BlockId → Prop} {m m₁ m₂ m' : Mapping}

theorem Effect.trans (h : Effect a P m₁ m₂) (h' : Effect a P m₂ m') : Effect a P m₁ m' :=
  ⟨h.later.trans h'.later, h'.blocks.trans h.blocks,
    fun hx ↦ (h'.statement hx).trans (h.statement hx), fun hf hP ↦ (h'.expr hf hP).trans (h.expr hf hP),
    fun ht ↦ (h'.entries ht).trans (h.entries ht), fun ht hs ↦ h'.breaks ht (h.breaks ht hs)⟩

theorem Effect.mono (h : Effect a P m m') (hPQ : ∀ x, P x → Q x) : Effect a Q m m' :=
  ⟨h.later, h.blocks, fun hx ↦ h.statement fun hP ↦ hx (hPQ _ hP),
    fun hf hQ ↦ h.expr hf fun x hx ↦ hQ x (hPQ x hx), fun ht ↦ h.entries fun hP ↦ ht (hPQ _ hP),
    fun ht ↦ h.breaks fun hP ↦ ht (hPQ _ hP)⟩

/-- The blocks in `Q` are still to be mapped. -/
structure Ready (a : Analysis) (Q : BlockId → Prop) (m : Mapping) : Prop where
  size_le : a.exprs.size ≤ m.analysis.exprs.size
  blocks : m.analysis.blocks.size = a.blocks.size
  statement : ∀ {x}, Q x → m.analysis.statement x = a.statement x
  expr : ∀ {x e f}, Q x → e ∈ (a.statement x).exprs → f ∈ a.exprs.preorder e →
    m.analysis.expr f = a.expr f

theorem Ready.mono (h : Ready a P m) (hQP : ∀ x, Q x → P x) : Ready a Q m :=
  ⟨h.size_le, h.blocks, fun hx ↦ h.statement (hQP _ hx), fun hx ↦ h.expr (hQP _ hx)⟩

theorem Ready.step {r : BlockId} (hw : a.WellFormedTree r) (h : Ready a Q m)
    (he : Effect a P m m') (hQ : ∀ x, Q x → a.blocks.Below r x)
    (hP : ∀ x, P x → a.blocks.Below r x) (hPQ : ∀ x, P x → ¬ Q x) : Ready a Q m' := by
  refine ⟨h.size_le.trans he.later.size_le, he.blocks.trans h.blocks, fun {x} hx ↦ ?_,
    fun {x e f} hx hex hf ↦ ?_⟩
  · exact (he.statement fun hPx ↦ hPQ x hPx hx).trans (h.statement hx)
  · rw [he.expr (hw.lt_size (hQ x hx) hex hf) fun y hy hmem ↦ ?_, h.expr hx hex hf]
    -- A free operand of two statements would make them the same.
    obtain ⟨e', he', hfe'⟩ := List.mem_flatMap.mp hmem
    have hfree := (Expressions.mem_freeOperands.mp hfe').2
    have hmem' : f ∈ a.operandsOf x :=
      List.mem_flatMap.mpr ⟨e, hex, Expressions.mem_freeOperands.mpr ⟨hf, hfree⟩⟩
    have := hw.disjoint (hP y hy) (hQ x hx) hmem hmem'
    exact hPQ y hy (this ▸ hx)

/-- All stacks at hand are made of known locals. -/
structure Proper (m : Mapping) : Prop where
  locals : m.analysis.locals.WellFormed
  breaks : ∀ {t s}, m.breaks.lookup t = some s → s.Proper m.analysis.locals
  entries : ∀ {t s}, m.entries.lookup t = some s → s.Proper m.analysis.locals

/-! The single steps -/

variable {r b : BlockId} {e : ExprId} {s t rest : OperandStack}

theorem fill_spec (es : List ExprId) :
    ∀ (xs : List LocalId) (an : Analysis), xs.length = es.length → es.Nodup →
      (∀ e ∈ es, e.index < an.exprs.size) →
      List.Forall₂ (fun e x ↦ (fill an es xs).expr e = .var x) es xs ∧
        (∀ f, f ∉ es → (fill an es xs).expr f = an.expr f) ∧
        (fill an es xs).exprs.size = an.exprs.size ∧ (fill an es xs).blocks = an.blocks ∧
        (fill an es xs).locals = an.locals := by
  induction es with
  | nil =>
    intro xs an hlen _ _
    obtain rfl := List.length_eq_zero_iff.mp hlen
    exact ⟨.nil, fun _ _ ↦ rfl, rfl, rfl, rfl⟩
  | cons e es ih =>
    intro xs an hlen hnd hlt
    cases xs with
    | nil => cases hlen
    | cons x xs =>
      obtain ⟨hnot, hnd⟩ := List.nodup_cons.mp hnd
      have hsize : (an.setExpr e (.var x)).exprs.size = an.exprs.size := Expressions.size_set ..
      obtain ⟨hall, hother, hs, hb, hl⟩ := ih xs (an.setExpr e (.var x)) (by simpa using hlen) hnd
        fun f hf ↦ hsize.symm ▸ hlt f (by simp [hf])
      unfold fill
      refine ⟨.cons ?_ hall, fun f hf ↦ ?_, hs.trans hsize, hb, hl⟩
      · rw [hother e hnot]
        exact (Expressions.get_set ..).trans (if_pos ⟨rfl, hlt e (by simp)⟩)
      · simp only [List.mem_cons, not_or] at hf
        rw [hother f hf.2]
        exact (Expressions.get_set ..).trans (if_neg fun h ↦ hf.1 h.1.symm)

/-- What `consume` does with the operands of one expression of the statement of `b`. -/
theorem consume_spec (hw : a.WellFormedTree r) (hb : a.blocks.Below r b)
    (he : e ∈ (a.statement b).exprs) (hr : Ready a (a.blocks.Below b) m) (hm : m.Proper)
    (hs : s.Proper m.analysis.locals) (h : m.consume e s = .ok (m', rest)) :
    Effect a (· = b) m m' ∧ m'.Proper ∧ rest.Proper m'.analysis.locals ∧
      (∀ x, m'.analysis.statement x = m.analysis.statement x) ∧
      (∀ f, f ∉ a.exprs.freeOperands e → m'.analysis.expr f = m.analysis.expr f) ∧
      ∀ a', Later m'.analysis a' → Takes a a' e (s.shape a') (rest.shape a') := by
  have hexpr (f : ExprId) := hr.expr (f := f) .root he
  have hfree : m.analysis.exprs.freeOperands e = a.exprs.freeOperands e :=
    Expressions.freeOperands_congr (hw.nests hb he) hr.size_le hexpr
  have hmem {f : ExprId} (hf : f ∈ a.exprs.freeOperands e) : f ∈ a.operandsOf b :=
    List.mem_flatMap.mpr ⟨e, he, hf⟩
  have hlt {f : ExprId} (hf : f ∈ a.exprs.freeOperands e) : f.index < a.exprs.size :=
    hw.lt_size hb he (Expressions.mem_freeOperands.mp hf).1
  have hisFree {f : ExprId} (hf : f ∈ a.exprs.freeOperands e) : (m.analysis.expr f).isFree := by
    obtain ⟨hpre, hfree⟩ := Expressions.mem_freeOperands.mp hf
    rw [hexpr f hpre]
    exact hfree
  obtain ⟨⟨rest', xs⟩, hpop, h⟩ := ok_of_bind h
  cases h
  rw [hfree] at hpop ⊢
  obtain ⟨popped, hentries, hwidths, rfl⟩ := OperandStack.pop_eq hpop
  have hlen : popped.length = (a.exprs.freeOperands e).length := by
    simpa using congrArg List.length hwidths
  obtain ⟨hall, hother, hs', hblocks, hlocals⟩ := fill_spec (a.exprs.freeOperands e)
    (popped.map (·.value)) m.analysis (by simpa using hlen)
    ((List.nodup_flatMap.mp (hw.nodup hb)).1 e he) fun f hf ↦ (hlt hf).trans_le hr.size_le
  generalize fill m.analysis (a.exprs.freeOperands e) (popped.map (·.value)) = an at *
  have hst (x : BlockId) : an.statement x = m.analysis.statement x := by
    simp only [Analysis.statement, hblocks]
  have hlater : Later m.analysis an := by
    refine ⟨hs'.ge, fun {f} _ hnf ↦ hother f fun hf ↦ ?_, hlocals ▸ .refl _⟩
    simp [hisFree hf] at hnf
  refine ⟨⟨hlater, by rw [hblocks], fun _ ↦ hst _, fun hf hP ↦ hother _ fun hmem' ↦ hP b rfl (hmem hmem'),
    fun _ ↦ rfl, fun _ h ↦ h⟩, ⟨hlocals ▸ hm.locals, fun h ↦ hlocals ▸ hm.breaks h,
    fun h ↦ hlocals ▸ hm.entries h⟩, ?_, hst, hother, fun a' ha' ↦ ?_⟩
  · exact hlocals ▸ hs.subset fun e he ↦ hentries ▸ List.mem_append_left _ he
  · refine ⟨popped.map fun i ↦ (a'.locals.classOf i.value, i.width), ?_, ?_⟩
    · rw [OperandStack.shape, OperandStack.shape, hentries, List.map_append]
    · have hwidth : List.Forall₂ (fun f (i : StackEntry) ↦ m.analysis.exprs.freeWidth f = i.width)
          (a.exprs.freeOperands e) popped := by
        rw [← List.forall₂_eq_eq_eq, List.forall₂_map_left_iff, List.forall₂_map_right_iff] at hwidths
        exact hwidths.flip.imp fun _ _ h ↦ h.symm
      rw [List.forall₂_map_right_iff] at hall ⊢
      rw [List.forall₂_iff_zip] at hall hwidth ⊢
      refine ⟨hall.1, fun {f i} hfi ↦ ⟨?_, i.value, ?_, rfl⟩⟩
      · have hf := (List.of_mem_zip hfi).1
        rw [← hwidth.2 hfi]
        exact congrArg Expression.freeWidth (hexpr f (Expressions.mem_freeOperands.mp hf).1).symm
      · have hf := (List.of_mem_zip hfi).1
        rw [ha'.keeps (by rw [hs']; exact (hlt hf).trans_le hr.size_le) (by rw [hall.2 hfi]; rfl)]
        exact hall.2 hfi

theorem exists_of_forall₂ {α β : Type} {R : α → β → Prop} {l : List α} {l' : List β} {x : α}
    (h : List.Forall₂ R l l') (hx : x ∈ l) : ∃ y, R x y := by
  induction h with
  | nil => cases hx
  | cons hr _ ih =>
    rcases List.mem_cons.mp hx with rfl | hx
    · exact ⟨_, hr⟩
    · exact ih hx

variable {a' : Analysis} {value : Option ExprId} {width : Nat} {o₁ o₂ o : Outgoing}
  {Q' : BlockId → Prop} {B : Breaks} {C : Continues}

/-- An expression that is no free operand stays as it is. -/
theorem Ready.expr_eq (hr : Ready a (a.blocks.Below b) m) (hw : a.WellFormedTree r)
    (hb : a.blocks.Below r b) (he : e ∈ (a.statement b).exprs) (hlater : Later m.analysis a')
    (hf : (a.expr e).isFree = false) : a'.expr e = a.expr e := by
  have hexpr := hr.expr .root he (hw.mem_preorder hb he)
  exact (hlater.keeps ((hw.expr_lt hb he).trans_le hr.size_le) (by rw [hexpr]; exact hf)).trans
    hexpr

theorem literal_eq {S R : Shape} (hw : a.WellFormedTree r) (hb : a.blocks.Below r b)
    (he : e ∈ (a.statement b).exprs) (hr : Ready a (a.blocks.Below b) m)
    (hlater : Later m.analysis a') (ht : Takes a a' e S R) :
    a'.program.literal e = a.program.literal e := by
  cases hf : (a.expr e).isFree with
  | false => simp only [Analysis.program, hr.expr_eq hw hb he hlater hf]
  | true =>
    obtain ⟨operands, -, hall⟩ := ht
    have hmem : e ∈ a.exprs.freeOperands e :=
      Expressions.mem_freeOperands.mpr ⟨hw.mem_preorder hb he, hf⟩
    obtain ⟨o, -, x, hx, -⟩ := exists_of_forall₂ hall hmem
    cases hexp : a.expr e <;> simp_all [Analysis.program, Expression.isFree]

theorem consume?_spec (hw : a.WellFormedTree r) (hb : a.blocks.Below r b)
    (he : ∀ e, value = some e → e ∈ (a.statement b).exprs) (hr : Ready a (a.blocks.Below b) m)
    (hm : m.Proper) (hs : s.Proper m.analysis.locals) (h : m.consume? value s = .ok (m', rest)) :
    Effect a (· = b) m m' ∧ m'.Proper ∧ rest.Proper m'.analysis.locals ∧
      (∀ x, m'.analysis.statement x = m.analysis.statement x) ∧
      (∀ f, (∀ e, value = some e → f ∉ a.exprs.freeOperands e) →
        m'.analysis.expr f = m.analysis.expr f) ∧
      ∀ a', Later m'.analysis a' → Takes? a a' value (s.shape a') (rest.shape a') := by
  cases value with
  | none =>
    cases h
    exact ⟨.refl .., hm, hs, fun _ ↦ rfl, fun _ _ ↦ rfl, fun _ _ ↦ rfl⟩
  | some e =>
    obtain ⟨h₁, h₂, h₃, h₄, h₅, h₆⟩ := consume_spec hw hb (he e rfl) hr hm hs h
    exact ⟨h₁, h₂, h₃, h₄, fun f hf ↦ h₅ f (hf e rfl), h₆⟩

theorem consume_nil (h : m.analysis.exprs.freeOperands e = []) : m.consume e s = .ok (m, s) := by
  simp [consume, h, OperandStack.pop, OperandStack.peek,
    OperandStack.mismatch?, fill, bind, Except.bind, pure, Except.pure]

/-- A push becomes an assignment to a new local. -/
theorem store_spec (hlt : b.index < m.analysis.blocks.size) (hm : m.Proper)
    (hs : s.Proper m.analysis.locals) (hwidth : width ≠ 0)
    (hsize : a.exprs.size ≤ m.analysis.exprs.size) :
    Effect a (· = b) m (m.store b e width s).1 ∧ (m.store b e width s).1.Proper ∧
      (m.store b e width s).2.Proper (m.store b e width s).1.analysis.locals ∧
      ∃ e' target x, (m.store b e width s).1.analysis.statement b = .evaluate e' 0 ∧
        a.exprs.size ≤ e'.index ∧ (m.store b e width s).2 = s.push x width ∧
        ∀ a', Later (m.store b e width s).1.analysis a' →
          a'.expr e' = .assign target none e ∧ a'.expr target = .var x := by
  have hx := hm.locals.index_add .stack none
  have hext := Locals.extends_add hm.locals.classes .stack none
  have hwf := hm.locals.add .stack none
  have hgrow : m.analysis.locals.size ≤ (m.analysis.locals.add .stack none).1.size :=
    hext.size_le
  -- Two nodes are new, the variable and the assignment to it.
  have hexprs : (m.store b e width s).1.analysis.exprs =
      ((m.analysis.exprs.alloc (.var (m.analysis.locals.add .stack none).2)).1.alloc
        (.assign ⟨m.analysis.exprs.size⟩ none e)).1 := rfl
  have hexpr (f : ExprId) : (m.store b e width s).1.analysis.expr f =
      if f.index = m.analysis.exprs.size + 1 then .assign ⟨m.analysis.exprs.size⟩ none e
      else if f.index = m.analysis.exprs.size then .var (m.analysis.locals.add .stack none).2
      else m.analysis.expr f := by
    rw [Analysis.expr, hexprs, Expressions.get_alloc, Expressions.get_alloc, Expressions.size_alloc]
    rfl
  have hsize' : (m.store b e width s).1.analysis.exprs.size = m.analysis.exprs.size + 1 + 1 := by
    rw [hexprs, Expressions.size_alloc, Expressions.size_alloc]
  have hst (x : BlockId) : (m.store b e width s).1.analysis.statement x =
      if x = b then .evaluate ⟨m.analysis.exprs.size + 1⟩ 0 else m.analysis.statement x := by
    have hid : (⟨m.analysis.exprs.size + 1⟩ : ExprId) =
        ⟨(m.analysis.exprs.alloc (.var (m.analysis.locals.add .stack none).2)).1.size⟩ := by
      rw [Expressions.size_alloc]
    rw [hid]
    exact Blocks.statement_setStatement _ _ _ hlt _
  have hold {f : ExprId} (hf : f.index < m.analysis.exprs.size) :
      (m.store b e width s).1.analysis.expr f = m.analysis.expr f := by
    rw [hexpr, if_neg (by omega), if_neg (by omega)]
  have hlater : Later m.analysis (m.store b e width s).1.analysis :=
    ⟨by omega, fun hf _ ↦ hold hf, hext⟩
  refine ⟨⟨hlater, Blocks.size_setStatement .., fun {x} hx ↦ by rw [hst, if_neg hx],
    fun hf _ ↦ hold (by omega), fun _ ↦ rfl, fun _ h ↦ h⟩,
    ⟨hwf, fun h ↦ (hm.breaks h).mono hgrow, fun h ↦ (hm.entries h).mono hgrow⟩, ?_,
    ⟨m.analysis.exprs.size + 1⟩, ⟨m.analysis.exprs.size⟩, (m.analysis.locals.add .stack none).2,
    by rw [hst, if_pos rfl], by show _ ≤ m.analysis.exprs.size + 1; omega, rfl,
    fun a' ha' ↦ ⟨?_, ?_⟩⟩
  · intro i hi
    rcases List.mem_append.mp hi with hi | hi
    · exact hs.mono hgrow i hi
    · obtain rfl := List.mem_singleton.mp hi
      refine ⟨?_, Nat.pos_of_ne_zero hwidth⟩
      show (m.analysis.locals.add .stack none).2.index < (m.analysis.locals.add .stack none).1.size
      rw [hx, Locals.size_add]
      exact Nat.lt_succ_self _
  · rw [ha'.keeps, hexpr, if_pos rfl]
    · rw [hsize']
      exact Nat.lt_succ_self _
    · rw [hexpr, if_pos rfl]
      rfl
  · rw [ha'.keeps, hexpr, if_neg (by simp), if_pos rfl]
    · rw [hsize']
      exact Nat.lt_succ_of_lt (Nat.lt_succ_self _)
    · rw [hexpr, if_neg (by simp), if_pos rfl]
      rfl

theorem meet_spec {s' : OperandStack} (hm : m.Proper) (hs : s.Proper m.analysis.locals)
    (ht : t.Proper m.analysis.locals) (h : m.meet s t = .ok (m', s')) :
    s' = s ∧ Effect a P m m' ∧ m'.Proper ∧ m'.analysis.locals.size = m.analysis.locals.size ∧
      (∀ x, m'.analysis.statement x = m.analysis.statement x) ∧ m'.breaks = m.breaks ∧
      ∀ a', Later m'.analysis a' → s.shape a' = t.shape a' := by
  unfold meet at h
  split at h
  · cases h
  · next locals hmerge =>
    cases h
    obtain ⟨hwf, hext, hsize, hall⟩ := OperandStack.merge_spec hm.locals hs ht hmerge
    have hmono {u : OperandStack} (hu : u.Proper m.analysis.locals) : u.Proper locals :=
      hu.mono hsize.ge
    refine ⟨rfl, ⟨⟨le_rfl, fun _ _ ↦ rfl, hext⟩, rfl, fun _ ↦ rfl, fun _ _ ↦ rfl, fun _ ↦ rfl,
      fun _ h ↦ h⟩, ⟨hwf, fun h ↦ hmono (hm.breaks h), fun h ↦ hmono (hm.entries h)⟩, hsize,
      fun _ ↦ rfl, rfl, fun a' ha' ↦ ?_⟩
    rw [OperandStack.shape, OperandStack.shape, ← List.forall₂_eq_eq_eq,
      List.forall₂_map_left_iff, List.forall₂_map_right_iff]
    exact hall.imp fun x y h ↦ by rw [ha'.locals.classOf_eq h.1, h.2]

/-- A way out that is of the shape of both ways in. -/
theorem join_spec (hm : m.Proper) (h₁ : ∀ s, o₁ = some s → s.Proper m.analysis.locals)
    (h₂ : ∀ s, o₂ = some s → s.Proper m.analysis.locals) (h : m.join o₁ o₂ = .ok (m', o)) :
    Effect a P m m' ∧ m'.Proper ∧ (∀ s, o = some s → s.Proper m'.analysis.locals) ∧
      (∀ x, m'.analysis.statement x = m.analysis.statement x) ∧ m'.breaks = m.breaks ∧
      ∀ a', Later m'.analysis a' → Covers (o.map (·.shape a')) (o₁.map (·.shape a')) ∧
        Covers (o.map (·.shape a')) (o₂.map (·.shape a')) := by
  cases o₁ with
  | none =>
    cases o₂ <;> cases h <;>
      exact ⟨.refl .., hm, h₂, fun _ ↦ rfl, rfl, fun _ _ ↦ by simp [Covers]⟩
  | some s =>
    cases o₂ with
    | none =>
      cases h
      exact ⟨.refl .., hm, h₁, fun _ ↦ rfl, rfl, fun _ _ ↦ by simp [Covers]⟩
    | some t =>
      obtain ⟨⟨m₁, s'⟩, hmeet, h⟩ := ok_of_bind h
      cases h
      obtain ⟨rfl, heff, hm', hsize, hst, hb, hshape⟩ :=
        meet_spec hm (h₁ s rfl) (h₂ t rfl) hmeet
      refine ⟨heff, hm', fun u hu ↦ ?_, hst, hb, fun a' ha' ↦ ?_⟩
      · cases hu
        exact (h₁ _ rfl).mono hsize.ge
      · simp [Covers, hshape a' ha']

theorem eq_of_join (h : m.join (some s) o₂ = .ok (m', o)) : o = some s := by
  cases o₂ with
  | none => exact (Prod.mk.inj (Except.ok.inj h)).2.symm
  | some t =>
    obtain ⟨⟨m₁, s'⟩, hmeet, h⟩ := ok_of_bind h
    cases h
    unfold meet at hmeet
    split at hmeet
    · cases hmeet
    · cases hmeet
      rfl

theorem joinBreaks_spec {out : Outgoing} (hm : m.Proper)
    (ho : ∀ s, o = some s → s.Proper m.analysis.locals) (h : m.joinBreaks b o = .ok (m', out)) :
    Effect a (· = b) m m' ∧ m'.Proper ∧ (∀ s, out = some s → s.Proper m'.analysis.locals) ∧
      (∀ x, m'.analysis.statement x = m.analysis.statement x) ∧
      ∀ a', Later m'.analysis a' → Covers (out.map (·.shape a')) (o.map (·.shape a')) ∧
        Covers (out.map (·.shape a')) ((m.breaks.lookup b).map (·.shape a')) := by
  have hm₀ : ({ m with breaks := m.breaks.filter (·.1 ≠ b) } : Mapping).Proper := by
    refine ⟨hm.locals, fun {t s} ht ↦ ?_, hm.entries⟩
    by_cases htb : t = b
    · rw [htb, lookup_filter_self] at ht
      cases ht
    · exact hm.breaks ((lookup_filter_ne htb m.breaks) ▸ ht)
  obtain ⟨heff, hm', hout, hst, -, hcovers⟩ :=
    join_spec hm₀ ho (fun s hs ↦ hm.breaks hs) h
  have e₀ : Effect a (· = b) m { m with breaks := m.breaks.filter (·.1 ≠ b) } :=
    ⟨.refl _, rfl, fun _ ↦ rfl, fun _ _ ↦ rfl, fun _ ↦ rfl,
      fun ht h ↦ (lookup_filter_ne ht m.breaks).trans h⟩
  exact ⟨e₀.trans heff, hm', hout, hst, hcovers⟩

/-! Whole blocks -/

/-- In `a'` the blocks in `Q` are as the mapping has left them. -/
structure Settled (a' : Analysis) (Q : BlockId → Prop) (m : Mapping) : Prop where
  later : Later m.analysis a'
  statement : ∀ {x}, Q x → a'.statement x = m.analysis.statement x

theorem Settled.back (h : Settled a' Q m₂) (he : Effect a P m₁ m₂) (hQ : ∀ x, Q' x → Q x ∧ ¬ P x) :
    Settled a' Q' m₁ :=
  ⟨he.later.trans h.later, fun hx ↦ (h.statement (hQ _ hx).1).trans (he.statement (hQ _ hx).2)⟩

theorem Settled.mono (h : Settled a' Q m) (hQ : ∀ x, Q' x → Q x) : Settled a' Q' m :=
  ⟨h.later, fun hx ↦ h.statement (hQ _ hx)⟩

/-- The stacks at the targets around the blocks in `Q`: those of the breaks are known after these
have been mapped, those of the continues before. -/
structure Around (a' : Analysis) (Q : BlockId → Prop) (B : Breaks) (C : Continues)
    (m m' : Mapping) : Prop where
  breaks : ∀ {t o}, B t = some o → ¬ Q t ∧
    ∀ {s}, m'.breaks.lookup t = some s → o = some (s.shape a')
  continues : ∀ {t E}, C t = some E → ¬ Q t ∧ ∃ s, m.entries.lookup t = some s ∧ E = s.shape a'

theorem Around.within (hA : Around a' Q B C m m') (h₁ : Effect a Q m m₁) (h₂ : Effect a Q m₂ m')
    (hQ : ∀ x, Q' x → Q x) : Around a' Q' B C m₁ m₂ := by
  refine ⟨fun ht ↦ ?_, fun ht ↦ ?_⟩
  · obtain ⟨hnot, ho⟩ := hA.breaks ht
    exact ⟨fun h ↦ hnot (hQ _ h), fun hs ↦ ho (h₂.breaks hnot hs)⟩
  · obtain ⟨hnot, s, hs, hE⟩ := hA.continues ht
    exact ⟨fun h ↦ hnot (hQ _ h), s, (h₁.entries hnot).trans hs, hE⟩

/-- What a successful mapping of `b` comes to. -/
structure Maps (a : Analysis) (b : BlockId) (s : OperandStack) (m m' : Mapping) (out : Outgoing) :
    Prop where
  effect : Effect a (a.blocks.Below b) m m'
  proper : m'.Proper
  outgoing : ∀ t, out = some t → t.Proper m'.analysis.locals
  typed : ∀ {a' B C}, Settled a' (a.blocks.Below b) m' → Around a' (a.blocks.Below b) B C m m' →
    Typed a a' a'.cellOf B C (.block b) (s.shape a') (out.map (·.shape a'))

/-- The mapping of `b` does what it should. -/
def Correct (a : Analysis) (map : Mapper) (b : BlockId) : Prop :=
  ∀ {s m m' out}, Ready a (a.blocks.Below b) m → m.Proper → s.Proper m.analysis.locals →
    map b s m = .ok (m', out) → Maps a b s m m' out

section Blocks

variable {n : Nat} {out : Outgoing} (hw : a.WellFormedTree r) (hb : a.blocks.Below r b)
  (hr : Ready a (a.blocks.Below b) m) (hm : m.Proper) (hs : s.Proper m.analysis.locals)
include hr hm hs

theorem maps_idle (hst : a.statement b = .empty ∨ ∃ text, a.statement b = .description text) :
    Maps a b s m m (some s) := by
  refine ⟨.refl .., hm, fun t ht ↦ Option.some.inj ht ▸ hs, fun hset _ ↦ .idle ?_ hst⟩
  rw [hset.statement .root, hr.statement .root]

omit hr hm hs in
theorem statement_setStatement (hb : b.index < m.analysis.blocks.size) (st : Statement)
    (x : BlockId) :
    (m.analysis.setStatement b st).statement x =
      if x = b then st else m.analysis.statement x :=
  Blocks.statement_setStatement _ _ _ hb st

theorem maps_shuffle (hw : a.WellFormedTree r) (hb : a.blocks.Below r b) {op : StackOp}
    {out : OperandStack} (hst : a.statement b = .shuffle op) (h : s.shuffle op = .ok out) :
    Maps a b s m { m with analysis := m.analysis.setStatement b .empty } (some out) := by
  have hlt : b.index < m.analysis.blocks.size := hr.blocks ▸ hw.tree.lt_size hb
  have hst' := statement_setStatement hlt .empty
  refine ⟨⟨⟨le_rfl, fun _ _ ↦ rfl, .refl _⟩, Blocks.size_setStatement .., fun {x} hx ↦ ?_,
    fun _ _ ↦ rfl, fun _ ↦ rfl, fun _ h ↦ h⟩, ⟨hm.locals, hm.breaks, hm.entries⟩,
    fun t ht ↦ Option.some.inj ht ▸ hs.shuffle h,
    fun {a' B C} hset _ ↦ .shuffle hst ?_ fun S' hS' ↦ OperandStack.shape_shuffle h hs hS'⟩
  · exact (hst' x).trans (if_neg (by rintro rfl; exact hx .root))
  · rw [hset.statement .root, hst', if_pos rfl]

include hw hb

theorem maps_evaluate {e : ExprId} (hst : a.statement b = .evaluate e 0)
    (h : m.consume e s = .ok (m', rest)) : Maps a b s m m' (some rest) := by
  have he : e ∈ (a.statement b).exprs := by simp [hst, Statement.exprs]
  obtain ⟨heff, hm', hrest, hst', -, htakes⟩ := consume_spec hw hb he hr hm hs h
  refine ⟨heff.mono fun x hx ↦ hx ▸ .root, hm', fun t ht ↦ Option.some.inj ht ▸ hrest,
    fun {a' B C} hset _ ↦ .evaluate hst ?_ (hw.expr_lt hb he) (htakes a' hset.later)⟩
  rw [hset.statement .root, hst', hr.statement .root, hst]

theorem maps_push {e : ExprId} (hst : a.statement b = .evaluate e width) (hwidth : width ≠ 0)
    (h : m.consume e s = .ok (m₁, rest)) :
    Maps a b s m (m₁.store b e width rest).1 (some (m₁.store b e width rest).2) := by
  have he : e ∈ (a.statement b).exprs := by simp [hst, Statement.exprs]
  obtain ⟨heff, hm', hrest, hst', -, htakes⟩ := consume_spec hw hb he hr hm hs h
  have hlt : b.index < m₁.analysis.blocks.size :=
    heff.blocks.trans hr.blocks ▸ hw.tree.lt_size hb
  obtain ⟨heff', hm'', hout, e', target, x, hst'', hle, heq, ha⟩ :=
    store_spec hlt hm' hrest hwidth (hr.size_le.trans heff.later.size_le)
  refine ⟨(heff.trans heff').mono fun x hx ↦ hx ▸ .root, hm'',
    fun t ht ↦ Option.some.inj ht ▸ hout, fun {a' B C} hset _ ↦ ?_⟩
  obtain ⟨he', htarget⟩ := ha a' hset.later
  have hst' : a'.statement b = .evaluate e' 0 := (hset.statement .root).trans hst''
  have hcell : a'.locals.classOf x = a'.cellOf b := by
    simp [Analysis.cellOf, hst', he', htarget, Expression.local?]
  have htyped := Typed.push (B := B) (C := C) hst hwidth hst' hle he' htarget hcell
    (htakes a' (heff'.later.trans hset.later))
  rw [heq]
  simpa [OperandStack.shape, OperandStack.push, hcell] using htyped

theorem maps_leave (hst : (a.statement b).leaves? = some value)
    (h : m.consume? value s = .ok (m', rest)) : Maps a b s m m' none := by
  obtain ⟨heff, hm', hrest, hst', -, htakes⟩ :=
    consume?_spec hw hb (Analysis.leaves_exprs hst) hr hm hs h
  refine ⟨heff.mono fun x hx ↦ hx ▸ .root, hm', by simp,
    fun {a' B C} hset _ ↦ .leave ?_ hst (htakes a' hset.later)⟩
  rw [hset.statement .root, hst', hr.statement .root]

end Blocks

/-! Blocks with others inside -/

/-- Blocks of the tree below `b` that do not belong to its child `c`. -/
def Beside (a : Analysis) (b c x : BlockId) : Prop := a.blocks.Below b x ∧ ¬ a.blocks.Below c x

section Children

variable {c d : BlockId} {out : Outgoing} (hw : a.WellFormedTree r) (hb : a.blocks.Below r b)
  (hc : c ∈ (a.statement b).children)
include hw hb hc

theorem beside_self : Beside a b c b := ⟨.root, hw.tree.not_below_child hb hc⟩

theorem beside_sibling (hd : d ∈ (a.statement b).children) (hne : d ≠ c) {x : BlockId}
    (hx : a.blocks.Below d x) : Beside a b c x :=
  ⟨(Blocks.Below.child .root hd).trans hx, fun hx' ↦ hne (hw.tree.child_unique hb hd hc hx hx')⟩

theorem Effect.beside (h : Effect a (· = b) m m₁) : Effect a (Beside a b c) m m₁ :=
  h.mono fun x hx ↦ by rw [hx]; exact beside_self hw hb hc

theorem Ready.child (hr : Ready a (a.blocks.Below b) m) (he : Effect a (Beside a b c) m m₁) :
    Ready a (a.blocks.Below c) m₁ :=
  (hr.mono fun _ hx ↦ (Blocks.Below.child .root hc).trans hx).step hw he
    (fun _ hx ↦ (hb.child hc).trans hx) (fun _ hx ↦ hb.trans hx.1) fun _ hx ↦ hx.2

omit hw hb in
theorem Settled.child (hset : Settled a' (a.blocks.Below b) m')
    (he : Effect a (Beside a b c) m₂ m') : Settled a' (a.blocks.Below c) m₂ :=
  hset.back he fun _ hx ↦ ⟨(Blocks.Below.child .root hc).trans hx, fun h ↦ h.2 hx⟩

omit hw hb in
theorem Around.child (hA : Around a' (a.blocks.Below b) B C m m')
    (h₁ : Effect a (Beside a b c) m m₁) (h₂ : Effect a (Beside a b c) m₂ m') :
    Around a' (a.blocks.Below c) B C m₁ m₂ :=
  hA.within (h₁.mono fun _ hx ↦ hx.1) (h₂.mono fun _ hx ↦ hx.1)
    fun _ hx ↦ (Blocks.Below.child .root hc).trans hx

omit hw hb in
theorem Maps.typed_child (h : Maps a c s m₁ m₂ out) (h₁ : Effect a (Beside a b c) m m₁)
    (h₂ : Effect a (Beside a b c) m₂ m') (hset : Settled a' (a.blocks.Below b) m')
    (hA : Around a' (a.blocks.Below b) B C m m') :
    Typed a a' a'.cellOf B C (.block c) (s.shape a') (out.map (·.shape a')) :=
  h.typed (hset.child hc h₂) (hA.child hc h₁ h₂)

omit hw hb in
theorem Maps.effect_parent (h : Maps a c s m₁ m₂ out) : Effect a (a.blocks.Below b) m₁ m₂ :=
  h.effect.mono fun _ hx ↦ (Blocks.Below.child .root hc).trans hx

end Children

section Blocks

variable {n : Nat} {out : Outgoing} (hw : a.WellFormedTree r) (hb : a.blocks.Below r b)
  (hr : Ready a (a.blocks.Below b) m) (hm : m.Proper) (hs : s.Proper m.analysis.locals) {map : Mapper}
  (hmap : ∀ c ∈ (a.statement b).children, Correct a map c)
include hw hb hr hm hs hmap

theorem maps_sequence {first second : BlockId} {between : Outgoing}
    (hst : a.statement b = .sequence first second) (h₁ : map first s m = .ok (m₁, between))
    (h₂ : map second (between.getD {}) m₁ = .ok (m₂, out)) :
    Maps a b s m m₂ (if between.isSome then out else none) := by
  obtain ⟨hfirst, hsecond, hne⟩ := hw.sequence_children hb hst
  have M₁ := hmap first hfirst (hr.child hw hb hfirst (.refl ..)) hm hs h₁
  have e₁ : Effect a (Beside a b second) m m₁ :=
    M₁.effect.mono fun _ hx ↦ beside_sibling hw hb hsecond hfirst hne hx
  have hbetween : (between.getD {}).Proper m₁.analysis.locals := by
    cases between with
    | none => simp [OperandStack.Proper]
    | some t => exact M₁.outgoing t rfl
  have M₂ := hmap second hsecond (hr.child hw hb hsecond e₁) M₁.proper hbetween h₂
  have e₂ : Effect a (Beside a b first) m₁ m₂ :=
    M₂.effect.mono fun _ hx ↦ beside_sibling hw hb hfirst hsecond hne.symm hx
  refine ⟨(M₁.effect_parent hfirst).trans (M₂.effect_parent hsecond), M₂.proper, fun t ht ↦ ?_,
    fun {a' B C} hset hA ↦ ?_⟩
  · cases between with
    | none => cases ht
    | some _ => exact M₂.outgoing t ht
  · have hst' : a'.statement b = a.statement b := by
      rw [hset.statement .root, M₂.effect.statement (hw.tree.not_below_child hb hsecond),
        M₁.effect.statement (hw.tree.not_below_child hb hfirst), hr.statement .root]
    have T₁ := M₁.typed_child hfirst (.refl ..) e₂ hset hA
    have T₂ := M₂.typed_child hsecond e₁ (.refl ..) hset hA
    cases between with
    | none => exact .stopFirst hst' hst T₁
    | some t => exact .sequence hst' hst T₁ T₂

variable {entry : OperandStack}

/-- What is common to both forms of a branch: the condition has been consumed, and the ways on are
joined in the end. -/
theorem maps_branch {yes : BlockId} {no : Option BlockId} {m₃ : Mapping}
    (hst : (a.statement b).branch? = some (cond, yes, no)) (h : m.consume cond s = .ok (m₁, rest))
    (h₁ : map yes rest m₁ = .ok (m₂, o₁))
    (h₂ : (no = none ∧ m₃ = m₂ ∧ o₂ = some rest) ∨ ∃ c, no = some c ∧ map c rest m₂ = .ok (m₃, o₂))
    (hjoin : m₃.join o₁ o₂ = .ok (m', out) ∨ m₃.join o₂ o₁ = .ok (m', out)) :
    Maps a b s m m' out := by
  obtain ⟨hcond, hyes, -, hno⟩ := hw.branch_children hb hst
  obtain ⟨e₀, hm₁, hrest, hst₁, -, htakes⟩ := consume_spec hw hb hcond hr hm hs h
  have M₁ := hmap yes hyes (hr.child hw hb hyes (e₀.beside hw hb hyes)) hm₁ hrest h₁
  have hno₁ {c : BlockId} (hc : no = some c) : Effect a (Beside a b c) m m₂ :=
    (e₀.beside hw hb (hno c hc).1).trans
      (M₁.effect.mono fun _ hx ↦ beside_sibling hw hb (hno c hc).1 hyes (hno c hc).2 hx)
  -- The other way, whether there is a block on it or not.
  have hother : Effect a (Beside a b yes) m₂ m₃ ∧ m₃.Proper ∧
      (∀ t, o₂ = some t → t.Proper m₃.analysis.locals) ∧
      m₃.analysis.statement b = m₂.analysis.statement b ∧
      ∀ c, no = some c → Maps a c rest m₂ m₃ o₂ := by
    rcases h₂ with ⟨rfl, rfl, rfl⟩ | ⟨c, hc, h₂⟩
    · exact ⟨.refl .., M₁.proper, fun t ht ↦ Option.some.inj ht ▸ hrest.mono M₁.effect.later.locals.size_le,
        rfl, by simp⟩
    · have M₂ := hmap c (hno c hc).1 (hr.child hw hb (hno c hc).1 (hno₁ hc)) M₁.proper
        (hrest.mono M₁.effect.later.locals.size_le) h₂
      refine ⟨M₂.effect.mono fun _ hx ↦ beside_sibling hw hb hyes (hno c hc).1 (hno c hc).2.symm hx,
        M₂.proper, M₂.outgoing, M₂.effect.statement (hw.tree.not_below_child hb (hno c hc).1), ?_⟩
      rintro d hd
      obtain rfl := Option.some.inj (hc.symm.trans hd)
      exact M₂
  obtain ⟨e₂, hm₃, ho₂, hst₃, hM₂⟩ := hother
  have ho₁ : ∀ t, o₁ = some t → t.Proper m₃.analysis.locals :=
    fun t ht ↦ (M₁.outgoing t ht).mono e₂.later.locals.size_le
  have hj : Effect a (fun _ ↦ False) m₃ m' ∧ m'.Proper ∧
      (∀ s, out = some s → s.Proper m'.analysis.locals) ∧ ∀ a', Later m'.analysis a' →
        Covers (out.map (·.shape a')) (o₁.map (·.shape a')) ∧
          Covers (out.map (·.shape a')) (o₂.map (·.shape a')) := by
    rcases hjoin with h | h
    · obtain ⟨h₁, h₂, h₃, -, -, h₄⟩ := join_spec hm₃ ho₁ ho₂ h
      exact ⟨h₁, h₂, h₃, h₄⟩
    · obtain ⟨h₁, h₂, h₃, -, -, h₄⟩ := join_spec hm₃ ho₂ ho₁ h
      exact ⟨h₁, h₂, h₃, fun a' ha' ↦ (h₄ a' ha').symm⟩
  obtain ⟨e₃, hm', hout, hcovers⟩ := hj
  have hall : Effect a (a.blocks.Below b) m m' :=
    (e₀.mono fun _ hx ↦ hx ▸ .root).trans <| (M₁.effect_parent hyes).trans <|
      (e₂.mono fun _ hx ↦ hx.1).trans (e₃.mono fun _ h ↦ h.elim)
  refine ⟨hall, hm', hout, fun {a' B C} hset hA ↦ ?_⟩
  have hst' : a'.statement b = a.statement b := by
    rw [hset.statement .root, e₃.statement id, hst₃,
      M₁.effect.statement (hw.tree.not_below_child hb hyes), hst₁, hr.statement .root]
  have hlater₁ : Later m₁.analysis a' := M₁.effect.later.trans <| e₂.later.trans <|
    e₃.later.trans hset.later
  have htake := htakes a' hlater₁
  have hlit : a'.program.literal cond = a.program.literal cond :=
    literal_eq hw hb hcond hr (e₀.later.trans hlater₁) htake
  refine .branch hst' hlit hst htake
    (M₁.typed_child hyes (e₀.beside hw hb hyes) (e₂.trans (e₃.mono fun _ h ↦ h.elim)) hset hA)
    (fun c hc ↦ (hM₂ c hc).typed_child (hno c hc).1 (hno₁ hc) (e₃.mono fun _ h ↦ h.elim) hset hA) (fun hn ↦ ?_)
    (hcovers a' hset.later).1 (hcovers a' hset.later).2
  rcases h₂ with ⟨-, -, rfl⟩ | ⟨c, hc, -⟩
  · rfl
  · simp [hc] at hn

omit hw hb hr hm hs hmap in
theorem enter_spec (hm : m.Proper) (hentry : entry.Proper m.analysis.locals) :
    Effect a (· = b) m (m.enter b entry) ∧ (m.enter b entry).Proper ∧
      (m.enter b entry).entries.lookup b = some entry := by
  have hself : (m.enter b entry).entries.lookup b = some entry := by simp [enter]
  have hother {t : BlockId} (ht : t ≠ b) :
      (m.enter b entry).entries.lookup t = m.entries.lookup t := by
    rw [enter, List.lookup_cons, beq_false_of_ne ht]
    exact lookup_filter_ne ht m.entries
  refine ⟨⟨.refl _, rfl, fun _ ↦ rfl, fun _ _ ↦ rfl, hother, fun _ h ↦ h⟩,
    ⟨hm.locals, hm.breaks, fun {t s} ht ↦ ?_⟩, hself⟩
  by_cases htb : t = b
  · rw [htb, hself] at ht
    exact Option.some.inj ht ▸ hentry
  · exact hm.entries ((hother htb) ▸ ht)

omit hmap in
theorem consume_test {incr : Option BlockId} (hsteady : a.Steady r)
    (hst : a.statement b = .loop kind cond init incr body labeled)
    (h : m.consume? init s = .ok (m₁, entry)) : m₁.consume cond entry = .ok (m₁, entry) := by
  obtain ⟨hinit, hcond, -, -⟩ := hw.loop_parts hb hst
  obtain ⟨e₀, -, -, -, hexpr, -⟩ := consume?_spec hw hb hinit hr hm hs h
  have hfree := hsteady.test hb hst
  refine consume_nil ?_
  rw [Expressions.freeOperands_congr (hw.nests hb hcond) (hr.size_le.trans e₀.later.size_le)
    fun f hf ↦ ?_, hfree]
  refine (hexpr f fun e _ hf' ↦ ?_).trans (hr.expr .root hcond hf)
  have : f ∈ a.exprs.freeOperands cond :=
    Expressions.mem_freeOperands.mpr ⟨hf, (Expressions.mem_freeOperands.mp hf').2⟩
  simp [hfree] at this

omit hm hs hmap in
theorem expr_test {incr : Option BlockId} (hsteady : a.Steady r)
    (hst : a.statement b = .loop kind cond init incr body labeled) (hlater : Later m.analysis a') :
    a'.expr cond = a.expr cond := by
  have hcond := (hw.loop_parts hb hst).2.1
  refine hr.expr_eq hw hb hcond hlater ?_
  by_contra hfree
  rw [Bool.not_eq_false] at hfree
  have : cond ∈ a.exprs.freeOperands cond :=
    Expressions.mem_freeOperands.mpr ⟨hw.mem_preorder hb hcond, hfree⟩
  rw [hsteady.test hb hst] at this
  cases this

theorem maps_loop {incr : Option BlockId} {m₃ m₄ : Mapping} {back : Outgoing}
    (hsteady : a.Steady r) (hst : a.statement b = .loop kind cond init incr body labeled)
    (h : m.consume? init s = .ok (m₁, entry))
    (h₁ : map body entry (m₁.enter b entry) = .ok (m₂, back))
    (h₂ : ∀ t, back = some t → ∃ t', m₂.meet t entry = .ok (m₃, t')) (h₂' : back = none → m₃ = m₂)
    (h₃ : ∀ i, incr = some i → ∃ o, map i entry m₃ = .ok (m₄, o)) (h₃' : incr = none → m₄ = m₃)
    (h₄ : m₄.joinBreaks b (if m₄.analysis.expr cond = .const (.bool true) then none
      else if kind = .doWhile then back else some entry) = .ok (m', out)) :
    Maps a b s m m' out := by
  obtain ⟨hinit, hcond, hbody, hincr⟩ := hw.loop_parts hb hst
  obtain ⟨e₀, hm₁, hentry, hst₁, -, htakes⟩ := consume?_spec hw hb hinit hr hm hs h
  obtain ⟨e₁, hm₁', hlookup⟩ := enter_spec hm₁ hentry
  have M₁ := hmap body hbody
    (hr.child hw hb hbody ((e₀.trans e₁).beside hw hb hbody)) hm₁' hentry h₁
  have hentry₂ : entry.Proper m₂.analysis.locals := hentry.mono M₁.effect.later.locals.size_le
  -- The stack at the end of the body is that of the test.
  have hback : Effect a (fun _ ↦ False) m₂ m₃ ∧ m₃.Proper ∧
      (∀ x, m₃.analysis.statement x = m₂.analysis.statement x) ∧
      ∀ a', Later m₃.analysis a' → ∀ T, back.map (·.shape a') = some T → T = entry.shape a' := by
    cases back with
    | none =>
      obtain rfl := h₂' rfl
      exact ⟨.refl .., M₁.proper, fun _ ↦ rfl, by simp⟩
    | some t =>
      obtain ⟨t', ht⟩ := h₂ t rfl
      obtain ⟨-, heff, hm₃, -, hst₃, -, hshape⟩ :=
        meet_spec M₁.proper (M₁.outgoing t rfl) hentry₂ ht
      exact ⟨heff, hm₃, hst₃, fun a' ha' T hT ↦ by simpa [hshape a' ha'] using hT.symm⟩
  obtain ⟨e₂, hm₃, hst₃, hback⟩ := hback
  have hpre {i : BlockId} (hi : incr = some i) : Effect a (Beside a b i) m m₃ :=
    ((e₀.trans e₁).beside hw hb (hincr i hi).1).trans <|
      (M₁.effect.mono fun _ hx ↦ beside_sibling hw hb (hincr i hi).1 hbody (hincr i hi).2 hx).trans
        (e₂.mono fun _ h ↦ h.elim)
  have hstep : Effect a (Beside a b body) m₃ m₄ ∧ m₄.Proper ∧
      m₄.analysis.statement b = m₃.analysis.statement b ∧
      (∀ u, m₃.breaks.lookup b = some u → m₄.breaks.lookup b = some u) ∧
      ∀ i, incr = some i → ∃ o, Maps a i entry m₃ m₄ o := by
    cases hincr' : incr with
    | none =>
      obtain rfl := h₃' hincr'
      exact ⟨.refl .., hm₃, rfl, fun _ h ↦ h, by simp⟩
    | some i =>
      obtain ⟨hi, hne⟩ := hincr i hincr'
      obtain ⟨o, hmi⟩ := h₃ i hincr'
      have M₂ := hmap i hi (hr.child hw hb hi (hpre hincr')) hm₃
        (hentry₂.mono e₂.later.locals.size_le) hmi
      refine ⟨M₂.effect.mono fun _ hx ↦ beside_sibling hw hb hbody hi hne.symm hx, M₂.proper,
        M₂.effect.statement (hw.tree.not_below_child hb hi),
        fun u ↦ M₂.effect.breaks (hw.tree.not_below_child hb hi), ?_⟩
      intro j hj
      cases hj
      exact ⟨o, M₂⟩
  obtain ⟨e₃, hm₄, hst₄, hbreaks₄, hM₂⟩ := hstep
  have hproper (t : OperandStack) (ht : (if m₄.analysis.expr cond = .const (.bool true) then none
      else if kind = .doWhile then back else some entry) = some t) :
      t.Proper m₄.analysis.locals := by
    have hle := e₂.later.locals.size_le.trans e₃.later.locals.size_le
    split_ifs at ht
    · exact (M₁.outgoing t ht).mono hle
    · exact Option.some.inj ht ▸ hentry₂.mono hle
  obtain ⟨e₄, hm', hout, hst', hcovers⟩ := joinBreaks_spec hm₄ hproper h₄
  have e₂' : Effect a (Beside a b body) m₂ m₃ := e₂.mono fun _ h ↦ h.elim
  have hafter : Effect a (Beside a b body) m₂ m' :=
    e₂'.trans (e₃.trans (e₄.beside hw hb hbody))
  have hbefore : Effect a (a.blocks.Below b) m (m₁.enter b entry) :=
    (e₀.trans e₁).mono fun _ hx ↦ hx ▸ .root
  refine ⟨hbefore.trans ((M₁.effect_parent hbody).trans (hafter.mono fun _ hx ↦ hx.1)), hm', hout,
    fun {a' B C} hset hA ↦ ?_⟩
  have hst'' : a'.statement b = a.statement b := by
    rw [hset.statement .root, hst', hst₄, hst₃,
      M₁.effect.statement (hw.tree.not_below_child hb hbody), ← hr.statement .root, ← hst₁]
    rfl
  have hlater₂ : Later m₂.analysis a' := hafter.later.trans hset.later
  have hlater : Later m.analysis m₂.analysis := hbefore.later.trans M₁.effect.later
  -- The condition takes nothing, so it is as it was.
  have hkept {an : Analysis} (hl : Later m.analysis an) : an.expr cond = a.expr cond :=
    expr_test hw hb hr hsteady hst hl
  have hcond₄ : m₄.analysis.expr cond = a.expr cond :=
    hkept (hlater.trans (e₂.later.trans e₃.later))
  have hcond' : a'.expr cond = a.expr cond := hkept (hlater.trans hlater₂)
  have hA' : Around a' (a.blocks.Below body)
      (Function.update B b (some ((m₄.breaks.lookup b).map (·.shape a'))))
      (Function.update C b (some (entry.shape a'))) (m₁.enter b entry) m₂ := by
    have hsub := hA.child hbody ((e₀.trans e₁).beside hw hb hbody) hafter
    refine ⟨fun {t o} ht ↦ ?_, fun {t E} ht ↦ ?_⟩
    · by_cases htb : t = b
      · subst htb
        rw [Function.update_self] at ht
        cases ht
        refine ⟨hw.tree.not_below_child hb hbody, fun {u} hu ↦ ?_⟩
        rw [hbreaks₄ u (e₂.breaks id hu)]
        rfl
      · rw [Function.update_of_ne htb] at ht
        exact hsub.breaks ht
    · by_cases htb : t = b
      · subst htb
        rw [Function.update_self] at ht
        exact ⟨hw.tree.not_below_child hb hbody, entry, hlookup, (Option.some.inj ht).symm⟩
      · rw [Function.update_of_ne htb] at ht
        exact hsub.continues ht
  have T₁ := M₁.typed (hset.child hbody hafter) hA'
  obtain ⟨hc₁, hc₂⟩ := hcovers a' hset.later
  have hend := hback a' (e₃.later.trans (e₄.later.trans hset.later))
  have hexit (ha : a.program.Allows cond false)
      (hk : kind ≠ .doWhile ∨ back.map (·.shape a') ≠ none) :
      out.map (·.shape a') = some (entry.shape a') := by
    have hne : m₄.analysis.expr cond ≠ .const (.bool true) := by
      intro heq
      rw [hcond₄] at heq
      have := ha true (by simp [Analysis.program, heq])
      cases this
    rw [if_neg hne] at hc₁
    by_cases hd : kind = .doWhile
    · rw [if_pos hd] at hc₁
      obtain ⟨T, hT⟩ := Option.ne_none_iff_exists'.mp (hk.resolve_left (not_not.mpr hd))
      rw [hc₁ T hT, hend T hT]
    · rw [if_neg hd] at hc₁
      exact hc₁ _ rfl
  have hround : Typed a a' a'.cellOf B C (.round b) (entry.shape a') (out.map (·.shape a')) := by
    refine .rounds hst'' (by simp only [Analysis.program, hcond']) hst (hsteady.test hb hst) (fun i hi ↦ ?_) T₁
      hend hexit hc₂
    obtain ⟨o, M₂⟩ := hM₂ i hi
    obtain ⟨e, he, hfe⟩ := hsteady.incr hb (hi ▸ hst)
    have T₂ := M₂.typed_child (hincr i hi).1 (hpre hi) (e₄.beside hw hb (hincr i hi).1) hset hA
    obtain ⟨-, -, hi', hlt, -⟩ := T₂.of_evaluate he
    exact ⟨e, he, hi', hlt, hfe⟩
  refine .loop hst'' hst (htakes a' ((e₁.later.trans M₁.effect.later).trans hlater₂)) ?_
  split_ifs with hk
  · exact hround
  · exact .test hst hround fun ha ↦ hexit ha (.inl hk)

theorem maps_within {before : Option ExprId} (hst : (a.statement b).body? = some (before, body))
    (h : m.consume? before s = .ok (m₁, rest)) (h₁ : map body rest m₁ = .ok (m', out)) :
    Maps a b s m m' out := by
  obtain ⟨hbefore, hbody, -⟩ := Analysis.body_children hst
  obtain ⟨e₀, hm₁, hrest, hst₁, -, htakes⟩ := consume?_spec hw hb hbefore hr hm hs h
  have M₁ := hmap body hbody (hr.child hw hb hbody (e₀.beside hw hb hbody)) hm₁ hrest h₁
  refine ⟨(e₀.mono fun _ hx ↦ hx ▸ .root).trans (M₁.effect_parent hbody), M₁.proper, M₁.outgoing,
    fun {a' B C} hset hA ↦ .within ?_ hst (htakes a' (M₁.effect.later.trans hset.later))
      (M₁.typed_child hbody (e₀.beside hw hb hbody) (.refl ..) hset hA)⟩
  rw [hset.statement .root, M₁.effect.statement (hw.tree.not_below_child hb hbody), hst₁,
    hr.statement .root]

omit hmap hw hb in
theorem maps_breakTo {target : BlockId} {labeled : Bool} (hst : a.statement b = .breakTo target labeled)
    (h : (∃ seen t, m.breaks.lookup target = some seen ∧ m.meet seen s = .ok (m', t)) ∨
      (m.breaks.lookup target = none ∧ m' = { m with breaks := (target, s) :: m.breaks })) :
    Maps a b s m m' none := by
  rcases h with ⟨seen, t, hseen, h⟩ | ⟨hnone, rfl⟩
  · obtain ⟨-, heff, hm', -, hst', hbreaks, hshape⟩ := meet_spec hm (hm.breaks hseen) hs h
    refine ⟨heff, hm', by simp, fun {a' B C} hset hA ↦ .breakTo ?_ hst fun o ho ↦ ?_⟩
    · rw [hset.statement .root, hst', hr.statement .root]
    · rw [(hA.breaks ho).2 (hbreaks ▸ hseen), hshape a' hset.later]
  · have hlookup (t : BlockId) : ((target, s) :: m.breaks).lookup t =
        if t = target then some s else m.breaks.lookup t := by
      by_cases ht : t = target
      · simp [ht]
      · rw [List.lookup_cons, beq_false_of_ne ht, if_neg ht]
    refine ⟨⟨.refl _, rfl, fun _ ↦ rfl, fun _ _ ↦ rfl, fun _ ↦ rfl, fun {t u} _ hu ↦ ?_⟩,
      ⟨hm.locals, fun {t u} hu ↦ ?_, hm.entries⟩, by simp,
      fun {a' B C} hset hA ↦ .breakTo ?_ hst fun o ho ↦ ?_⟩
    · rw [hlookup, if_neg (by rintro rfl; simp [hnone] at hu)]
      exact hu
    · rw [hlookup] at hu
      split_ifs at hu
      · exact Option.some.inj hu ▸ hs
      · exact hm.breaks hu
    · rw [hset.statement .root, hr.statement .root]
    · exact (hA.breaks ho).2 (by rw [hlookup, if_pos rfl])

omit hmap hw in
theorem maps_continueTo (hsteady : a.Steady r) (hst : a.statement b = .continueTo target labeled)
    (h : (∃ entry t, m.entries.lookup target = some entry ∧ m.meet entry s = .ok (m', t)) ∨
      (m.entries.lookup target = none ∧ m' = m)) :
    Maps a b s m m' none := by
  rcases h with ⟨entry, t, hentry, h⟩ | ⟨hnone, rfl⟩
  · obtain ⟨-, heff, hm', -, hst', -, hshape⟩ := meet_spec hm (hm.entries hentry) hs h
    refine ⟨heff, hm', by simp, fun {a' B C} hset hA ↦
      .continueTo ?_ hst (fun E hE ↦ ?_) (hsteady.continues hb hst)⟩
    · rw [hset.statement .root, hst', hr.statement .root]
    · obtain ⟨-, u, hu, rfl⟩ := hA.continues hE
      obtain rfl := Option.some.inj (hentry.symm.trans hu)
      exact (hshape a' hset.later).symm
  · refine ⟨.refl .., hm, by simp, fun {a' B C} hset hA ↦
      .continueTo ?_ hst (fun E hE ↦ ?_) (hsteady.continues hb hst)⟩
    · rw [hset.statement .root, hr.statement .root]
    · obtain ⟨-, u, hu, -⟩ := hA.continues hE
      simp [hnone] at hu

end Blocks

end Mapping

end Decompile
