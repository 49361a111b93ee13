import Decompile.Analysis.Basic
import Decompile.OperandStack
import Decompile.Proofs.Execution
import Mathlib.Algebra.GroupWithZero.Nat
import Mathlib.Data.List.Forall2
import Mathlib.Data.List.Nodup

namespace Decompile

/-- A value on the operand stack. The cell it is also stored in may have been written since. -/
structure Item (V : Type) where
  value : V
  width : Nat
  cell : LocalId
  kept : Bool

/-- A shuffle moves the entries that make up its slots. -/
inductive Shuffled {α : Type} (width : α → Nat) (op : StackOp) : List α → List α → Prop
  | pop {slots rest top} : op.poppedSlots = some slots → (top.map width).sum = slots →
    Shuffled width op (rest ++ top) rest
  | dup {copied skipped rest under top} : op.poppedSlots = none →
    op.dupShape = some (copied, skipped) → (top.map width).sum = copied →
    (under.map width).sum = skipped →
    Shuffled width op (rest ++ (under ++ top)) (rest ++ (top ++ (under ++ top)))
  | swap {rest x y} : op.poppedSlots = none → op.dupShape = none → width x = 1 → width y = 1 →
    Shuffled width op (rest ++ [x, y]) (rest ++ [y, x])

/-- The cells and widths of the values on the stack. -/
abbrev Shape := List (LocalId × Nat)

section Machines

variable {V : Type}

def shape (s : List (Item V)) : Shape := s.map fun i ↦ (i.cell, i.width)

/-- A cell is written, so that older values in it are lost. -/
def overwrite (c : LocalId) (s : List (Item V)) : List (Item V) :=
  s.map fun i ↦ if i.cell = c then { i with kept := false } else i

/-- An expression takes one value for each of its free operands, the last from the top. -/
def Popped (a : Analysis) (e : ExprId) (s operands s' : List (Item V)) : Prop :=
  s = s' ++ operands ∧
    operands.map Item.width = (a.exprs.freeOperands e).map a.exprs.freeWidth

inductive StackStep (a : Analysis) (cell : BlockId → LocalId) (b : BlockId) :
    Statement → List (Item V) → List (Event (Item V) V) → List (Item V) → Prop
  | empty {s} : StackStep a cell b .empty s [] s
  | description {text s} : StackStep a cell b (.description text) s [] s
  | evaluate {e s operands s'} : Popped a e s operands s' →
    StackStep a cell b (.evaluate e 0) s [.took e operands] s'
  | push {e width s operands rest v} : width ≠ 0 → Popped a e s operands rest →
    StackStep a cell b (.evaluate e width) s [.took e operands, .pushed b v]
      (overwrite (cell b) rest ++ [⟨v, width, cell b, true⟩])
  | shuffle {op s s'} : Shuffled Item.width op s s' → StackStep a cell b (.shuffle op) s [] s'

/-- The operand-stack machine. It keeps track of the cell in which each pushed value belongs. -/
def stackMachine (V : Type) (a : Analysis) (cell : BlockId → LocalId) :
    Machine (Item V) V (List (Item V)) :=
  ⟨Popped a, StackStep a cell⟩

/-- What was a free operand in `a` is a variable in `a'` and reads the cell of its class. -/
def Loaded (a a' : Analysis) (e : ExprId) (σ : LocalId → V) (operands : List V) : Prop :=
  List.Forall₂ (fun f v ↦ ∃ x, a'.expr f = .var x ∧ σ (a'.locals.classOf x) = v)
    (a.exprs.freeOperands e) operands

/-- Assignments beyond the expressions of `a` have been made for pushes. -/
inductive CellStep (a a' : Analysis) (b : BlockId) :
    Statement → (LocalId → V) → List (Event V V) → (LocalId → V) → Prop
  | empty {σ} : CellStep a a' b .empty σ [] σ
  | description {text σ} : CellStep a a' b (.description text) σ [] σ
  | evaluate {e σ operands} : e.index < a.exprs.size → Loaded a a' e σ operands →
    CellStep a a' b (.evaluate e 0) σ [.took e operands] σ
  | store {e target x value σ operands v} : a.exprs.size ≤ e.index →
    a'.expr e = .assign target none value → a'.expr target = .var x →
    Loaded a a' value σ operands →
    CellStep a a' b (.evaluate e 0) σ [.took value operands, .pushed b v]
      (Function.update σ (a'.locals.classOf x) v)

/-- The machine of the mapped tree `a'`, with one cell for each class of locals. -/
def cellMachine (V : Type) (a a' : Analysis) : Machine V V (LocalId → V) :=
  ⟨fun e σ operands σ' ↦ σ' = σ ∧ Loaded a a' e σ operands, CellStep a a'⟩

end Machines

/-- The tree of statements of an analysis. -/
def Analysis.program (a : Analysis) : Program where
  statement := a.statement
  literal e :=
    match a.expr e with
    | .const (.bool v) => some v
    | _ => none

/-! Typing -/

/-- The expression takes the top of the stack, and each of its operands is given a variable whose
class is the cell of the value. -/
def Takes (a a' : Analysis) (e : ExprId) (S R : Shape) : Prop :=
  ∃ operands, S = R ++ operands ∧ List.Forall₂
    (fun f (o : LocalId × Nat) ↦ a.exprs.freeWidth f = o.2 ∧
      ∃ x, a'.expr f = .var x ∧ a'.locals.classOf x = o.1) (a.exprs.freeOperands e) operands

def Takes? (a a' : Analysis) : Option ExprId → Shape → Shape → Prop
  | none, S, R => R = S
  | some e, S, R => Takes a a' e S R

/-- Where one way out leads with some stack, so do all. -/
def Covers (O O' : Option Shape) : Prop := ∀ T, O' = some T → O = some T

/-- The stack at the breaks out of each enclosing block, if there are any. -/
abbrev Breaks := BlockId → Option (Option Shape)

/-- The stack at the test of each enclosing loop. -/
abbrev Continues := BlockId → Option Shape

/-- Every point of the tree of `a` has one shape of the stack, however control gets there, and `a'`
is the tree that passes the values in cells: from a spot with stack `S` control goes on with stack
`O`, breaks with the stacks `B` and continues with the stacks `C`. -/
inductive Typed (a a' : Analysis) (cell : BlockId → LocalId) :
    Breaks → Continues → Spot → Shape → Option Shape → Prop
  | idle {B C b S} : a'.statement b = a.statement b →
    a.statement b = .empty ∨ (∃ text, a.statement b = .description text) →
    Typed a a' cell B C (.block b) S (some S)
  | evaluate {B C b e S R} : a.statement b = .evaluate e 0 → a'.statement b = .evaluate e 0 →
    e.index < a.exprs.size → Takes a a' e S R → Typed a a' cell B C (.block b) S (some R)
  | push {B C b e width e' target x S R} : a.statement b = .evaluate e width → width ≠ 0 →
    a'.statement b = .evaluate e' 0 → a.exprs.size ≤ e'.index →
    a'.expr e' = .assign target none e → a'.expr target = .var x →
    a'.locals.classOf x = cell b → Takes a a' e S R →
    Typed a a' cell B C (.block b) S (some (R ++ [(cell b, width)]))
  | leave {B C b value S R} : a'.statement b = a.statement b →
    (a.statement b).leaves? = some value → Takes? a a' value S R →
    Typed a a' cell B C (.block b) S none
  | shuffle {B C b op S T} : a.statement b = .shuffle op → a'.statement b = .empty →
    (∀ S', Shuffled Prod.snd op S S' → S' = T) → Typed a a' cell B C (.block b) S (some T)
  | sequence {B C b first second S T O} : a'.statement b = a.statement b →
    a.statement b = .sequence first second → Typed a a' cell B C (.block first) S (some T) →
    Typed a a' cell B C (.block second) T O → Typed a a' cell B C (.block b) S O
  | stopFirst {B C b first second S} : a'.statement b = a.statement b →
    a.statement b = .sequence first second → Typed a a' cell B C (.block first) S none →
    Typed a a' cell B C (.block b) S none
  | branch {B C b cond yes no S R O₁ O₂ O} : a'.statement b = a.statement b →
    a'.program.literal cond = a.program.literal cond →
    (a.statement b).branch? = some (cond, yes, no) → Takes a a' cond S R →
    Typed a a' cell B C (.block yes) R O₁ →
    (∀ b, no = some b → Typed a a' cell B C (.block b) R O₂) → (no = none → O₂ = some R) →
    Covers O O₁ → Covers O O₂ → Typed a a' cell B C (.block b) S O
  | rounds {B C b kind cond init incr body labeled E broken O₁ O} :
    a'.statement b = a.statement b → a'.program.literal cond = a.program.literal cond →
    a.statement b = .loop kind cond init incr body labeled → a.exprs.freeOperands cond = [] →
    (∀ i, incr = some i → ∃ e, a.statement i = .evaluate e 0 ∧ a'.statement i = .evaluate e 0 ∧
      e.index < a.exprs.size ∧ a.exprs.freeOperands e = []) →
    Typed a a' cell (Function.update B b (some broken)) (Function.update C b (some E)) (.block body) E O₁ →
    (∀ T, O₁ = some T → T = E) →
    (a.program.Allows cond false → kind ≠ .doWhile ∨ O₁ ≠ none → O = some E) → Covers O broken →
    Typed a a' cell B C (.round b) E O
  | test {B C b kind cond init incr body labeled E O} :
    a.statement b = .loop kind cond init incr body labeled → Typed a a' cell B C (.round b) E O →
    (a.program.Allows cond false → O = some E) → Typed a a' cell B C (.test b) E O
  | loop {B C b kind cond init incr body labeled S E O} : a'.statement b = a.statement b →
    a.statement b = .loop kind cond init incr body labeled → Takes? a a' init S E →
    Typed a a' cell B C (if kind = .doWhile then .round b else .test b) E O →
    Typed a a' cell B C (.block b) S O
  | switch {B C b selector cases labeled S R broken O₁ O} : a'.statement b = a.statement b →
    a.statement b = .switch selector cases labeled →
    (∀ c ∈ cases, a'.statement c = a.statement c) → Takes a a' selector S R →
    (∀ i, i < cases.length ∨
        (i = cases.length ∧ ∀ c ∈ cases, ¬ (a.statement c).isDefaultCase) →
      Typed a a' cell (Function.update B b (some broken)) C (.cases (cases.drop i)) R O₁) →
    Covers O O₁ → Covers O broken → Typed a a' cell B C (.block b) S O
  | noCase {B C S} : Typed a a' cell B C (.cases []) S (some S)
  | oneCase {B C c cs value body fall S O₁ O} : a'.statement c = a.statement c →
    a.statement c = .switchCase value body fall → Typed a a' cell B C (.block body) S O₁ →
    (∀ T, O₁ = some T → Typed a a' cell B C (.cases cs) T O) →
    Typed a a' cell B C (.cases (c :: cs)) S O
  | strayCase {B C c cs S O} : (∀ value body fall, a.statement c ≠ .switchCase value body fall) →
    Typed a a' cell B C (.cases (c :: cs)) S O
  | within {B C b before body S R O} : a'.statement b = a.statement b →
    (a.statement b).body? = some (before, body) → Takes? a a' before S R →
    Typed a a' cell B C (.block body) R O → Typed a a' cell B C (.block b) S O
  | breakTo {B C b target labeled S} : a'.statement b = a.statement b →
    a.statement b = .breakTo target labeled → (∀ o, B target = some o → o = some S) →
    Typed a a' cell B C (.block b) S none
  | continueTo {B C b target labeled S} : a'.statement b = a.statement b →
    a.statement b = .continueTo target labeled → (∀ E, C target = some E → S = E) →
    (∀ cond init incr body l, a.statement target ≠ .loop .doWhile cond init incr body l) →
    Typed a a' cell B C (.block b) S none

variable {labeled : Bool} {body : BlockId} {cond e : ExprId} {kind : LoopKind}
  {init value : Option ExprId} {incr : Option BlockId} {op : StackOp}

section Inversion

variable {a a' : Analysis} {cell : BlockId → LocalId} {B : Breaks} {C : Continues} {b : BlockId}
  {S : Shape} {O : Option Shape}

section Block

variable (h : Typed a a' cell B C (.block b) S O)
include h

theorem Typed.of_idle (hb : a.statement b = .empty ∨ ∃ text, a.statement b = .description text) :
    O = some S ∧ a'.statement b = a.statement b := by
  rcases hb with hb | ⟨_, hb⟩ <;> cases h <;>
    simp_all [Statement.leaves?, Statement.branch?, Statement.body?]

theorem Typed.of_evaluate (hb : a.statement b = .evaluate e 0) :
    ∃ R, O = some R ∧ a'.statement b = .evaluate e 0 ∧ e.index < a.exprs.size ∧
      Takes a a' e S R := by
  cases h <;> simp_all [Statement.leaves?, Statement.branch?, Statement.body?]

theorem Typed.of_push {width : Nat} (hb : a.statement b = .evaluate e width) (hw : width ≠ 0) :
    ∃ R e' target x, O = some (R ++ [(cell b, width)]) ∧ a'.statement b = .evaluate e' 0 ∧
      a.exprs.size ≤ e'.index ∧ a'.expr e' = .assign target none e ∧ a'.expr target = .var x ∧
      a'.locals.classOf x = cell b ∧ Takes a a' e S R := by
  cases h <;> simp_all [Statement.leaves?, Statement.branch?, Statement.body?]

theorem Typed.of_shuffle (hb : a.statement b = .shuffle op) :
    ∃ T, O = some T ∧ a'.statement b = .empty ∧ ∀ S', Shuffled Prod.snd op S S' → S' = T := by
  cases h with
  | shuffle h' hst hT =>
    obtain rfl := Statement.shuffle.inj (hb.symm.trans h')
    exact ⟨_, rfl, hst, hT⟩
  | _ => simp_all [Statement.leaves?, Statement.branch?, Statement.body?]

theorem Typed.of_leave (hb : (a.statement b).leaves? = some value) :
    a'.statement b = a.statement b ∧ ∃ R, Takes? a a' value S R := by
  obtain ⟨hbranch, hbody⟩ := Statement.branch?_of_leaves? hb
  cases h with
  | leave hst hv ht =>
    obtain rfl := Option.some.inj (hb.symm.trans hv)
    exact ⟨hst, _, ht⟩
  | idle _ h => rcases h with h | ⟨_, h⟩ <;> simp [h, Statement.leaves?] at hb
  | _ => simp_all [Statement.leaves?]

theorem Typed.of_sequence {first second : BlockId}
    (hb : a.statement b = .sequence first second) : a'.statement b = a.statement b ∧
      ((∃ T, Typed a a' cell B C (.block first) S (some T) ∧
          Typed a a' cell B C (.block second) T O) ∨
        (O = none ∧ Typed a a' cell B C (.block first) S none)) := by
  cases h with
  | sequence hst h' h₁ h₂ =>
    obtain ⟨rfl, rfl⟩ := Statement.sequence.inj (hb.symm.trans h')
    exact ⟨hst, .inl ⟨_, h₁, h₂⟩⟩
  | _ => simp_all [Statement.leaves?, Statement.branch?, Statement.body?]

theorem Typed.of_branch {yes : BlockId} {no : Option BlockId}
    (hb : (a.statement b).branch? = some (cond, yes, no)) :
    a'.statement b = a.statement b ∧ a'.program.literal cond = a.program.literal cond ∧
      ∃ R O₁ O₂, Takes a a' cond S R ∧ Typed a a' cell B C (.block yes) R O₁ ∧
        (∀ b, no = some b → Typed a a' cell B C (.block b) R O₂) ∧ (no = none → O₂ = some R) ∧
        Covers O O₁ ∧ Covers O O₂ := by
  have hbody := Statement.body?_of_branch? hb
  cases h with
  | branch hst hlit h' ht h₁ h₂ h₃ hc₁ hc₂ =>
    obtain ⟨rfl, rfl, rfl⟩ : _ ∧ _ ∧ _ := by simpa using hb.symm.trans h'
    exact ⟨hst, hlit, _, _, _, ht, h₁, h₂, h₃, hc₁, hc₂⟩
  | leave _ h => simp [(Statement.branch?_of_leaves? h).1] at hb
  | idle _ h => rcases h with h | ⟨_, h⟩ <;> simp [h, Statement.branch?] at hb
  | _ => simp_all [Statement.branch?]

theorem Typed.of_loop (hb : a.statement b = .loop kind cond init incr body labeled) :
    a'.statement b = a.statement b ∧ ∃ E, Takes? a a' init S E ∧
      Typed a a' cell B C (if kind = .doWhile then .round b else .test b) E O := by
  cases h with
  | loop hst h' ht h₁ =>
    obtain ⟨rfl, -, rfl, -, -, -⟩ := Statement.loop.inj (hb.symm.trans h')
    exact ⟨hst, _, ht, h₁⟩
  | _ => simp_all [Statement.leaves?, Statement.branch?, Statement.body?]

theorem Typed.of_switch {selector : ExprId} {cases : List BlockId}
    (hb : a.statement b = .switch selector cases labeled) :
    a'.statement b = a.statement b ∧ (∀ c ∈ cases, a'.statement c = a.statement c) ∧
      ∃ R broken O₁, Takes a a' selector S R ∧
        (∀ i, i < cases.length ∨
            (i = cases.length ∧ ∀ c ∈ cases, ¬ (a.statement c).isDefaultCase) →
          Typed a a' cell (Function.update B b (some broken)) C (.cases (cases.drop i)) R O₁) ∧
        Covers O O₁ ∧ Covers O broken := by
  cases h with
  | switch hst h' hcs ht h₁ h₂ h₃ =>
    obtain ⟨rfl, rfl, rfl⟩ := Statement.switch.inj (hb.symm.trans h')
    exact ⟨hst, hcs, _, _, _, ht, h₁, h₂, h₃⟩
  | _ => simp_all [Statement.leaves?, Statement.branch?, Statement.body?]

theorem Typed.of_within {before : Option ExprId}
    (hb : (a.statement b).body? = some (before, body)) :
    a'.statement b = a.statement b ∧
      ∃ R, Takes? a a' before S R ∧ Typed a a' cell B C (.block body) R O := by
  cases h with
  | within hst h' ht h₁ =>
    obtain ⟨rfl, rfl⟩ : _ ∧ _ := by simpa using hb.symm.trans h'
    exact ⟨hst, _, ht, h₁⟩
  | leave _ h => simp [(Statement.branch?_of_leaves? h).2] at hb
  | branch _ _ h => simp [Statement.body?_of_branch? h] at hb
  | idle _ h => rcases h with h | ⟨_, h⟩ <;> simp [h, Statement.body?] at hb
  | _ => simp_all [Statement.body?]

variable {target : BlockId}

theorem Typed.of_break (hb : a.statement b = .breakTo target labeled) :
    a'.statement b = a.statement b ∧ ∀ o, B target = some o → o = some S := by
  cases h with
  | breakTo hst h' hB =>
    obtain ⟨rfl, -⟩ := Statement.breakTo.inj (hb.symm.trans h')
    exact ⟨hst, hB⟩
  | _ => simp_all [Statement.leaves?, Statement.branch?, Statement.body?]

theorem Typed.of_continue (hb : a.statement b = .continueTo target labeled) :
    a'.statement b = a.statement b ∧ (∀ E, C target = some E → S = E) ∧
      ∀ cond init incr body l, a.statement target ≠ .loop .doWhile cond init incr body l := by
  cases h <;> simp_all [Statement.leaves?, Statement.branch?, Statement.body?]

end Block

theorem Typed.of_test (h : Typed a a' cell B C (.test b) S O)
    (hb : a.statement b = .loop kind cond init incr body labeled) :
    Typed a a' cell B C (.round b) S O ∧ (a.program.Allows cond false → O = some S) := by
  cases h with
  | test h' h₁ h₂ =>
    obtain ⟨-, rfl, -, -, -, -⟩ := Statement.loop.inj (hb.symm.trans h')
    exact ⟨h₁, h₂⟩

theorem Typed.of_round (h : Typed a a' cell B C (.round b) S O)
    (hb : a.statement b = .loop kind cond init incr body labeled) :
    a'.statement b = a.statement b ∧ a'.program.literal cond = a.program.literal cond ∧
      a.exprs.freeOperands cond = [] ∧
      (∀ i, incr = some i → ∃ e, a.statement i = .evaluate e 0 ∧ a'.statement i = .evaluate e 0 ∧
        e.index < a.exprs.size ∧ a.exprs.freeOperands e = []) ∧
      ∃ broken O₁, Typed a a' cell (Function.update B b (some broken)) (Function.update C b (some S))
          (.block body) S O₁ ∧ (∀ T, O₁ = some T → T = S) ∧
        (a.program.Allows cond false → kind ≠ .doWhile ∨ O₁ ≠ none → O = some S) ∧
        Covers O broken := by
  cases h with
  | rounds hst hlit h' hc hi h₁ h₂ h₃ h₄ =>
    obtain ⟨rfl, rfl, rfl, rfl, rfl, rfl⟩ := Statement.loop.inj (hb.symm.trans h')
    exact ⟨hst, hlit, hc, hi, _, _, h₁, h₂, h₃, h₄⟩

theorem Typed.of_case {value : CaseValue} {c : BlockId} {fall : Bool} {cs : List BlockId}
    (h : Typed a a' cell B C (.cases (c :: cs)) S O)
    (hc : a.statement c = .switchCase value body fall) :
    a'.statement c = a.statement c ∧ ∃ O₁, Typed a a' cell B C (.block body) S O₁ ∧
      ∀ T, O₁ = some T → Typed a a' cell B C (.cases cs) T O := by
  cases h with
  | oneCase hst h' h₁ h₂ =>
    obtain ⟨-, rfl, -⟩ := Statement.switchCase.inj (hc.symm.trans h')
    exact ⟨hst, _, h₁, h₂⟩
  | strayCase h => exact absurd hc (h _ _ _)

end Inversion

/-! Soundness -/

section Soundness

variable {V : Type} {a a' : Analysis} {cell : BlockId → LocalId}

/-- The values pushed, in order. -/
def pushes {α : Type} (evs : List (Event α V)) : List V :=
  evs.filterMap fun
    | .pushed _ v => some v
    | _ => none

variable {α : Type} {O' : Option Shape}

@[simp] theorem pushes_nil : pushes ([] : List (Event α V)) = [] := rfl

@[simp] theorem pushes_append (evs evs' : List (Event α V)) :
    pushes (evs ++ evs') = pushes evs ++ pushes evs' :=
  List.filterMap_append ..

@[simp] theorem pushes_took (e : ExprId) (operands : List α) (evs : List (Event α V)) :
    pushes (.took e operands :: evs) = pushes evs := rfl

@[simp] theorem pushes_tested (e : ExprId) (o : Bool) (evs : List (Event α V)) :
    pushes (.tested e o :: evs) = pushes evs := rfl

@[simp] theorem pushes_chose (e : ExprId) (i : Nat) (evs : List (Event α V)) :
    pushes (.chose e i :: evs) = pushes evs := rfl

@[simp] theorem pushes_pushed (b : BlockId) (v : V) (evs : List (Event α V)) :
    pushes (.pushed b v :: evs) = v :: pushes evs := rfl

/-- What is read for an operand: its value if that is still in its cell, and only then if `D`
holds. -/
def ReadsValue (D : Prop) (i : Item V) (v : V) : Prop :=
  (i.kept = true → v = i.value) ∧ (D → v = i.value → i.kept = true)

/-- The same step on both machines. -/
inductive SameStep (D : Prop) : Event (Item V) V → Event V V → Prop
  | took {e operands vs} : List.Forall₂ (ReadsValue D) operands vs →
    SameStep D (.took e operands) (.took e vs)
  | pushed {b v} : SameStep D (.pushed b v) (.pushed b v)
  | tested {cond o} : SameStep D (.tested cond o) (.tested cond o)
  | chose {selector i} : SameStep D (.chose selector i) (.chose selector i)

/-- A value is in its cell as long as it is kept. If `D` holds, all values come from `H`, and one
that is not kept has been replaced by another. -/
def Holds (D : Prop) (H : List V) (σ : LocalId → V) (s : List (Item V)) : Prop :=
  ∀ i ∈ s, (i.kept = true → σ i.cell = i.value) ∧
    (D → i.value ∈ H ∧ (i.kept = false → σ i.cell ≠ i.value))

variable {D : Prop} {H : List V} {σ : LocalId → V} {s s' operands : List (Item V)} {S R : Shape}

theorem Holds.subset (h : Holds D H σ s) (hs : ∀ i ∈ s', i ∈ s) : Holds D H σ s' :=
  fun i hi ↦ h i (hs i hi)

theorem shape_append (s s' : List (Item V)) : shape (s ++ s') = shape s ++ shape s' :=
  List.map_append

@[simp] theorem shape_overwrite (c : LocalId) (s : List (Item V)) :
    shape (overwrite c s) = shape s := by
  simp only [shape, overwrite, List.map_map]
  exact List.map_congr_left fun i _ ↦ by simp only [Function.comp]; split <;> rfl

/-- The operands that an expression takes are those of its type, and reading their cells gives
what they hold. -/
theorem Takes.popped (ht : Takes a a' e (shape s) R) (hp : Popped a e s operands s')
    (hσ : Holds D H σ s) : shape s' = R ∧ Holds D H σ s' ∧
      ∃ vs, Loaded a a' e σ vs ∧ List.Forall₂ (ReadsValue D) operands vs := by
  obtain ⟨ops, hS, hops⟩ := ht
  obtain ⟨rfl, hw⟩ := hp
  have hlen : (shape operands).length = ops.length := by
    have := congrArg List.length hw
    simp only [List.length_map] at this
    simp [shape, this, hops.length_eq]
  rw [shape_append] at hS
  obtain ⟨hR, rfl⟩ := List.append_inj' hS hlen
  refine ⟨hR, hσ.subset fun i hi ↦ List.mem_append_left _ hi, operands.map fun i ↦ σ i.cell, ?_, ?_⟩
  · rw [Loaded, List.forall₂_map_right_iff]
    rw [shape, List.forall₂_map_right_iff] at hops
    exact hops.imp fun f i ⟨_, x, hx, hc⟩ ↦ ⟨x, hx, by rw [hc]⟩
  · rw [List.forall₂_map_right_iff, List.forall₂_same]
    intro i hi
    obtain ⟨hk, hd⟩ := hσ i (List.mem_append_right _ hi)
    refine ⟨hk, fun hD hv ↦ ?_⟩
    by_contra hnk
    exact (hd hD).2 (by simpa using hnk) hv

theorem Takes.refl (h : a.exprs.freeOperands e = []) : Takes a a' e S S :=
  ⟨[], by simp, by rw [h]; exact .nil⟩

theorem Takes?.taken {evs : List (Event (Item V) V)} (ht : Takes? a a' value (shape s) R)
    (hp : (stackMachine V a cell).take? value s evs s') (hσ : Holds D H σ s) :
    shape s' = R ∧ Holds D H σ s' ∧ pushes evs = [] ∧
      ∃ evs', (cellMachine V a a').take? value σ evs' σ ∧
        List.Forall₂ (SameStep D) evs evs' := by
  cases value with
  | none =>
    obtain ⟨rfl, rfl⟩ := hp
    exact ⟨ht.symm, hσ, rfl, [], ⟨rfl, rfl⟩, .nil⟩
  | some e =>
    obtain ⟨operands, hp, rfl⟩ := hp
    obtain ⟨hR, hσ', vs, hl, hv⟩ := Takes.popped ht hp hσ
    exact ⟨hR, hσ', rfl, [.took e vs], ⟨vs, ⟨rfl, hl⟩, rfl⟩, .cons (.took hv) .nil⟩

theorem Holds.push (hσ : Holds D H σ s) (c : LocalId) (v : V) (width : Nat) (hv : D → v ∉ H) :
    Holds D (H ++ [v]) (Function.update σ c v) (overwrite c s ++ [⟨v, width, c, true⟩]) := by
  intro i hi
  rcases List.mem_append.mp hi with hi | hi
  · obtain ⟨j, hj, rfl⟩ := List.mem_map.mp hi
    obtain ⟨hk, hd⟩ := hσ j hj
    by_cases hc : j.cell = c
    · simp only [hc, if_true, Function.update_self]
      refine ⟨by simp, fun hD ↦ ⟨List.mem_append_left _ (hd hD).1, fun _ h ↦ ?_⟩⟩
      exact hv hD (h ▸ (hd hD).1)
    · simp only [hc, if_false, Function.update_of_ne hc]
      exact ⟨hk, fun hD ↦ ⟨List.mem_append_left _ (hd hD).1, (hd hD).2⟩⟩
  · obtain rfl := List.mem_singleton.mp hi
    simp

theorem Shuffled.shape (h : Shuffled Item.width op s s') :
    Shuffled Prod.snd op (shape s) (shape s') := by
  have hsum (l : List (Item V)) : ((Decompile.shape l).map Prod.snd).sum = (l.map Item.width).sum := by
    simp [Decompile.shape, Function.comp_def]
  cases h with
  | pop hop ht =>
    rw [shape_append]
    exact .pop hop ((hsum _).trans ht)
  | dup hop hd ht hu =>
    simp only [shape_append]
    exact .dup hop hd ((hsum _).trans ht) ((hsum _).trans hu)
  | swap hop hd hx hy =>
    simp only [shape_append]
    exact .swap hop hd hx hy

theorem Shuffled.mem {width : α → Nat} {l l' : List α} (h : Shuffled width op l l') :
    ∀ i ∈ l', i ∈ l := by
  cases h <;> simp only [List.mem_append, List.mem_cons] <;> tauto

/-- The stack with which a run leaves a spot. -/
def Arrives (a : Analysis) (B : Breaks) (C : Continues) (O : Option Shape) (x : Exit) (S : Shape) : Prop :=
  match x with
  | .normal => O = some S
  | .broke target => ∀ o, B target = some o → o = some S
  | .continued target => (∀ E, C target = some E → S = E) ∧
    ∀ cond init incr body l, a.statement target ≠ .loop .doWhile cond init incr body l
  | .left | .cut => True

variable {p : Spot} {evs : List (Event (Item V) V)} {x : Exit} {B : Breaks} {C : Continues}
  {O : Option Shape} {b : BlockId}

/-- The run of a typed spot on the cells goes the same way. -/
def Mirrored (D : Prop) (a a' : Analysis) (H : List V) (B : Breaks) (C : Continues) (O : Option Shape)
    (p : Spot) (σ : LocalId → V) (evs : List (Event (Item V) V)) (s' : List (Item V))
    (x : Exit) : Prop :=
  ∃ evs' σ', a'.program.Exec (cellMachine V a a') p σ evs' σ' x ∧
    List.Forall₂ (SameStep D) evs evs' ∧ Holds D (H ++ pushes evs) σ' s' ∧
    Arrives a B C O x (shape s')

theorem Typed.mirrors_perform (ht : Typed a a' cell B C (.block b) (shape s) O)
    (h : StackStep a cell b (a.statement b) s evs s') (hD : D → (H ++ pushes evs).Nodup)
    (hσ : Holds D H σ s) : Mirrored D a a' H B C O (.block b) σ evs s' .normal := by
  generalize hst : a.statement b = st at h
  cases h with
  | empty =>
    obtain ⟨rfl, hst'⟩ := ht.of_idle (.inl hst)
    refine ⟨[], σ, .perform ?_, .nil, by simpa using hσ, rfl⟩
    rw [show a'.program.statement b = .empty from hst'.trans hst]
    exact .empty
  | description =>
    obtain ⟨rfl, hst'⟩ := ht.of_idle (.inr ⟨_, hst⟩)
    refine ⟨[], σ, .perform ?_, .nil, by simpa using hσ, rfl⟩
    rw [show a'.program.statement b = .description _ from hst'.trans hst]
    exact .description
  | evaluate hp =>
    obtain ⟨R, rfl, hst', hlt, ht⟩ := ht.of_evaluate hst
    obtain ⟨rfl, hσ', vs, hl, hv⟩ := ht.popped hp hσ
    refine ⟨[.took _ vs], σ, .perform ?_, .cons (.took hv) .nil, by simpa using hσ', rfl⟩
    rw [show a'.program.statement b = _ from hst']
    exact .evaluate hlt hl
  | @push e width _ operands rest v hw hp =>
    obtain ⟨R, e', target, x, rfl, hst', hle, he', hx, hc, ht⟩ := ht.of_push hst hw
    obtain ⟨rfl, hσ', vs, hl, hv⟩ := ht.popped hp hσ
    refine ⟨[.took e vs, .pushed b v], Function.update σ (a'.locals.classOf x) v, .perform ?_, .cons (.took hv) (.cons .pushed .nil),
      ?_, by simp only [shape_append, shape_overwrite]; rfl⟩
    · rw [show a'.program.statement b = _ from hst']
      exact .store hle he' hx hl
    · rw [hc]
      refine hσ'.push (cell b) _ _ fun h ↦ ?_
      exact fun hv ↦ (List.nodup_append.mp (hD h)).2.2 v hv v (by simp) rfl
  | shuffle hs =>
    obtain ⟨T, rfl, hst', hT⟩ := ht.of_shuffle hst
    refine ⟨[], σ, .perform ?_, .nil, by simpa using hσ.subset hs.mem, ?_⟩
    · rw [show a'.program.statement b = _ from hst']
      exact .empty
    · simp [Arrives, hT _ hs.shape]

theorem Arrives.mono {S : Shape} (h : Arrives a B C O x S) (hc : Covers O' O) :
    Arrives a B C O' x S := by
  cases x with
  | normal => exact hc _ h
  | _ => exact h

theorem Arrives.past {broken : Option Shape} {C' : Continues} {S : Shape}
    (h : Arrives a (Function.update B b (some broken)) C' O x S)
    (hC : ∀ target, x = .continued target → C' target = C target) (hO : x = .normal → Covers O' O)
    (hb : Covers O' broken) : Arrives a B C O' (x.past b) S := by
  unfold Exit.past
  split
  · next hx =>
    subst hx
    exact hb _ (h _ (Function.update_self ..))
  · next hx =>
    cases x with
    | normal => exact hO rfl _ h
    | broke target =>
      have hne : target ≠ b := fun h ↦ hx (by rw [h])
      simpa only [Arrives, Function.update_of_ne hne] using h
    | continued target =>
      simp only [Arrives] at h ⊢
      rwa [hC target rfl] at h
    | left => trivial
    | cut => trivial

theorem Typed.mirrors_body (ht : Typed a a' cell B C (.round b) (shape s) O)
    (hb : a.statement b = .loop kind cond init incr body labeled)
    (ih : ∀ {B C O σ H}, Typed a a' cell B C (.block body) (shape s) O → (D → (H ++ pushes evs).Nodup) → Holds D H σ s → Mirrored D a a' H B C O (.block body) σ evs s' x)
    (hx : x = .normal ∨ x = .continued b) (hD : D → (H ++ pushes evs).Nodup) (hσ : Holds D H σ s) :
    ∃ evs' σ', a'.program.Exec (cellMachine V a a') (.block body) σ evs' σ' x ∧
      List.Forall₂ (SameStep D) evs evs' ∧ Holds D (H ++ pushes evs) σ' s' ∧
      a'.statement b = a.statement b ∧ shape s' = shape s ∧
      Typed a a' cell B C (.test b) (shape s') O := by
  obtain ⟨hst, -, -, -, broken, O₁, ht₁, hO₁, hO, -⟩ := ht.of_round hb
  obtain ⟨evs₁, σ₁, hr₁, hev₁, hσ₁, hx₁⟩ := ih ht₁ hD hσ
  have hback : shape s' = shape s ∧ (kind ≠ .doWhile ∨ O₁ ≠ none) := by
    rcases hx with rfl | rfl
    · exact ⟨hO₁ _ hx₁, .inr (by rw [hx₁]; simp)⟩
    · refine ⟨hx₁.1 _ (Function.update_self ..), .inl ?_⟩
      rintro rfl
      exact hx₁.2 _ _ _ _ _ hb
  refine ⟨evs₁, σ₁, hr₁, hev₁, hσ₁, hst, hback.1, ?_⟩
  rw [hback.1]
  exact .test hb ht fun ha ↦ hO ha hback.2

/-- A run of a typed tree on the operand stack is mirrored, step by step, by a run of the mapped
tree on the cells. -/
theorem Typed.mirrors (h : a.program.Exec (stackMachine V a cell) p s evs s' x) :
    ∀ {B C O σ H}, Typed a a' cell B C p (shape s) O → (D → (H ++ pushes evs).Nodup) →
      Holds D H σ s → Mirrored D a a' H B C O p σ evs s' x := by
  induction h with
  | cut =>
    intro B C O σ H _ _ hσ
    exact ⟨[], σ, .cut, .nil, by simpa using hσ, trivial⟩
  | perform h =>
    intro B C O σ H ht hD hσ
    exact ht.mirrors_perform h hD hσ
  | leave hb h =>
    intro B C O σ H ht hD hσ
    obtain ⟨hst, R, ht⟩ := ht.of_leave hb
    obtain ⟨-, hσ', hpush, evs', h', hev⟩ := ht.taken h hσ
    exact ⟨evs', σ, .leave (by rw [← hb]; exact congrArg _ hst) h', hev, by simpa [hpush] using hσ',
      trivial⟩
  | sequence hb h₁ h₂ ih₁ ih₂ =>
    intro B C O σ H ht hD hσ
    rw [pushes_append, ← List.append_assoc] at hD
    obtain ⟨hst, ⟨T, ht₁, ht₂⟩ | ⟨rfl, ht₁⟩⟩ := ht.of_sequence hb
    · obtain ⟨evs₁, σ₁, hr₁, hev₁, hσ₁, hx⟩ := ih₁ ht₁ (fun d ↦ List.Nodup.of_append_left (hD d)) hσ
      cases hx
      obtain ⟨evs₂, σ₂, hr₂, hev₂, hσ₂, hx⟩ := ih₂ ht₂ hD hσ₁
      exact ⟨evs₁ ++ evs₂, σ₂, .sequence (hst.trans hb) hr₁ hr₂, List.rel_append hev₁ hev₂,
        by rwa [pushes_append, ← List.append_assoc], hx⟩
    · obtain ⟨_, _, _, _, _, hx⟩ := ih₁ ht₁ (fun d ↦ List.Nodup.of_append_left (hD d)) hσ
      cases hx
  | leaveFirst hb h₁ hx ih₁ =>
    intro B C O σ H ht hD hσ
    obtain ⟨hst, ⟨T, ht₁, ht₂⟩ | ⟨rfl, ht₁⟩⟩ := ht.of_sequence hb
    · obtain ⟨evs₁, σ₁, hr₁, hev₁, hσ₁, hx₁⟩ := ih₁ ht₁ hD hσ
      refine ⟨evs₁, σ₁, .leaveFirst (hst.trans hb) hr₁ hx, hev₁, hσ₁, ?_⟩
      cases ‹Exit› with
      | normal => exact absurd rfl hx
      | _ => exact hx₁
    · obtain ⟨evs₁, σ₁, hr₁, hev₁, hσ₁, hx₁⟩ := ih₁ ht₁ hD hσ
      exact ⟨evs₁, σ₁, .leaveFirst (hst.trans hb) hr₁ hx, hev₁, hσ₁, hx₁⟩
  | onTrue hb hp ha h₁ ih₁ =>
    intro B C O σ H ht hD hσ
    obtain ⟨hst, hlit, R, O₁, O₂, ht, ht₁, -, -, hc, -⟩ := ht.of_branch hb
    obtain ⟨rfl, hσ', vs, hl, hv⟩ := ht.popped hp hσ
    obtain ⟨evs₁, σ₁, hr₁, hev₁, hσ₁, hx⟩ := ih₁ ht₁ hD hσ'
    exact ⟨_, σ₁, .onTrue (by rw [← hb]; exact congrArg _ hst) ⟨rfl, hl⟩
      (fun v h ↦ ha v (hlit ▸ h)) hr₁, .cons (.took hv) (.cons .tested hev₁), hσ₁, hx.mono hc⟩
  | onFalse hb hp ha h₁ ih₁ =>
    intro B C O σ H ht hD hσ
    obtain ⟨hst, hlit, R, O₁, O₂, ht, -, ht₂, -, -, hc⟩ := ht.of_branch hb
    obtain ⟨rfl, hσ', vs, hl, hv⟩ := ht.popped hp hσ
    obtain ⟨evs₁, σ₁, hr₁, hev₁, hσ₁, hx⟩ := ih₁ (ht₂ _ rfl) hD hσ'
    exact ⟨_, σ₁, .onFalse (by rw [← hb]; exact congrArg _ hst) ⟨rfl, hl⟩
      (fun v h ↦ ha v (hlit ▸ h)) hr₁, .cons (.took hv) (.cons .tested hev₁), hσ₁, hx.mono hc⟩
  | noElse hb hp ha =>
    intro B C O σ H ht hD hσ
    obtain ⟨hst, hlit, R, O₁, O₂, ht, -, -, hO₂, -, hc⟩ := ht.of_branch hb
    obtain ⟨rfl, hσ', vs, hl, hv⟩ := ht.popped hp hσ
    exact ⟨_, σ, .noElse (by rw [← hb]; exact congrArg _ hst) ⟨rfl, hl⟩
      (fun v h ↦ ha v (hlit ▸ h)), .cons (.took hv) (.cons .tested .nil), by simpa using hσ',
      hc _ (hO₂ rfl)⟩
  | loop hb hp h₁ ih₁ =>
    intro B C O σ H ht hD hσ
    obtain ⟨hst, E, ht, ht₁⟩ := ht.of_loop hb
    obtain ⟨rfl, hσ', hpush, evs', h', hev⟩ := ht.taken hp hσ
    rw [pushes_append, hpush] at hD
    obtain ⟨evs₁, σ₁, hr₁, hev₁, hσ₁, hx⟩ := ih₁ ht₁ hD hσ'
    exact ⟨evs' ++ evs₁, σ₁, .loop (hst.trans hb) h' hr₁, List.rel_append hev hev₁,
      by rwa [pushes_append, hpush], hx⟩
  | again hb hp ha h₁ ih₁ =>
    intro B C O σ H ht hD hσ
    obtain ⟨ht', -⟩ := ht.of_test hb
    obtain ⟨hst, hlit, hc, -⟩ := ht'.of_round hb
    obtain ⟨hs, hσ', vs, hl, hv⟩ := (Takes.refl hc).popped hp hσ
    obtain ⟨evs₁, σ₁, hr₁, hev₁, hσ₁, hx⟩ := ih₁ (hs ▸ ht') hD hσ'
    exact ⟨_, σ₁, .again (hst.trans hb) ⟨rfl, hl⟩ (fun v h ↦ ha v (hlit ▸ h)) hr₁,
      .cons (.took hv) (.cons .tested hev₁), hσ₁, hx⟩
  | done hb hp ha =>
    intro B C O σ H ht hD hσ
    obtain ⟨ht', hO⟩ := ht.of_test hb
    obtain ⟨hst, hlit, hc, -⟩ := ht'.of_round hb
    obtain ⟨hs, hσ', vs, hl, hv⟩ := (Takes.refl hc).popped hp hσ
    exact ⟨_, σ, .done (hst.trans hb) ⟨rfl, hl⟩ (fun v h ↦ ha v (hlit ▸ h)),
      .cons (.took hv) (.cons .tested .nil), by simpa using hσ', by rw [hs]; exact hO ha⟩
  | round hb h₁ hx h₂ ih₁ ih₂ =>
    intro B C O σ H ht hD hσ
    rw [pushes_append, ← List.append_assoc] at hD
    obtain ⟨evs₁, σ₁, hr₁, hev₁, hσ₁, hst, -, htest⟩ :=
      ht.mirrors_body hb ih₁ hx (fun d ↦ List.Nodup.of_append_left (hD d)) hσ
    obtain ⟨evs₂, σ₂, hr₂, hev₂, hσ₂, hy⟩ := ih₂ htest hD hσ₁
    exact ⟨evs₁ ++ evs₂, σ₂, .round (hst.trans hb) hr₁ hx hr₂, List.rel_append hev₁ hev₂,
      by rwa [pushes_append, ← List.append_assoc], hy⟩
  | roundStep hb h₁ hx h₂ h₃ ih₁ ih₂ ih₃ =>
    intro B C O σ H ht hD hσ
    simp only [pushes_append, ← List.append_assoc] at hD
    obtain ⟨hst, -, -, hincr, -⟩ := ht.of_round hb
    obtain ⟨e, he, he', hlt, hfree⟩ := hincr _ rfl
    obtain ⟨evs₁, σ₁, hr₁, hev₁, hσ₁, -, -, htest⟩ := ht.mirrors_body hb ih₁ hx
      (fun d ↦ List.Nodup.of_append_left (List.Nodup.of_append_left (hD d))) hσ
    obtain ⟨evs₂, σ₂, hr₂, hev₂, hσ₂, hy⟩ := ih₂ (B := B) (C := C)
      (.evaluate he he' hlt (Takes.refl hfree)) (fun d ↦ List.Nodup.of_append_left (hD d)) hσ₁
    rw [Option.some.inj hy] at htest
    obtain ⟨evs₃, σ₃, hr₃, hev₃, hσ₃, hz⟩ := ih₃ htest hD hσ₂
    exact ⟨evs₁ ++ (evs₂ ++ evs₃), σ₃, .roundStep (hst.trans hb) hr₁ hx hr₂ hr₃,
      List.rel_append hev₁ (List.rel_append hev₂ hev₃),
      by simpa only [pushes_append, ← List.append_assoc] using hσ₃, hz⟩
  | roundLeave hb h₁ hx h₂ hy ih₁ ih₂ =>
    intro B C O σ H ht hD hσ
    rw [pushes_append, ← List.append_assoc] at hD
    obtain ⟨hst, -, -, hincr, -⟩ := ht.of_round hb
    obtain ⟨e, he, he', hlt, hfree⟩ := hincr _ rfl
    obtain ⟨evs₁, σ₁, hr₁, hev₁, hσ₁, -, -, -⟩ :=
      ht.mirrors_body hb ih₁ hx (fun d ↦ List.Nodup.of_append_left (hD d)) hσ
    obtain ⟨evs₂, σ₂, hr₂, hev₂, hσ₂, hz⟩ := ih₂
      (.evaluate he he' hlt (Takes.refl hfree)) hD hσ₁
    refine ⟨evs₁ ++ evs₂, σ₂, .roundLeave (hst.trans hb) hr₁ hx hr₂ hy,
      List.rel_append hev₁ hev₂, by rwa [pushes_append, ← List.append_assoc], ?_⟩
    cases ‹Exit› with
    | normal => exact absurd rfl hy
    | _ => exact hz
  | roundExit hb h₁ hx hx' ih₁ =>
    intro B C O σ H ht hD hσ
    obtain ⟨hst, -, -, -, broken, O₁, ht₁, -, -, hbroken⟩ := ht.of_round hb
    obtain ⟨evs₁, σ₁, hr₁, hev₁, hσ₁, hx₁⟩ := ih₁ ht₁ hD hσ
    refine ⟨evs₁, σ₁, .roundExit (hst.trans hb) hr₁ hx hx', hev₁, hσ₁,
      hx₁.past (fun target h ↦ ?_) (fun h ↦ absurd h hx) hbroken⟩
    have hne : target ≠ _ := fun h' ↦ hx' (h.trans (by rw [h']))
    rw [Function.update_of_ne hne]
  | switch hb hp hi h₁ ih₁ =>
    intro B C O σ H ht hD hσ
    obtain ⟨hst, hcases, R, broken, O₁, ht, ht₁, hO, hbroken⟩ := ht.of_switch hb
    obtain ⟨rfl, hσ', vs, hl, hv⟩ := ht.popped hp hσ
    obtain ⟨evs₁, σ₁, hr₁, hev₁, hσ₁, hx⟩ := ih₁ (ht₁ _ hi) hD hσ'
    refine ⟨_, σ₁, .switch (hst.trans hb) ⟨rfl, hl⟩ ?_ hr₁, .cons (.took hv) (.cons .chose hev₁),
      hσ₁, hx.past (fun _ _ ↦ rfl) (fun _ ↦ hO) hbroken⟩
    refine hi.imp_right fun ⟨h, hd⟩ ↦ ⟨h, fun c hc ↦ ?_⟩
    rw [show a'.program.statement c = _ from hcases c hc]
    exact hd c hc
  | noCase =>
    intro B C O σ H ht hD hσ
    cases ht
    exact ⟨[], σ, .noCase, .nil, by simpa using hσ, rfl⟩
  | oneCase hb h₁ h₂ ih₁ ih₂ =>
    intro B C O σ H ht hD hσ
    rw [pushes_append, ← List.append_assoc] at hD
    obtain ⟨hst, O₁, ht₁, ht₂⟩ := ht.of_case hb
    obtain ⟨evs₁, σ₁, hr₁, hev₁, hσ₁, hx⟩ := ih₁ ht₁ (fun d ↦ List.Nodup.of_append_left (hD d)) hσ
    obtain ⟨evs₂, σ₂, hr₂, hev₂, hσ₂, hy⟩ := ih₂ (ht₂ _ hx) hD hσ₁
    exact ⟨evs₁ ++ evs₂, σ₂, .oneCase (hst.trans hb) hr₁ hr₂, List.rel_append hev₁ hev₂,
      by rwa [pushes_append, ← List.append_assoc], hy⟩
  | leaveCase hb h₁ hx ih₁ =>
    intro B C O σ H ht hD hσ
    obtain ⟨hst, O₁, ht₁, -⟩ := ht.of_case hb
    obtain ⟨evs₁, σ₁, hr₁, hev₁, hσ₁, hx₁⟩ := ih₁ ht₁ hD hσ
    refine ⟨evs₁, σ₁, .leaveCase (hst.trans hb) hr₁ hx, hev₁, hσ₁, ?_⟩
    cases ‹Exit› with
    | normal => exact absurd rfl hx
    | _ => exact hx₁
  | within hb hp h₁ ih₁ =>
    intro B C O σ H ht hD hσ
    obtain ⟨hst, R, ht, ht₁⟩ := ht.of_within hb
    obtain ⟨rfl, hσ', hpush, evs', h', hev⟩ := ht.taken hp hσ
    rw [pushes_append, hpush] at hD
    obtain ⟨evs₁, σ₁, hr₁, hev₁, hσ₁, hx⟩ := ih₁ ht₁ hD hσ'
    exact ⟨evs' ++ evs₁, σ₁, .within (by rw [← hb]; exact congrArg _ hst) h' hr₁,
      List.rel_append hev hev₁, by rwa [pushes_append, hpush], hx⟩
  | breakTo hb =>
    intro B C O σ H ht hD hσ
    obtain ⟨hst, hB⟩ := ht.of_break hb
    exact ⟨[], σ, .breakTo (hst.trans hb), .nil, by simpa using hσ, hB⟩
  | continueTo hb =>
    intro B C O σ H ht hD hσ
    obtain ⟨hst, hC⟩ := ht.of_continue hb
    exact ⟨[], σ, .continueTo (hst.trans hb), .nil, by simpa using hσ, hC⟩

end Soundness

end Decompile
