import Decompile.Proofs.Operands
import Decompile.Expression.Place
import Mathlib.Logic.Function.Basic

/-!
What an expression does when it is evaluated. Values, arithmetic and the world that answers calls
and accesses are those of an arbitrary platform. A free operand stands for the value that was popped
for it.
-/

namespace Decompile

/-- A relational operator on two values of which `none` says that they are unordered. -/
def CompareOp.holds : CompareOp → Option Ordering → Bool
  | eq, o => o == some .eq
  | ne, o => o != some .eq
  | lt, o => o == some .lt
  | ge, o => o == some .gt || o == some .eq
  | gt, o => o == some .gt
  | le, o => o == some .lt || o == some .eq

/-- Whether the right side still counts after a left side of the given truth. -/
def LogicalOp.goesOn : LogicalOp → Bool → Bool
  | and, truth => truth
  | or, truth => !truth

/-- A place outside the method. -/
inductive Member (V : Type)
  /-- A static field has no object. -/
  | field (ref : MemberRef) (object : Option V)
  | element (array index : V)

/-- Where a value is stored: in a cell of the method or outside it. -/
inductive Location (V C : Type)
  | cell (c : C)
  | member (place : Member V)

/-- What an expression asks of the world outside its method. -/
inductive Request (V : Type)
  | read (place : Member V)
  | write (place : Member V) (value : V)
  | length (array : V)
  | newArray (element : Name) (lengths : List V)
  | newObject (type : Name)
  /-- Runs a constructor on an object. -/
  | construct (type descriptor : Name) (object : V) (arguments : List V)
  | call (kind : InvokeKind) (ref : MemberRef) (object : Option V) (arguments : List V)
  | instanceOf (object : V) (type : Name)
  | checkCast (object : V) (type : Name)
  | monitorEnter (object : V)
  | monitorExit (object : V)

/-- Values with their arithmetic, and a world that answers requests. The world is free to record
all that it was asked, in order. -/
structure Platform (V W : Type) where
  constant : Constant → V
  binary : BinaryOp → V → V → V
  /-- What a division by the value throws. -/
  divisionFault : V → Option V
  negate : V → V
  convert : ValueKind → ValueKind → V → V
  step : StepOp → V → V
  /-- How two values compare, unless they are unordered. -/
  order : V → V → Option Ordering
  truth : V → Bool
  ofBool : Bool → V
  ofOrdering : Ordering → V
  answer : Request V → W → Except V V × W

/-- The cells of a method and the world around it. -/
structure Store (V W C : Type) where
  cells : C → V
  world : W

/-- An evaluation that ends with a value or an exception, or comes to no end. -/
abbrev Evaluation (V W C : Type) := ExceptT V (StateT (Store V W C) Option)

namespace Evaluation

variable {V W C α β : Type}

/-- How the evaluation ends from a store, with the store that it leaves. -/
def outcome (x : Evaluation V W C α) (s : Store V W C) : Option (Except V α × Store V W C) := x.run s

@[simp] theorem outcome_pure (v : α) (s : Store V W C) :
    (pure v : Evaluation V W C α).outcome s = some (.ok v, s) := rfl

theorem outcome_bind (x : Evaluation V W C α) (k : α → Evaluation V W C β) (s : Store V W C) :
    (x >>= k).outcome s =
      (x.outcome s).bind fun
        | (.ok v, s') => (k v).outcome s'
        | (.error fault, s') => some (.error fault, s') := by
  change (x.run s).bind _ = (x.run s).bind _
  congr 1
  funext ⟨r, s'⟩
  cases r <;> rfl

theorem ext {x y : Evaluation V W C α} (h : ∀ s, x.outcome s = y.outcome s) : x = y := funext h

/-- If the evaluation ends then with a value, and it has changed nothing. -/
def Calm (x : Evaluation V W C α) : Prop :=
  ∀ s r s', x.outcome s = some (r, s') → s' = s ∧ ∃ v, r = .ok v

theorem calm_pure (v : α) : Calm (pure v : Evaluation V W C α) := by
  intro s r s' h
  cases h
  exact ⟨rfl, v, rfl⟩

theorem calm_bind {x : Evaluation V W C α} {k : α → Evaluation V W C β} (hx : Calm x)
    (hk : ∀ v, Calm (k v)) : Calm (x >>= k) := by
  intro s r s' h
  rw [outcome_bind, Option.bind_eq_some_iff] at h
  obtain ⟨⟨r₁, s₁⟩, h₁, h⟩ := h
  obtain ⟨rfl, v, rfl⟩ := hx s r₁ s₁ h₁
  exact hk v s₁ r s' h

end Evaluation

namespace Platform

variable {V W C : Type} (m : Platform V W)

def stuck {α : Type} : Evaluation V W C α := ExceptT.mk fun _ ↦ none

def ask (r : Request V) : Evaluation V W C V :=
  ExceptT.mk fun s ↦
    let (result, world) := m.answer r s.world
    some (result, { s with world })

def fetch : Location V C → Evaluation V W C V
  | .cell c => ExceptT.mk fun s ↦ some (.ok (s.cells c), s)
  | .member place => m.ask (.read place)

def assign [DecidableEq C] (v : V) : Location V C → Evaluation V W C Unit
  | .cell c => ExceptT.mk fun s ↦ some (.ok (), { s with cells := Function.update s.cells c v })
  | .member place => do let _ ← m.ask (.write place v)

/-- An arithmetic operation, which throws if it divides by zero. -/
def arithmetic (op : BinaryOp) (v w : V) : Evaluation V W C V :=
  match op.canThrow, m.divisionFault w with
  | true, some fault => throw fault
  | _, _ => pure (m.binary op v w)

/-- What an operation does with the values of its operands. -/
def operate : Expression → List V → Evaluation V W C V
  | .const c, _ => pure (m.constant c)
  | .convert _ source target, [v] => pure (m.convert source target v)
  | .binary op _ _, [v, w] => m.arithmetic op v w
  | .negate _, [v] => pure (m.negate v)
  | .not _, [v] => pure (m.ofBool !m.truth v)
  | .compare op _ _, [v, w] => pure (m.ofBool (op.holds (m.order v w)))
  | .threeWay _ _ nanGreater, [v, w] =>
    pure (m.ofOrdering ((m.order v w).getD (if nanGreater then .gt else .lt)))
  | .length _, [v] => m.ask (.length v)
  | .newArray element _, lengths => m.ask (.newArray element lengths)
  | .newObject type, _ => m.ask (.newObject type)
  | .call kind ref object _, vs =>
    match object, vs with
    | none, vs => m.ask (.call kind ref none vs)
    | some _, v :: vs =>
      if kind = .special ∧ ref.name.isConstructor then
        m.ask (.construct ref.owner ref.descriptor v vs)
      else m.ask (.call kind ref (some v) vs)
    | some _, [] => stuck
  | .instanceOf _ type, [v] => m.ask (.instanceOf v type)
  | .checkCast _ type, [v] => m.ask (.checkCast v type)
  | .monitorEnter _, [v] => m.ask (.monitorEnter v)
  | .monitorExit _, [v] => m.ask (.monitorExit v)
  | _, _ => stuck

theorem stuck_bind {α β : Type} (k : α → Evaluation V W C β) :
    (stuck >>= k) = (stuck : Evaluation V W C β) := rfl

theorem fetch_cell_twice {α : Type} (c : C) (k : V → V → Evaluation V W C α) :
    (m.fetch (.cell c) >>= fun v ↦ m.fetch (.cell c) >>= fun w ↦ k v w) =
      m.fetch (.cell c) >>= fun v ↦ k v v := rfl

end Platform

namespace Expressions

section Eval

variable {V W C : Type} [DecidableEq C] (m : Platform V W) (t : Expressions) (cell : LocalId → C)
  (operand : ExprId → V)

/-- The location that an expression names, whose own operands `eval` evaluates. -/
def locate (eval : ExprId → Evaluation V W C V) : Expression → Evaluation V W C (Location V C)
  | .var x => pure (.cell (cell x))
  | .field none ref => pure (.member (.field ref none))
  | .field (some object) ref => return .member (.field ref (some (← eval object)))
  | .element array index => return .member (.element (← eval array) (← eval index))
  | _ => Platform.stuck

/-- Fills an array with values from the given index on. -/
def fillArray (eval : ExprId → Evaluation V W C V) (array : V) : Nat → List ExprId → Evaluation V W C Unit
  | _, [] => pure ()
  | i, e :: es => do
    m.assign (← eval e) (.member (.element array (m.constant (.int i))))
    fillArray eval array (i + 1) es

/-- What an expression does, in which `eval` evaluates its operands. -/
def evalNode (eval : ExprId → Evaluation V W C V) (e : ExprId) : Expression → Evaluation V W C V
  | .free _ => pure (operand e)
  | .logical op lhs rhs => do
    let v ← eval lhs
    if op.goesOn (m.truth v) then return m.ofBool (m.truth (← eval rhs))
    return m.ofBool (m.truth v)
  | .ternary cond ifTrue ifFalse => do
    if m.truth (← eval cond) then eval ifTrue else eval ifFalse
  | .assign target none value => do
    let place ← locate cell eval (t.get target)
    let v ← eval value
    m.assign v place
    return v
  | .assign target (some op) value => do
    let place ← locate cell eval (t.get target)
    let old ← m.fetch place
    let v ← m.arithmetic op old (← eval value)
    m.assign v place
    return v
  | .step target op before => do
    let place ← locate cell eval (t.get target)
    let old ← m.fetch place
    m.assign (m.step op old) place
    return if before then m.step op old else old
  | .arrayLiteral element length values => do
    let array ← m.ask (.newArray element [m.constant (.int length)])
    fillArray m eval array 0 values
    return array
  | .construct type descriptor arguments => do
    let object ← m.ask (.newObject type)
    let vs ← arguments.mapM eval
    let _ ← m.ask (.construct type descriptor object vs)
    return object
  | .var x => m.fetch (.cell (cell x))
  | .field object ref => do m.fetch (← locate cell eval (.field object ref))
  | .element array index => do m.fetch (← locate cell eval (.element array index))
  | x => do m.operate x (← x.children.mapM eval)

def evalWithin : Nat → ExprId → Evaluation V W C V
  | 0, _ => Platform.stuck
  | n + 1, e => evalNode m t cell operand (evalWithin n) e (t.get e)

theorem evalWithin_succ (n : Nat) (e : ExprId) : evalWithin m t cell operand (n + 1) e =
    evalNode m t cell operand (evalWithin m t cell operand n) e (t.get e) := by
  rw [evalWithin]

/-- Evaluates the expression at a node: subexpressions from left to right, the target of an
assignment before its value and an operand only if it is needed. Its value is what was assigned. -/
def eval (e : ExprId) : Evaluation V W C V := evalWithin m t cell operand t.size e

end Eval

section Nesting

variable {t t' : Expressions} {e c : ExprId} {n k : Nat}

theorem nestsWithin_mono (h : t.nestsWithin n e) (hnk : n ≤ k) : t.nestsWithin k e := by
  induction n generalizing k e with
  | zero => simp [nestsWithin] at h
  | succ n ih =>
    obtain ⟨k, rfl⟩ : ∃ j, k = j + 1 := ⟨k - 1, by omega⟩
    simp only [nestsWithin, List.all_eq_true] at h ⊢
    exact fun c hc ↦ ih (h c hc) (by omega)

theorem nestsWithin_child (h : t.nestsWithin (n + 1) e) (hc : c ∈ (t.get e).children) :
    t.nestsWithin n c := by
  simp only [nestsWithin, List.all_eq_true] at h
  exact h c hc

theorem nestsWithin_of_mem (h : t.nestsWithin n e) (hc : c ∈ t.preorderWithin k e) :
    t.nestsWithin n c := by
  induction k generalizing n e with
  | zero => simp [preorderWithin] at hc
  | succ k ih =>
    simp only [preorderWithin, List.mem_cons, List.mem_flatMap] at hc
    obtain rfl | ⟨d, hd, hc⟩ := hc
    · exact h
    · obtain _ | n := n
      · simp [nestsWithin] at h
      · simp only [nestsWithin, List.all_eq_true] at h
        exact nestsWithin_mono (ih (h d hd) hc) (by omega)

theorem notMem_preorderWithin (h : t.nestsWithin n e) (hc : c ∈ (t.get e).children) :
    e ∉ t.preorderWithin k c := by
  induction n with
  | zero => simp [nestsWithin] at h
  | succ n ih =>
    intro he
    simp only [nestsWithin, List.all_eq_true] at h
    exact ih (nestsWithin_of_mem (h c hc) he) he

theorem mem_preorderWithin_child (hc : c ∈ (t.get e).children)
    {f : ExprId} (hf : f ∈ t.preorderWithin n c) : f ∈ t.preorderWithin (n + 1) e := by
  simp only [preorderWithin, List.mem_cons, List.mem_flatMap]
  exact .inr ⟨c, hc, hf⟩

theorem nestsWithin_congr (h : t.nestsWithin n e)
    (hget : ∀ f ∈ t.preorderWithin n e, t'.get f = t.get f) : t'.nestsWithin n e := by
  induction n generalizing e with
  | zero => exact h
  | succ n ih =>
    rw [nestsWithin, hget e (mem_preorderWithin_self t n e), List.all_eq_true]
    exact fun c hc ↦ ih (nestsWithin_child h hc) fun f hf ↦ hget f (mem_preorderWithin_child hc hf)

def freesWithin (t : Expressions) (n : Nat) (e : ExprId) : List ExprId :=
  (t.preorderWithin n e).filter fun f ↦ (t.get f).isFree

theorem freesWithin_succ (h : (t.get e).isFree = false) :
    t.freesWithin (n + 1) e = (t.get e).children.flatMap (t.freesWithin n) := by
  rw [freesWithin, preorderWithin, List.filter_cons_of_neg (by simp [h]), List.filter_flatMap]
  rfl

theorem freesWithin_mono (h : t.nestsWithin n e) (hnk : n ≤ k) :
    t.freesWithin k e = t.freesWithin n e := by
  rw [freesWithin, preorderWithin_congr h hnk fun _ _ ↦ rfl, freesWithin]

end Nesting

variable {es : List ExprId} {x : Expression}

section Congruence

variable {V W C : Type} [DecidableEq C] {m : Platform V W} {t t' : Expressions}
  {cell : LocalId → C} {operand operand' : ExprId → V} {eval eval' : ExprId → Evaluation V W C V}

omit [DecidableEq C] in
theorem mapM_congr (h : ∀ c ∈ es, eval' c = eval c) : es.mapM eval' = es.mapM eval := by
  induction es with
  | nil => rfl
  | cons e es ih =>
    rw [List.mapM_cons, List.mapM_cons, h e (by simp), ih fun c hc ↦ h c (by simp [hc])]

theorem fillArray_congr (h : ∀ c ∈ es, eval' c = eval c) (array : V) (i : Nat) :
    fillArray m eval' array i es = fillArray m eval array i es := by
  induction es generalizing i with
  | nil => rfl
  | cons e es ih =>
    rw [fillArray, fillArray, h e (by simp), ih fun c hc ↦ h c (by simp [hc])]

omit [DecidableEq C] in
theorem locate_congr (h : ∀ c ∈ x.children, eval' c = eval c) :
    locate cell eval' x = locate cell eval x := by
  cases x with
  | field object ref =>
    cases object with
    | none => rfl
    | some object => simp only [locate, h object (by simp [Expression.children])]
  | element array index =>
    simp only [locate, h array (by simp [Expression.children]),
      h index (by simp [Expression.children])]
  | _ => rfl

/-- What a node does depends on the evaluation of its operands, and on the place that its target
names if it has one. -/
theorem evalNode_congr {e e' : ExprId} (hoperand : x.isFree → operand' e' = operand e)
    (h : ∀ c ∈ x.children, eval' c = eval c)
    (hplace : ∀ c ∈ x.children, locate cell eval' (t'.get c) = locate cell eval (t.get c)) :
    evalNode m t' cell operand' eval' e' x = evalNode m t cell operand eval e x := by
  cases x with
  | free width => simp only [evalNode, hoperand rfl]
  | logical op lhs rhs | ternary cond ifTrue ifFalse =>
    simp only [Expression.children, List.mem_cons, List.not_mem_nil, or_false, forall_eq_or_imp,
      forall_eq] at h
    simp only [evalNode, h]
  | assign target op value =>
    simp only [Expression.children, List.mem_cons, List.not_mem_nil, or_false, forall_eq_or_imp,
      forall_eq] at h hplace
    cases op <;> simp only [evalNode, h.2, hplace.1]
  | step target op before =>
    simp only [Expression.children, List.mem_singleton, forall_eq] at hplace
    simp only [evalNode, hplace]
  | arrayLiteral element length values =>
    have hvalues : ∀ c ∈ values, eval' c = eval c := h
    simp only [evalNode, fillArray_congr hvalues]
  | construct type descriptor arguments =>
    have harguments : ∀ c ∈ arguments, eval' c = eval c := h
    simp only [evalNode, mapM_congr harguments]
  | field | element => simp only [evalNode, locate_congr h]
  | var => rfl
  | _ => simp only [evalNode, mapM_congr h]

/-- Evaluation depends on nothing but the nodes below an expression and the values of its free
operands. -/
theorem evalWithin_congr {e : ExprId} {n k : Nat} (h : t.nestsWithin n e) (hnk : n ≤ k)
    (hget : ∀ f ∈ t.preorderWithin n e, t'.get f = t.get f)
    (hoperand : ∀ f ∈ t.preorderWithin n e, (t.get f).isFree → operand' f = operand f) :
    evalWithin m t' cell operand' k e = evalWithin m t cell operand n e := by
  induction n generalizing k e with
  | zero => simp [nestsWithin] at h
  | succ n ih =>
    obtain ⟨k, rfl⟩ : ∃ j, k = j + 1 := ⟨k - 1, by omega⟩
    have hself := mem_preorderWithin_self t n e
    simp only [nestsWithin, List.all_eq_true] at h
    have hchild : ∀ c ∈ (t.get e).children,
        evalWithin m t' cell operand' k c = evalWithin m t cell operand n c := fun c hc ↦
      ih (h c hc) (by omega) (fun f hf ↦ hget f (mem_preorderWithin_child hc hf))
        fun f hf ↦ hoperand f (mem_preorderWithin_child hc hf)
    rw [evalWithin_succ, evalWithin_succ, hget e hself]
    refine evalNode_congr (hoperand e hself) hchild fun c hc ↦ ?_
    obtain _ | n := n
    · exact absurd (h c hc) (by simp [nestsWithin])
    · rw [hget c (mem_preorderWithin_child hc (mem_preorderWithin_self t n c))]
      -- The operands of a target are evaluated along with those of the assignment.
      refine locate_congr fun d hd ↦ ?_
      have hd' : t.nestsWithin n d := by
        have := h c hc
        simp only [nestsWithin, List.all_eq_true] at this
        exact this d hd
      have hmem : ∀ f ∈ t.preorderWithin (n + 1) d, f ∈ t.preorderWithin (n + 2) e := by
        intro f hf
        rw [preorderWithin_congr hd' (Nat.le_succ n) fun _ _ ↦ rfl] at hf
        exact mem_preorderWithin_child hc (mem_preorderWithin_child hd hf)
      exact ih (nestsWithin_mono hd' (Nat.le_succ n)) (by omega) (fun f hf ↦ hget f (hmem f hf))
        fun f hf ↦ hoperand f (hmem f hf)

end Congruence

section Purity

open Evaluation

variable {V W C : Type} [DecidableEq C] {m : Platform V W} {t : Expressions}
  {cell : LocalId → C} {operand : ExprId → V} {eval : ExprId → Evaluation V W C V}

omit [DecidableEq C] in
theorem calm_stuck {α : Type} : Calm (Platform.stuck : Evaluation V W C α) := by
  intro s r s' h
  cases h

omit [DecidableEq C] in
theorem calm_fetch_cell (m : Platform V W) (c : C) : Calm (m.fetch (.cell c) : Evaluation V W C V) := by
  intro s r s' h
  cases h
  exact ⟨rfl, s.cells c, rfl⟩

omit [DecidableEq C] in
theorem calm_mapM (h : ∀ c ∈ es, Calm (eval c)) : Calm (es.mapM eval) := by
  induction es with
  | nil => exact calm_pure []
  | cons e es ih =>
    rw [List.mapM_cons]
    refine calm_bind (h e (by simp)) fun v ↦ calm_bind (ih fun c hc ↦ h c (by simp [hc])) fun vs ↦ ?_
    exact calm_pure _

omit [DecidableEq C] in
theorem calm_operate (hx : x.computesOnly) (vs : List V) :
    Calm (m.operate x vs : Evaluation V W C V) := by
  unfold Platform.operate
  split
  case h_3 op _ _ v w =>
    have hop : op.canThrow = false := by simpa [Expression.computesOnly] using hx
    simp only [Platform.arithmetic, hop]
    exact calm_pure _
  all_goals first
    | exact calm_pure _
    | exact calm_stuck
    | simp [Expression.computesOnly] at hx

theorem calm_evalNode {e : ExprId} (hx : x.computesOnly) (h : ∀ c ∈ x.children, Calm (eval c)) :
    Calm (evalNode m t cell operand eval e x) := by
  cases x with
  | free width => exact calm_pure _
  | var x => exact calm_fetch_cell m _
  | logical op lhs rhs =>
    refine calm_bind (h lhs (by simp [Expression.children])) fun v ↦ ?_
    split
    · exact calm_bind (h rhs (by simp [Expression.children])) fun w ↦ calm_pure _
    · exact calm_pure _
  | ternary cond ifTrue ifFalse =>
    refine calm_bind (h cond (by simp [Expression.children])) fun v ↦ ?_
    split
    · exact h ifTrue (by simp [Expression.children])
    · exact h ifFalse (by simp [Expression.children])
  | const | convert | negate | not | compare | threeWay | binary =>
    exact calm_bind (calm_mapM h) fun vs ↦ calm_operate hx vs
  | _ => simp [Expression.computesOnly] at hx

theorem calm_evalWithin {n : Nat} {e : ExprId}
    (h : ∀ f ∈ t.preorderWithin n e, (t.get f).computesOnly) :
    Calm (evalWithin m t cell operand n e) := by
  induction n generalizing e with
  | zero => exact calm_stuck
  | succ n ih =>
    exact calm_evalNode (h e (mem_preorderWithin_self t n e)) fun c hc ↦
      ih fun f hf ↦ h f (mem_preorderWithin_child hc hf)

end Purity

end Expressions

end Decompile
