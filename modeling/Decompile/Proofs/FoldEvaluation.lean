import Decompile.Proofs.Evaluation
import Decompile.Proofs.Rules
import Decompile.Proofs.StackTyping

/-!
What folding does to the evaluation of statements on the operand stack: a dropped push, a compound
assignment and a duplicated store, each against the statements that it takes the place of.
-/

namespace Decompile

theorem Statement.mapChildren_of_children_nil {s : Statement} (h : s.children = [])
    (f : BlockId → BlockId) : s.mapChildren f = s := by
  cases s with
  | switch selector cases labeled =>
    rw [show cases = [] from h]
    rfl
  | sequence | conditional | ifElse | loop | switchCase | tryCatch | catchClause | finallyClause
  | synchronized | jsr => simp [children] at h
  | _ => rfl

namespace Analysis

/-- Blocks were hung elsewhere. Statements without a block of their own stay as they are. -/
structure Moved (a a' : Analysis) : Prop where
  exprs : a'.exprs = a.exprs
  statement : ∀ b, (a.statement b).children = [] → a'.statement b = a.statement b

namespace Moved

variable {a a' a'' : Analysis}

theorem refl (a : Analysis) : Moved a a := ⟨rfl, fun _ _ ↦ rfl⟩

theorem trans (h : Moved a a') (h' : Moved a' a'') : Moved a a'' := by
  refine ⟨h'.exprs.trans h.exprs, fun b hb ↦ ?_⟩
  have hb' := h.statement b hb
  rw [h'.statement b (by rwa [hb']), hb']

theorem of_blocks (he : a'.exprs = a.exprs) (hs : ∀ b, a'.statement b = a.statement b) :
    Moved a a' := ⟨he, fun b _ ↦ hs b⟩

variable (a) in
theorem setOuter (b : BlockId) (o : Option BlockId) : Moved a (a.setOuter b o) :=
  of_blocks rfl fun _ ↦ Blocks.statement_setOuter ..

variable (a) in
theorem moveJump (source target : BlockId) : Moved a (a.moveJump source target) := by
  unfold Analysis.moveJump
  split
  · exact of_blocks rfl fun b ↦ by simp [Analysis.statement, modifyJump, setJumpOf]
  · exact refl a

variable (a) in
theorem put (place : Place) (old new : BlockId) : Moved a (a.put place old new) := by
  cases place with
  | child parent =>
    refine ⟨rfl, fun b hb ↦ ?_⟩
    have hset : (a.blocks.setStatement parent ((a.blocks.statement parent).mapChildren
        fun b ↦ if b = old then new else b)).statement b = a.blocks.statement b := by
      rw [Blocks.statement, Blocks.setStatement, Blocks.get_modify]
      split
      next h => rw [← h.1]; exact Statement.mapChildren_of_children_nil hb _
      next => rfl
    simp only [Analysis.statement, Analysis.put, Blocks.replaceChild]
    split <;> simpa using hset
  | root f => exact of_blocks rfl fun b ↦ Blocks.statement_setOuter ..
  | detached => exact refl a

variable (a) in
theorem retargetGrowth (old : List BlockId) (new : BlockId) :
    Moved a (a.retargetGrowth old new) := by
  unfold Analysis.retargetGrowth
  generalize a.graph.live = fs
  induction fs generalizing a with
  | nil => exact refl a
  | cons f fs ih =>
    refine .trans ?_ (ih _)
    beta_reduce
    split
    · exact of_blocks rfl fun _ ↦ rfl
    · exact refl a

variable (a) in
theorem removeStatement (b : BlockId) : Moved a (a.removeStatement b) := by
  unfold Analysis.removeStatement
  split
  · exact refl a
  · exact ((((moveJump a _ _).trans (moveJump _ _ _)).trans (setOuter _ _ _)).trans
      (put _ _ _ _)).trans (retargetGrowth _ _ _)

variable (a) in
theorem removeStatements (bs : List BlockId) : Moved a (a.removeStatements bs) := by
  induction bs generalizing a with
  | nil => exact refl a
  | cons b bs ih => exact (removeStatement a b).trans (ih _)

variable (a) in
theorem replaceStatement (old new : BlockId) : Moved a (a.replaceStatement old new) :=
  ((moveJump a _ _).trans (put _ _ _ _)).trans (retargetGrowth _ _ _)

end Moved

theorem replaceRun_spec (a : Analysis) (run : List BlockId) (last : BlockId) {s : Statement}
    (hs : s.children = []) :
    (a.replaceRun run last s).1.exprs = a.exprs ∧
      (a.replaceRun run last s).1.statement (a.replaceRun run last s).2 = s := by
  have hnew : (a.alloc s).1.statement (a.alloc s).2 = s := Blocks.statement_alloc_self ..
  have h := (Moved.removeStatements (a.alloc s).1 run).trans
    (Moved.replaceStatement _ last (a.alloc s).2)
  exact ⟨h.exprs, (h.statement (a.alloc s).2 (by rwa [hnew])).trans hnew⟩

end Analysis

section Performing

variable {V W C : Type} [DecidableEq C]

/-- A value on the operand stack. -/
structure Entry (V : Type) where
  value : V
  width : Nat
  width_pos : 0 < width

/-- An operand stack, bottom first, beside the store. -/
structure Config (V W C : Type) where
  stack : List (Entry V)
  store : Store V W C

/-- The values popped for free operands. -/
def supply (m : Platform V W) (es : List ExprId) (popped : List (Entry V)) (e : ExprId) : V :=
  ((es.zip (popped.map Entry.value)).lookup e).getD (m.constant .null)

namespace Expressions

/-- The popped entries are as wide as the free operands of the expression. -/
def Fits (t : Expressions) (e : ExprId) (popped : List (Entry V)) : Prop :=
  popped.map Entry.width = (t.freeOperands e).map t.freeWidth

/-- Evaluates an expression over the entries popped for it. -/
def evalOver (t : Expressions) (m : Platform V W) (cell : LocalId → C) (e : ExprId)
    (popped : List (Entry V)) : Evaluation V W C V :=
  t.eval m cell (supply m (t.freeOperands e) popped) e

theorem Fits.length_eq {t : Expressions} {e : ExprId} {popped : List (Entry V)}
    (h : t.Fits e popped) : popped.length = t.freeCount e := by
  simpa [freeCount] using congrArg List.length h

theorem calm_evalOver {t : Expressions} {e : ExprId} (h : t.isPure e) (m : Platform V W)
    (cell : LocalId → C) (popped : List (Entry V)) : (t.evalOver m cell e popped).Calm :=
  calm_evalWithin (List.all_eq_true.mp h)

end Expressions

/-- What a statement on the operand stack does. An exception clears the stack. -/
inductive Performs (m : Platform V W) (cell : LocalId → C) (t : Expressions) :
    Statement → Config V W C → Except V Unit → Config V W C → Prop
  | empty {c} : Performs m cell t .empty c (.ok ()) c
  | plain {e rest popped s v s'} : t.Fits e popped →
    (t.evalOver m cell e popped).outcome s = some (.ok v, s') →
    Performs m cell t (.evaluate e 0) ⟨rest ++ popped, s⟩ (.ok ()) ⟨rest, s'⟩
  | push {e width rest popped s v s'} (h : 0 < width) : t.Fits e popped →
    (t.evalOver m cell e popped).outcome s = some (.ok v, s') →
    Performs m cell t (.evaluate e width) ⟨rest ++ popped, s⟩ (.ok ())
      ⟨rest ++ [⟨v, width, h⟩], s'⟩
  | fault {e width rest popped s x s'} : t.Fits e popped →
    (t.evalOver m cell e popped).outcome s = some (.error x, s') →
    Performs m cell t (.evaluate e width) ⟨rest ++ popped, s⟩ (.error x) ⟨[], s'⟩
  | shuffle {op S S' s} : Shuffled Entry.width op S S' →
    Performs m cell t (.shuffle op) ⟨S, s⟩ (.ok ()) ⟨S', s⟩

theorem Performs.congr {m : Platform V W} {cell : LocalId → C} {t t' : Expressions} {e : ExprId}
    {push : Nat} (hfits : ∀ popped : List (Entry V), t.Fits e popped → t'.Fits e popped)
    (heval : ∀ popped, t'.evalOver m cell e popped = t.evalOver m cell e popped)
    {c c' : Config V W C} {r : Except V Unit} (h : Performs m cell t (.evaluate e push) c r c') :
    Performs m cell t' (.evaluate e push) c r c' := by
  cases h with
  | plain hf ho => exact .plain (hfits _ hf) (by rwa [heval])
  | push hpos hf ho => exact .push hpos (hfits _ hf) (by rwa [heval])
  | fault hf ho => exact .fault (hfits _ hf) (by rwa [heval])

/-- What statements do in a row. -/
inductive Runs (m : Platform V W) (cell : LocalId → C) (t : Expressions) :
    List Statement → Config V W C → Except V Unit → Config V W C → Prop
  | nil {c} : Runs m cell t [] c (.ok ()) c
  | cons {s ss c c' r c''} : Performs m cell t s c (.ok ()) c' → Runs m cell t ss c' r c'' →
    Runs m cell t (s :: ss) c r c''
  | stop {s ss c x c'} : Performs m cell t s c (.error x) c' →
    Runs m cell t (s :: ss) c (.error x) c'

theorem Shuffled.pop_one {op : StackOp} {rest S : List (Entry V)} {x : Entry V}
    (hop : op.poppedSlots = some x.width) (h : Shuffled Entry.width op (rest ++ [x]) S) :
    S = rest := by
  generalize hS : rest ++ [x] = S₀ at h
  cases h with
  | @pop slots _ top hslots hsum =>
    rw [hop, Option.some.injEq] at hslots
    obtain rfl | ⟨top, y, rfl⟩ := top.eq_nil_or_concat'
    · have := x.width_pos
      simp at hsum
      omega
    · obtain ⟨hrest, hxy⟩ := List.append_inj' (hS.trans (List.append_assoc ..).symm) rfl
      cases hxy
      obtain _ | ⟨z, top⟩ := top
      · simpa using hrest.symm
      · have := z.width_pos
        simp at hsum
        omega
  | dup hpop | swap hpop => simp [hop] at hpop

theorem Runs.of_push_pop {m : Platform V W} {cell : LocalId → C} {t : Expressions} {e : ExprId}
    {width : Nat} {op : StackOp} {c c' : Config V W C} {r : Except V Unit}
    (hop : op.poppedSlots = some width) (hpos : 0 < width)
    (h : Runs m cell t [.evaluate e width, .shuffle op] c r c') :
    ∃ rest popped s s', c = ⟨rest ++ popped, s⟩ ∧ t.Fits e popped ∧
      ((∃ v, (t.evalOver m cell e popped).outcome s = some (.ok v, s') ∧ r = .ok () ∧
          c' = ⟨rest, s'⟩) ∨
        ∃ x, (t.evalOver m cell e popped).outcome s = some (.error x, s') ∧ r = .error x ∧
          c' = ⟨[], s'⟩) := by
  cases h with
  | stop hfault =>
    cases hfault with
    | fault hfits hout => exact ⟨_, _, _, _, rfl, hfits, .inr ⟨_, hout, rfl, rfl⟩⟩
  | cons hpush hpop =>
    cases hpush with
    | plain => exact absurd hpos (lt_irrefl 0)
    | push hpos hfits hout =>
      cases hpop with
      | stop hfault => cases hfault
      | cons hpop hnil =>
        cases hnil
        cases hpop with
        | shuffle hshuffle =>
          obtain rfl := hshuffle.pop_one hop
          exact ⟨_, _, _, _, rfl, hfits, .inl ⟨_, hout, rfl, rfl⟩⟩

/-- Integers with one value that is unordered, and static fields around them. -/
def numbers : Platform (Option Int) (MemberRef → Option Int) where
  constant
    | .int n => some n
    | _ => none
  binary
    | .add, v, w => v.bind fun v ↦ w.map (v + ·)
    | _, _, _ => none
  divisionFault _ := none
  negate v := v.map (- ·)
  convert _ _ v := v
  step
    | .increment, v => v.map (· + 1)
    | .decrement, v => v.map (· - 1)
  order v w := v.bind fun v ↦ w.map (compare v)
  truth v := v != some 0
  ofBool b := some (if b then 1 else 0)
  ofOrdering
    | .lt => some (-1)
    | .eq => some 0
    | .gt => some 1
  answer
    | .read (.field ref _), fields => (.ok (fields ref), fields)
    | .write (.field ref _) v, fields => (.ok v, Function.update fields ref v)
    | _, fields => (.ok none, fields)

end Performing

namespace Expressions

section Compounds

variable {V W C : Type} [DecidableEq C] {m : Platform V W} {cell : LocalId → C}
  {operand : ExprId → V} {t : Expressions} {locals : Locals} {n : Nat}
  {e target value lhs rhs : ExprId} {op : BinaryOp}

/-- Two expressions that name one location: a local, a static field or a field of a local. -/
inductive Names (cell : LocalId → C) (t : Expressions) (x y : ExprId) : Prop
  | constant {c d} : t.get x = .const c → t.get y = .const d → Names cell t x y
  | var {u v} : t.get x = .var u → t.get y = .var v → cell u = cell v → Names cell t x y
  | static {ref} : t.get x = .field none ref → t.get y = .field none ref → Names cell t x y
  | field {o o' u v ref} : t.get x = .field (some o) ref → t.get y = .field (some o') ref →
    t.get o = .var u → t.get o' = .var v → cell u = cell v → Names cell t x y

omit [DecidableEq C] in
theorem samePlaceWithin_var {free : Bool} {o o' : ExprId} {v : LocalId}
    (h : t.samePlaceWithin locals free n o o') (hv : t.get o' = .var v) :
    ∃ u, t.get o = .var u ∧ locals.sameSlot u v := by
  cases n with
  | zero => simp [samePlaceWithin] at h
  | succ n =>
    rw [samePlaceWithin, hv] at h
    split at h
    next u w hu hw =>
      cases hw
      exact ⟨u, hu, h⟩
    all_goals simp_all

omit [DecidableEq C] in
/-- Fields are told apart by their class and name, but not by their descriptor. -/
theorem names_of_samePlace (h : t.samePlace locals target lhs false) (honce : t.evaluatedOnce lhs)
    (hcell : ∀ x y, locals.sameSlot x y → cell x = cell y)
    (hfield : ∀ o r o' r', t.get target = .field o r → t.get lhs = .field o' r' →
      r.descriptor = r'.descriptor) : Names cell t target lhs := by
  rw [samePlace] at h
  cases hsize : t.size with
  | zero => simp [hsize, samePlaceWithin] at h
  | succ n =>
    rw [hsize, samePlaceWithin] at h
    split at h
    next u v hu hv => exact .var hu hv (hcell u v h)
    next c d hc hd => exact .constant hc hd
    next => simp at h
    next o r o' r' hx hy =>
      simp only [Bool.and_eq_true, beq_iff_eq] at h
      obtain ⟨⟨howner, hname⟩, h⟩ := h
      have hdescriptor := hfield o r o' r' hx hy
      obtain rfl : r = r' := by
        cases r
        simp_all only
      cases o with
      | none =>
        cases o' with
        | none => exact .static hx hy
        | some o' => cases h
      | some o =>
        cases o' with
        | none => cases h
        | some o' =>
          obtain ⟨v, hv⟩ : ∃ v, t.get o' = .var v := by
            simp only [evaluatedOnce, hy] at honce
            revert honce
            cases t.get o' <;> simp [Expression.local?]
          obtain ⟨u, hu, huv⟩ := samePlaceWithin_var h hv
          exact .field hx hy hu hv (hcell u v huv)
    next hx hy =>
      -- Reading an element can fail, so that naming it twice is not the same.
      simp [evaluatedOnce, hy, isPure, preorder, hsize, preorderWithin,
        Expression.computesOnly] at honce
    next => cases h

theorem evalWithin_var {o : ExprId} {x : LocalId} (ho : t.get o = .var x) :
    evalWithin m t cell operand (n + 1) o = m.fetch (.cell (cell x)) := by
  simp only [evalWithin, ho, evalNode]

/-- The parts of `p = q op v` are at least two nodes below the assignment, which is in none of
them. -/
theorem parts_of_compound (hn : t.nestsWithin n e) (he : t.get e = .assign target none value)
    (hv : t.get value = .binary op lhs rhs) :
    ∃ k, n = k + 3 ∧ t.nestsWithin (k + 2) target ∧ t.nestsWithin (k + 1) lhs ∧
      t.nestsWithin (k + 1) rhs ∧
      (t.set e (.assign target (some op) rhs)).get e = .assign target (some op) rhs ∧
      (∀ f ∈ t.preorderWithin (k + 2) target,
        (t.set e (.assign target (some op) rhs)).get f = t.get f) ∧
      ∀ f ∈ t.preorderWithin (k + 1) rhs,
        (t.set e (.assign target (some op) rhs)).get f = t.get f := by
  have hother : ∀ f, f ≠ e → (t.set e (.assign target (some op) rhs)).get f = t.get f := by
    intro f hf
    rw [get_set, if_neg fun h ↦ hf h.1.symm]
  have htarget : target ∈ (t.get e).children := by simp [he, Expression.children]
  have hvalue : value ∈ (t.get e).children := by simp [he, Expression.children]
  have hrhs : rhs ∈ (t.get value).children := by simp [hv, Expression.children]
  obtain _ | _ | _ | k := n
  · simp [nestsWithin] at hn
  · simp [nestsWithin, he, Expression.children] at hn
  · simp [nestsWithin, he, hv, Expression.children] at hn
  have hnests : t.nestsWithin (k + 2) target ∧ t.nestsWithin (k + 1) lhs ∧
      t.nestsWithin (k + 1) rhs := by
    simpa only [nestsWithin, he, hv, Expression.children, List.all_cons, List.all_nil,
      Bool.and_true, Bool.and_eq_true] using hn
  refine ⟨k, rfl, hnests.1, hnests.2.1, hnests.2.2, ?_, fun f hf ↦ hother f ?_,
    fun f hf ↦ hother f ?_⟩
  · rw [get_set, if_pos ⟨rfl, lt_size_of_get (by rw [he]; exact Expression.noConfusion)⟩]
  · rintro rfl
    exact notMem_preorderWithin hn htarget hf
  · rintro rfl
    exact notMem_preorderWithin hn hvalue (mem_preorderWithin_child hrhs hf)

/-- `p = q op v` does the same as `p op= v` if `p` and `q` name one location. -/
theorem evalWithin_compound (hn : t.nestsWithin n e) (he : t.get e = .assign target none value)
    (hv : t.get value = .binary op lhs rhs) (hnames : Names cell t target lhs) :
    evalWithin m (t.set e (.assign target (some op) rhs)) cell operand n e =
      evalWithin m t cell operand n e := by
  obtain ⟨k, rfl, -, hlhsn, hrhsn, hself, htarget, hrhs⟩ := parts_of_compound hn he hv
  set t' := t.set e (.assign target (some op) rhs)
  have hR : evalWithin m t' cell operand (k + 2) rhs = evalWithin m t cell operand (k + 1) rhs :=
    evalWithin_congr hrhsn (Nat.le_succ _) hrhs fun _ _ _ ↦ rfl
  have hL : evalWithin m t cell operand (k + 2) value = (do
      let old ← evalWithin m t cell operand (k + 1) lhs
      let v ← evalWithin m t cell operand (k + 1) rhs
      m.arithmetic op old v) := by
    rw [evalWithin_succ, hv]
    simp only [evalNode, Expression.children, List.mapM_cons, List.mapM_nil, bind_assoc,
      pure_bind, Platform.operate]
  rw [evalWithin_succ, evalWithin_succ, hself, he]
  simp only [evalNode, hL, hR, htarget target (mem_preorderWithin_self t _ target)]
  cases hnames with
  | constant hx => simp only [hx, locate, Platform.stuck_bind]
  | var hx hy hcell => simp only [hx, locate, evalWithin_var hy, hcell, pure_bind, bind_assoc]
  | @static ref hx hy =>
    have hlhs : evalWithin m t cell operand (k + 1) lhs = m.fetch (.member (.field ref none)) := by
      simp only [evalWithin, hy, evalNode, locate, pure_bind]
    simp only [hx, locate, hlhs, pure_bind, bind_assoc]
  | @field o o' u v ref hx hy ho ho' hcell =>
    have hlhs : evalWithin m t cell operand (k + 1) lhs = (do
        m.fetch (.member (.field ref (some (← m.fetch (.cell (cell v))))))) := by
      obtain _ | k := k
      · simp [nestsWithin, hy, Expression.children] at hlhsn
      · rw [evalWithin_succ, hy]
        simp only [evalNode, locate, evalWithin_var ho', bind_assoc, pure_bind]
    have hmem : o ∈ t.preorderWithin (k + 2) target :=
      mem_preorderWithin_child (by simp [hx, Expression.children]) (mem_preorderWithin_self t k o)
    simp only [hx, locate, hlhs, evalWithin_var ho, evalWithin_var ((htarget o hmem).trans ho),
      hcell, bind_assoc]
    exact (Platform.fetch_cell_twice m (cell v) fun x y ↦ do
      let old ← m.fetch (.member (.field ref (some y)))
      let w ← evalWithin m t cell operand (k + 1) rhs
      let v ← m.arithmetic op old w
      m.assign v (.member (.field ref (some x)))
      return v).symm

omit [DecidableEq C] in
theorem Names.isFree_eq_false (h : Names cell t target lhs) {f : ExprId}
    (hf : f ∈ t.preorderWithin n lhs) : (t.get f).isFree = false := by
  obtain _ | _ | n := n
  · simp [preorderWithin] at hf
  all_goals
    cases h with
    | constant _ hy | var _ hy _ | static _ hy =>
      simp only [preorderWithin, hy, Expression.children, Option.toList, List.flatMap_nil,
        List.mem_singleton] at hf
      simp [hf, hy, Expression.isFree]
    | field _ hy _ ho' _ =>
      simp only [preorderWithin, hy, ho', Expression.children, Option.toList, List.flatMap_nil,
        List.flatMap_cons, List.append_nil, List.mem_cons, List.not_mem_nil, or_false] at hf
      obtain rfl | rfl := hf <;> simp [hy, ho', Expression.isFree]

omit [DecidableEq C] in
theorem freeOperands_compound (hn : t.nestsWithin t.size e)
    (he : t.get e = .assign target none value) (hv : t.get value = .binary op lhs rhs)
    (hnames : Names cell t target lhs) :
    (t.set e (.assign target (some op) rhs)).freeOperands e = t.freeOperands e := by
  obtain ⟨k, hk, htargetn, hlhsn, hrhsn, hself, htarget, hrhs⟩ := parts_of_compound hn he hv
  set t' := t.set e (.assign target (some op) rhs)
  have hT : t'.preorderWithin (k + 2) target = t.preorderWithin (k + 2) target :=
    preorderWithin_congr htargetn le_rfl fun f hf ↦ by rw [htarget f hf]
  have hR : t'.preorderWithin (k + 2) rhs = t.preorderWithin (k + 1) rhs :=
    preorderWithin_congr hrhsn (Nat.le_succ _) fun f hf ↦ by rw [hrhs f hf]
  have hfree : ∀ l : List ExprId, (∀ f ∈ l, t'.get f = t.get f) →
      (l.filter fun f ↦ (t'.get f).isFree) = l.filter fun f ↦ (t.get f).isFree := fun l hl ↦
    List.filter_congr fun f hf ↦ by rw [hl f hf]
  have hlhs : ((t.preorderWithin (k + 1) lhs).filter fun f ↦ (t.get f).isFree) = [] :=
    List.filter_eq_nil_iff.mpr fun f hf ↦ by simp [hnames.isFree_eq_false hf]
  have hsize : t'.size = k + 3 := (size_set ..).trans hk
  have hnot : (t'.get e).isFree = false ∧ (t.get e).isFree = false ∧
      (t.get value).isFree = false := by simp [hself, he, hv, Expression.isFree]
  have hvalue : t.preorderWithin (k + 2) value =
      value :: (t.preorderWithin (k + 1) lhs ++ t.preorderWithin (k + 1) rhs) := by
    simp [preorderWithin, hv, Expression.children]
  rw [freeOperands, freeOperands, preorder, preorder, hsize, hk, preorderWithin, preorderWithin,
    hself, he]
  simp only [Expression.children, List.flatMap_cons, List.flatMap_nil, List.append_nil,
    List.filter_cons, hnot, Bool.false_eq_true, if_false, List.filter_append, hT, hR,
    hfree _ htarget, hfree _ hrhs, hvalue, hlhs, List.nil_append]

end Compounds

end Expressions

namespace Analysis

variable {V W C : Type} [DecidableEq C] {m : Platform V W} {cell : LocalId → C}
  {a a' : Analysis} {b new : BlockId}

section Popping

theorem of_removePop (h : a.removePop b = some (a', new)) :
    ∃ prev op e width, a.blocks.prevStatement b = some prev ∧ a.statement prev = .evaluate e width ∧
      a.statement b = .shuffle op ∧ op.poppedSlots = some width ∧ 0 < width ∧
      a'.exprs = a.exprs ∧
      a'.statement new = if a.exprs.isPure e then .empty else .evaluate e 0 := by
  simp only [removePop, Option.bind_eq_bind, Option.bind_eq_some_iff, Option.pure_def,
    Option.some.injEq] at h
  obtain ⟨op, hop, popped, hpopped, prev, hprev, ⟨e, width⟩, hx, ⟨⟩, hguard, hrun⟩ := h
  obtain rfl : width = popped := ((Option.guard_eq_some' _).mp hguard).1
  obtain ⟨hs, hpos⟩ := statement_of_pushed? hx
  obtain ⟨hexprs, hnew⟩ := a.replaceRun_spec [prev] b
    (s := if a.exprs.isPure e then .empty else .evaluate e 0) (by split <;> rfl)
  rw [hrun] at hexprs hnew
  exact ⟨prev, op, e, width, hprev, hs, statement_of_shuffle? hop, hpopped, hpos, hexprs, hnew⟩

/-- A push that is popped right away is dropped. The stack stays as it is, which is right unless
the value is pure and has taken operands of its own. -/
theorem removePop_stack (h : a.removePop b = some (a', new)) :
    ∃ prev e width, a.blocks.prevStatement b = some prev ∧ a.statement prev = .evaluate e width ∧
      ∀ (c : Config V W C) r c',
        Runs m cell a.exprs [a.statement prev, a.statement b] c r c' →
        ∃ c'', Performs m cell a'.exprs (a'.statement new) c r c'' ∧ c''.store = c'.store ∧
          c''.stack = (if a.exprs.isPure e then c.stack else c'.stack) ∧
          (c''.stack = c'.stack ↔ (a.exprs.isPure e → a.exprs.freeCount e = 0)) := by
  obtain ⟨prev, op, e, width, hprev, hs, hb, hop, hpos, hexprs, hnew⟩ := of_removePop h
  refine ⟨prev, e, width, hprev, hs, fun c r c' hrun ↦ ?_⟩
  rw [hs, hb] at hrun
  rw [hexprs, hnew]
  obtain ⟨rest, popped, s, s', rfl, hfits, hout⟩ := Runs.of_push_pop hop hpos hrun
  by_cases hpure : a.exprs.isPure e = true
  · have hcalm := Expressions.calm_evalOver hpure m cell popped s
    obtain ⟨v, hout, rfl, rfl⟩ | ⟨x, hout, rfl, rfl⟩ := hout
    · obtain ⟨rfl, -⟩ := hcalm _ _ hout
      simp only [hpure, forall_const]
      refine ⟨_, .empty, rfl, rfl, ?_⟩
      rw [← hfits.length_eq, List.append_right_eq_self, List.length_eq_zero_iff]
    · obtain ⟨-, v, hv⟩ := hcalm _ _ hout
      cases hv
  · rw [if_neg hpure, if_neg hpure]
    refine ⟨c', ?_, rfl, rfl, iff_of_true rfl fun h ↦ absurd h hpure⟩
    obtain ⟨v, hout, rfl, rfl⟩ | ⟨x, hout, rfl, rfl⟩ := hout
    · exact .plain hfits hout
    · exact .fault hfits hout

/-- A value made from the top of the stack is pushed and popped again. -/
def pushThenPop (x : Expression) (width : Nat) (op : StackOp) : Analysis where
  exprs := ⟨⟨#[.free 1, x]⟩⟩
  blocks := ⟨⟨#[{ statement := .sequence ⟨1⟩ ⟨2⟩ },
    { statement := .evaluate ⟨1⟩ width, outer := some ⟨0⟩ },
    { statement := .shuffle op, outer := some ⟨0⟩ }]⟩⟩
  checked := false
  fuel := 0

theorem removePop_stack_call :
    let a := pushThenPop (.call .static default none [⟨0⟩]) 1 .pop
    ∃ a' new, a.removePop ⟨2⟩ = some (a', new) ∧
      ∃ prev e width, a.blocks.prevStatement ⟨2⟩ = some prev ∧
        a.statement prev = .evaluate e width ∧
        ∀ (c : Config (Option Int) (MemberRef → Option Int) LocalId) r c',
          Runs numbers id a.exprs [a.statement prev, a.statement ⟨2⟩] c r c' →
          ∃ c'', Performs numbers id a'.exprs (a'.statement new) c r c'' ∧ c''.store = c'.store ∧
            c''.stack = (if a.exprs.isPure e then c.stack else c'.stack) ∧
            (c''.stack = c'.stack ↔ (a.exprs.isPure e → a.exprs.freeCount e = 0)) := by
  intro a
  obtain ⟨⟨a', new⟩, h⟩ := Option.isSome_iff_exists.mp
    (show (a.removePop ⟨2⟩).isSome from by decide +kernel)
  exact ⟨a', new, h, removePop_stack h⟩

/-- A conversion is pure, so that nothing at all is left of it, and its operand stays on the
stack. -/
theorem removePop_keeps_operand :
    let a := pushThenPop (.convert ⟨0⟩ .int .long) 2 .pop2
    ∃ a' new, a.removePop ⟨2⟩ = some (a', new) ∧
      ∃ c c' : Config (Option Int) (MemberRef → Option Int) LocalId,
        Runs numbers id a.exprs [a.statement ⟨1⟩, a.statement ⟨2⟩] c (.ok ()) c' ∧
        ∀ r c'', Performs numbers id a'.exprs (a'.statement new) c r c'' → c''.stack ≠ c'.stack := by
  intro a
  obtain ⟨⟨a', new⟩, h⟩ := Option.isSome_iff_exists.mp
    (show (a.removePop ⟨2⟩).isSome from by decide +kernel)
  have hnew : a'.statement new = .empty := by
    have : (a.removePop ⟨2⟩).map (fun r ↦ r.1.statement r.2) = some .empty := by decide +kernel
    simpa [h] using this
  let x : Entry (Option Int) := ⟨some 7, 1, Nat.one_pos⟩
  let y : Entry (Option Int) := ⟨some 7, 2, Nat.two_pos⟩
  let s : Store (Option Int) (MemberRef → Option Int) LocalId := ⟨fun _ ↦ none, fun _ ↦ none⟩
  have hfits : a.exprs.Fits ⟨1⟩ [x] := by
    unfold Expressions.Fits
    decide +kernel
  have hpush : Performs numbers id a.exprs (.evaluate ⟨1⟩ 2) ⟨[] ++ [x], s⟩ (.ok ()) ⟨[] ++ [y], s⟩ :=
    .push Nat.two_pos hfits rfl
  have hpop : Shuffled Entry.width .pop2 ([] ++ [y]) [] := .pop rfl rfl
  refine ⟨a', new, h, ⟨[x], s⟩, ⟨[], s⟩, .cons hpush (.cons (.shuffle hpop) .nil),
    fun r c'' hc ↦ ?_⟩
  rw [hnew] at hc
  cases hc
  exact List.cons_ne_nil _ _

end Popping

section Compounds

theorem of_foldCompound {b' : BlockId} (h : a.foldCompound b = some (a', b')) :
    ∃ e push target value op lhs rhs, a.statement b = .evaluate e push ∧
      a.expr e = .assign target none value ∧ a.expr value = .binary op lhs rhs ∧
      a.samePlace target lhs false ∧ a.exprs.evaluatedOnce lhs ∧
      a'.exprs = a.exprs.set e (.assign target (some op) rhs) := by
  rw [foldCompound] at h
  split at h
  case h_2 => cases h
  next e push hs =>
    simp only [Option.bind_eq_bind, Option.bind_eq_some_iff] at h
    obtain ⟨⟨target, op, lhs, rhs⟩, hbinary, ⟨⟩, hguard, hrun⟩ := h
    obtain ⟨hsame, honce⟩ := (Option.guard_eq_some' _).mp hguard
    rw [assignedBinary?] at hbinary
    split at hbinary
    case h_2 => cases hbinary
    next he =>
      split at hbinary
      case h_2 => cases hbinary
      next hv =>
        cases hbinary
        cases hrun
        refine ⟨e, push, _, _, _, _, _, hs, he, hv, hsame, honce, ?_⟩
        rw [mergePlaces_eq]
        rfl

/-- `p = q op v` becomes `p op= v`. Both have the same value and the same effects as long as fields
of one class and name also have one descriptor. -/
theorem foldCompound_eval {b' : BlockId} (h : a.foldCompound b = some (a', b'))
    (hcell : ∀ x y, a.locals.sameSlot x y → cell x = cell y) :
    ∃ e push target value op lhs rhs, a.statement b = .evaluate e push ∧
      a.expr e = .assign target none value ∧ a.expr value = .binary op lhs rhs ∧
      a'.expr e = .assign target (some op) rhs ∧
      (a.exprs.nestsWithin a.exprs.size e →
        (∀ o r o' r', a.expr target = .field o r → a.expr lhs = .field o' r' →
          r.descriptor = r'.descriptor) →
        (∀ popped, a'.exprs.evalOver m cell e popped = a.exprs.evalOver m cell e popped) ∧
        ∀ c r c', Performs m cell a'.exprs (.evaluate e push) c r c' ↔
          Performs m cell a.exprs (.evaluate e push) c r c') := by
  obtain ⟨e, push, target, value, op, lhs, rhs, hs, he, hv, hsame, honce, hexprs⟩ :=
    of_foldCompound h
  have hself : a'.expr e = .assign target (some op) rhs := by
    have hsize : e.index < a.exprs.size :=
      Expressions.lt_size_of_get (by rw [show a.exprs.get e = _ from he]; exact Expression.noConfusion)
    rw [expr, hexprs, Expressions.get_set, if_pos ⟨rfl, hsize⟩]
  refine ⟨e, push, target, value, op, lhs, rhs, hs, he, hv, hself, fun hn hfield ↦ ?_⟩
  have hnames := Expressions.names_of_samePlace hsame honce hcell hfield
  have hfree : a'.exprs.freeOperands e = a.exprs.freeOperands e := by
    rw [hexprs]
    exact Expressions.freeOperands_compound hn he hv hnames
  have heval : ∀ popped, a'.exprs.evalOver m cell e popped = a.exprs.evalOver m cell e popped := by
    intro popped
    rw [Expressions.evalOver, hfree, hexprs, Expressions.eval, Expressions.size_set]
    exact Expressions.evalWithin_compound hn he hv hnames
  have hfits : ∀ popped : List (Entry V), a'.exprs.Fits e popped ↔ a.exprs.Fits e popped := by
    intro popped
    have hwidth : (a.exprs.freeOperands e).map a'.exprs.freeWidth =
        (a.exprs.freeOperands e).map a.exprs.freeWidth := by
      refine List.map_congr_left fun f hf ↦ ?_
      have hne : e ≠ f := by
        rintro rfl
        have hfree := (Expressions.mem_freeOperands.mp hf).2
        simp [show a.exprs.get e = _ from he, Expression.isFree] at hfree
      rw [Expressions.freeWidth, hexprs, Expressions.get_set, if_neg fun h ↦ hne h.1,
        Expressions.freeWidth]
    rw [Expressions.Fits, Expressions.Fits, hfree, hwidth]
  exact ⟨heval, fun c r c' ↦ ⟨Performs.congr (fun p ↦ (hfits p).mp) fun p ↦ (heval p).symm,
    Performs.congr (fun p ↦ (hfits p).mpr) heval⟩⟩

/-- A field of the object in slot 0 is read through one local and written through another. -/
def stepField : Analysis where
  exprs := ⟨⟨#[.var ⟨0⟩, .field (some ⟨0⟩) default, .var ⟨1⟩, .field (some ⟨2⟩) default,
    .const (.int 1), .binary .add ⟨3⟩ ⟨4⟩, .assign ⟨1⟩ none ⟨5⟩]⟩⟩
  blocks := ⟨⟨#[{ statement := .evaluate ⟨6⟩ 0 }]⟩⟩
  locals := ((Locals.add {} .this (some 0)).1.add .slot (some 0)).1
  checked := false
  fuel := 0

theorem foldCompound_eval_stepField :
    ∃ a', stepField.foldCompound ⟨0⟩ = some (a', ⟨0⟩) ∧
      (∀ x y, stepField.locals.sameSlot x y → stepField.locals.slot x = stepField.locals.slot y) ∧
      stepField.exprs.nestsWithin stepField.exprs.size ⟨6⟩ ∧
      ∀ popped, a'.exprs.evalOver numbers stepField.locals.slot ⟨6⟩ popped =
        stepField.exprs.evalOver numbers stepField.locals.slot ⟨6⟩ popped := by
  obtain ⟨⟨a', b'⟩, h⟩ := Option.isSome_iff_exists.mp
    (show (stepField.foldCompound ⟨0⟩).isSome from by decide +kernel)
  obtain rfl : b' = ⟨0⟩ := by
    have : (stepField.foldCompound ⟨0⟩).map Prod.snd = some ⟨0⟩ := by decide +kernel
    simpa [h] using this
  have hcell : ∀ x y, stepField.locals.sameSlot x y →
      stepField.locals.slot x = stepField.locals.slot y := fun x y hxy ↦ by
    simpa using (Bool.and_eq_true_iff.mp hxy).2
  have hn : stepField.exprs.nestsWithin stepField.exprs.size ⟨6⟩ := by decide +kernel
  obtain ⟨e, push, target, value, op, lhs, rhs, hs, he, hv, -, heval⟩ :=
    foldCompound_eval h hcell
  cases hs
  cases he
  cases hv
  refine ⟨a', h, hcell, hn, (heval hn fun o r o' r' hr hr' ↦ ?_).1⟩
  cases hr
  cases hr'
  rfl

/-- One static field becomes another plus one. -/
def stepStatic (target source : MemberRef) : Analysis where
  exprs := ⟨⟨#[.field none target, .field none source, .const (.int 1), .binary .add ⟨1⟩ ⟨2⟩,
    .assign ⟨0⟩ none ⟨3⟩]⟩⟩
  blocks := ⟨⟨#[{ statement := .evaluate ⟨4⟩ 0 }]⟩⟩
  checked := false
  fuel := 0

/-- Two fields that differ in their descriptor only are taken for one: the field becomes its own
value plus one, where it was to become that of the other plus one. -/
theorem foldCompound_mixes_fields :
    let x : MemberRef := default
    let y : MemberRef := ⟨default, default, ⟨[73], rfl⟩⟩
    let a := stepStatic x y
    let s : Store (Option Int) (MemberRef → Option Int) LocalId :=
      ⟨fun _ ↦ none, fun r ↦ some (if r = y then 5 else 0)⟩
    let ends (t : Expressions) := ((t.evalOver numbers id ⟨4⟩ []).outcome s).map fun r ↦
      (r.1.toOption, r.2.world x)
    x ≠ y ∧ a.samePlace ⟨0⟩ ⟨1⟩ false ∧ ends a.exprs = some (some (some 6), some 6) ∧
      (a.foldCompound ⟨0⟩).map (fun r ↦ ends r.1.exprs) = some (some (some (some 1), some 1)) := by
  decide +kernel

end Compounds

section DuplicatedStores

/-- `push (x <=> y) < 0; dup; z = FREE`, whose comparison makes unordered values less. -/
def storeComparison : Analysis where
  exprs := ⟨⟨#[.var ⟨0⟩, .var ⟨1⟩, .threeWay ⟨0⟩ ⟨1⟩ false, .const (.int 0), .compare .lt ⟨2⟩ ⟨3⟩,
    .var ⟨2⟩, .free 1, .assign ⟨5⟩ none ⟨6⟩]⟩⟩
  blocks := ⟨⟨#[{ statement := .sequence ⟨1⟩ ⟨2⟩ },
    { statement := .evaluate ⟨4⟩ 1, outer := some ⟨0⟩ },
    { statement := .sequence ⟨3⟩ ⟨4⟩, outer := some ⟨0⟩ },
    { statement := .shuffle .dup, outer := some ⟨2⟩ },
    { statement := .evaluate ⟨7⟩ 0, outer := some ⟨2⟩ }]⟩⟩
  checked := false
  fuel := 0

/-- Folding the store also turns the comparison of the sign into `x < y`, which is false of
unordered values: the local was to become one, and it becomes zero. -/
theorem foldDupStore_drops_unordered :
    ∃ a' new, storeComparison.foldDupStore ⟨4⟩ = some (a', new) ∧
      ∃ c c' : Config (Option Int) (MemberRef → Option Int) LocalId,
        Runs numbers id storeComparison.exprs [storeComparison.statement ⟨1⟩,
          storeComparison.statement ⟨3⟩, storeComparison.statement ⟨4⟩] c (.ok ()) c' ∧
        c'.store.cells ⟨2⟩ = some 1 ∧
        ∃ c'', Performs numbers id a'.exprs (a'.statement new) c (.ok ()) c'' ∧
          c''.store.cells ⟨2⟩ = some 0 := by
  let x : Entry (Option Int) := ⟨some 1, 1, Nat.one_pos⟩
  let y : Entry (Option Int) := ⟨some 0, 1, Nat.one_pos⟩
  let s : Store (Option Int) (MemberRef → Option Int) LocalId := ⟨fun _ ↦ none, fun _ ↦ none⟩
  let s' (v : Option Int) : Store (Option Int) (MemberRef → Option Int) LocalId :=
    { s with cells := Function.update s.cells ⟨2⟩ v }
  have hpush : Performs numbers id storeComparison.exprs (.evaluate ⟨4⟩ 1) ⟨[] ++ [], s⟩ (.ok ())
      ⟨[] ++ [x], s⟩ := .push Nat.one_pos rfl rfl
  have hdup : Shuffled Entry.width .dup ([] ++ ([] ++ [x])) ([] ++ ([x] ++ ([] ++ [x]))) :=
    .dup rfl rfl rfl rfl
  have hstore : Performs numbers id storeComparison.exprs (.evaluate ⟨7⟩ 0) ⟨[x] ++ [x], s⟩
      (.ok ()) ⟨[x], s' (some 1)⟩ := .plain rfl rfl
  obtain ⟨⟨a', new⟩, h⟩ := Option.isSome_iff_exists.mp
    (show (storeComparison.foldDupStore ⟨4⟩).isSome from by decide +kernel)
  have hfold : (storeComparison.foldDupStore ⟨4⟩).map
      (fun r ↦ (r.1.exprs.nodes.entries, r.1.statement r.2)) =
      some (#[.var ⟨0⟩, .var ⟨1⟩, .threeWay ⟨0⟩ ⟨1⟩ false, .const (.int 0), .compare .lt ⟨2⟩ ⟨3⟩,
        .var ⟨2⟩, .compare .lt ⟨0⟩ ⟨1⟩, .assign ⟨5⟩ none ⟨6⟩], .evaluate ⟨7⟩ 1) := by
    decide +kernel
  rw [h, Option.map_some, Option.some.injEq, Prod.mk.injEq] at hfold
  have hexprs : a'.exprs = ⟨⟨a'.exprs.nodes.entries⟩⟩ := rfl
  have hpushed : Performs numbers id a'.exprs (.evaluate ⟨7⟩ 1) ⟨[] ++ [], s⟩ (.ok ())
      ⟨[] ++ [y], s' (some 0)⟩ := by
    rw [hexprs, hfold.1]
    exact .push Nat.one_pos rfl rfl
  exact ⟨a', new, h, ⟨[], s⟩, ⟨[x], s' (some 1)⟩,
    .cons hpush (.cons (.shuffle hdup) (.cons hstore .nil)), rfl, ⟨[y], s' (some 0)⟩,
    hfold.2 ▸ hpushed, rfl⟩

end DuplicatedStores

end Analysis

end Decompile
