import Decompile.Statement.Basic

namespace Decompile

/-- What a run does, step by step. -/
inductive Event (α V : Type)
  /-- An expression takes its operands. -/
  | took (e : ExprId) (operands : List α)
  | pushed (b : BlockId) (v : V)
  | tested (cond : ExprId) (outcome : Bool)
  /-- The selector leads to the case of that index, or past all of them. -/
  | chose (selector : ExprId) (index : Nat)

/-- How a run leaves a block. It may be cut off anywhere. -/
inductive Exit
  | normal
  | broke (target : BlockId)
  | continued (target : BlockId)
  | left
  | cut
  deriving DecidableEq

/-- Where operands come from and where pushed values go. -/
structure Machine (α V S : Type) where
  take : ExprId → S → List α → S → Prop
  /-- What the statement of a block without inner blocks does. -/
  perform : BlockId → Statement → S → List (Event α V) → S → Prop

namespace Machine

variable {α V S : Type}

def take? (M : Machine α V S) : Option ExprId → S → List (Event α V) → S → Prop
  | none, s, evs, s' => evs = [] ∧ s' = s
  | some e, s, evs, s' => ∃ operands, M.take e s operands s' ∧ evs = [.took e operands]

end Machine

/-- Where a run goes on. -/
inductive Spot
  | block (b : BlockId)
  /-- At the test of a loop. -/
  | test (loop : BlockId)
  /-- At the start of the body of a loop. -/
  | round (loop : BlockId)
  /-- At the first of the remaining cases of a switch. -/
  | cases (bs : List BlockId)

/-- A break out of `b` ends there. -/
def Exit.past (b : BlockId) (x : Exit) : Exit := if x = .broke b then .normal else x

namespace Statement

/-- The expression that a statement evaluates before it leaves the method. -/
def leaves? : Statement → Option (Option ExprId)
  | returns value => some value
  | throws exception => some (some exception)
  | _ => none

/-- The condition and the two ways to go on. -/
def branch? : Statement → Option (ExprId × BlockId × Option BlockId)
  | conditional cond taken => some (cond, taken, none)
  | ifElse cond onTrue onFalse => some (cond, onTrue, onFalse)
  | _ => none

/-- The body of a statement that runs just once, and what is evaluated before it. -/
def body? : Statement → Option (Option ExprId × BlockId)
  | switchCase _ body _ | catchClause _ _ body | finallyClause body => some (none, body)
  | synchronized _ object body => some (object, body)
  | _ => none

def isDefaultCase : Statement → Bool
  | switchCase .default _ _ => true
  | _ => false

theorem branch?_of_leaves? {s : Statement} {value : Option ExprId} (h : s.leaves? = some value) :
    s.branch? = none ∧ s.body? = none := by
  cases s <;> simp_all [leaves?, branch?, body?]

theorem body?_of_branch? {s : Statement} {x : ExprId × BlockId × Option BlockId}
    (h : s.branch? = some x) : s.body? = none := by
  cases s <;> simp_all [branch?, body?]

end Statement

/-- A tree of statements with the conditions whose outcome is known. -/
structure Program where
  statement : BlockId → Statement
  literal : ExprId → Option Bool

namespace Program

variable {α V S : Type}

/-- The condition may come out that way. -/
def Allows (P : Program) (cond : ExprId) (outcome : Bool) : Prop :=
  ∀ v, P.literal cond = some v → outcome = v

/-- The runs of a program on a machine, up to any point. -/
inductive Exec (P : Program) (M : Machine α V S) :
    Spot → S → List (Event α V) → S → Exit → Prop
  | cut {p s} : Exec P M p s [] s .cut
  | perform {b s evs s'} :
    M.perform b (P.statement b) s evs s' → Exec P M (.block b) s evs s' .normal
  | leave {b s value evs s'} :
    (P.statement b).leaves? = some value → M.take? value s evs s' →
    Exec P M (.block b) s evs s' .left
  | sequence {b first second s evs s₁ evs' s' x} :
    P.statement b = .sequence first second → Exec P M (.block first) s evs s₁ .normal →
    Exec P M (.block second) s₁ evs' s' x → Exec P M (.block b) s (evs ++ evs') s' x
  | leaveFirst {b first second s evs s' x} :
    P.statement b = .sequence first second → Exec P M (.block first) s evs s' x → x ≠ .normal →
    Exec P M (.block b) s evs s' x
  | onTrue {b cond yes no s operands s₁ evs s' x} :
    (P.statement b).branch? = some (cond, yes, no) → M.take cond s operands s₁ →
    P.Allows cond true → Exec P M (.block yes) s₁ evs s' x →
    Exec P M (.block b) s (.took cond operands :: .tested cond true :: evs) s' x
  | onFalse {b cond yes no s operands s₁ evs s' x} :
    (P.statement b).branch? = some (cond, yes, some no) → M.take cond s operands s₁ →
    P.Allows cond false → Exec P M (.block no) s₁ evs s' x →
    Exec P M (.block b) s (.took cond operands :: .tested cond false :: evs) s' x
  | noElse {b cond yes s operands s'} :
    (P.statement b).branch? = some (cond, yes, none) → M.take cond s operands s' →
    P.Allows cond false →
    Exec P M (.block b) s [.took cond operands, .tested cond false] s' .normal
  | loop {b kind cond init incr body labeled s evs s₁ evs' s' x} :
    P.statement b = .loop kind cond init incr body labeled → M.take? init s evs s₁ →
    Exec P M (if kind = .doWhile then .round b else .test b) s₁ evs' s' x →
    Exec P M (.block b) s (evs ++ evs') s' x
  | again {b kind cond init incr body labeled s operands s₁ evs s' x} :
    P.statement b = .loop kind cond init incr body labeled → M.take cond s operands s₁ →
    P.Allows cond true → Exec P M (.round b) s₁ evs s' x →
    Exec P M (.test b) s (.took cond operands :: .tested cond true :: evs) s' x
  | done {b kind cond init incr body labeled s operands s'} :
    P.statement b = .loop kind cond init incr body labeled → M.take cond s operands s' →
    P.Allows cond false → Exec P M (.test b) s [.took cond operands, .tested cond false] s' .normal
  | round {b kind cond init body labeled s evs s₁ x evs' s' y} :
    P.statement b = .loop kind cond init none body labeled → Exec P M (.block body) s evs s₁ x →
    x = .normal ∨ x = .continued b → Exec P M (.test b) s₁ evs' s' y →
    Exec P M (.round b) s (evs ++ evs') s' y
  | roundStep {b kind cond init incr body labeled s evs s₁ x evs' s₂ evs'' s' y} :
    P.statement b = .loop kind cond init (some incr) body labeled →
    Exec P M (.block body) s evs s₁ x → x = .normal ∨ x = .continued b →
    Exec P M (.block incr) s₁ evs' s₂ .normal → Exec P M (.test b) s₂ evs'' s' y →
    Exec P M (.round b) s (evs ++ (evs' ++ evs'')) s' y
  | roundLeave {b kind cond init incr body labeled s evs s₁ x evs' s' y} :
    P.statement b = .loop kind cond init (some incr) body labeled →
    Exec P M (.block body) s evs s₁ x → x = .normal ∨ x = .continued b →
    Exec P M (.block incr) s₁ evs' s' y → y ≠ .normal → Exec P M (.round b) s (evs ++ evs') s' y
  | roundExit {b kind cond init incr body labeled s evs s' x} :
    P.statement b = .loop kind cond init incr body labeled → Exec P M (.block body) s evs s' x →
    x ≠ .normal → x ≠ .continued b → Exec P M (.round b) s evs s' (x.past b)
  | switch {b selector cases labeled s operands s₁ i evs s' x} :
    P.statement b = .switch selector cases labeled → M.take selector s operands s₁ →
    i < cases.length ∨ (i = cases.length ∧ ∀ c ∈ cases, ¬ (P.statement c).isDefaultCase) →
    Exec P M (.cases (cases.drop i)) s₁ evs s' x →
    Exec P M (.block b) s (.took selector operands :: .chose selector i :: evs) s' (x.past b)
  | noCase {s} : Exec P M (.cases []) s [] s .normal
  | oneCase {c cs value body fall s evs s₁ evs' s' x} :
    P.statement c = .switchCase value body fall → Exec P M (.block body) s evs s₁ .normal →
    Exec P M (.cases cs) s₁ evs' s' x → Exec P M (.cases (c :: cs)) s (evs ++ evs') s' x
  | leaveCase {c cs value body fall s evs s' x} :
    P.statement c = .switchCase value body fall → Exec P M (.block body) s evs s' x →
    x ≠ .normal → Exec P M (.cases (c :: cs)) s evs s' x
  | within {b before body s evs s₁ evs' s' x} :
    (P.statement b).body? = some (before, body) → M.take? before s evs s₁ →
    Exec P M (.block body) s₁ evs' s' x → Exec P M (.block b) s (evs ++ evs') s' x
  | breakTo {b target labeled s} :
    P.statement b = .breakTo target labeled → Exec P M (.block b) s [] s (.broke target)
  | continueTo {b target labeled s} :
    P.statement b = .continueTo target labeled → Exec P M (.block b) s [] s (.continued target)

end Program

end Decompile
