import Decompile.Expression.Operands

namespace Decompile.Expressions

/-- Folds a comparison with zero whose left side is a three-way comparison or a boolean already. -/
def foldZeroTest (t : Expressions) (e : ExprId) : Expressions :=
  match t.get e with
  | .compare op lhs rhs =>
    if t.get rhs = .const (.int 0) then
      match t.get lhs with
      | .threeWay a b _ => t.set e (.compare op a b)
      | x =>
        if x.isBoolean && op == .ne then t.set e x
        else if x.isBoolean && op == .eq then t.set e (.not lhs)
        else t
    else t
  | _ => t

def simplifyWithin : Nat → ExprId → Expressions → Expressions
  | 0, _, t => t
  | n + 1, root, t =>
    ((t.get root).children.foldl (fun t e ↦ simplifyWithin n e t) t).foldZeroTest root

/-- Folds comparisons with zero everywhere below `root`, innermost first. -/
def simplify (t : Expressions) (root : ExprId) : Expressions := simplifyWithin t.size root t

/-- Puts a value of the given width into the last free operand of `root`, if that one is as
wide. -/
def fillLastFree? (t : Expressions) (root value : ExprId) (width : Nat) : Option Expressions :=
  match (t.freeOperands root).getLast? with
  | some leaf =>
    if t.freeWidth leaf = width then some ((t.set leaf (t.get value)).simplify root) else none
  | none => none

def negateWithin : Nat → ExprId → Expressions → Expressions × ExprId
  | 0, e, t => t.alloc (.not e)
  | n + 1, e, t =>
    match t.get e with
    | .compare op lhs rhs => t.alloc (.compare op.negate lhs rhs)
    | .not value => (t, value)
    | .logical op lhs rhs =>
      let (t, lhs) := negateWithin n lhs t
      let (t, rhs) := negateWithin n rhs t
      t.alloc (.logical op.dual lhs rhs)
    | .const (.bool value) => t.alloc (.const (.bool !value))
    | _ => t.alloc (.not e)

def negate (t : Expressions) (e : ExprId) : Expressions × ExprId := negateWithin t.size e t

end Decompile.Expressions
