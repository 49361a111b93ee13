import Decompile.Expression.Operands

namespace Decompile.Expressions

def samePlaceWithin (t : Expressions) (locals : Locals) (freeEqual : Bool) :
    Nat → ExprId → ExprId → Bool
  | 0, _, _ => false
  | n + 1, a, b =>
    let same := t.samePlaceWithin locals freeEqual n
    match t.get a, t.get b with
    | .var x, .var y => locals.sameSlot x y
    | .const x, .const y => x.sameValue y
    | .free x, .free y => freeEqual && x == y
    | .field o r, .field o' r' =>
      r.owner == r'.owner && r.name == r'.name &&
        match o, o' with
        | none, none => true
        | some o, some o' => same o o'
        | _, _ => false
    | .element a i, .element a' i' => same a a' && same i i'
    | _, _ => false

/-- The expressions name the same storage location. If `freeEqual` holds, two free operands count
as copies of one value. -/
def samePlace (t : Expressions) (locals : Locals) (a b : ExprId) (freeEqual : Bool) : Bool :=
  t.samePlaceWithin locals freeEqual t.size a b

/-- Naming the location twice comes to the same as naming it once: a local, a static field, a field
of a local, or anything pure. -/
def evaluatedOnce (t : Expressions) (place : ExprId) : Bool :=
  match t.get place with
  | .field none _ => true
  | .field (some object) _ => (t.get object).local?.isSome
  | _ => t.isPure place

/-- The step that `target op= value` takes, if it is by one. -/
def stepOf? (t : Expressions) (op : Option BinaryOp) (value : ExprId) : Option StepOp :=
  match op, t.get value with
  | some .add, .const c =>
    if c.isOne then some .increment else if c = .int (-1) then some .decrement else none
  | some .sub, .const c => if c.isOne then some .decrement else none
  | _, _ => none

end Decompile.Expressions
