import Decompile.Decimal.Layout
import Decompile.Rendering.Names
import Decompile.Text.Quoted

namespace Decompile

/-- Floating-point constants are written positionally from 0.0001 up to 10^16. -/
def Constant.layout : Decimal.Layout := ⟨-4, 15⟩

def Constant.text : Constant → String
  | null => "null"
  | bool value => toString value
  | int value => toString value
  | long value => toString value ++ "L"
  | float bits => Constant.layout.text .single bits.toNat ++ "f"
  | double bits => Constant.layout.text .double bits.toNat
  | string value => Text.quote value.chars
  | classRef value => value.dotted ++ ".class"

def Expression.isLoose : Expression → Bool
  | binary .. | compare .. | threeWay .. | logical .. | ternary .. | assign .. | instanceOf ..
  | checkCast .. | convert .. => true
  | _ => false

structure Rendering where
  analysis : Analysis
  names : Names

namespace Rendering

def name (r : Rendering) (x : LocalId) : String := r.names.text r.analysis.locals x

/-- The text of a node from those of its children, in plain and in operand position. -/
def node (r : Rendering) (plain operand : ExprId → String) : Expression → String
  | .free width => "FREE" ++ toString width
  | .var x => r.name x
  | .const value => value.text
  | .element array index => operand array ++ "[" ++ plain index ++ "]"
  | .length array => operand array ++ ".length"
  | .newArray element lengths =>
    "new " ++ element.dotted ++ String.join (lengths.map fun e ↦ "[" ++ plain e ++ "]")
  | .arrayLiteral element _ values =>
    "new " ++ element.dotted ++ "[] \x7b" ++
      (if values.isEmpty then "" else " " ++ ", ".intercalate (values.map plain)) ++ " \x7d"
  | .newObject type => "new " ++ type.dotted
  | .construct type _ arguments =>
    "new " ++ type.dotted ++ "(" ++ ", ".intercalate (arguments.map plain) ++ ")"
  | .field object ref => object.elim ref.owner.dotted operand ++ "." ++ ref.name.text
  | .call kind ref object arguments =>
    (if ref.name.isConstructor then "super"
      else
        let receiver := if kind = .static then none else object
        receiver.elim ref.owner.dotted operand ++ "." ++ ref.name.text) ++
      "(" ++ ", ".intercalate (arguments.map plain) ++ ")"
  | .instanceOf object type => operand object ++ " instanceof " ++ type.dotted
  | .checkCast object type => "(" ++ type.dotted ++ ") " ++ operand object
  | .convert value _ target => "(" ++ target.text ++ ") " ++ operand value
  | .binary op lhs rhs => operand lhs ++ " " ++ op.symbol ++ " " ++ operand rhs
  | .negate value => "-" ++ operand value
  | .not value => "!" ++ operand value
  | .compare op lhs rhs => operand lhs ++ " " ++ op.symbol ++ " " ++ operand rhs
  | .threeWay lhs rhs nanGreater =>
    (if nanGreater then "cmpg" else "cmpl") ++ "(" ++ plain lhs ++ ", " ++ plain rhs ++ ")"
  | .logical op lhs rhs => operand lhs ++ " " ++ op.symbol ++ " " ++ operand rhs
  | .ternary condition ifTrue ifFalse =>
    operand condition ++ " ? " ++ operand ifTrue ++ " : " ++ operand ifFalse
  | .assign target op value =>
    plain target ++ " " ++ (op.map (·.symbol)).getD "" ++ "= " ++ plain value
  | .step target op before =>
    if before then op.symbol ++ plain target else plain target ++ op.symbol
  | .monitorEnter object => "monitorenter(" ++ plain object ++ ")"
  | .monitorExit object => "monitorexit(" ++ plain object ++ ")"

def exprWithin (r : Rendering) : Nat → ExprId → String
  | 0, _ => ""
  | n + 1, e =>
    let plain := r.exprWithin n
    r.node plain (fun e ↦
      if (r.analysis.expr e).isLoose then "(" ++ plain e ++ ")" else plain e) (r.analysis.expr e)

def expr (r : Rendering) (e : ExprId) : String := r.exprWithin r.analysis.exprs.size e

/-- An expression for its effect only, where `x += 1` reads `x++`. -/
def effect (r : Rendering) (e : ExprId) : String :=
  let step : Option (ExprId × StepOp) :=
    match r.analysis.expr e with
    | .assign target (some op) value =>
      match op, r.analysis.expr value with
      | .add, .const (.int 1) | .sub, .const (.int (-1)) => some (target, .increment)
      | .add, .const (.int (-1)) | .sub, .const (.int 1) => some (target, .decrement)
      | _, _ => none
    | _ => none
  match step with
  | some (target, op) => r.expr target ++ op.symbol
  | none => r.expr e

end Rendering

end Decompile
