import Decompile.Rule.Basic

namespace Decompile.Analysis

/-- `push new T; dup; T.<init>(FREE, args)` becomes `push new T(args)`. Without the duplication the
new object is not used, and `new T(args)` stands as a statement. -/
def foldConstructor (a : Analysis) (b : BlockId) : Option (Analysis × BlockId) := do
  let expr ← a.statementExpr? b
  let .call .special ref (some object) arguments := a.expr expr | none
  guard ref.name.isConstructor
  let constructs (a : Analysis) : Analysis × ExprId :=
    a.allocExpr (.construct ref.owner ref.descriptor arguments)
  if let .newObject created := a.expr object then
    guard (created = ref.owner ∧ a.exprs.freeCount expr = 0)
    let (a, constructed) := constructs a
    return a.replaceRun [] b (.evaluate constructed 0)
  else
    guard (a.exprs.freeOperands expr = [object])
    let [new, dup] ← a.blocks.preceding b 2 | none
    guard (a.shuffle? dup = some .dup)
    let (created, _) ← a.pushed? new
    guard (a.expr created = .newObject ref.owner ∧ a.removable [new, dup])
    let (a, constructed) := constructs a
    return a.replaceRun [new, dup] b (.evaluate constructed 1)

/-- The element type, length and values so far of an array under construction. -/
def arrayUnderway? (a : Analysis) (e : ExprId) : Option (Name × Int × List ExprId) :=
  match a.expr e with
  | .newArray element [length] =>
    match a.expr length with
    | .const (.int n) => some (element, n, [])
    | _ => none
  | .arrayLiteral element length values => some (element, length, values)
  | _ => none

/-- `push new T[n]; dup; FREE[i] = v` becomes `push new T[] { …, v }`, as long as the stores fill
the array in the order of its indices. -/
def foldArrayLiteral (a : Analysis) (b : BlockId) : Option (Analysis × BlockId) := do
  let expr ← a.statementExpr? b
  let .assign target none value := a.expr expr | none
  let .element array index := a.expr target | none
  let .const (.int index) := a.expr index | none
  guard (a.exprs.freeOperands expr = [array])
  let [new, dup] ← a.blocks.preceding b 2 | none
  guard (a.shuffle? dup = some .dup)
  let (created, _) ← a.pushed? new
  let (element, length, values) ← a.arrayUnderway? created
  guard (index = values.length ∧ index < length ∧ a.removable [new, dup])
  let (a, literal) := a.allocExpr (.arrayLiteral element length (values ++ [value]))
  return a.replaceRun [new, dup] b (.evaluate literal 1)

end Decompile.Analysis
