import Decompile.Analysis.Basic

namespace Decompile

structure VariableName where
  base : String
  number : Nat
  deriving DecidableEq, Inhabited

def VariableName.text (n : VariableName) : String :=
  if n.number = 0 then n.base else n.base ++ "_" ++ toString n.number

structure Names where
  entries : List (LocalId × VariableName) := []
  deriving Inhabited

namespace Names

def base (locals : Locals) (x : LocalId) : String :=
  match locals.kind x with
  | .this => "this"
  | .parameter | .slot =>
    match locals.slot (locals.classOf x) <|> locals.slot x with
    | some slot => "slot" ++ toString slot
    | none => "var"
  | .stack => "stack"
  | .exception => "exc"
  | .returnAddress => "retaddr"
  | .selector => "selector"

def add (locals : Locals) (names : Names) (x : LocalId) : Names :=
  let leader := locals.classOf x
  if names.entries.any (·.1 = leader) then names
  else
    let base := base locals x
    let number := names.entries.countP (·.2.base = base)
    ⟨names.entries ++ [(leader, ⟨base, number⟩)]⟩

def text (names : Names) (locals : Locals) (x : LocalId) : String :=
  ((names.entries.lookup (locals.classOf x)).map (·.text)).getD "?"

end Names

namespace Analysis

def headerLocal? (a : Analysis) (b : BlockId) : Option LocalId :=
  match a.statement b with
  | .catchClause _ binding _ => binding
  | .synchronized monitor _ _ => some monitor
  | .ret address => some address
  | _ => none

def shownLocals (a : Analysis) (b : BlockId) : List LocalId :=
  (a.blocks.get b).declares.members ++ (a.headerLocal? b).toList ++
    (a.statement b).exprs.flatMap a.exprs.localsIn

/-- Names for the parameters and everything below `root`, by first appearance. -/
def names (a : Analysis) (root : BlockId) : Names :=
  (a.parameters ++ (a.blocks.subtree root).flatMap a.shownLocals).foldl (Names.add a.locals) {}

end Analysis

end Decompile
