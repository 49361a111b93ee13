import Decompile.Analysis.Basic

namespace Decompile.Analysis

def namedLocal? (a : Analysis) (b : BlockId) : Option LocalId :=
  match a.statement b with
  | .synchronized monitor none _ => some monitor
  | .ret address => some address
  | _ => none

def occurring (a : Analysis) (b : BlockId) : List LocalId :=
  (a.namedLocal? b).toList ++ (a.statement b).exprs.flatMap a.exprs.localsIn

def caught? (a : Analysis) (b : BlockId) : Option LocalId :=
  match a.statement b with
  | .catchClause _ (some x) _ => some (a.locals.classOf x)
  | _ => none

def occurrences (a : Analysis) (blocks : List BlockId) : List (LocalId × BlockId) :=
  blocks.flatMap fun b ↦ (a.occurring b).map fun x ↦ (a.locals.classOf x, b)

/-- The lowest block around all blocks where the class occurs. -/
def scopeOf? (a : Analysis) (occurrences : List (LocalId × BlockId)) (x : LocalId) :
    Option BlockId :=
  match occurrences.filter (·.1 = x) with
  | [] => none
  | (_, b) :: rest => some (rest.foldl (fun scope (_, b) ↦ a.blocks.commonAncestor scope b) b)

/-- A class that the header of the method or of a catch clause binds needs no declaration. -/
def needsDeclaration (a : Analysis) (caught : List LocalId) (x : LocalId) : Bool :=
  !caught.contains x && a.locals.kind x != .parameter && a.locals.kind x != .this

def declareAt (a : Analysis) (b : BlockId) (x : LocalId) : Analysis :=
  { a with blocks := a.blocks.setDeclares b ((a.blocks.get b).declares.add x) }

/-- Declares every variable at the lowest block around its uses. -/
def placeDeclarations (a : Analysis) : Analysis :=
  let blocks := a.blocks.subtree (a.root a.entry)
  let a := { a with blocks := blocks.foldl (·.setDeclares · {}) a.blocks }
  let occurrences := a.occurrences blocks
  let classes := (VariableSet.ofList (occurrences.map (·.1))).members.mergeSort
    fun x y ↦ x.index ≤ y.index
  (classes.filter (a.needsDeclaration (blocks.filterMap a.caught?))).foldl (fun a x ↦
    (a.scopeOf? occurrences x).elim a (a.declareAt · x)) a

end Decompile.Analysis
