import Decompile.Analysis.Basic

namespace Decompile

def Statement.outline : Statement → String
  | empty => "empty"
  | evaluate _ push => if push = 0 then "stmt" else "push" ++ toString push
  | returns value => if value.isSome then "return-value" else "return"
  | throws _ => "throw"
  | sequence .. => "seq"
  | conditional .. => "cond"
  | ifElse .. => "if"
  | loop kind _ init incr _ labeled =>
    let keyword :=
      match kind with
      | .whileLoop => "while"
      | .doWhile => "do"
      | .forLoop => "for"
      | .possibleFor => "possfor"
    keyword ++ (if init.isSome then "+init" else "") ++ (if incr.isSome then "+incr" else "") ++
      (if labeled then "+label" else "")
  | switch _ _ labeled => if labeled then "switch+label" else "switch"
  | switchCase value _ fallthrough =>
    "case:" ++
      (match value with
        | .value n => toString n
        | .default => "default") ++
      (if fallthrough then "+fall" else "")
  | tryCatch .. => "try"
  | catchClause type binding _ =>
    "catch" ++ (if type.isSome then "+class" else "") ++ (if binding.isSome then "+local" else "")
  | finallyClause _ => "finally"
  | synchronized _ object _ => if object.isSome then "sync+object" else "sync"
  | breakTo _ labeled => if labeled then "break+label" else "break"
  | continueTo _ labeled => if labeled then "continue+label" else "continue"
  | shuffle op => "special:" ++ op.text
  | jsr _ => "jsr"
  | ret _ => "ret"
  | description _ => "description"

namespace Analysis

def outlineWithin (a : Analysis) : Nat → BlockId → String
  | 0, _ => ""
  | n + 1, b =>
    let declared := (a.blocks.get b).declares.size
    let children := (a.statement b).children
    (a.statement b).outline ++ (if declared = 0 then "" else "!" ++ toString declared) ++
      (if (a.jumpOf b).isSome then "^" else "") ++
      (if children.isEmpty then ""
        else "(" ++ " ".intercalate (children.map (a.outlineWithin n)) ++ ")")

/-- The tree below `root` without its expressions, with the number of locals that each block
declares and a mark on each that holds a jump. -/
def outline (a : Analysis) (root : BlockId) : String := a.outlineWithin a.blocks.size root

end Analysis

end Decompile
