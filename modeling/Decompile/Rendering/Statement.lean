import Decompile.Rendering.Expression

namespace Decompile

namespace Rendering

def line (depth : Nat) (text : String) : String :=
  String.ofList (List.replicate (4 * depth) ' ') ++ text

def label (b : BlockId) : String := "label_" ++ toString b.index

/-- The label in front of a loop or switch that is the target of a labeled exit. -/
def labelOf (b : BlockId) (labeled : Bool) : String := if labeled then label b ++ ": " else ""

def exit (keyword : String) (target : BlockId) (labeled : Bool) : String :=
  keyword ++ (if labeled then " " ++ label target else "") ++ ";"

def increment? (r : Rendering) (incr : Option BlockId) : Option ExprId :=
  incr.bind fun b ↦
    match r.analysis.statement b with
    | .evaluate expr 0 => some expr
    | _ => none

def clause (r : Rendering) (b : BlockId) : String × BlockId :=
  match r.analysis.statement b with
  | .catchClause type binding body =>
    ("\x7d catch (" ++ (type.map (·.dotted)).getD "any" ++ " " ++
      (binding.map r.name).getD "_" ++ ") \x7b", body)
  | .finallyClause body => ("\x7d finally \x7b", body)
  | _ => ("\x7d catch \x7b", b)

def statement (r : Rendering) (inside : Nat → BlockId → List String) (depth : Nat) (b : BlockId) :
    List String :=
  let line := line depth
  let inner := inside (depth + 1)
  match r.analysis.statement b with
  | .empty => []
  | .evaluate e push => [line (if push = 0 then r.effect e ++ ";" else "PUSH " ++ r.expr e ++ ";")]
  | .returns none => [line "return;"]
  | .returns (some value) => [line ("return " ++ r.expr value ++ ";")]
  | .throws exception => [line ("throw " ++ r.expr exception ++ ";")]
  | .sequence first second => inside depth first ++ inside depth second
  | .conditional cond taken =>
    line ("if (" ++ r.expr cond ++ ") \x7b") :: inner taken ++ [line "\x7d"]
  | .ifElse cond onTrue onFalse =>
    line ("if (" ++ r.expr cond ++ ") \x7b") :: inner onTrue ++
      (onFalse.map fun b ↦ line "\x7d else \x7b" :: inner b).getD [] ++ [line "\x7d"]
  | .loop .doWhile cond _ _ body labeled =>
    line (labelOf b labeled ++ "do \x7b") :: inner body ++
      [line ("\x7d while (" ++ r.expr cond ++ ");")]
  | .loop .whileLoop cond _ _ body labeled =>
    line (labelOf b labeled ++ "while (" ++ r.expr cond ++ ") \x7b") :: inner body ++ [line "\x7d"]
  | .loop _ cond init incr body labeled =>
    let step := r.increment? incr
    line (labelOf b labeled ++ "for (" ++ (init.map r.expr).getD "" ++ "; " ++ r.expr cond ++
        "; " ++ (step.map r.effect).getD "" ++ ") \x7b") ::
      inner body ++ (if step.isNone then (incr.map inner).getD [] else []) ++ [line "\x7d"]
  | .switch selector cases labeled =>
    line (labelOf b labeled ++ "switch (" ++ r.expr selector ++ ") \x7b") ::
      cases.flatMap inner ++ [line "\x7d"]
  | .switchCase (.value n) body _ => line ("case " ++ toString n ++ ":") :: inner body
  | .switchCase .default body _ => line "default:" :: inner body
  | .tryCatch body handlers =>
    line "try \x7b" :: inner body ++
      handlers.flatMap (fun h ↦ line (r.clause h).1 :: inner (r.clause h).2) ++ [line "\x7d"]
  | .catchClause _ _ body | .finallyClause body => inside depth body
  | .synchronized monitor object body =>
    line ("synchronized (" ++ object.elim (r.name monitor) r.expr ++ ") \x7b") :: inner body ++
      [line "\x7d"]
  | .breakTo target labeled => [line (exit "break" target labeled)]
  | .continueTo target labeled => [line (exit "continue" target labeled)]
  | .shuffle op => [line ("/* " ++ op.text ++ " */")]
  | .jsr call => line "jsr \x7b" :: inner call ++ [line "\x7d"]
  | .ret address => [line ("ret " ++ r.name address ++ ";")]
  | .description text => [line ("/* " ++ text ++ " */")]

def goto? (r : Rendering) (b : BlockId) : Option String :=
  (r.analysis.jumpOf b).map fun j ↦
    let target := r.analysis.flow (r.analysis.jump j).destination
    "goto 0x" ++ String.ofList (Nat.toDigits 16 target.addr) ++ ";"

def linesWithin (r : Rendering) : Nat → Nat → BlockId → List String
  | 0, _, _ => []
  | n + 1, depth, b =>
    let declared := (r.analysis.blocks.get b).declares.members
    declared.map (fun x ↦ line depth ("var " ++ r.name x ++ ";")) ++
      r.statement (r.linesWithin n) depth b ++ (r.goto? b).toList.map (line depth)

end Rendering

namespace Analysis

def renderLines (a : Analysis) (root : BlockId) : List String :=
  Rendering.linesWithin ⟨a, a.names root⟩ a.blocks.size 0 root

def render (a : Analysis) (root : BlockId) : String :=
  String.join ((a.renderLines root).map (· ++ "\n"))

end Analysis

end Decompile
