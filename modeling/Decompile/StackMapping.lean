import Decompile.Analysis.Basic
import Decompile.OperandStack

namespace Decompile

/-- The state while the operand stack is threaded through a tree: the stacks seen at the breaks out
of a block and on entry to a loop. -/
structure Mapping where
  analysis : Analysis
  breaks : List (BlockId × OperandStack) := []
  entries : List (BlockId × OperandStack) := []

namespace Mapping

abbrev Outgoing := Option OperandStack

def fill (a : Analysis) : List ExprId → List LocalId → Analysis
  | e :: es, x :: xs => fill (a.setExpr e (.var x)) es xs
  | _, _ => a

/-- Pops the free operands of an expression and lets each read its local. -/
def consume (m : Mapping) (e : ExprId) (s : OperandStack) :
    Except StackError (Mapping × OperandStack) := do
  let free := m.analysis.exprs.freeOperands e
  let (rest, popped) ← s.pop (free.map m.analysis.exprs.freeWidth)
  return ({ m with analysis := fill m.analysis free popped }, rest)

def consume? (m : Mapping) (e : Option ExprId) (s : OperandStack) :
    Except StackError (Mapping × OperandStack) :=
  e.elim (.ok (m, s)) (m.consume · s)

def meet (m : Mapping) (s t : OperandStack) : Except StackError (Mapping × OperandStack) :=
  match s.merge t m.analysis.locals with
  | (_, some e) => .error e
  | (locals, none) => .ok ({ m with analysis := { m.analysis with locals } }, s)

def join (m : Mapping) : Outgoing → Outgoing → Except StackError (Mapping × Outgoing)
  | some s, some t => do
    let (m, s) ← m.meet s t
    return (m, some s)
  | some s, none | none, some s => .ok (m, some s)
  | none, none => .ok (m, none)

def joinBreaks (m : Mapping) (b : BlockId) (out : Outgoing) :
    Except StackError (Mapping × Outgoing) :=
  { m with breaks := m.breaks.filter (·.1 ≠ b) }.join out (m.breaks.lookup b)

def store (m : Mapping) (b : BlockId) (e : ExprId) (width : Nat) (s : OperandStack) :
    Mapping × OperandStack :=
  let (a, x) := m.analysis.addLocal .stack none
  let (a, target) := a.allocExpr (.var x)
  let (a, assign) := a.allocExpr (.assign target none e)
  ({ m with analysis := a.setStatement b (.evaluate assign 0) }, s.push x width)

/-- Maps the body of every case. Control enters it from the selector or from the case before. -/
def mapCases (map : BlockId → OperandStack → Mapping → Except StackError (Mapping × Outgoing))
    (rest : OperandStack) :
    List BlockId → Outgoing → Bool → Mapping → Except StackError (Mapping × Outgoing × Bool)
  | [], previous, hasDefault, m => .ok (m, previous, hasDefault)
  | b :: cases, previous, hasDefault, m =>
    match m.analysis.statement b with
    | .switchCase value body _ => do
      let (m, entry) ← m.join (some rest) previous
      let (m, out) ← map body (entry.getD rest) m
      mapCases map rest cases out (hasDefault || value == .default) m
    | _ => mapCases map rest cases previous hasDefault m

def mapHandlers (map : BlockId → OperandStack → Mapping → Except StackError (Mapping × Outgoing)) :
    List BlockId → Outgoing → Mapping → Except StackError (Mapping × Outgoing)
  | [], out, m => .ok (m, out)
  | b :: handlers, out, m => do
    let (m, handled) ← map b {} m
    let (m, out) ← m.join out handled
    mapHandlers map handlers out m

def mapWithin : Nat → BlockId → OperandStack → Mapping → Except StackError (Mapping × Outgoing)
  | 0, _, s, m => .ok (m, some s)
  | n + 1, b, s, m =>
    match m.analysis.statement b with
    | .empty | .description _ | .jsr _ => .ok (m, some s)
    | .evaluate e push => do
      let (m, rest) ← m.consume e s
      if push = 0 then return (m, some rest)
      let (m, s) := m.store b e push rest
      return (m, some s)
    | .returns value => do return ((← m.consume? value s).1, none)
    | .throws exception => do return ((← m.consume exception s).1, none)
    | .shuffle op => do
      let out ← s.shuffle op
      return ({ m with analysis := m.analysis.setStatement b .empty }, some out)
    | .ret _ => .ok (m, none)
    | .sequence first second => do
      let (m, between) ← mapWithin n first s m
      let (m, out) ← mapWithin n second (between.getD {}) m
      return (m, if between.isSome then out else none)
    | .conditional cond taken => do
      let (m, rest) ← m.consume cond s
      let (m, out) ← mapWithin n taken rest m
      m.join (some rest) out
    | .ifElse cond onTrue onFalse => do
      let (m, rest) ← m.consume cond s
      let (m, yes) ← mapWithin n onTrue rest m
      let (m, no) ←
        match onFalse with
        | some onFalse => mapWithin n onFalse rest m
        | none => pure (m, some rest)
      m.join yes no
    | .loop kind cond init incr body _ => do
      let (m, entry) ← m.consume? init s
      let (m, entry) ← m.consume cond entry
      let m := { m with entries := (b, entry) :: m.entries.filter (·.1 ≠ b) }
      let (m, out) ← mapWithin n body entry m
      let m ←
        match out with
        | some out => do pure (← m.meet out entry).1
        | none => pure m
      let m ←
        match incr with
        | some incr => do pure (← mapWithin n incr entry m).1
        | none => pure m
      let exits :=
        if m.analysis.expr cond = .const (.bool true) then none
        else if kind = .doWhile then out
        else some entry
      m.joinBreaks b exits
    | .switch selector cases _ => do
      let (m, rest) ← m.consume selector s
      let (m, previous, hasDefault) ← mapCases (mapWithin n) rest cases none false m
      let (m, out) ← m.join previous (if hasDefault then none else some rest)
      m.joinBreaks b out
    | .switchCase _ body _ | .catchClause _ _ body | .finallyClause body => mapWithin n body s m
    | .synchronized _ object body => do
      let (m, rest) ← m.consume? object s
      mapWithin n body rest m
    | .tryCatch body handlers => do
      let (m, out) ← mapWithin n body s m
      mapHandlers (mapWithin n) handlers out m
    | .breakTo target _ =>
      match m.breaks.lookup target with
      | some seen => do return ((← m.meet seen s).1, none)
      | none => .ok ({ m with breaks := (target, s) :: m.breaks }, none)
    | .continueTo target _ =>
      match m.entries.lookup target with
      | some entry => do return ((← m.meet entry s).1, none)
      | none => .ok (m, none)

end Mapping

/-- Keeps every value that is still passed on the operand stack in a local. -/
def Analysis.mapStack (a : Analysis) : Except StackError Analysis := do
  let (m, _) ← Mapping.mapWithin a.blocks.size (a.root a.entry) {} ⟨a, [], []⟩
  return m.analysis

end Decompile
