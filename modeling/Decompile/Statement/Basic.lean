import Decompile.Instruction
import Decompile.Variable.Sets

namespace Decompile

inductive LoopKind
  | whileLoop | doWhile | forLoop
  /-- A while loop that has its increment apart and may still become a for loop. -/
  | possibleFor
  deriving DecidableEq, Inhabited

def LoopKind.text : LoopKind → String
  | whileLoop => "while"
  | doWhile => "do-while"
  | forLoop => "for"
  | possibleFor => "possible for"

inductive CaseValue
  | value (n : Int)
  | default
  deriving DecidableEq, Inhabited

inductive Statement
  | empty
  /-- Evaluates an expression and leaves `push` slots on the stack, none for a plain statement. -/
  | evaluate (expr : ExprId) (push : Nat)
  | returns (value : Option ExprId)
  | throws (exception : ExprId)
  /-- Sequences lean to the right: the first block is no sequence and holds no jump. -/
  | sequence (first second : BlockId)
  /-- The block taken on a true condition starts out empty but for its jump. -/
  | conditional (cond : ExprId) (taken : BlockId)
  | ifElse (cond : ExprId) (onTrue : BlockId) (onFalse : Option BlockId)
  | loop (kind : LoopKind) (cond : ExprId) (init : Option ExprId) (incr : Option BlockId)
      (body : BlockId) (labeled : Bool)
  | switch (selector : ExprId) (cases : List BlockId) (labeled : Bool)
  /-- Control may fall into the case from the one before it. -/
  | switchCase (value : CaseValue) (body : BlockId) (fallthrough : Bool)
  | tryCatch (body : BlockId) (handlers : List BlockId)
  | catchClause (type : Option Name) (binding : Option LocalId) (body : BlockId)
  | finallyClause (body : BlockId)
  /-- The object is known once the matching monitor entry has been folded in. -/
  | synchronized (monitor : LocalId) (object : Option ExprId) (body : BlockId)
  | breakTo (target : BlockId) (labeled : Bool)
  | continueTo (target : BlockId) (labeled : Bool)
  | shuffle (op : StackOp)
  /-- A subroutine call, through an empty block that jumps to the subroutine. -/
  | jsr (call : BlockId)
  | ret (address : LocalId)
  | description (text : String)
  deriving DecidableEq

namespace Statement

instance : Inhabited Statement := ⟨.empty⟩

/-- Direct subblocks in the order of their execution. -/
def children : Statement → List BlockId
  | sequence first second => [first, second]
  | conditional _ taken => [taken]
  | ifElse _ onTrue onFalse => onTrue :: onFalse.toList
  | loop _ _ _ incr body _ => body :: incr.toList
  | switch _ cases _ => cases
  | tryCatch body handlers => body :: handlers
  | switchCase _ body _ | catchClause _ _ body | finallyClause body | synchronized _ _ body =>
    [body]
  | jsr call => [call]
  | empty | evaluate .. | returns _ | throws _ | breakTo .. | continueTo .. | shuffle _ | ret _
  | description _ => []

def mapChildren (f : BlockId → BlockId) : Statement → Statement
  | sequence first second => sequence (f first) (f second)
  | conditional cond taken => conditional cond (f taken)
  | ifElse cond onTrue onFalse => ifElse cond (f onTrue) (onFalse.map f)
  | loop kind cond init incr body labeled => loop kind cond init (incr.map f) (f body) labeled
  | switch selector cases labeled => switch selector (cases.map f) labeled
  | switchCase value body fallthrough => switchCase value (f body) fallthrough
  | tryCatch body handlers => tryCatch (f body) (handlers.map f)
  | catchClause type binding body => catchClause type binding (f body)
  | finallyClause body => finallyClause (f body)
  | synchronized monitor object body => synchronized monitor object (f body)
  | jsr call => jsr (f call)
  | s => s

theorem children_mapChildren (f : BlockId → BlockId) (s : Statement) :
    (s.mapChildren f).children = s.children.map f := by
  cases s with
  | ifElse _ _ onFalse => cases onFalse <;> rfl
  | loop _ _ _ incr => cases incr <;> rfl
  | _ => simp [mapChildren, children]

def exprs : Statement → List ExprId
  | evaluate expr _ => [expr]
  | returns value => value.toList
  | throws exception => [exception]
  | conditional cond _ | ifElse cond _ _ => [cond]
  | loop _ cond init _ _ _ => init.toList ++ [cond]
  | switch selector _ _ => [selector]
  | synchronized _ object _ => object.toList
  | _ => []

/-- The expression that takes its free operands from the pushes before the statement. -/
def operandExpr : Statement → Option ExprId
  | evaluate expr _ => some expr
  | returns value => value
  | throws exception => some exception
  | conditional cond _ | ifElse cond _ _ => some cond
  | switch selector _ _ => some selector
  | _ => none

def isBreakable : Statement → Bool
  | loop .. | switch .. => true
  | _ => false

def isLoop : Statement → Bool
  | loop .. => true
  | _ => false

def isSwitch : Statement → Bool
  | switch .. => true
  | _ => false

def isSequence : Statement → Bool
  | sequence .. => true
  | _ => false

def isReturn : Statement → Bool
  | returns _ => true
  | _ => false

def isOneArmed : Statement → Bool
  | ifElse _ _ none => true
  | _ => false

def isSubroutine : Statement → Bool
  | jsr _ | ret _ => true
  | _ => false

def pushWidth : Statement → Nat
  | evaluate _ push => push
  | _ => 0

def setLabeled : Statement → Statement
  | loop kind cond init incr body _ => loop kind cond init incr body true
  | switch selector cases _ => switch selector cases true
  | s => s

def setCondition (cond : ExprId) : Statement → Statement
  | conditional _ taken => conditional cond taken
  | ifElse _ onTrue onFalse => ifElse cond onTrue onFalse
  | loop kind _ init incr body labeled => loop kind cond init incr body labeled
  | s => s

def setFallthrough : Statement → Statement
  | switchCase value body _ => switchCase value body true
  | s => s

def setIncrement (incr : BlockId) : Statement → Statement
  | loop _ cond init _ body labeled => loop .possibleFor cond init (some incr) body labeled
  | s => s

def dropIncrement : Statement → Statement
  | loop _ cond init _ body labeled => loop .whileLoop cond init none body labeled
  | s => s

def setElse (onFalse : BlockId) : Statement → Statement
  | ifElse cond onTrue _ => ifElse cond onTrue (some onFalse)
  | s => s

/-- Whether the child's normal end is the end of the whole statement. A loop body starts over, and
a subroutine returns to its caller. -/
def endsWith (s : Statement) (child : BlockId) : Bool :=
  match s with
  | sequence _ second => second == child
  | switch _ cases _ => cases.getLast? == some child
  | ifElse .. | conditional .. | switchCase .. | tryCatch .. | catchClause .. | finallyClause ..
  | synchronized .. => true
  | _ => false

end Statement

/-- A statement with its place in a tree. -/
structure Block where
  statement : Statement := .empty
  outer : Option BlockId := none
  /-- An edge taken when the block completes. -/
  jump : Option JumpId := none
  declares : VariableSet := {}
  deriving DecidableEq, Inhabited

structure Blocks where
  table : Table Block := {}
  deriving Inhabited

namespace Blocks

def size (t : Blocks) : Nat := t.table.size

def get (t : Blocks) (b : BlockId) : Block := t.table.get b.index

def modify (t : Blocks) (b : BlockId) (f : Block → Block) : Blocks := ⟨t.table.modify b.index f⟩

def statement (t : Blocks) (b : BlockId) : Statement := (t.get b).statement

def outer (t : Blocks) (b : BlockId) : Option BlockId := (t.get b).outer

def jump (t : Blocks) (b : BlockId) : Option JumpId := (t.get b).jump

def setStatement (t : Blocks) (b : BlockId) (s : Statement) : Blocks :=
  t.modify b ({ · with statement := s })

def setOuter (t : Blocks) (b : BlockId) (outer : Option BlockId) : Blocks :=
  t.modify b ({ · with outer := outer })

def setJump (t : Blocks) (b : BlockId) (jump : Option JumpId) : Blocks :=
  t.modify b ({ · with jump := jump })

def setDeclares (t : Blocks) (b : BlockId) (declares : VariableSet) : Blocks :=
  t.modify b ({ · with declares := declares })

/-- A new block outside every tree, which becomes the parent of its children. -/
def alloc (t : Blocks) (s : Statement) : Blocks × BlockId :=
  let id : BlockId := ⟨t.size⟩
  let t := s.children.foldl (fun t child ↦ t.setOuter child (some id)) t
  (⟨t.table.push { statement := s }⟩, id)

def replaceChild (t : Blocks) (parent old new : BlockId) : Blocks :=
  let t := t.setStatement parent
    ((t.statement parent).mapChildren fun b ↦ if b = old then new else b)
  let t := if t.outer old = some parent then t.setOuter old none else t
  t.setOuter new (some parent)

end Blocks

end Decompile
