import Decompile.Ids
import Decompile.Instruction
import Decompile.Table

namespace Decompile

inductive Expression
  /-- A value still on the operand stack, to be filled in by the push that made it. -/
  | free (width : Nat)
  | var (x : LocalId)
  | const (value : Constant)
  | element (array index : ExprId)
  | length (array : ExprId)
  | newArray (element : Name) (lengths : List ExprId)
  /-- An array of the given length whose first values are listed. -/
  | arrayLiteral (element : Name) (length : Int) (values : List ExprId)
  | newObject (type : Name)
  | construct (type descriptor : Name) (arguments : List ExprId)
  /-- A static field has no object. -/
  | field (object : Option ExprId) (ref : MemberRef)
  | call (kind : InvokeKind) (ref : MemberRef) (object : Option ExprId) (arguments : List ExprId)
  | instanceOf (object : ExprId) (type : Name)
  | checkCast (object : ExprId) (type : Name)
  | convert (value : ExprId) (source target : ValueKind)
  | binary (op : BinaryOp) (lhs rhs : ExprId)
  | negate (value : ExprId)
  | not (value : ExprId)
  | compare (op : CompareOp) (lhs rhs : ExprId)
  /-- Minus one, zero or one. -/
  | threeWay (lhs rhs : ExprId) (nanGreater : Bool)
  | logical (op : LogicalOp) (lhs rhs : ExprId)
  | ternary (condition ifTrue ifFalse : ExprId)
  /-- `target = value`, or `target op= value`. -/
  | assign (target : ExprId) (op : Option BinaryOp) (value : ExprId)
  /-- `target++` and the like, with the operator in front if `before` holds. -/
  | step (target : ExprId) (op : StepOp) (before : Bool)
  | monitorEnter (object : ExprId)
  | monitorExit (object : ExprId)
  deriving DecidableEq

namespace Expression

instance : Inhabited Expression := ⟨.free 0⟩

/-- Direct subexpressions in the order of their evaluation, in which free operands also take their
values from the stack. -/
def children : Expression → List ExprId
  | free _ | var _ | const _ | newObject _ => []
  | length e | instanceOf e _ | checkCast e _ | convert e _ _ | negate e | not e | step e _ _
  | monitorEnter e | monitorExit e => [e]
  | element a b | binary _ a b | compare _ a b | threeWay a b _ | logical _ a b | assign a _ b =>
    [a, b]
  | ternary c a b => [c, a, b]
  | newArray _ es | arrayLiteral _ _ es | construct _ _ es => es
  | field object _ => object.toList
  | call _ _ object arguments => object.toList ++ arguments

def mapChildren (f : ExprId → ExprId) : Expression → Expression
  | element a i => element (f a) (f i)
  | length a => length (f a)
  | newArray n ls => newArray n (ls.map f)
  | arrayLiteral n len vs => arrayLiteral n len (vs.map f)
  | construct t d as => construct t d (as.map f)
  | field o r => field (o.map f) r
  | call k r o as => call k r (o.map f) (as.map f)
  | instanceOf o t => instanceOf (f o) t
  | checkCast o t => checkCast (f o) t
  | convert v s t => convert (f v) s t
  | binary op a b => binary op (f a) (f b)
  | negate v => negate (f v)
  | not v => not (f v)
  | compare op a b => compare op (f a) (f b)
  | threeWay a b g => threeWay (f a) (f b) g
  | logical op a b => logical op (f a) (f b)
  | ternary c a b => ternary (f c) (f a) (f b)
  | assign t op v => assign (f t) op (f v)
  | step t op p => step (f t) op p
  | monitorEnter o => monitorEnter (f o)
  | monitorExit o => monitorExit (f o)
  | e => e

theorem children_mapChildren (f : ExprId → ExprId) (e : Expression) :
    (e.mapChildren f).children = e.children.map f := by
  cases e with
  | field object => cases object <;> rfl
  | call _ _ object => cases object <;> simp [mapChildren, children]
  | _ => simp [mapChildren, children]

/-- Yields a boolean when it is used as a condition. -/
def isBoolean : Expression → Bool
  | compare .. | logical .. | not _ | instanceOf .. | const (.bool _) => true
  | _ => false

def local? : Expression → Option LocalId
  | var x => some x
  | _ => none

def isConstant : Expression → Bool
  | const _ => true
  | _ => false

def isFree : Expression → Bool
  | free _ => true
  | _ => false

def freeWidth : Expression → Nat
  | free width => width
  | _ => 0

/-- A local or a constant, which may be repeated or moved at will. -/
def isSimple : Expression → Bool
  | var _ | const _ => true
  | _ => false

/-- The node itself does nothing but compute: it has no effect and cannot throw. -/
def computesOnly : Expression → Bool
  | free _ | var _ | const _ | convert .. | negate _ | not _ | compare .. | threeWay .. | logical ..
  | ternary .. => true
  | binary op _ _ => !op.canThrow
  | _ => false

def writes : Expression → Bool
  | assign .. | step .. => true
  | _ => false

end Expression

structure Expressions where
  nodes : Table Expression := {}
  deriving Inhabited

namespace Expressions

def size (t : Expressions) : Nat := t.nodes.size

def get (t : Expressions) (e : ExprId) : Expression := t.nodes.get e.index

def set (t : Expressions) (e : ExprId) (x : Expression) : Expressions := ⟨t.nodes.set e.index x⟩

def alloc (t : Expressions) (x : Expression) : Expressions × ExprId := (⟨t.nodes.push x⟩, ⟨t.size⟩)

end Expressions

end Decompile
