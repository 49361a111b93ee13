import Decompile.Analysis.Edit
import Decompile.Descriptor

namespace Decompile

inductive BuildError
  | invalidDescriptor
  | noCode
  | invalidTarget (address : Nat)
  | slotOutOfRange (address slot maxLocals : Nat)
  | fallsOffEnd
  deriving DecidableEq, Inhabited

def BuildError.message : BuildError → String
  | invalidDescriptor => "Failed to parse descriptor: invalid descriptor"
  | noCode => "Method has no code"
  | invalidTarget address => s!"Jump to {address}, which is not the start of an instruction"
  | slotOutOfRange address slot maxLocals =>
    s!"Instruction at {address} accesses local slot {slot}, but only {maxLocals} exist"
  | fallsOffEnd => "Execution reaches the end of bytecode"

inductive Continuation
  | address (target : Nat)
  | next
  | methodEnd
  deriving DecidableEq, Inhabited

/-- An instruction as a statement, with the edges still to be made and the locals it accesses. -/
structure Lowered where
  statement : Statement := .empty
  continuation : Option Continuation
  /-- Inner blocks that jump, and where. -/
  branches : List (BlockId × Nat) := []
  reads : Option LocalId := none
  writes : Option LocalId := none

namespace Analysis

def allocFree (a : Analysis) (width : Nat) : Analysis × ExprId := a.allocExpr (.free width)

def allocFrees (a : Analysis) : List Nat → Analysis × List ExprId
  | [] => (a, [])
  | width :: widths =>
    let (a, e) := a.allocFree width
    let (a, es) := a.allocFrees widths
    (a, e :: es)

def allocObject (a : Analysis) (isStatic : Bool) : Analysis × Option ExprId :=
  if isStatic then (a, none)
  else
    let (a, e) := a.allocFree 1
    (a, some e)

def allocElement (a : Analysis) : Analysis × ExprId :=
  let (a, array) := a.allocFree 1
  let (a, index) := a.allocFree 1
  a.allocExpr (.element array index)

/-- Lowers the cases of a switch, in the order of their targets. Of cases that share a target the
last one jumps, and the others fall into the one after them. -/
def lowerCases (previous : Option Nat) :
    List (CaseValue × Nat) → Analysis → Analysis × List BlockId × List (BlockId × Nat)
  | [], a => (a, [], [])
  | (value, target) :: rest, a =>
    let (a, body) := a.alloc .empty
    let (a, block) := a.alloc (.switchCase value body (previous == some target))
    let (a, blocks, branches) := lowerCases (some target) rest a
    let sharesNext := (rest.head?.map (·.2)) == some target
    (a, block :: blocks, if sharesNext then branches else (body, target) :: branches)

/-- Cases go by target, the default after the others of its target. -/
def caseLe (x y : CaseValue × Nat) : Bool :=
  x.2 < y.2 || x.2 == y.2 && (x.1 != .default || y.1 == .default)

def orderedCases (cases : List (Int × Nat)) (fallback : Nat) : List (CaseValue × Nat) :=
  let valued := cases.map fun (value, target) ↦ (CaseValue.value value, target)
  (valued ++ [(CaseValue.default, fallback)]).mergeSort caseLe

/-- Lowers one instruction. Operands are allocated in the order of their evaluation, then the node
that takes them. -/
def lower (a : Analysis) (opcode : Opcode) : Except BuildError (Analysis × Lowered) :=
  let continuation := if opcode.controlFlow.fallsThrough then some .next else none
  let evaluates (a : Analysis) (x : Expression) (push : Nat) : Analysis × Lowered :=
    let (a, e) := a.allocExpr x
    (a, { statement := .evaluate e push, continuation })
  match opcode with
  | .nop => .ok (a, { continuation })
  | .const value => .ok (evaluates a (.const value) value.width)
  | .load kind slot =>
    let (a, x) := a.addLocal .slot slot
    let (a, lowered) := evaluates a (.var x) kind.width
    .ok (a, { lowered with reads := x })
  | .store kind slot =>
    let (a, x) := a.addLocal .slot slot
    let (a, target) := a.allocExpr (.var x)
    let (a, value) := a.allocFree kind.width
    let (a, lowered) := evaluates a (.assign target none value) 0
    .ok (a, { lowered with writes := x })
  | .iinc slot delta =>
    let (a, x) := a.addLocal .slot slot
    let (a, target) := a.allocExpr (.var x)
    let (a, value) := a.allocExpr (.const (.int delta))
    let (a, lowered) := evaluates a (.assign target (some .add) value) 0
    .ok (a, { lowered with reads := x, writes := x })
  | .arrayLoad kind =>
    let (a, array) := a.allocFree 1
    let (a, index) := a.allocFree 1
    .ok (evaluates a (.element array index) kind.width)
  | .arrayStore kind =>
    let (a, target) := a.allocElement
    let (a, value) := a.allocFree kind.width
    .ok (evaluates a (.assign target none value) 0)
  | .stack op => .ok (a, { statement := .shuffle op, continuation })
  | .binary op kind =>
    let (a, lhs) := a.allocFree kind.width
    let (a, rhs) := a.allocFree (if op.isShift then 1 else kind.width)
    .ok (evaluates a (.binary op lhs rhs) kind.width)
  | .negate kind =>
    let (a, value) := a.allocFree kind.width
    .ok (evaluates a (.negate value) kind.width)
  | .convert source target =>
    let (a, value) := a.allocFree source.width
    .ok (evaluates a (.convert value source target) target.width)
  | .compare kind nanGreater =>
    let (a, lhs) := a.allocFree kind.width
    let (a, rhs) := a.allocFree kind.width
    .ok (evaluates a (.threeWay lhs rhs nanGreater) 1)
  | .branch op operand target =>
    let (width, other) : Nat × Expression :=
      match operand with
      | .zero => (1, .const (.int 0))
      | .null => (1, .const .null)
      | .value kind => (kind.width, .free kind.width)
    let (a, lhs) := a.allocFree width
    let (a, rhs) := a.allocExpr other
    let (a, cond) := a.allocExpr (.compare op lhs rhs)
    let (a, taken) := a.alloc .empty
    .ok (a, { statement := .conditional cond taken, continuation, branches := [(taken, target)] })
  | .goto target => .ok (a, { continuation := some (.address target) })
  | .jsr target =>
    let (a, call) := a.alloc .empty
    .ok (a, { statement := .jsr call, continuation, branches := [(call, target)] })
  | .ret slot =>
    let (a, x) := a.addLocal .slot slot
    .ok (a, { statement := .ret x, continuation, reads := x })
  | .switch cases fallback =>
    let (a, blocks, branches) := lowerCases none (orderedCases cases fallback) a
    let (a, selector) := a.allocFree 1
    .ok (a, { statement := .switch selector blocks false, continuation, branches })
  | .returns kind =>
    let (a, value) :=
      match kind with
      | some kind =>
        let (a, e) := a.allocFree kind.width
        (a, some e)
      | none => (a, none)
    .ok (a, { statement := .returns value, continuation := some .methodEnd })
  | .throws =>
    let (a, exception) := a.allocFree 1
    .ok (a, { statement := .throws exception, continuation })
  | .getField isStatic ref =>
    let (a, object) := a.allocObject isStatic
    .ok (evaluates a (.field object ref) ref.descriptor.fieldWidth)
  | .putField isStatic ref =>
    let (a, object) := a.allocObject isStatic
    let (a, target) := a.allocExpr (.field object ref)
    let (a, value) := a.allocFree ref.descriptor.fieldWidth
    .ok (evaluates a (.assign target none value) 0)
  | .invoke kind ref =>
    match ref.descriptor.callShape? with
    | none => .error .invalidDescriptor
    | some shape =>
      let (a, object) := a.allocObject (kind == .static)
      let (a, arguments) := a.allocFrees shape.arguments
      .ok (evaluates a (.call kind ref object arguments) shape.result)
  | .new type => .ok (evaluates a (.newObject type) 1)
  | .newArray element dimensions =>
    let (a, lengths) := a.allocFrees (List.replicate (max dimensions 1) 1)
    .ok (evaluates a (.newArray element lengths) 1)
  | .arrayLength =>
    let (a, array) := a.allocFree 1
    .ok (evaluates a (.length array) 1)
  | .checkCast type =>
    let (a, object) := a.allocFree 1
    .ok (evaluates a (.checkCast object type) 1)
  | .instanceOf type =>
    let (a, object) := a.allocFree 1
    .ok (evaluates a (.instanceOf object type) 1)
  | .monitorEnter =>
    let (a, object) := a.allocFree 1
    .ok (evaluates a (.monitorEnter object) 0)
  | .monitorExit =>
    let (a, object) := a.allocFree 1
    .ok (evaluates a (.monitorExit object) 0)

structure Pending where
  flow : FlowId
  source : BlockId
  continuation : Continuation

def addInstruction (a : Analysis) (i : Instruction) :
    Except BuildError (Analysis × FlowId × List Pending) := do
  let (a, lowered) ← a.lower i.opcode
  let (a, block) := a.alloc lowered.statement
  let (a, f) := a.addFlow i.address i.length block
  let a := a.modifyFlow f fun flow ↦
    { flow with reads := .ofList lowered.reads.toList, writes := .ofList lowered.writes.toList }
  let own := lowered.continuation.toList.map fun c ↦ ⟨f, block, c⟩
  let inner := lowered.branches.map fun (child, target) ↦ ⟨f, child, .address target⟩
  return (a, f, own ++ inner)

def addInstructions (maxLocals : Nat) :
    List Instruction → List (Nat × FlowId) → Analysis →
      Except BuildError (Analysis × List (Nat × FlowId) × List Pending)
  | [], flows, a => .ok (a, flows, [])
  | i :: rest, flows, a => do
    if let some slot := i.opcode.localSlot then
      if maxLocals ≤ slot then throw (.slotOutOfRange i.address slot maxLocals)
    let (a, f, pending) ← a.addInstruction i
    let (a, flows, later) ← addInstructions maxLocals rest ((i.address, f) :: flows) a
    return (a, flows, pending ++ later)

def Pending.destination (p : Pending) (flows : List (Nat × FlowId)) : Except BuildError FlowId :=
  match p.continuation with
  | .address target =>
    match flows.lookup target with
    | some f => .ok f
    | none => .error (.invalidTarget target)
  | .next => .ok .nextByAddress
  | .methodEnd => .ok .endOfMethod

def linkPending (flows : List (Nat × FlowId)) :
    List Pending → Analysis → Except BuildError Analysis
  | [], a => .ok a
  | p :: rest, a => do
    let destination ← p.destination flows
    linkPending flows rest (a.addJump p.flow p.source destination).1

/-- Points the jumps of `f` to the next address at the flow block there. -/
def resolveNext (a : Analysis) (f : FlowId) : Except BuildError Analysis :=
  match (a.flow f).edge? .nextByAddress with
  | none => .ok a
  | some edge =>
    let graph := a.graph.removeEdge f .nextByAddress
    match graph.flowAt (graph.flow f).stop with
    | none => .error .fallsOffEnd
    | some next =>
      let retarget (g : FlowGraph) (j : JumpId) : FlowGraph :=
        (g.modifyJump j ({ · with destination := next, next := none })).linkJump f j
      .ok { a with graph := (graph.chain edge.jumps).foldl retarget graph }

/-- The writes of a single instruction happen on every path out of it. -/
def setTransfer (a : Analysis) (f : FlowId) : Analysis :=
  let gen := (a.flow f).writes
  let kill := SlotSet.ofList (gen.members.filterMap a.locals.slot)
  a.modifyFlow f fun flow ↦
    { flow with successors := flow.successors.map fun (dest, edge) ↦
      (dest, { edge with kill, gen }) }

def bindParameter (isStatic : Bool) (a : Analysis) (p : Parameter) : Analysis :=
  let (a, x) := a.addLocal (if !isStatic && p.slot == 0 then .this else .parameter) p.slot
  { a with parameters := a.parameters ++ [x] }

/-- One flow block per instruction, linked by jumps. -/
def build (m : MethodInfo) (code : List Instruction) (o : Options) :
    Except BuildError Analysis := do
  let first :: _ := code | throw .noCode
  let a := Analysis.new o.checked (o.fuelFor code.length)
  let some returnsVoid := m.returnsVoid? | throw .invalidDescriptor
  let some parameters := m.parameters? | throw .invalidDescriptor
  let a := parameters.foldl (bindParameter m.isStatic) { a with returnsVoid }
  let (a, flows, pending) ← addInstructions m.maxLocals code [] a
  let a ← linkPending flows pending a
  let a ← a.graph.live.foldlM resolveNext a
  let a := a.graph.live.foldl setTransfer a
  let entry := (flows.lookup first.address).getD .methodEntry
  let a := a.modifyFlow entry fun f ↦ { f with predecessors := f.predecessors ++ [.methodEntry] }
  return { a with entry }

end Analysis

end Decompile
