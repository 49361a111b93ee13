import Decompile.Statement.Basic

namespace Decompile

/-- An edge from a block to a flow block. The jumps of one flow block to another form a chain. -/
structure Jump where
  destination : FlowId
  source : BlockId
  next : Option JumpId := none
  deriving DecidableEq, Inhabited

/-- What is known of the paths from one flow block to another. -/
structure Edge where
  /-- Slots written on every path. -/
  kill : SlotSet := {}
  /-- Locals written on some path and not overwritten later on it. -/
  gen : VariableSet := {}
  jumps : Option JumpId := none
  deriving DecidableEq, Inhabited

structure Window where
  start : Nat
  stop : Nat
  deriving DecidableEq, Inhabited

/-- A range of code whose structure is one tree of blocks. -/
structure Flow where
  addr : Nat
  length : Nat
  root : BlockId
  /-- The block appended last, where the tree grows. -/
  growth : BlockId
  successors : List (FlowId × Edge) := []
  predecessors : List FlowId := []
  /-- Locals that are read before they are written. -/
  reads : VariableSet := {}
  writes : VariableSet := {}
  alive : Bool := true
  deriving DecidableEq, Inhabited

namespace Flow

def stop (f : Flow) : Nat := f.addr + f.length

def inWindow (f : Flow) (w : Window) : Bool := f.alive && w.start ≤ f.addr && f.addr < w.stop

def edge? (f : Flow) (dest : FlowId) : Option Edge := f.successors.lookup dest

def eraseEdge (f : Flow) (dest : FlowId) : Flow :=
  { f with successors := f.successors.filter (·.1 ≠ dest) }

def setEdge (f : Flow) (dest : FlowId) (edge : Edge) : Flow :=
  { f with successors := f.successors.filter (·.1 ≠ dest) ++ [(dest, edge)] }

end Flow

structure FlowGraph where
  flows : Table Flow := {}
  jumps : Table Jump := {}
  deriving Inhabited

namespace FlowGraph

def flow (g : FlowGraph) (f : FlowId) : Flow := g.flows.get f.index

def jump (g : FlowGraph) (j : JumpId) : Jump := g.jumps.get j.index

def modifyFlow (g : FlowGraph) (f : FlowId) (k : Flow → Flow) : FlowGraph :=
  { g with flows := g.flows.modify f.index k }

def modifyJump (g : FlowGraph) (j : JumpId) (k : Jump → Jump) : FlowGraph :=
  { g with jumps := g.jumps.modify j.index k }

def addFlow (g : FlowGraph) (addr length : Nat) (root : BlockId) : FlowGraph × FlowId :=
  ({ g with flows := g.flows.push { addr, length, root, growth := root } }, ⟨g.flows.size⟩)

def allocJump (g : FlowGraph) (destination : FlowId) (source : BlockId) : FlowGraph × JumpId :=
  ({ g with jumps := g.jumps.push { destination, source } }, ⟨g.jumps.size⟩)

def ids (g : FlowGraph) : List FlowId := (List.range g.flows.size).map FlowId.mk

/-- Live flow blocks by address, those of one address in the order of their creation. -/
def live (g : FlowGraph) : List FlowId :=
  (g.ids.filter fun f ↦ (g.flow f).alive).mergeSort fun a b ↦ (g.flow a).addr ≤ (g.flow b).addr

def flowAt (g : FlowGraph) (addr : Nat) : Option FlowId :=
  g.live.find? fun f ↦ (g.flow f).addr ≤ addr && addr < (g.flow f).stop

def flowStartingAt (g : FlowGraph) (addr : Nat) : Option FlowId :=
  (g.flowAt addr).filter fun f ↦ (g.flow f).addr = addr

/-- Successors by address, then by number. -/
def successorsOf (g : FlowGraph) (f : FlowId) : List FlowId :=
  ((g.flow f).successors.map (·.1)).mergeSort fun a b ↦
    (g.flow a).addr < (g.flow b).addr ||
      (g.flow a).addr == (g.flow b).addr && a.index ≤ b.index

def ownerOfRoot (g : FlowGraph) (root : BlockId) : Option FlowId :=
  g.ids.find? fun f ↦ (g.flow f).alive && (g.flow f).root = root

end FlowGraph

end Decompile
