namespace Decompile

structure LocalId where
  index : Nat
  deriving DecidableEq, Inhabited

structure ExprId where
  index : Nat
  deriving DecidableEq, Inhabited

structure BlockId where
  index : Nat
  deriving DecidableEq, Inhabited

structure FlowId where
  index : Nat
  deriving DecidableEq, Inhabited

structure JumpId where
  index : Nat
  deriving DecidableEq, Inhabited

namespace FlowId

/-- Where every `return` goes. -/
def endOfMethod : FlowId := ⟨0⟩

/-- Stands for "the next address" until every flow block exists. -/
def nextByAddress : FlowId := ⟨1⟩

/-- Predecessor of the first flow block. -/
def methodEntry : FlowId := ⟨2⟩

def isSentinel (f : FlowId) : Bool := f.index ≤ methodEntry.index

end FlowId

end Decompile
