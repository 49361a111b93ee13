import Decompile.Analysis.Edit

namespace Decompile.Analysis

def pushed? (a : Analysis) (b : BlockId) : Option (ExprId × Nat) :=
  match a.statement b with
  | .evaluate expr push => if 0 < push ∧ (a.jumpOf b).isNone then some (expr, push) else none
  | _ => none

def statementExpr? (a : Analysis) (b : BlockId) : Option ExprId :=
  match a.statement b with
  | .evaluate expr 0 => some expr
  | _ => none

def shuffle? (a : Analysis) (b : BlockId) : Option StackOp :=
  match a.statement b with
  | .shuffle op => some op
  | _ => none

def dupShape? (a : Analysis) (b : BlockId) : Option (Nat × Nat) := (a.shuffle? b).bind (·.dupShape)

def removeStatements (a : Analysis) (bs : List BlockId) : Analysis := bs.foldl removeStatement a

/-- Drops a run of statements and puts a new one in the place of the one after them. -/
def replaceRun (a : Analysis) (run : List BlockId) (last : BlockId) (s : Statement) :
    Analysis × BlockId :=
  let (a, new) := a.alloc s
  ((a.removeStatements run).replaceStatement last new, new)

end Decompile.Analysis
