import Decompile.Rule.Program

namespace Decompile

inductive Rule
  | createExpression | constructor | arrayLiteral | dupStore | pop | swap | compound
  | compoundThroughDup | postIncrement | postIncrementThroughDup | preIncrement | ternary
  | combineConditions | forInitializer | synchronizedObject | removeEmpty | dup
  deriving DecidableEq, Inhabited

namespace Rule

/-- The rule at work on a statement. It yields the statement that now stands in the place of those
folded. -/
def program (b : BlockId) : Rule → Rewrite BlockId
  | createExpression => Rewrite.createExpression b
  | constructor => Rewrite.foldConstructor b
  | arrayLiteral => Rewrite.foldArrayLiteral b
  | dupStore => Rewrite.foldDupStore b
  | pop => Rewrite.removePop b
  | swap => Rewrite.removeSwap b
  | compound => Rewrite.foldCompound b
  | compoundThroughDup => Rewrite.foldCompoundThroughDup b
  | postIncrement => Rewrite.foldPostIncrement b
  | postIncrementThroughDup => Rewrite.foldPostIncrementThroughDup b
  | preIncrement => Rewrite.foldPreIncrement b
  | ternary => Rewrite.foldTernary b
  | combineConditions => Rewrite.combineConditions b
  | forInitializer => Rewrite.foldForInitializer b
  | synchronizedObject => Rewrite.completeSynchronized b
  | removeEmpty => Rewrite.removeEmpty b
  | dup => Rewrite.removeDup b

/-- What a rule makes of a state, as a function: nothing if it declines. -/
def apply (a : Analysis) (b : BlockId) : Rule → Option (Analysis × BlockId)
  | createExpression => a.createExpression b
  | constructor => a.foldConstructor b
  | arrayLiteral => a.foldArrayLiteral b
  | dupStore => a.foldDupStore b
  | pop => a.removePop b
  | swap => a.removeSwap b
  | compound => a.foldCompound b
  | compoundThroughDup => a.foldCompoundThroughDup b
  | postIncrement => a.foldPostIncrement b
  | postIncrementThroughDup => a.foldPostIncrementThroughDup b
  | preIncrement => a.foldPreIncrement b
  | ternary => a.foldTernary b
  | combineConditions => a.combineConditions b
  | forInitializer => a.foldForInitializer b
  | synchronizedObject => a.completeSynchronized b
  | removeEmpty => a.removeEmpty b
  | dup => a.removeDup b

/-- Rules that may run while the tree still grows, in the order in which they are tried. -/
def early : List Rule :=
  [createExpression, constructor, arrayLiteral, dupStore, pop, swap, compound, compoundThroughDup,
    postIncrement, postIncrementThroughDup, preIncrement, ternary, combineConditions,
    forInitializer, synchronizedObject, removeEmpty]

/-- A duplication is only dissolved once its whole chain is known. -/
def all : List Rule := early ++ [dup]

end Rule

namespace Analysis

/-- Tries the rules in turn until one matches, each on the state that those before it have left. -/
def applyRules (a : Analysis) (rules : List Rule) (b : BlockId) : Option BlockId × Analysis :=
  Rewrite.exec (do
    let new ← rules.firstM (·.program b)
    Rewrite.edit fun a ↦ { a with applied := a.applied + 1 }
    return new) a

def applyFirst (a : Analysis) (rules : List Rule) (b : BlockId) : Option (Analysis × BlockId) :=
  (rules.findSome? (Rule.apply a b)).map fun (a, new) ↦ ({ a with applied := a.applied + 1 }, new)

def foldWithin : Nat → BlockId → Analysis → Analysis
  | 0, _, a => a
  | n + 1, b, a =>
    match a.tick with
    | none => a
    | some a =>
      match a.applyRules Rule.early b with
      | (some new, a) => foldWithin n new a
      | (none, a) =>
        match a.blocks.nextStatement b <|> a.blocks.enclosingStatement b with
        | some next => foldWithin n next a
        | none => a

/-- Applies rules from `start` to the end of its chain, then on every statement around it up to the
root of `f`. Every step takes one from the budget. -/
def foldFrom (a : Analysis) (f : FlowId) (start : BlockId) : Analysis :=
  let root := a.root f
  foldWithin (a.fuel + 1) (if a.blocks.isWithin start root then start else root) a

/-- One pass over the given blocks of `f`. Returns whether any rule matched, or nothing if the
budget ran out. -/
def foldPass (f : FlowId) : List BlockId → Bool → Analysis → Analysis × Option Bool
  | [], changed, a => (a, some changed)
  | b :: rest, changed, a =>
    if a.blocks.isWithin b (a.root f) then
      match a.tick with
      | none => (a, none)
      | some a =>
        match a.applyRules Rule.all b with
        | (some _, a) => foldPass f rest true a
        | (none, a) => foldPass f rest changed a
    else foldPass f rest changed a

def fixpointWithin (f : FlowId) : Nat → Analysis → Analysis
  | 0, a => a
  | n + 1, a =>
    match foldPass f (a.blocks.subtree (a.root f)) false a with
    | (a, some true) => fixpointWithin f n a
    | (a, _) => a

/-- Applies rules to every block of `f` until none matches or the budget runs out. -/
def fixpoint (a : Analysis) (f : FlowId) : Analysis := fixpointWithin f (a.fuel + 1) a

end Analysis

end Decompile
