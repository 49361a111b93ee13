import Decompile.Table

namespace Decompile

/-- A key either leads its class, at some rank, or points on towards the leader. -/
inductive PartitionNode
  | leader (rank : Nat)
  | member (parent : Nat)
  deriving DecidableEq

instance : Inhabited PartitionNode := ⟨.leader 1⟩

/-- Disjoint classes of keys, numbered densely and merged by rank. -/
structure Partition where
  nodes : Table PartitionNode := {}
  deriving Inhabited

namespace Partition

def size (p : Partition) : Nat := p.nodes.size

def add (p : Partition) : Partition × Nat := (⟨p.nodes.push (.leader 1)⟩, p.size)

def findWithin (p : Partition) : Nat → Nat → Nat
  | 0, key => key
  | n + 1, key =>
    match p.nodes.get key with
    | .leader _ => key
    | .member parent => p.findWithin n parent

/-- The leader of the key's class, at most as many steps away as there are keys. -/
def find (p : Partition) (key : Nat) : Nat := p.findWithin p.size key

def same (p : Partition) (a b : Nat) : Bool := p.find a == p.find b

def compressWithin (leader : Nat) : Nat → Nat → Partition → Partition
  | 0, _, p => p
  | n + 1, key, p =>
    if key = leader then p
    else
      match p.nodes.get key with
      | .leader _ => p
      | .member parent => compressWithin leader n parent ⟨p.nodes.set key (.member leader)⟩

/-- The leader of the key's class, with every key on the way now pointing straight at it. -/
def resolve (p : Partition) (key : Nat) : Partition × Nat :=
  let leader := p.find key
  (compressWithin leader p.size key p, leader)

def rank (p : Partition) (key : Nat) : Nat :=
  match p.nodes.get key with
  | .leader rank => rank
  | .member _ => 0

/-- Joins two classes and returns whether they were different. The leader of lower rank gives way;
between equal ranks the second does, and the first rises. -/
def merge (p : Partition) (a b : Nat) : Partition × Bool :=
  let (p, a) := p.resolve a
  let (p, b) := p.resolve b
  if a = b then (p, false)
  else if p.rank a < p.rank b then (⟨p.nodes.set a (.member b)⟩, true)
  else if p.rank a = p.rank b then
    (⟨(p.nodes.set a (.leader (p.rank a + 1))).set b (.member a)⟩, true)
  else (⟨p.nodes.set b (.member a)⟩, true)

end Partition

end Decompile
