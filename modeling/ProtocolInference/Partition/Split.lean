import ProtocolInference.ChaCha
import ProtocolInference.Partition.Graph

/-!
Splitting partitions.

A split replaces a partition by two new ones whose members are given. The
two sides have to divide the members of the old partition exactly. Where
the sides are given only in part, a policy says where the remaining
members go.
-/

namespace ProtocolInference

/-- Where the members go that are on neither side of a split. -/
inductive RemainderPolicy
  | left
  | right
  /-- Each member by a toss of its own, reproducible from the seed. -/
  | seeded (seed : Nat)
  deriving DecidableEq, Inhabited

/-- Whether the remaining member at the given position goes to the left,
in a split of the given partition. -/
def RemainderPolicy.goesLeft (policy : RemainderPolicy) (partition : PartitionId)
    (position : Nat) : Bool :=
  match policy with
  | left => true
  | right => false
  | seeded seed => ChaCha.coin (seed + partition) position

namespace PartitionGraph

/-- Whether the two sides divide the members of a partition. -/
def checkSplit (g : PartitionGraph) (id : PartitionId) (left right : OrderedSet ObservationId) :
    Except GraphError Partition := do
  let p ← g.require id
  if left.isEmpty || right.isEmpty then .error (.emptySide id)
  if let some s := left.toList.find? (· ∈ right) then .error (.overlappingSides id s)
  if let some s := (left.toList ++ right.toList).find? (· ∉ p.members) then
    .error (.foreignMember id s)
  if let some s := p.members.toList.find? fun s => s ∉ left ∧ s ∉ right then
    .error (.uncoveredMember id s)
  return p

/-- Replace a partition by two new ones with the given members. Returns
the numbers of the left and the right one. -/
def split (g : PartitionGraph) (id : PartitionId) (left right : OrderedSet ObservationId) :
    Except GraphError (PartitionGraph × PartitionId × PartitionId) := do
  let p ← g.checkSplit id left right
  let l := g.nextId
  let r := g.nextId + 1
  let moved := g.reassign (left.toList.map (fun s => (s, l)) ++ right.toList.map fun s => (s, r))
  let halves : List Partition := [⟨l, p.pid, left⟩, ⟨r, p.pid, right⟩]
  let partitions := (g.partitions ++ halves).filter (·.id ≠ id)
  return ({ moved with partitions, nextId := g.nextId + 2 }, l, r)

/-- The members of a partition that are on neither side. -/
def remainder (p : Partition) (left right : OrderedSet ObservationId) : List ObservationId :=
  p.members.toList.filter fun s => s ∉ left ∧ s ∉ right

/-- Split a partition after the policy has placed the members that are on
neither side. -/
def splitWithRemainder (g : PartitionGraph) (id : PartitionId)
    (left right : OrderedSet ObservationId) (policy : RemainderPolicy) :
    Except GraphError (PartitionGraph × PartitionId × PartitionId) := do
  let p ← g.require id
  let rest := (remainder p left right).zipIdx.partition fun (_, i) => policy.goesLeft id i
  g.split id (left.insertAll (rest.1.map Prod.fst)) (right.insertAll (rest.2.map Prod.fst))

end PartitionGraph

end ProtocolInference
