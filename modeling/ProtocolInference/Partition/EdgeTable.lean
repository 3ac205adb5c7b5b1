import ProtocolInference.Event
import ProtocolInference.Ordered.Map

/-!
Counted edges between partitions.

An abstract edge stands for the concrete transitions between the members
of two partitions. The table counts them: an edge is there as long as its
count is positive. Edges with one source and one event share a row, and
both the rows and the targets within a row keep the order in which they
came; what loses its last transition is taken out and comes back at the
end.
-/

namespace ProtocolInference

/-- The number of a partition. Numbers are never used again. -/
abbrev PartitionId := Nat

structure Edge where
  source : PartitionId
  event : Event
  target : PartitionId
  deriving DecidableEq, Inhabited

/-- How many transitions stand behind each edge. -/
structure EdgeTable where
  rows : OrderedMap (PartitionId × Event) (OrderedMap PartitionId Nat)
  deriving DecidableEq, Inhabited

namespace EdgeTable

instance : EmptyCollection EdgeTable := ⟨⟨∅⟩⟩

def count (table : EdgeTable) (e : Edge) : Nat :=
  ((table.rows.get? (e.source, e.event)).bind (·.get? e.target)).getD 0

def contains (table : EdgeTable) (e : Edge) : Bool :=
  (table.rows.get? (e.source, e.event)).any (·.contains e.target)

/-- One transition more behind an edge. -/
def increment (table : EdgeTable) (e : Edge) : EdgeTable :=
  ⟨table.rows.alter (e.source, e.event) fun row =>
    some ((row.getD ∅).alter e.target fun count => some (count.getD 0 + 1))⟩

/-- One transition less behind an edge. -/
def decrement (table : EdgeTable) (e : Edge) : EdgeTable :=
  ⟨table.rows.alter (e.source, e.event) fun row =>
    (row.map (·.alter e.target fun count =>
      (count.map (· - 1)).filter (0 < ·))).filter (!·.isEmpty)⟩

def edges (table : EdgeTable) : List Edge :=
  table.rows.entries.flatMap fun ((source, event), row) =>
    row.keys.map fun target => ⟨source, event, target⟩

def size (table : EdgeTable) : Nat := table.edges.length

end EdgeTable

end ProtocolInference
