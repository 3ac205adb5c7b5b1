import ProtocolInference.Partition.Build
import ProtocolInference.Partition.Merge
import ProtocolInference.Partition.Refine

/-!
How a partition graph comes about.

A graph is built from executions and then changed, by merges and splits
of one kind or another. `Arises` says that a graph can come about in this
way. An operation that fails leaves the graph as it was, but for the
merges that a coarsening has made before; those are changes in their own
right, so only operations that succeed are counted as changes.
-/

namespace ProtocolInference.PartitionGraph

/-- One operation leads from one graph to another. -/
inductive Changes : PartitionGraph → PartitionGraph → Prop
  | merge {g g' : PartitionGraph} {retain remove : PartitionId} :
      g.merge retain remove = .ok g' → Changes g g'
  | split {g g' : PartitionGraph} {id l r : PartitionId} {left right : OrderedSet ObservationId} :
      g.split id left right = .ok (g', l, r) → Changes g g'
  | splitWithRemainder {g g' : PartitionGraph} {id l r : PartitionId}
      {left right : OrderedSet ObservationId} {policy : RemainderPolicy} :
      g.splitWithRemainder id left right policy = .ok (g', l, r) → Changes g g'
  | coarsen {g g' : PartitionGraph} {merges : Nat} :
      g.coarsenByName = .ok (g', merges) → Changes g g'
  | refine {g g' : PartitionGraph} {path : PartitionPath} {opts : RefineOptions}
      {outcome : RefineOutcome} :
      path.refine g opts = .ok (g', outcome) → Changes g g'

/-- The second graph comes from the first by any number of splits, of
whatever kind. -/
inductive Splits : PartitionGraph → PartitionGraph → Prop
  | none (g : PartitionGraph) : Splits g g
  | split {g g' g'' : PartitionGraph} {id l r : PartitionId}
      {left right : OrderedSet ObservationId} :
      g.split id left right = .ok (g', l, r) → Splits g' g'' → Splits g g''
  | splitWithRemainder {g g' g'' : PartitionGraph} {id l r : PartitionId}
      {left right : OrderedSet ObservationId} {policy : RemainderPolicy} :
      g.splitWithRemainder id left right policy = .ok (g', l, r) → Splits g' g'' → Splits g g''

/-- The graph comes from the executions of a system, built either way and
changed by any operations. -/
inductive Arises (executions : List Execution) (processes : Nat) (channels : List Channel) :
    PartitionGraph → Prop
  | built {how : InitialPartitioning} {names names' : StateNames} {g : PartitionGraph} :
      ofExecutions executions processes channels how names = .ok (g, names') →
      Arises executions processes channels g
  | changed {g g' : PartitionGraph} :
      Arises executions processes channels g → g.Changes g' →
      Arises executions processes channels g'

end ProtocolInference.PartitionGraph
