import ProtocolInference.Partition.Path

/-!
The words of a partition graph.

There are two levels. On the lower one the traces themselves are the
words: an observation *leads* along the events of its trace to a later
one. On the upper one the partitions are states and the edges
transitions, and a *walk* goes from partition to partition.

A process admits a word if a walk spells it that begins in a partition in
which some trace begins, and ends in a partition in which some trace
ends. Whatever was observed is admitted; what is admitted without having
been observed is what the abstraction has added, and what refinement is
there to take away.
-/

namespace ProtocolInference

namespace PartitionGraph

/-! ### Traces -/

/-- The trace of the observation `s` goes on with the events, and arrives
at the observation `t`. -/
inductive Leads (g : PartitionGraph) : ObservationId → List Event → ObservationId → Prop
  | stay (s : ObservationId) : Leads g s [] s
  | step {s t u : ObservationId} {e : Event} {es : List Event} :
      g.next? s = some (e, t) → Leads g t es u → Leads g s (e :: es) u

/-- Some whole trace of the process consists of the events. -/
def Observed (g : PartitionGraph) (pid : ProcessId) (es : List Event) : Prop :=
  ∃ s t, g.startsTrace s ∧ g.Leads s es t ∧ g.endsTraceOf pid t

/-! ### Walks -/

/-- The edges of the graph lead from one partition to another along the
events. -/
inductive Walk (g : PartitionGraph) : PartitionId → List Event → PartitionId → Prop
  | stay (p : PartitionId) : Walk g p [] p
  | step {p q r : PartitionId} {e : Event} {es : List Event} :
      g.hasEdge p e q → Walk g q es r → Walk g p (e :: es) r

/-- Whether there is a partition with the given number, and it belongs to
the process. -/
def isPartitionOf (g : PartitionGraph) (pid : ProcessId) (p : PartitionId) : Bool :=
  (g.partition? p).any (·.pid = pid)

/-- A walk of the process spells the events, from a partition in which a
trace begins to one in which a trace ends. -/
def Admits (g : PartitionGraph) (pid : ProcessId) (es : List Event) : Prop :=
  ∃ p q, g.isPartitionOf pid p ∧ g.isInitial p ∧ g.Walk p es q ∧ g.isTerminal q

end PartitionGraph

/-! ### Paths -/

/-- Whether each of the steps, the first one from partition `p`, is along
an edge. -/
def stepsAlongEdges (g : PartitionGraph) (p : PartitionId) : List (Event × PartitionId) → Bool
  | [] => true
  | (e, q) :: rest => g.hasEdge p e q && stepsAlongEdges g q rest

/-- Whether the path is one of the graph: it begins at a partition of its
process, and every step is along an edge. -/
def PartitionPath.isIn (path : PartitionPath) (g : PartitionGraph) : Bool :=
  g.isPartitionOf path.pid path.start && stepsAlongEdges g path.start path.steps

end ProtocolInference
