import ProtocolInference.Ordered.Set
import ProtocolInference.Partition.EdgeTable
import ProtocolInference.Partition.Observation
import ProtocolInference.Tags

/-!
The partition graph, the abstract model from which automata are made.

The observations are divided into partitions, each of which holds
observations of one process. A partition stands for a state of the model:
what its members do, the model may do. The graph keeps three views of
that division in step, the members of each partition, the owner of each
observation, and the counted edges.

Partitions are listed in the order in which they were made, and their
numbers are never used again.
-/

namespace ProtocolInference

structure Partition where
  id : PartitionId
  pid : ProcessId
  members : OrderedSet ObservationId
  deriving DecidableEq, Inhabited

/-- Why a change of the graph, or a path in it, is refused. -/
inductive GraphError
  | unknownPartition (id : PartitionId)
  | emptyPartition (id : PartitionId)
  | selfMerge (id : PartitionId)
  | processMismatch (retain remove : PartitionId)
  | emptySide (partition : PartitionId)
  | overlappingSides (partition : PartitionId) (state : ObservationId)
  | uncoveredMember (partition : PartitionId) (state : ObservationId)
  | foreignMember (partition : PartitionId) (state : ObservationId)
  | lostStates (expected actual : Nat)
  | pathLength (states events : Nat)
  | processOutOfRange (pid : ProcessId) (processes : Nat)
  deriving DecidableEq

def GraphError.message : GraphError → String
  | unknownPartition id => s!"unknown partition {id}"
  | emptyPartition id => s!"partition {id} is empty"
  | selfMerge id => s!"cannot merge partition {id} into itself"
  | processMismatch retain remove =>
    s!"partitions {retain} and {remove} belong to different processes"
  | emptySide partition => s!"split of partition {partition} leaves a side empty"
  | overlappingSides partition state =>
    s!"split of partition {partition} puts state {state} on both sides"
  | uncoveredMember partition state =>
    s!"split of partition {partition} leaves state {state} unassigned"
  | foreignMember partition state => s!"state {state} is not a member of partition {partition}"
  | lostStates expected actual =>
    s!"merge lost states: expected {expected} members, found {actual}"
  | pathLength states events => s!"path has {states} states but {events} events"
  | processOutOfRange pid processes =>
    s!"trace of process {pid} is out of range for {processes} processes"

/-- A division of observations into partitions. -/
structure PartitionGraph where
  processes : Nat
  channels : List Channel
  observations : List Observation
  /-- The partition of each observation, by position. -/
  owners : List PartitionId
  partitions : List Partition
  edges : EdgeTable
  /-- The number of the next partition to be made. -/
  nextId : PartitionId
  deriving DecidableEq, Inhabited

structure Transition where
  source : ObservationId
  event : Event
  target : ObservationId
  deriving DecidableEq, Inhabited

namespace PartitionGraph

/-! ### Observations -/

def observation? (g : PartitionGraph) (s : ObservationId) : Option Observation :=
  g.observations[s]?

def owner? (g : PartitionGraph) (s : ObservationId) : Option PartitionId := g.owners[s]?

/-- The partition to which an observation of the graph belongs. -/
def owner (g : PartitionGraph) (s : ObservationId) : PartitionId := (g.owner? s).getD 0

/-- The event that leaves an observation in its trace, and where it
leads. -/
def next? (g : PartitionGraph) (s : ObservationId) : Option (Event × ObservationId) :=
  (g.observation? s).bind (·.next)

/-- The event that led to an observation, and where it came from. -/
def prev? (g : PartitionGraph) (s : ObservationId) : Option (Event × ObservationId) :=
  (g.observation? s).bind (·.prev)

def startsTrace (g : PartitionGraph) (s : ObservationId) : Bool :=
  (g.observation? s).any (·.initial)

def endsTrace (g : PartitionGraph) (s : ObservationId) : Bool :=
  (g.observation? s).any (·.terminal)

def endsTraceOf (g : PartitionGraph) (pid : ProcessId) (s : ObservationId) : Bool :=
  (g.observation? s).any fun o => o.terminal && o.pid = pid

/-! ### Partitions -/

def partition? (g : PartitionGraph) (id : PartitionId) : Option Partition :=
  g.partitions.find? (·.id = id)

/-- The partition with the given number, or the complaint that there is
none. -/
def require (g : PartitionGraph) (id : PartitionId) : Except GraphError Partition :=
  match g.partition? id with
  | some p => .ok p
  | none => .error (.unknownPartition id)

def partitionsOf (g : PartitionGraph) (pid : ProcessId) : List Partition :=
  g.partitions.filter (·.pid = pid)

/-- Whether the partition has a member at which a trace begins. -/
def isInitial (g : PartitionGraph) (id : PartitionId) : Bool :=
  (g.partition? id).any (·.members.toList.any g.startsTrace)

/-- Whether the partition has a member at which a trace ends. -/
def isTerminal (g : PartitionGraph) (id : PartitionId) : Bool :=
  (g.partition? id).any (·.members.toList.any g.endsTrace)

/-! ### Edges -/

/-- The edge behind which a transition stands. -/
def edgeOf (g : PartitionGraph) (t : Transition) : Edge :=
  ⟨g.owner t.source, t.event, g.owner t.target⟩

def hasEdge (g : PartitionGraph) (p : PartitionId) (e : Event) (q : PartitionId) : Bool :=
  g.edges.contains ⟨p, e, q⟩

/-- The events and targets of the edges that leave a partition. -/
def edgesFrom (g : PartitionGraph) (p : PartitionId) : List (Event × PartitionId) :=
  (g.edges.edges.filter (·.source = p)).map fun e => (e.event, e.target)

/-- The transitions of all traces, in the order of the arena. -/
def transitions (g : PartitionGraph) : List Transition :=
  (List.range g.observations.length).filterMap fun s =>
    (g.next? s).map fun (e, t) => ⟨s, e, t⟩

/-- The edges counted from scratch. -/
def recount (g : PartitionGraph) : EdgeTable :=
  g.transitions.foldl (fun table t => table.increment (g.edgeOf t)) ∅

/-! ### Moving observations -/

/-- The transitions that begin or end at one of the observations, each
once. -/
def incident (g : PartitionGraph) (states : List ObservationId) : OrderedSet Transition :=
  .ofList <| states.flatMap fun s =>
    ((g.prev? s).map fun (e, p) => (⟨p, e, s⟩ : Transition)).toList ++
      ((g.next? s).map fun (e, t) => (⟨s, e, t⟩ : Transition)).toList

/-- Give observations to other partitions and count the edges anew that
this concerns. The members of partitions are left as they are. -/
def reassign (g : PartitionGraph) (moves : List (ObservationId × PartitionId)) :
    PartitionGraph :=
  let concerned := (g.incident (moves.map Prod.fst)).toList
  -- Taken back under the old owners, counted again under the new ones.
  let without := concerned.foldl (fun table t => table.decrement (g.edgeOf t)) g.edges
  let moved := { g with owners := moves.foldl (fun owners (s, p) => owners.set s p) g.owners }
  { moved with edges := concerned.foldl (fun table t => table.increment (moved.edgeOf t)) without }

/-! ### Printing -/

def partitionText (g : PartitionGraph) (p : Partition) : String :=
  let tags := (if g.isInitial p.id then ["initial"] else []) ++
    (if g.isTerminal p.id then ["terminal"] else [])
  s!"  P{p.id} p{p.pid} [{p.members.size} states]" ++ tagsText tags ++ "\n" ++
    String.join ((g.edgesFrom p.id).map fun (e, q) => "    --" ++ e.text ++ s!"--> P{q}\n")

def text (g : PartitionGraph) : String :=
  s!"PartitionGraph: {g.partitions.length} partitions, {g.observations.length} observed states\n" ++
    String.join (g.partitions.map g.partitionText)

end PartitionGraph

end ProtocolInference
