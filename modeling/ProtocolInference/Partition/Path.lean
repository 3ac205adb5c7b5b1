import ProtocolInference.Partition.Graph

/-!
Paths through the partition graph.

A path of a process starts in a partition and takes any number of steps,
each of which is an event and the partition to which it leads. A path
need not follow the edges of a graph.

An observation *follows* a path as far as the events of its trace are
those of the path and lead to observations in the path's partitions. A
path is *stitched* where the observations that have followed it that far
go different ways; the last such place says which partition has to be
split for the path to fall apart.
-/

namespace ProtocolInference

/-- A sequence of partitions with the events that lead from each to the
next. -/
structure PartitionPath where
  pid : ProcessId
  start : PartitionId
  steps : List (Event × PartitionId)
  deriving DecidableEq, Inhabited

inductive RefineError
  | graph (e : GraphError)
  | noEmittingState (partition : PartitionId) (event : Event)
  | invalidStitchSets (partition : PartitionId) (left right : Nat)
  | stitchAtInitial (partition : PartitionId)
  deriving DecidableEq

def RefineError.message : RefineError → String
  | graph e => e.message
  | noEmittingState partition event => s!"no state of partition {partition} emits {event.text}"
  | invalidStitchSets partition left right =>
    s!"stitch sets for partition {partition} are not usable ({left} left, {right} right)"
  | stitchAtInitial partition =>
    s!"stitch at initial partition {partition} does not discriminate its states"

namespace PartitionPath

/-- The path with the given partitions and the events between them. -/
def ofLists (pid : ProcessId) (states : List PartitionId) (events : List Event) :
    Except GraphError PartitionPath :=
  match states with
  | [] => .error (.pathLength 0 events.length)
  | start :: rest =>
    if rest.length = events.length then .ok ⟨pid, start, events.zip rest⟩
    else .error (.pathLength states.length events.length)

def states (path : PartitionPath) : List PartitionId := path.start :: path.steps.map Prod.snd

def events (path : PartitionPath) : List Event := path.steps.map Prod.fst

def length (path : PartitionPath) : Nat := path.steps.length

def last (path : PartitionPath) : PartitionId :=
  match path.steps.getLast? with
  | some (_, p) => p
  | none => path.start

def take (path : PartitionPath) (n : Nat) : PartitionPath :=
  { path with steps := path.steps.take n }

def push (path : PartitionPath) (e : Event) (p : PartitionId) : PartitionPath :=
  { path with steps := path.steps ++ [(e, p)] }

def text (path : PartitionPath) : String :=
  s!"p{path.pid}: P{path.start}" ++
    String.join (path.steps.map fun (e, p) => " --" ++ e.text ++ s!"--> P{p}")

end PartitionPath

namespace PartitionGraph

/-- The members of a partition, none if there is no such partition. -/
def membersOf (g : PartitionGraph) (id : PartitionId) : List ObservationId :=
  ((g.partition? id).map (·.members.toList)).getD []

/-- The members of a partition whose traces go on with the event. -/
def emitting (g : PartitionGraph) (id : PartitionId) (e : Event) : List ObservationId :=
  (g.membersOf id).filter fun s => (g.next? s).any (·.1 = e)

/-- Where the trace of an observation goes with its next event, if that is
`e` and leads into partition `p`. -/
def successor? (g : PartitionGraph) (s : ObservationId) (e : Event) (p : PartitionId) :
    Option ObservationId :=
  match g.next? s with
  | some (e', t) => if e' = e ∧ g.owner? t = some p then some t else none
  | none => none

/-- How many steps an observation follows, and the observation at which it
has followed all of them, if it does. -/
def follow (g : PartitionGraph) (s : ObservationId) :
    List (Event × PartitionId) → Nat × Option ObservationId
  | [] => (0, some s)
  | (e, p) :: rest =>
    match g.successor? s e p with
    | none => (0, none)
    | some t =>
      let (n, final) := g.follow t rest
      (n + 1, final)

end PartitionGraph

namespace PartitionPath

/-- Where an observation of the first partition leaves the path. One that
follows the whole path, and whose trace ends there, does not leave it. -/
def leavesAt? (path : PartitionPath) (g : PartitionGraph) (s : ObservationId) : Option Nat :=
  match g.follow s path.steps with
  | (n, some final) => if g.endsTraceOf path.pid final then none else some n
  | (n, none) => some n

/-- The last place at which an observation that follows the path leaves
it. A path without steps is not stitched anywhere. -/
def stitch? (path : PartitionPath) (g : PartitionGraph) : Except RefineError (Option Nat) := do
  let (e, _) :: _ := path.steps | return none
  -- Partitions that no observation gets to have to be there as well.
  path.states.forM fun p => do let _ ← (g.require p).mapError .graph
  let sources := g.emitting path.start e
  if sources.isEmpty then .error (.noEmittingState path.start e)
  return (sources.filterMap (path.leavesAt? g)).max?

end PartitionPath

end ProtocolInference
