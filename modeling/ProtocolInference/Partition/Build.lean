import ProtocolInference.Partition.Graph

/-!
The first graph of a set of executions.

At first two observations of a process share a partition if they were
reached by the same event, or, if so desired, if they have the same name.
In the first case the observations at which traces begin share one
partition, since no event led there.
-/

namespace ProtocolInference

/-- Which observations share a partition at first. -/
inductive InitialPartitioning
  | byIncomingEvent
  | byStateName
  deriving DecidableEq, Inhabited

/-- What the observations of one partition have in common. -/
inductive GroupKey
  | incoming (e : Option Event)
  | named (name : String)
  deriving DecidableEq

/-- What an observation has in common with the others of its partition. -/
def InitialPartitioning.key (how : InitialPartitioning) (o : Observation) :
    ProcessId × GroupKey :=
  match how with
  | byIncomingEvent => (o.pid, .incoming (o.prev.map Prod.fst))
  | byStateName => (o.pid, .named o.name)

namespace PartitionGraph

/-- The positions of the arena whose observations have the given key. -/
def positionsOf (how : InitialPartitioning) (arena : List Observation)
    (key : ProcessId × GroupKey) : OrderedSet ObservationId :=
  ⟨(arena.zipIdx.filter fun (o, _) => how.key o = key).map Prod.snd,
    (List.filter_sublist.map Prod.snd).nodup <| by
      rw [List.zipIdx_map_snd]; exact List.nodup_range'⟩

/-- The graph of an arena, with one partition for each key in the order in
which the keys arise. -/
def ofArena (processes : Nat) (channels : List Channel) (how : InitialPartitioning)
    (arena : List Observation) : PartitionGraph :=
  let keys := (OrderedSet.ofList (arena.map how.key)).toList
  let g : PartitionGraph := {
    processes, channels
    observations := arena
    owners := arena.map fun o => keys.idxOf (how.key o)
    partitions := keys.mapIdx fun id key => ⟨id, key.1, positionsOf how arena key⟩
    edges := ∅
    nextId := keys.length }
  { g with edges := g.recount }

/-- The first graph of some executions, and the source of names after it.
Every trace must belong to a process of the system. -/
def ofExecutions (executions : List Execution) (processes : Nat) (channels : List Channel)
    (how : InitialPartitioning) (names : StateNames) :
    Except GraphError (PartitionGraph × StateNames) :=
  let traces := executions.flatMap (·.processes)
  match traces.find? fun t => processes ≤ t.pid with
  | some t => .error (.processOutOfRange t.pid processes)
  | none =>
    let (arena, names) := observeAll traces names []
    .ok (ofArena processes channels how arena, names)

end PartitionGraph

end ProtocolInference
