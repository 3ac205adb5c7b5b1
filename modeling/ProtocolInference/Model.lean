import ProtocolInference.Partition.Path
import ProtocolInference.System.Tracing

/-!
Models: the systems of automata that partition graphs stand for.

Every partition becomes a state of its process's automaton, and every
edge a transition. A model remembers which partition is behind which
state. When the model is traced, its automata gain states that stand for
no partition; a run through them is read back as a path by following the
tracer sends to the state in which they end.
-/

namespace ProtocolInference

structure RunStep where
  event : Event
  target : StateId
  deriving DecidableEq, Inhabited

structure ProcessRun where
  pid : ProcessId
  start : StateId
  steps : List RunStep
  deriving DecidableEq, Inhabited

namespace ProcessRun

def events (run : ProcessRun) : List Event := run.steps.map (·.event)

def last (run : ProcessRun) : StateId :=
  match run.steps.getLast? with
  | some step => step.target
  | none => run.start

/-- Whether the automaton can take the steps, the first one in state `s`. -/
def stepsAlong (a : Automaton) (s : StateId) : List RunStep → Bool
  | [] => true
  | step :: rest => (a.transitions s).contains (step.event, step.target) &&
      stepsAlong a step.target rest

def isIn (run : ProcessRun) (a : Automaton) : Bool := stepsAlong a run.start run.steps

end ProcessRun

/-- Why there is no model, or no path in it. -/
inductive ModelError
  | system (e : SystemError)
  | graph (e : GraphError)
  | unknownProcess (pid : ProcessId)
  | unmappedState (pid : ProcessId) (state : StateId)
  deriving DecidableEq

def ModelError.message : ModelError → String
  | system e => e.message
  | graph e => e.message
  | unknownProcess pid => s!"process {pid} is not part of the model"
  | unmappedState pid state => s!"state {state} of process {pid} corresponds to no partition"

/-- A system of automata, with the partitions behind their states. -/
structure Model where
  system : System
  /-- For each process, the partitions behind its first states. States
  that come from tracing have none. -/
  partitions : List (List PartitionId)
  deriving DecidableEq, Inhabited

/-- The state behind which the partition stands, among the automata of
several processes. -/
def findState (partitions : List (List PartitionId)) (id : PartitionId) : Option StateId :=
  partitions.findSome? (·.idxOf? id)

namespace PartitionGraph

/-- The states of a process's automaton, still without transitions. -/
def automatonStates (g : PartitionGraph) (pid : ProcessId) : Automaton :=
  (g.partitionsOf pid).foldl (fun a p => a.addState (g.isInitial p.id) (g.isTerminal p.id))
    (Automaton.empty pid)

/-- The transitions that the edges of the given partitions stand for, each
as its source, event and target. -/
def automatonTransitions (g : PartitionGraph) (known : List (List PartitionId))
    (ids : List PartitionId) : Except ModelError (List (StateId × Event × StateId)) := do
  let outgoing := ids.zipIdx.flatMap fun (id, s) => (g.edgesFrom id).map fun (e, q) => (s, e, q)
  -- An edge may lead to a partition of an earlier process, and to none of a later one.
  outgoing.mapM fun (s, e, q) =>
    match findState known q with
    | some t => .ok (s, e, t)
    | none => .error (.graph (.unknownPartition q))

/-- The automaton of a process, given the partitions behind the states of
the processes before it. -/
def automatonOf (g : PartitionGraph) (known : List (List PartitionId)) (pid : ProcessId) :
    Except ModelError Automaton := do
  let ids := (g.partitionsOf pid).map (·.id)
  let transitions ← g.automatonTransitions (known ++ [ids]) ids
  return transitions.foldl (fun a (s, e, t) => a.addTransition s e t) (g.automatonStates pid)

/-- The automata of the given processes, added to a draft in order. -/
def draftFrom (g : PartitionGraph) (draft : Draft) (known : List (List PartitionId)) :
    List ProcessId → Except ModelError (Draft × List (List PartitionId))
  | [] => .ok (draft, known)
  | pid :: rest => do
    let a ← g.automatonOf known pid
    let draft ← (draft.add a).mapError .system
    g.draftFrom draft (known ++ [(g.partitionsOf pid).map (·.id)]) rest

/-- The model of a graph, over the given channels. -/
def model (g : PartitionGraph) (channels : List Channel) : Except ModelError Model := do
  let (draft, partitions) ← g.draftFrom ⟨g.processes, channels, []⟩ [] (List.range g.processes)
  return ⟨← draft.finish.mapError .system, partitions⟩

end PartitionGraph

namespace Model

/-- Trace an invariant in the model. Returns the index of its tracer
channel as well. -/
def trace (m : Model) (inv : Invariant) : Except ModelError (Model × Nat) := do
  let (system, index) ← (m.system.trace inv).mapError .system
  return ({ m with system }, index)

def traceAll (m : Model) (invs : List Invariant) : Except ModelError Model :=
  invs.foldlM (fun m inv => (m.trace inv).map Prod.fst) m

def partitionOf? (m : Model) (pid : ProcessId) (s : StateId) : Option PartitionId :=
  (m.partitions[pid]?).bind (·[s]?)

/-- The state behind which a partition stands. -/
def stateOf? (m : Model) (id : PartitionId) : Option StateId := findState m.partitions id

/-- The partition that is reached from a state by tracer sends alone, the
first one being taken in each state. States already seen on the way lead
nowhere. -/
def settle (m : Model) (a : Automaton) (visited : List StateId) (s : StateId) :
    Option PartitionId :=
  match m.partitionOf? a.pid s with
  | some p => some p
  | none =>
    if h : s ∈ visited then none
    else if hs : s < a.size then
      have : a.unvisited (visited ++ [s]) < a.unvisited visited := Automaton.unvisited_lt hs h
      match (a.transitions s).find? fun (e, _) => m.system.isTracerEvent e with
      | some (_, t) => m.settle a (visited ++ [s]) t
      | none => none
    else none
  termination_by a.unvisited visited

/-- The partition for which a state of a process stands, at the latest
after the tracer sends that follow. -/
def resolve (m : Model) (pid : ProcessId) (s : StateId) : Except ModelError PartitionId :=
  match (m.system.automaton? pid).bind fun a => m.settle a [] s with
  | some p => .ok p
  | none => .error (.unmappedState pid s)

/-- The path that a run takes through the partitions. Tracer sends are
left out. -/
def path (m : Model) (run : ProcessRun) : Except ModelError PartitionPath := do
  if m.partitions.length ≤ run.pid then .error (.unknownProcess run.pid)
  let start ← m.resolve run.pid run.start
  let taken := run.steps.filter fun step => !m.system.isTracerEvent step.event
  let steps ← taken.mapM fun step => do return (step.event, ← m.resolve run.pid step.target)
  return ⟨run.pid, start, steps⟩

end Model

end ProtocolInference
