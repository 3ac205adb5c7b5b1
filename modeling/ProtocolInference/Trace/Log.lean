import ProtocolInference.Trace

/-!
Trace documents and their validation.

A document speaks about channels by index only. `TraceLog.resolve` checks
a document and puts the declared channels in place of the indices; what
it returns is the same data with nothing added or left out. The channels
are checked first, in order, then the traces in document order, and the
first fault found is the one reported.
-/

namespace ProtocolInference

/-- An event as documents write it, with an index in place of a channel. -/
inductive EventSpec
  | internal (pid : ProcessId) (name : String)
  | send (channel : Nat) (payload : String)
  | receive (channel : Nat) (payload : String)
  deriving DecidableEq, Inhabited

/-- An event of a document and the time since the previous one. -/
structure TimedEventSpec where
  event : EventSpec
  delta : Time
  deriving DecidableEq, Inhabited

/-- The trace of one process as documents write it. -/
structure ProcessTraceSpec where
  pid : ProcessId
  states : Option (List String)
  events : List TimedEventSpec
  deriving DecidableEq, Inhabited

structure ExecutionSpec where
  processes : List ProcessTraceSpec
  deriving DecidableEq, Inhabited

structure TraceLog where
  processes : Nat
  channels : List Channel
  executions : List ExecutionSpec
  deriving DecidableEq, Inhabited

structure InvariantSpec where
  relation : Relation
  first : Option EventSpec
  second : EventSpec
  bound : Option Bound
  deriving DecidableEq, Inhabited

inductive DocumentError
  | unknownChannel (index : Nat)
  | processOutOfRange (pid : ProcessId) (processes : Nat)
  | channelOutOfRange (index : Nat) (src dst : ProcessId) (processes : Nat)
  | duplicateChannel (index : Nat)
  | channelIndexGap (position index : Nat)
  | duplicateProcess (execution : Nat) (pid : ProcessId)
  | foreignEvent (execution : Nat) (pid : ProcessId) (event : Event)
  | stateNameCount (execution : Nat) (pid : ProcessId) (names events : Nat)
  | missingFirstEvent (relation : Relation)
  deriving DecidableEq

def DocumentError.message : DocumentError → String
  | unknownChannel index => s!"event references undeclared channel {index}"
  | processOutOfRange pid processes =>
    s!"process id {pid} out of range (system has {processes} processes)"
  | channelOutOfRange index src dst processes =>
    s!"channel {index} endpoints ({src} -> {dst}) out of range for {processes} processes"
  | duplicateChannel index => s!"channel index {index} declared twice"
  | channelIndexGap position index =>
    s!"channel at position {position} has index {index}; indices must be 0..n in order"
  | duplicateProcess execution pid => s!"execution {execution} lists process {pid} twice"
  | foreignEvent execution pid event =>
    s!"execution {execution}, process {pid}: event {event.text} is emitted by process {event.pid}"
  | stateNameCount execution pid names events =>
    s!"execution {execution}, process {pid}: {names} state names given for {events} events"
  | missingFirstEvent relation => s!"{relation.longName} invariant requires a first event"

/-! ### Events and invariants -/

def findChannel (channels : List Channel) (index : Nat) : Except DocumentError Channel :=
  match channels.find? (·.index = index) with
  | some c => .ok c
  | none => .error (.unknownChannel index)

/-- The event with its channel in place of the index. -/
def EventSpec.resolve (channels : List Channel) : EventSpec → Except DocumentError Event
  | internal pid name => .ok (.internal pid name)
  | send index payload => (findChannel channels index).map (.send · payload)
  | receive index payload => (findChannel channels index).map (.receive · payload)

/-- The invariant with channels in place of indices. The second event is
looked at first, and `eventually` disregards the first one altogether. -/
def InvariantSpec.resolve (channels : List Channel) (spec : InvariantSpec) :
    Except DocumentError Invariant := do
  let second ← spec.second.resolve channels
  match spec.relation, spec.first with
  | .eventually, _ => return ⟨.eventually, second, second, spec.bound⟩
  | relation, some first => return ⟨relation, ← first.resolve channels, second, spec.bound⟩
  | relation, none => .error (.missingFirstEvent relation)

/-! ### Channels -/

/-- The check of one channel at its position, after the channels before
it: the endpoints are processes, the index is new, and it is the
position. -/
def checkChannel (processes : Nat) (earlier : List Channel) (c : Channel) :
    Except DocumentError Unit :=
  if processes ≤ c.src ∨ processes ≤ c.dst then
    .error (.channelOutOfRange c.index c.src c.dst processes)
  else if earlier.any (·.index = c.index) then .error (.duplicateChannel c.index)
  else if c.index ≠ earlier.length then .error (.channelIndexGap earlier.length c.index)
  else .ok ()

def checkChannels (processes : Nat) (earlier : List Channel) :
    List Channel → Except DocumentError Unit
  | [] => .ok ()
  | c :: rest => do
    checkChannel processes earlier c
    checkChannels processes (earlier ++ [c]) rest

/-! ### Traces -/

/-- One event of a trace: its channel is declared, and the event belongs
to the process whose trace it stands in. -/
def TimedEventSpec.resolve (channels : List Channel) (execution : Nat) (pid : ProcessId)
    (spec : TimedEventSpec) : Except DocumentError TimedEvent := do
  let event ← spec.event.resolve channels
  if event.pid = pid then return ⟨event, spec.delta⟩
  else .error (.foreignEvent execution pid event)

/-- One trace, given the processes of its execution that came before. -/
def ProcessTraceSpec.resolve (processes : Nat) (channels : List Channel) (execution : Nat)
    (earlier : List ProcessId) (spec : ProcessTraceSpec) : Except DocumentError ProcessTrace := do
  if processes ≤ spec.pid then .error (.processOutOfRange spec.pid processes)
  if spec.pid ∈ earlier then .error (.duplicateProcess execution spec.pid)
  if let some names := spec.states then
    if names.length ≠ spec.events.length + 1 then
      .error (.stateNameCount execution spec.pid names.length spec.events.length)
  let events ← spec.events.mapM (·.resolve channels execution spec.pid)
  return ⟨spec.pid, spec.states, events⟩

def resolveTraces (processes : Nat) (channels : List Channel) (execution : Nat)
    (earlier : List ProcessId) : List ProcessTraceSpec → Except DocumentError (List ProcessTrace)
  | [] => .ok []
  | spec :: rest => do
    let trace ← spec.resolve processes channels execution earlier
    let traces ← resolveTraces processes channels execution (earlier ++ [spec.pid]) rest
    return trace :: traces

/-- The executions in order, numbered from `execution` on. -/
def resolveExecutions (processes : Nat) (channels : List Channel) (execution : Nat) :
    List ExecutionSpec → Except DocumentError (List Execution)
  | [] => .ok []
  | spec :: rest => do
    let traces ← resolveTraces processes channels execution [] spec.processes
    let executions ← resolveExecutions processes channels (execution + 1) rest
    return ⟨traces⟩ :: executions

/-- Check the document and put channels in place of indices. -/
def TraceLog.resolve (log : TraceLog) : Except DocumentError (List Execution) := do
  checkChannels log.processes [] log.channels
  resolveExecutions log.processes log.channels 0 log.executions

end ProtocolInference
