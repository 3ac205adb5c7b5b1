import ProtocolInference.Document.Event
import ProtocolInference.Json.Kept

/-!
The JSON form of trace documents.

The channels of a document and the delta of an event may be left out;
they are then empty and zero. When a document is written they always
appear, while the state names of a trace appear only where it has some.
-/

namespace ProtocolInference

open Json

def TimedEventSpec.toJson (e : TimedEventSpec) : Json :=
  .object [("event", e.event.toJson), ("delta", .natural e.delta)]

/-- How many arrays and objects there are around an event: the document, the
list of executions and one of them, the list of processes and one of them,
and the list of timed events and one of them. -/
def TimedEventSpec.nesting : Nat := 7

def TimedEventSpec.ofJson? (v : Json) : Option TimedEventSpec := do
  let [event, delta] ← v.record? ["event", "delta"] | none
  return {
    event := ← required (kept TimedEventSpec.nesting EventSpec.ofJson?) event
    delta := ← withDefault 0 nat? delta }

def ProcessTraceSpec.toJson (t : ProcessTraceSpec) : Json :=
  .object <|
    [("pid", .natural t.pid)] ++
      (t.states.map fun names => ("states", Json.array (names.map .string))).toList ++
      [("events", .array (t.events.map TimedEventSpec.toJson))]

def ProcessTraceSpec.ofJson? (v : Json) : Option ProcessTraceSpec := do
  let [pid, states, events] ← v.record? ["pid", "states", "events"] | none
  return {
    pid := ← required nat? pid
    states := ← optional (list? string?) states
    events := ← required (list? TimedEventSpec.ofJson?) events }

def ExecutionSpec.toJson (x : ExecutionSpec) : Json :=
  .object [("processes", .array (x.processes.map ProcessTraceSpec.toJson))]

def ExecutionSpec.ofJson? (v : Json) : Option ExecutionSpec := do
  let [processes] ← v.record? ["processes"] | none
  return { processes := ← required (list? ProcessTraceSpec.ofJson?) processes }

def TraceLog.toJson (log : TraceLog) : Json :=
  .object [
    ("num_processes", .natural log.processes),
    ("channels", .array (log.channels.map Channel.toJson)),
    ("executions", .array (log.executions.map ExecutionSpec.toJson))]

def TraceLog.ofJson? (v : Json) : Option TraceLog := do
  let [processes, channels, executions] ←
    v.record? ["num_processes", "channels", "executions"] | none
  return {
    processes := ← required nat? processes
    channels := ← withDefault [] (list? Channel.ofJson?) channels
    executions := ← required (list? ExecutionSpec.ofJson?) executions }

end ProtocolInference
