import ProtocolInference.Invariant

/-!
Observed executions.

An execution of the whole system is observed process by process: it is a
list of traces, one for each process that was watched. A trace is the
sequence of the process's events, each with the time that passed since
the event before it, and possibly the names of the states in between.
-/

namespace ProtocolInference

/-- An event, with the time since the previous event of its process. -/
structure TimedEvent where
  event : Event
  delta : Time
  deriving DecidableEq, Inhabited

/-- What one process did in one execution. If the states are named, the
first name is that of the state before the first event. -/
structure ProcessTrace where
  pid : ProcessId
  stateNames : Option (List String)
  events : List TimedEvent
  deriving DecidableEq, Inhabited

structure Execution where
  processes : List ProcessTrace
  deriving DecidableEq, Inhabited

end ProtocolInference
