import ProtocolInference.Trace.Log

/-!
Which trace documents are well formed.

`TraceLog.resolve` checks a document piece by piece and stops at the first
fault. Here the conditions stand by themselves, without any order among
them, and `resolved` is what a document means if it meets them.
-/

namespace ProtocolInference

def EventSpec.index? : EventSpec → Option Nat
  | internal .. => none
  | send index _ => some index
  | receive index _ => some index

/-- The event of the document with the channels looked up by position. -/
def EventSpec.resolved (channels : List Channel) : EventSpec → Event
  | internal pid name => .internal pid name
  | send index payload => .send (channels.getD index default) payload
  | receive index payload => .receive (channels.getD index default) payload

/-- The event speaks of a declared channel, if of any, and belongs to the
process. -/
structure EventSpec.WellFormed (channels : List Channel) (pid : ProcessId) (e : EventSpec) :
    Prop where
  declared : ∀ index, e.index? = some index → index < channels.length
  owned : (e.resolved channels).pid = pid

/-- The process exists, the states have one name more than there are
events, and every event is well formed. -/
structure ProcessTraceSpec.WellFormed (processes : Nat) (channels : List Channel)
    (t : ProcessTraceSpec) : Prop where
  pid_lt : t.pid < processes
  names_length : ∀ names, t.states = some names → names.length = t.events.length + 1
  events : ∀ e ∈ t.events, e.event.WellFormed channels t.pid

/-- Every trace is well formed, and no process has two. -/
structure ExecutionSpec.WellFormed (processes : Nat) (channels : List Channel)
    (x : ExecutionSpec) : Prop where
  traces : ∀ t ∈ x.processes, t.WellFormed processes channels
  distinct : (x.processes.map (·.pid)).Nodup

/-- The channels stand at the positions of their indices and join processes
of the system. -/
structure ChannelsInOrder (processes : Nat) (channels : List Channel) : Prop where
  index_eq : ∀ (i : Nat) (c : Channel), channels[i]? = some c → c.index = i
  endpoints : ∀ c ∈ channels, c.src < processes ∧ c.dst < processes

/-- The channels stand at the positions of their indices and join processes
of the system, and every execution is well formed. -/
structure TraceLog.WellFormed (log : TraceLog) : Prop where
  index_eq : ∀ (i : Nat) (c : Channel), log.channels[i]? = some c → c.index = i
  endpoints : ∀ c ∈ log.channels, c.src < log.processes ∧ c.dst < log.processes
  executions : ∀ x ∈ log.executions, x.WellFormed log.processes log.channels

/-- The trace of a document with channels in place of indices. -/
def ProcessTraceSpec.resolved (channels : List Channel) (t : ProcessTraceSpec) : ProcessTrace :=
  ⟨t.pid, t.states, t.events.map fun e => ⟨e.event.resolved channels, e.delta⟩⟩

/-- The executions of a document with channels in place of indices. -/
def TraceLog.resolved (log : TraceLog) : List Execution :=
  log.executions.map fun x => ⟨x.processes.map (·.resolved log.channels)⟩

end ProtocolInference
