import ProtocolInference.Trace.WellFormed

/-!
What is wrong with a trace document.

A document that is not well formed may break its conditions in many places
at once, but only one error is reported. The fault of a document is the
breach that comes first: channels before traces, and either kind in the
order in which the document lists it. Every part of a document has its
faults here, each with the error that stands for it. The conditions on one
part are ordered as well, so a fault always says that whatever is looked at
earlier is in order.
-/

namespace ProtocolInference

/-- What is wrong with the channel at a position, if the channels before it
are in order. Those have all the smaller indices, so a smaller index is one
that is used already. -/
inductive Channel.Fault (processes position : Nat) (c : Channel) : DocumentError → Prop
  | outOfRange (h : processes ≤ c.src ∨ processes ≤ c.dst) :
      Channel.Fault processes position c (.channelOutOfRange c.index c.src c.dst processes)
  | repeated (hends : c.src < processes ∧ c.dst < processes) (h : c.index < position) :
      Channel.Fault processes position c (.duplicateChannel c.index)
  | gap (hends : c.src < processes ∧ c.dst < processes) (h : position < c.index) :
      Channel.Fault processes position c (.channelIndexGap position c.index)

/-- What is wrong with an event of the trace of a process. -/
inductive EventSpec.Fault (channels : List Channel) (execution : Nat) (pid : ProcessId)
    (e : EventSpec) : DocumentError → Prop
  | undeclared {index : Nat} (hindex : e.index? = some index) (h : channels.length ≤ index) :
      EventSpec.Fault channels execution pid e (.unknownChannel index)
  | foreign (hdeclared : ∀ index, e.index? = some index → index < channels.length)
      (h : (e.resolved channels).pid ≠ pid) :
      EventSpec.Fault channels execution pid e (.foreignEvent execution pid (e.resolved channels))

/-- What is wrong with a trace, after the traces of the processes `earlier`
of the same execution: its process, the number of its states, or the first
event that is not well formed. -/
inductive ProcessTraceSpec.Fault (processes : Nat) (channels : List Channel) (execution : Nat)
    (earlier : List ProcessId) (t : ProcessTraceSpec) : DocumentError → Prop
  | outOfRange (h : processes ≤ t.pid) :
      ProcessTraceSpec.Fault processes channels execution earlier t
        (.processOutOfRange t.pid processes)
  | repeated (hpid : t.pid < processes) (h : t.pid ∈ earlier) :
      ProcessTraceSpec.Fault processes channels execution earlier t
        (.duplicateProcess execution t.pid)
  | names {names : List String} (hpid : t.pid < processes) (hnew : t.pid ∉ earlier)
      (hnames : t.states = some names) (h : names.length ≠ t.events.length + 1) :
      ProcessTraceSpec.Fault processes channels execution earlier t
        (.stateNameCount execution t.pid names.length t.events.length)
  | event {before after : List TimedEventSpec} {e : TimedEventSpec} {error : DocumentError}
      (hpid : t.pid < processes) (hnew : t.pid ∉ earlier)
      (hnames : ∀ names, t.states = some names → names.length = t.events.length + 1)
      (hevents : t.events = before ++ e :: after)
      (hbefore : ∀ b ∈ before, b.event.WellFormed channels t.pid)
      (h : e.event.Fault channels execution t.pid error) :
      ProcessTraceSpec.Fault processes channels execution earlier t error

/-- What is wrong with an execution is what is wrong with its first faulty
trace. -/
def ExecutionSpec.Fault (processes : Nat) (channels : List Channel) (execution : Nat)
    (x : ExecutionSpec) (error : DocumentError) : Prop :=
  ∃ before t after, x.processes = before ++ t :: after ∧
    ExecutionSpec.WellFormed processes channels ⟨before⟩ ∧
    t.Fault processes channels execution (before.map (·.pid)) error

/-- What is wrong with a document is what is wrong with its first faulty
channel. If the channels are in order, it is what is wrong with the first
faulty execution. -/
inductive TraceLog.Fault (log : TraceLog) : DocumentError → Prop
  | channel {before after : List Channel} {c : Channel} {error : DocumentError}
      (hchannels : log.channels = before ++ c :: after)
      (hbefore : ChannelsInOrder log.processes before)
      (h : c.Fault log.processes before.length error) : TraceLog.Fault log error
  | trace {before after : List ExecutionSpec} {x : ExecutionSpec} {error : DocumentError}
      (hchannels : ChannelsInOrder log.processes log.channels)
      (hexecutions : log.executions = before ++ x :: after)
      (hbefore : ∀ y ∈ before, y.WellFormed log.processes log.channels)
      (h : x.Fault log.processes log.channels before.length error) : TraceLog.Fault log error

end ProtocolInference
