import ProtocolInference.Event.Label
import ProtocolInference.Invariant

/-!
What there is to record of an invariant.

Of a sequence of events an invariant is concerned with its own events
only. They, and their order, are what a tracer channel should tell of a
run; what the channel does hold is whatever has been sent on it.
-/

namespace ProtocolInference

/-- The payload of a send on the channel with the given index. -/
def Event.sentOn? (index : Nat) : Event → Option String
  | send c payload => if c.index = index then some payload else none
  | _ => none

/-- All that is sent on the channel with the given index, oldest first. -/
def sentOn (index : Nat) (es : List Event) : List String := es.filterMap (Event.sentOn? index)

namespace Invariant

/-- The events of the sequence that are events of the invariant. -/
def occurrences (inv : Invariant) (es : List Event) : List Event := es.filter (· ∈ inv.events)

/-- The tracer labels of these events, in the order of the events. -/
def record (inv : Invariant) (es : List Event) : List String :=
  (inv.occurrences es).map Event.tracerLabel

end Invariant

end ProtocolInference
