import ProtocolInference.Event

/-!
Temporal invariants over two events.

An invariant relates a first and a second event of a trace. Three kinds
constrain the order in which the two occur; the fourth only asks that the
second event occurs at all. An invariant may carry a bound on the time
between the first event and the second one that answers it.
-/

namespace ProtocolInference

/-- A duration, or a point in time counted from some start. -/
abbrev Time := Nat

inductive Relation
  /-- Every first event is followed by a second one. -/
  | alwaysFollowedBy
  /-- No first event is followed by a second one. -/
  | neverFollowedBy
  /-- Every second event is preceded by a first one. -/
  | alwaysPrecedes
  /-- The second event occurs. -/
  | eventually
  deriving DecidableEq, Inhabited

namespace Relation

/-- The name in printed invariants. -/
def text : Relation → String
  | alwaysFollowedBy => "AFby"
  | neverFollowedBy => "NFby"
  | alwaysPrecedes => "AP"
  | eventually => "Eventually"

/-- The name in messages. -/
def longName : Relation → String
  | alwaysFollowedBy => "AlwaysFollowedBy"
  | neverFollowedBy => "NeverFollowedBy"
  | alwaysPrecedes => "AlwaysPrecedes"
  | eventually => "EventuallyHappens"

end Relation

inductive Bound
  | atMost (limit : Time)
  | atLeast (limit : Time)
  deriving DecidableEq, Inhabited

namespace Bound

def holds : Bound → Time → Bool
  | atMost limit, latency => latency ≤ limit
  | atLeast limit, latency => limit ≤ latency

def text : Bound → String
  | atMost limit => s!"<={limit}"
  | atLeast limit => s!">={limit}"

end Bound

/-- A relation between two events, with an optional bound on the latency
of the second. For `eventually` the first event is of no account; where
nothing else is known it equals the second. -/
structure Invariant where
  relation : Relation
  first : Event
  second : Event
  bound : Option Bound
  deriving DecidableEq, Inhabited

namespace Invariant

/-- The same invariant without its bound. -/
def untimed (inv : Invariant) : Invariant := { inv with bound := none }

/-- The different events that the invariant speaks about. -/
def events (inv : Invariant) : List Event :=
  if inv.relation = .eventually ∨ inv.first = inv.second then [inv.second]
  else [inv.first, inv.second]

/-- The process that owns the second event. For an invariant within one
process this is the process. -/
def pid (inv : Invariant) : ProcessId := inv.second.pid

def isWithinProcess (inv : Invariant) : Bool := inv.first.pid = inv.second.pid

/-- The printed form, `first REL second`, or `REL second` where the first
event is of no account; a bound follows the relation immediately. -/
def text (inv : Invariant) : String :=
  let relation := inv.relation.text ++ (inv.bound.map Bound.text).getD ""
  match inv.relation with
  | .eventually => relation ++ " " ++ inv.second.text
  | _ => inv.first.text ++ " " ++ relation ++ " " ++ inv.second.text

end Invariant

end ProtocolInference
