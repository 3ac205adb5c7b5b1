import ProtocolInference.Channel

/-!
Events, the symbols of which traces and automata are made.

An event belongs to exactly one process, its owner: a process owns its
internal events, the sends on channels that start at it, and the receives
on channels that end at it.
-/

namespace ProtocolInference

/-- Something that one process does. -/
inductive Event
  /-- A step that touches no channel. -/
  | internal (pid : ProcessId) (name : String)
  /-- Append `payload` to the contents of `channel`. -/
  | send (channel : Channel) (payload : String)
  /-- Take `payload` from the front of `channel`. -/
  | receive (channel : Channel) (payload : String)
  deriving DecidableEq, Inhabited

namespace Event

def pid : Event → ProcessId
  | internal pid _ => pid
  | send channel _ => channel.src
  | receive channel _ => channel.dst

def channel? : Event → Option Channel
  | internal .. => none
  | send channel _ => some channel
  | receive channel _ => some channel

def isCommunication (e : Event) : Bool := e.channel?.isSome

/-- The name of an internal event, the payload of any other. -/
def name : Event → String
  | internal _ name => name
  | send _ payload => payload
  | receive _ payload => payload

/-- The printed form: `name@pN`, `channel!payload` or `channel?payload`. -/
def text : Event → String
  | internal pid name => name ++ s!"@p{pid}"
  | send channel payload => channel.text ++ "!" ++ payload
  | receive channel payload => channel.text ++ "?" ++ payload

/-- Internal events come first and receives last; within a kind the
fields decide in order. -/
instance : Ord Event where
  compare
    | internal p x, internal q y => (compare p q).then (compare x y)
    | internal .., _ => .lt
    | _, internal .. => .gt
    | send c x, send d y => (compare c d).then (compare x y)
    | send .., receive .. => .lt
    | receive .., send .. => .gt
    | receive c x, receive d y => (compare c d).then (compare x y)

end Event

end ProtocolInference
