import ProtocolInference.System

/-!
The global states that witness a violation.

When an invariant is traced, its violations are the configurations in
which every process may stop, every real channel is empty, and the
invariant's own tracer channel matches its pattern. The other tracer
channels may hold anything.
-/

namespace ProtocolInference

/-- A global state with a constraint on the contents of every channel. -/
structure BadState where
  /-- One state per process. -/
  states : List StateId
  /-- One constraint per channel, in the order of the indices. -/
  queues : List QueueConstraint
  deriving DecidableEq

namespace System

/-- The constraints on all channels, given the index of the tracer channel
on which the invariant is recorded. -/
def queueConstraints (sys : System) (inv : Invariant) (index : Nat) : List QueueConstraint :=
  sys.channels.map (fun _ => .empty) ++
    sys.tracers.values.map fun c => if c.index = index then inv.violation else .anything

/-- The bad states of a traced invariant, one for each global state in
which every automaton accepts. -/
def badStates (sys : System) (inv : Invariant) : Except SystemError (List BadState) :=
  match sys.tracers.get? inv with
  | none => .error (.notTraced inv)
  | some tracer =>
    .ok (sys.acceptingStates.map fun states =>
      ⟨states, sys.queueConstraints inv tracer.index⟩)

end System

end ProtocolInference
