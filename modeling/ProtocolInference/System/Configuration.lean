import ProtocolInference.System

/-!
What a system does.

A system is a set of automata that run side by side. A *configuration*
gives the state of every automaton and the contents of every channel, the
oldest message first. One automaton moves at a time: a send puts its
payload behind the contents of its channel, a receive needs its payload
in front and takes it out, and an internal event touches no channel. A
channel is known by its index alone.

Tracing changes an automaton but not this meaning. On a tracer channel
nobody receives, so its contents grow into a record of the run.
-/

namespace ProtocolInference

structure Configuration where
  /-- By process. -/
  states : List StateId
  /-- By the index of the channel. -/
  contents : Nat → List String

/-- The contents of all channels after an event, if the event can
happen. -/
def Event.perform? (contents : Nat → List String) : Event → Option (Nat → List String)
  | internal .. => some contents
  | send c payload =>
    some fun i => if i = c.index then contents i ++ [payload] else contents i
  | receive c payload =>
    match contents c.index with
    | [] => none
    | front :: rest =>
      if front = payload then some fun i => if i = c.index then rest else contents i else none

namespace System

/-- The configurations in which a system may start: every automaton is in
an initial state, and every channel is empty. -/
def Starts (sys : System) (c : Configuration) : Prop :=
  c.states ∈ sys.initialStates ∧ ∀ i, c.contents i = []

/-- One automaton of the system moves, along a transition that the channels
allow. -/
inductive Moves (sys : System) : Configuration → Event → Configuration → Prop
  | move {c : Configuration} {pid : ProcessId} {a : Automaton} {s t : StateId} {e : Event}
      {contents : Nat → List String} :
      sys.automaton? pid = some a → c.states[pid]? = some s → a.Step s e t →
      e.perform? c.contents = some contents →
      Moves sys c e ⟨c.states.set pid t, contents⟩

/-- The system can get from one configuration to another by the events, in
their order. -/
inductive Runs (sys : System) : Configuration → List Event → Configuration → Prop
  | stay (c : Configuration) : Runs sys c [] c
  | step {c d f : Configuration} {e : Event} {es : List Event} :
      sys.Moves c e d → Runs sys d es f → Runs sys c (e :: es) f

/-- The system can get from a start to a configuration by the events. -/
def Reaches (sys : System) (es : List Event) (c : Configuration) : Prop :=
  ∃ start, sys.Starts start ∧ sys.Runs start es c

end System

end ProtocolInference
