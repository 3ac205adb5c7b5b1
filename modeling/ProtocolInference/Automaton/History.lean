import ProtocolInference.Automaton

/-!
How an automaton comes about.

An automaton begins with no states. States are added to it, and transitions
are added and removed again; tracing does nothing else either. `Arises` says
that an automaton can come about in this way. It is a restriction: a row of
transitions on one event is there only as long as it has targets.
-/

namespace ProtocolInference.Automaton

/-- The automaton has been put together by adding states and by adding and
removing transitions. -/
inductive Arises : Automaton → Prop
  | empty (pid : ProcessId) : Arises (empty pid)
  | addState {a : Automaton} (initial accepting : Bool) :
      Arises a → Arises (a.addState initial accepting)
  | addTransition {a : Automaton} (s : StateId) (e : Event) (t : StateId) :
      Arises a → Arises (a.addTransition s e t)
  | removeTransition {a : Automaton} (s : StateId) (e : Event) (t : StateId) :
      Arises a → Arises (a.removeTransition s e t)

end ProtocolInference.Automaton
