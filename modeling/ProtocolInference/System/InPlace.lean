import ProtocolInference.System.Tracing

/-!
Tracing in place.

`System.trace` returns a new system. Here it is a program that changes the
one system it is given: the events are traced one after the other, each
automaton is stored as soon as it has been changed, and the tracer channel
comes last. A program that fails does not undo what it has done, so a
caller who tries an invariant and goes on after a refusal goes on with
whatever system the program has left.
-/

namespace ProtocolInference.System

/-- A program that changes a system in place. If it fails, the system stays as
the program has left it. -/
abbrev InPlace := ExceptT SystemError (StateM System)

namespace InPlace

/-- What becomes of a system if the program is run on it. -/
def runOn {α : Type} (x : InPlace α) (sys : System) : Except SystemError α × System :=
  StateT.run (ExceptT.run x) sys

/-- Refuse an invariant that is traced already. -/
def checkNew (inv : Invariant) : InPlace Unit := do
  if (← get).tracers.contains inv then throw (.alreadyTraced inv)

/-- Refuse an event that belongs to none of the processes. -/
def checkOwner (e : Event) : InPlace Unit := do
  let sys ← get
  unless e.pid < sys.processes do throw (.processOutOfRange e.pid sys.processes)

/-- Trace one event, and store the automaton that this changes. -/
def traceEvent (k : Nat) (e : Event) : InPlace Unit := do
  match (← get).traceEvent k e with
  | .ok sys => set sys
  | .error err => throw err

/-- Trace an invariant. Returns the index of its tracer channel. -/
def trace (inv : Invariant) : InPlace Nat := do
  checkNew inv
  inv.events.forM checkOwner
  let sys ← get
  let k := sys.tracers.size
  inv.events.forM (traceEvent k)
  let channel := sys.tracerChannel k inv.first.pid
  modify fun sys => { sys with tracers := sys.tracers.insert inv channel }
  return channel.index

end InPlace

/-- Invariants have been traced in the system one after the other, in place and
whatever the answers were. The log holds the invariants with the answers. -/
inductive Calls (sys : System) : List (Invariant × Except SystemError Nat) → System → Prop
  | none : Calls sys [] sys
  | call {log : List (Invariant × Except SystemError Nat)} {t t' : System} {inv : Invariant}
      {answer : Except SystemError Nat} :
      Calls sys log t → (InPlace.trace inv).runOn t = (answer, t') →
      Calls sys (log ++ [(inv, answer)]) t'

end ProtocolInference.System
