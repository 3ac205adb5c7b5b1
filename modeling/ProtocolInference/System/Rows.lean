import ProtocolInference.System.InPlace

/-!
Tracing row by row.

An automaton keeps the transitions out of each state in a row, and the rows
are found by number. Tracing asks for the rows of the states that it visits,
takes transitions out of them and puts others in. Here it is a program that
changes the one automaton it is given and fails if it asks for a row that is
not there; what it returns is how many transitions it has led through new
states.

A system traces an invariant by running this program on the automata of the
invariant's events.
-/

namespace ProtocolInference

namespace Automaton

/-- A program that changes an automaton in place. It fails with the number of a
row that is missing, and the automaton stays as the program has left it. -/
abbrev InPlace := ExceptT StateId (StateM Automaton)

namespace InPlace

/-- What becomes of an automaton if the program is run on it. -/
def runOn {α : Type} (x : InPlace α) (a : Automaton) : Except StateId α × Automaton :=
  StateT.run (ExceptT.run x) a

/-- Ask for the row of a state. -/
def needRow (s : StateId) : InPlace Unit := do
  unless s < (← get).size do throw s

/-- Add a state and return its number. -/
def addState (initial accepting : Bool) : InPlace StateId := do
  let a ← get
  set (a.addState initial accepting)
  return a.size

def addTransition (s : StateId) (e : Event) (t : StateId) : InPlace Unit := do
  needRow s
  modify (·.addTransition s e t)

def removeTransition (s : StateId) (e : Event) (t : StateId) : InPlace Unit := do
  needRow s
  modify (·.removeTransition s e t)

/-- Lead the transition from `s` to `t` through a new state. -/
def detour (e record : Event) (ends : StateId × StateId) : InPlace Unit := do
  let (s, t) := ends
  removeTransition s e t
  let middle ← addState false false
  addTransition s e middle
  addTransition middle record t

/-- Lead every reachable transition on `e` through a new state of its own. Returns
the number of these transitions. -/
def trace (e record : Event) : InPlace Nat := do
  let a ← get
  match a.reachable with
  | .error s => throw s
  | .ok states =>
    let ends := a.occurrences e states
    ends.forM (detour e record)
    return ends.length

end InPlace

end Automaton

namespace System.InPlace

/-- Run a program on the automaton of a process, and store what it leaves. -/
def onAutomaton {α : Type} (pid : ProcessId) (x : Automaton.InPlace α) : InPlace α := do
  let sys ← get
  match sys.automaton? pid with
  | none => throw (.processOutOfRange pid sys.processes)
  | some a =>
    let (answer, left) := x.runOn a
    set { sys with automata := sys.automata.set pid left }
    match answer with
    | .ok r => return r
    | .error s => throw (.missingState pid s)

/-- Trace one event row by row. -/
def traceRows (k : Nat) (e : Event) : InPlace Unit := do
  let sys ← get
  let _ ← onAutomaton e.pid
    (Automaton.InPlace.trace e (.send (sys.tracerChannel k e.pid) e.tracerLabel))

/-- Trace an invariant row by row. Returns the index of its tracer channel. -/
def traceByRows (inv : Invariant) : InPlace Nat := do
  checkNew inv
  inv.events.forM checkOwner
  let sys ← get
  let k := sys.tracers.size
  inv.events.forM (traceRows k)
  let channel := sys.tracerChannel k inv.first.pid
  modify fun sys => { sys with tracers := sys.tracers.insert inv channel }
  return channel.index

end System.InPlace

end ProtocolInference
