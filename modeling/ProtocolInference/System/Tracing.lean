import ProtocolInference.System

/-!
Tracing an invariant.

To trace an invariant, every reachable transition on one of its events is
led through a new state from which the event's tracer label is sent on
the invariant's tracer channel:

    s --event--> t   becomes   s --event--> m --tracer!label--> t

The contents of the tracer channel then tell in which order the events of
a process happened, and a violation of the invariant shows as contents
that match its pattern. The event and the send are two steps, so between
processes the order need not be that of the events.

The reachable states are found by a depth-first search. Its order is
visible in the numbers of the new states: of the successors of a state
the one that was added last is followed first.
-/

namespace ProtocolInference

namespace Automaton

def unvisited (a : Automaton) (visited : List StateId) : Nat :=
  (List.range a.size).countP (· ∉ visited)

theorem unvisited_lt {a : Automaton} {visited : List StateId} {s : StateId}
    (hs : s < a.size) (h : s ∉ visited) : a.unvisited (visited ++ [s]) < a.unvisited visited := by
  have key : ∀ l : List Nat, s ∈ l →
      l.countP (fun x => decide (x ∉ visited ++ [s])) < l.countP fun x => decide (x ∉ visited) := by
    intro l
    have le : ∀ l : List Nat, l.countP (fun x => decide (x ∉ visited ++ [s])) ≤
        l.countP fun x => decide (x ∉ visited) := fun l =>
      List.countP_mono_left fun x _ hx => by
        simp only [List.mem_append, not_or, decide_eq_true_eq] at hx ⊢
        exact hx.1
    induction l with
    | nil => simp
    | cons x l ih =>
      intro hmem
      by_cases hx : x = s
      · subst hx
        have := le l
        simp only [List.countP_cons, List.mem_append, List.mem_singleton, h, or_true,
          not_true_eq_false, decide_false, decide_true, not_false_eq_true, if_true,
          Bool.false_eq_true, if_false]
        simp only [List.mem_append, List.mem_singleton] at this
        omega
      · have hmem' : s ∈ l := by
          rcases List.mem_cons.1 hmem with e | e
          · exact absurd e.symm hx
          · exact e
        have := ih hmem'
        simp only [List.countP_cons, List.mem_append, List.mem_singleton, hx, or_false] at this ⊢
        omega
  exact key _ (List.mem_range.2 hs)

/-- The states met by a depth-first search, in the order in which they
are met, behind those that were visited before. A state that the
automaton does not have stops the search. -/
def explore (a : Automaton) (visited : List StateId) :
    List StateId → Except StateId (List StateId)
  | [] => .ok visited
  | s :: stack =>
    if h : s ∈ visited then explore a visited stack
    else if hs : s < a.size then
      have : a.unvisited (visited ++ [s]) < a.unvisited visited := unvisited_lt hs h
      let successors := (a.transitions s).map Prod.snd
      -- In reverse, for the first successor is to be visited first.
      explore a (visited ++ [s])
        ((successors.filter (· ∉ visited ++ [s])).reverse ++ stack)
    else .error s
  termination_by stack => (a.unvisited visited, stack.length)

/-- The reachable states in the order of a depth-first search. -/
def reachable (a : Automaton) : Except StateId (List StateId) :=
  a.explore [] a.initialStates.reverse

/-- The ends of the transitions on `e` that leave the given states. -/
def occurrences (a : Automaton) (e : Event) (states : List StateId) : List (StateId × StateId) :=
  states.flatMap fun s =>
    ((a.transitions s).filter (·.1 = e)).map fun (_, t) => (s, t)

/-- Lead the transition from `s` to `t` through a new state, from which
`record` leads on. -/
def detour (a : Automaton) (e record : Event) (ends : StateId × StateId) : Automaton :=
  let (s, t) := ends
  let middle := a.size
  (((a.removeTransition s e t).addState false false).addTransition s e middle).addTransition
    middle record t

/-- Lead every reachable transition on `e` through a new state of its
own. -/
def trace (a : Automaton) (e record : Event) : Except StateId Automaton := do
  return (a.occurrences e (← a.reachable)).foldl (detour · e record) a

end Automaton

namespace System

/-- The tracer channel of number `k` at a process. -/
def tracerChannel (sys : System) (k : Nat) (pid : ProcessId) : Channel :=
  ⟨pid, pid, sys.firstTracer + k, some s!"tracer{k}"⟩

/-- Trace one event on the tracer channel of number `k`. -/
def traceEvent (sys : System) (k : Nat) (e : Event) : Except SystemError System :=
  match sys.automaton? e.pid with
  | none => .error (.processOutOfRange e.pid sys.processes)
  | some a =>
    match a.trace e (.send (sys.tracerChannel k e.pid) e.tracerLabel) with
    | .error s => .error (.missingState e.pid s)
    | .ok a => .ok { sys with automata := sys.automata.set e.pid a }

/-- Trace an invariant. All its events must belong to processes of the
system, and it must not be traced yet. Its tracer channel gets the next
free index. -/
def trace (sys : System) (inv : Invariant) : Except SystemError (System × Nat) := do
  if sys.tracers.contains inv then .error (.alreadyTraced inv)
  inv.events.forM fun e =>
    if e.pid < sys.processes then .ok () else .error (.processOutOfRange e.pid sys.processes)
  let k := sys.tracers.size
  let traced ← inv.events.foldlM (fun sys e => sys.traceEvent k e) sys
  let channel := sys.tracerChannel k inv.first.pid
  return ({ traced with tracers := sys.tracers.insert inv channel }, channel.index)

def traceAll (sys : System) (invs : List Invariant) : Except SystemError System :=
  invs.foldlM (fun sys inv => (sys.trace inv).map Prod.fst) sys

end System

end ProtocolInference
