import ProtocolInference.Partition.StateNames
import ProtocolInference.Trace

/-!
Observed states.

A trace with `n` events passes through `n + 1` states of its process.
Each of them is an *observation*: a state at one position of one trace,
linked to the observations before and behind it. The observations of all
traces form one list, the arena, in which they are known by position, and
which is never changed once it is built.
-/

namespace ProtocolInference

/-- The position of an observation in the arena. -/
abbrev ObservationId := Nat

/-- The state of a process at one position of one trace. -/
structure Observation where
  pid : ProcessId
  name : String
  /-- Whether the trace begins here. -/
  initial : Bool
  /-- Whether the trace ends here. -/
  terminal : Bool
  /-- The event that leaves this state in the trace, and where it leads. -/
  next : Option (Event × ObservationId)
  /-- The event that led to this state, and where it came from. -/
  prev : Option (Event × ObservationId)
  deriving DecidableEq, Inhabited

/-- The observations from position `here` of the arena on, of the rest of
a trace with the given state names and events. -/
def observeFrom (pid : ProcessId) (here : ObservationId) (prev : Option (Event × ObservationId)) :
    List String → List Event → List Observation
  | [], _ => []
  | name :: _, [] => [⟨pid, name, prev.isNone, true, none, prev⟩]
  | name :: names, e :: events =>
    ⟨pid, name, prev.isNone, false, some (e, here + 1), prev⟩ ::
      observeFrom pid (here + 1) (some (e, here)) names events

namespace ProcessTrace

def length (t : ProcessTrace) : Nat := t.events.length + 1

/-- The state names that the trace gives, as far as it has use for them. -/
def givenNames (t : ProcessTrace) : List String := (t.stateNames.getD []).take t.length

/-- The names of all states of the trace: those it gives, and generated
ones behind them. -/
def allNames (t : ProcessTrace) (names : StateNames) : List String :=
  t.givenNames ++ names.upcoming (t.length - t.givenNames.length)

/-- The observations of the trace, from position `here` of the arena on. -/
def observe (t : ProcessTrace) (here : ObservationId) (names : StateNames) : List Observation :=
  observeFrom t.pid here none (t.allNames names) (t.events.map (·.event))

end ProcessTrace

/-- Observe traces one after the other, behind the observations that are
already there. -/
def observeAll (traces : List ProcessTrace) (names : StateNames) (arena : List Observation) :
    List Observation × StateNames :=
  match traces with
  | [] => (arena, names)
  | t :: rest =>
    observeAll rest (names.advance (t.length - t.givenNames.length))
      (arena ++ t.observe arena.length names)

end ProtocolInference
