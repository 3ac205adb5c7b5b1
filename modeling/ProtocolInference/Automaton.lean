import ProtocolInference.Event.Label
import ProtocolInference.Ordered.Map
import ProtocolInference.Ordered.Set
import ProtocolInference.Tags

/-!
Nondeterministic finite automata over events.

An automaton describes one process. Its states are numbered from zero in
the order in which they were added, and the numbers are those of the
printed description. Out of each state lead transitions, grouped by their
event; events and targets keep the order in which they were added.

Nothing requires that the target of a transition be a state of the
automaton; where it matters, `Automaton.IsClosed` says so. To change the
transitions of a state that does not exist is no change at all.

`Automaton.Run` is the language side: the sequences of events along which
one state leads to another.
-/

namespace ProtocolInference

/-- The number of a state in its automaton. -/
abbrev StateId := Nat

/-- A state, with the transitions that leave it. -/
structure AutomatonState where
  initial : Bool
  accepting : Bool
  out : OrderedMap Event (OrderedSet StateId)
  deriving DecidableEq, Inhabited

namespace AutomatonState

def targets (st : AutomatonState) (e : Event) : OrderedSet StateId := (st.out.get? e).getD ∅

/-- The transitions, grouped by event. -/
def transitions (st : AutomatonState) : List (Event × StateId) :=
  st.out.entries.flatMap fun (e, targets) => targets.toList.map fun t => (e, t)

def addTransition (st : AutomatonState) (e : Event) (t : StateId) : AutomatonState :=
  { st with out := st.out.alter e fun targets => some ((targets.getD ∅).insert t) }

/-- Remove a transition; an event without targets goes too. -/
def removeTransition (st : AutomatonState) (e : Event) (t : StateId) : AutomatonState :=
  { st with out := st.out.alter e fun targets =>
      (targets.map (·.erase t)).filter (!·.isEmpty) }

end AutomatonState

structure Automaton where
  pid : ProcessId
  states : List AutomatonState
  deriving DecidableEq, Inhabited

namespace Automaton

def empty (pid : ProcessId) : Automaton := ⟨pid, []⟩

/-! ### Building -/

/-- Add a state behind all others; its number is the number of states
before. -/
def addState (a : Automaton) (initial accepting : Bool) : Automaton :=
  { a with states := a.states ++ [⟨initial, accepting, ∅⟩] }

def addTransition (a : Automaton) (s : StateId) (e : Event) (t : StateId) : Automaton :=
  { a with states := a.states.modify s (·.addTransition e t) }

def removeTransition (a : Automaton) (s : StateId) (e : Event) (t : StateId) : Automaton :=
  { a with states := a.states.modify s (·.removeTransition e t) }

/-! ### Looking -/

def state? (a : Automaton) (s : StateId) : Option AutomatonState := a.states[s]?

def size (a : Automaton) : Nat := a.states.length

def transitions (a : Automaton) (s : StateId) : List (Event × StateId) :=
  match a.state? s with
  | some st => st.transitions
  | none => []

def transitionCount (a : Automaton) : Nat := (a.states.flatMap (·.transitions)).length

/-- The numbers of the states that satisfy `p`. -/
def statesWhere (a : Automaton) (p : AutomatonState → Bool) : List StateId :=
  (List.range a.size).filter fun s => (a.state? s).any p

def initialStates (a : Automaton) : List StateId := a.statesWhere (·.initial)

def acceptingStates (a : Automaton) : List StateId := a.statesWhere (·.accepting)

def isInitial (a : Automaton) (s : StateId) : Bool := (a.state? s).any (·.initial)

def isAccepting (a : Automaton) (s : StateId) : Bool := (a.state? s).any (·.accepting)

/-- The events on transitions, in the order of the states. -/
def alphabet (a : Automaton) : OrderedSet Event :=
  .ofList (a.states.flatMap (·.out.keys))

/-! ### Language -/

def Step (a : Automaton) (s : StateId) (e : Event) (t : StateId) : Prop :=
  (e, t) ∈ a.transitions s

/-- The automaton can go from `s` to `t` along the events. -/
inductive Run (a : Automaton) : StateId → List Event → StateId → Prop
  | stay (s : StateId) : Run a s [] s
  | step {s t u : StateId} {e : Event} {es : List Event} :
      a.Step s e t → Run a t es u → Run a s (e :: es) u

/-- The automaton can get to the state. -/
def IsReachable (a : Automaton) (s : StateId) : Prop :=
  ∃ start es, a.isInitial start = true ∧ a.Run start es s

/-- The event is on a transition out of a state that the automaton can get to. -/
def Occurs (a : Automaton) (e : Event) : Prop := ∃ s t, a.IsReachable s ∧ a.Step s e t

/-- Every transition leads to a state of the automaton. -/
def IsClosed (a : Automaton) : Prop := ∀ s e t, a.Step s e t → t < a.size

/-- The automaton accepts the events: they lead from an initial to an
accepting state. -/
def Accepts (a : Automaton) (es : List Event) : Prop :=
  ∃ s t, a.isInitial s ∧ a.Run s es t ∧ a.isAccepting t

/-! ### Printing -/

def stateText (a : Automaton) (s : StateId) : String :=
  let tags := (if a.isInitial s then ["initial"] else []) ++
    (if a.isAccepting s then ["accept"] else [])
  s!"  s{s}" ++ tagsText tags ++ "\n" ++
    String.join ((a.transitions s).map fun (e, t) => "    --" ++ e.text ++ s!"--> s{t}\n")

def text (a : Automaton) : String :=
  s!"FSM p{a.pid}:\n" ++ String.join ((List.range a.size).map a.stateText)

end Automaton

end ProtocolInference
