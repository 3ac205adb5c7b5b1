import ProtocolInference.Automaton
import ProtocolInference.Invariant.Pattern

/-!
Systems of communicating automata.

A system has one automaton per process and a list of channels, each at
the position of its index. It is put together in a `Draft`, which takes
the automata in any order and refuses those that speak of processes or
channels that the system does not have; a draft with an automaton for
every process becomes a `System`.

Besides its real channels a system has tracer channels, one for each
invariant that it traces. They are numbered on from the real ones.
-/

namespace ProtocolInference

inductive SystemError
  | processOutOfRange (pid : ProcessId) (processes : Nat)
  | duplicateProcess (pid : ProcessId)
  | eventOutOfRange (pid : ProcessId) (event : Event)
  | unknownChannel (pid : ProcessId) (index : Nat)
  | channelIndexGap (position index : Nat)
  | unspecified (missing : List ProcessId)
  | alreadyTraced (inv : Invariant)
  | notTraced (inv : Invariant)
  /-- A transition leads to a state that the automaton does not have. -/
  | missingState (pid : ProcessId) (state : StateId)
  deriving DecidableEq

def SystemError.message : SystemError → String
  | processOutOfRange pid processes =>
    s!"process id {pid} out of range for {processes} processes"
  | duplicateProcess pid => s!"process {pid} already has an automaton"
  | eventOutOfRange pid event =>
    s!"automaton of process {pid} uses event {event.text} outside the system"
  | unknownChannel pid index => s!"automaton of process {pid} uses undeclared channel {index}"
  | channelIndexGap position index =>
    s!"channel at position {position} has index {index}; indices must be 0..n in order"
  | unspecified missing =>
    "processes [" ++ String.intercalate ", " (missing.map toString) ++ "] have no automaton"
  | alreadyTraced inv => s!"invariant {inv.text} is already traced"
  | notTraced inv => s!"invariant {inv.text} is not traced"
  | missingState pid state => s!"automaton of process {pid} has no state {state}"

/-- A system whose channels and traced invariants are known, with one
automaton per process, in the order of the processes. -/
structure System where
  /-- The real channels. -/
  channels : List Channel
  automata : List Automaton
  /-- The traced invariants with their tracer channels. -/
  tracers : OrderedMap Invariant Channel
  deriving DecidableEq, Inhabited

/-! ### Drafts -/

structure Draft where
  processes : Nat
  channels : List Channel
  automata : List Automaton
  deriving DecidableEq, Inhabited

namespace Draft

/-- Whether the processes that the event names are processes of the
system. -/
def isInRange (d : Draft) (e : Event) : Bool :=
  match e with
  | .internal pid _ => pid < d.processes
  | .send c _ => c.src < d.processes && c.dst < d.processes
  | .receive c _ => c.src < d.processes && c.dst < d.processes

/-- The check of one event in the automaton of process `pid`. -/
def checkEvent (d : Draft) (pid : ProcessId) (e : Event) : Except SystemError Unit :=
  if !d.isInRange e then .error (.eventOutOfRange pid e)
  else
    match e.channel? with
    | some c =>
      if d.channels.any (·.index = c.index) then .ok ()
      else .error (.unknownChannel pid c.index)
    | none => .ok ()

def automaton? (d : Draft) (pid : ProcessId) : Option Automaton :=
  d.automata.find? (·.pid = pid)

def add (d : Draft) (a : Automaton) : Except SystemError Draft := do
  if d.processes ≤ a.pid then .error (.processOutOfRange a.pid d.processes)
  if (d.automaton? a.pid).isSome then .error (.duplicateProcess a.pid)
  a.alphabet.toList.forM (d.checkEvent a.pid)
  return { d with automata := d.automata ++ [a] }

/-- The processes that have no automaton yet. -/
def missing (d : Draft) : List ProcessId :=
  (List.range d.processes).filter fun pid => (d.automaton? pid).isNone

/-- The first channel that is not at the position of its index, with that
position. -/
def misplaced? (position : Nat) : List Channel → Option (Nat × Channel)
  | [] => none
  | c :: rest => if c.index = position then misplaced? (position + 1) rest else some (position, c)

/-- The system, once every process has its automaton. Descriptions number
channels by position, so the indices have to be the positions. -/
def finish (d : Draft) : Except SystemError System :=
  if !d.missing.isEmpty then .error (.unspecified d.missing)
  else
    match misplaced? 0 d.channels with
    | some (position, c) => .error (.channelIndexGap position c.index)
    | none => .ok ⟨d.channels, (List.range d.processes).filterMap d.automaton?, ∅⟩

end Draft

/-- The system has been put together from automata, one for each process,
and no invariant is traced in it yet. -/
def System.IsFinished (sys : System) : Prop :=
  ∃ (processes : Nat) (channels : List Channel) (automata : List Automaton) (draft : Draft),
    automata.foldlM Draft.add ⟨processes, channels, []⟩ = .ok draft ∧ draft.finish = .ok sys

/-! ### Queries -/

/-- All ways to choose one element of each list, in lexicographic order. -/
def choices {α : Type} : List (List α) → List (List α)
  | [] => [[]]
  | l :: rest => l.flatMap fun a => (choices rest).map (a :: ·)

namespace System

def processes (sys : System) : Nat := sys.automata.length

def automaton? (sys : System) (pid : ProcessId) : Option Automaton := sys.automata[pid]?

/-- The real channels, and the tracer channels behind them. -/
def allChannels (sys : System) : List Channel := sys.channels ++ sys.tracers.values

/-- The index from which on channels are tracer channels. -/
def firstTracer (sys : System) : Nat := sys.channels.length

def isTracer (sys : System) (c : Channel) : Bool := sys.firstTracer ≤ c.index

def isTracerEvent (sys : System) (e : Event) : Bool := e.channel?.any sys.isTracer

/-- The events that do not happen on tracer channels. -/
def withoutTracers (sys : System) (es : List Event) : List Event :=
  es.filter fun e => !sys.isTracerEvent e

def alphabet (sys : System) : OrderedSet Event :=
  .ofList (sys.automata.flatMap (·.alphabet.toList))

/-- The global states in which every automaton is in an initial state. -/
def initialStates (sys : System) : List (List StateId) :=
  choices (sys.automata.map (·.initialStates))

/-- The global states in which every automaton is in an accepting state. -/
def acceptingStates (sys : System) : List (List StateId) :=
  choices (sys.automata.map (·.acceptingStates))

/-- The traced invariants in the order in which they were traced. -/
def traced (sys : System) : List Invariant := sys.tracers.keys

end System

end ProtocolInference
