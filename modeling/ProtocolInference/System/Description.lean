import ProtocolInference.System.BadState

/-!
The description of a system for the external reachability checker.

A description names the system, gives the number of channels with their
printed forms in a comment, declares every message label once, says that
no message is lost, and then lists the automata state by state. Where bad
states are asked for, they follow in a section of their own.
-/

namespace ProtocolInference

def Automaton.describeState (a : Automaton) (s : StateId) : String :=
  s!"state {s} :\n" ++
    String.join ((a.transitions s).map fun (e, t) =>
      s!"to {t} : when true , " ++ e.action ++ " ;\n")

def Automaton.describe (a : Automaton) : String :=
  "initial : " ++ String.intercalate " , " (a.initialStates.map toString) ++ "\n" ++
    String.join ((List.range a.size).map a.describeState)

def BadState.describe (b : BadState) : String :=
  let automata := b.states.mapIdx fun pid s => s!"automaton p{pid}: in {s}: true"
  "(" ++ String.intercalate "\n " automata ++ "\nwith " ++
    String.intercalate " ; " (b.queues.map QueueConstraint.text) ++ ")\n"

def describeBadStates (bad : List BadState) : String :=
  "bad_states:\n" ++ String.join (bad.map BadState.describe)

namespace System

/-- The labels that a description declares, in the order of first use. -/
def messageLabels (sys : System) : OrderedSet String :=
  .ofList (sys.alphabet.toList.map Event.messageLabel)

/-- The description without bad states. -/
def describe (sys : System) (name : String) : String :=
  let channels := sys.allChannels
  "scm " ++ name ++ ":\n\n" ++
    s!"nb_channels = {channels.length} ;\n" ++
    "/*\n" ++
    String.join (channels.map fun c => s!"channel {c.index} : " ++ c.text ++ "\n") ++
    "*/\n\n" ++
    "parameters :\n" ++
    String.join (sys.messageLabels.toList.map fun label => "real " ++ label ++ " ;\n") ++
    "\nlossy: 0\n\n" ++
    String.join (sys.automata.map fun a =>
      s!"automaton p{a.pid} :\n" ++ a.describe ++ "\n")

/-- The description with the bad states of a traced invariant. -/
def describeWithBadStates (sys : System) (name : String) (inv : Invariant) :
    Except SystemError String := do
  return sys.describe name ++ describeBadStates (← sys.badStates inv)

end System

end ProtocolInference
