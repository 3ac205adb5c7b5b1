import ProtocolInference.System.Description

/-!
The parts of a description.

A description is a text, but what is to be said of it concerns its parts:
the labels that are declared, the transitions with the labels they use and
the channels they name, the states that they lead to. Here the same
description is put together from its parts; that the text is the same is
`describe_eq_text`.
-/

namespace ProtocolInference

/-- What a transition does. -/
inductive Action
  | internal (label : String)
  | send (channel : Nat) (label : String)
  | receive (channel : Nat) (label : String)
  deriving DecidableEq, Repr

namespace Action

def label : Action → String
  | internal label => label
  | send _ label => label
  | receive _ label => label

def channel? : Action → Option Nat
  | internal _ => none
  | send channel _ => some channel
  | receive channel _ => some channel

def text : Action → String
  | internal label => label
  | send channel label => toString channel ++ " ! " ++ label
  | receive channel label => toString channel ++ " ? " ++ label

end Action

def Event.toAction : Event → Action
  | internal pid name => .internal (identifier name ++ "_p" ++ toString pid)
  | send channel payload => .send channel.index (identifier payload)
  | receive channel payload => .receive channel.index (identifier payload)

structure TransitionLine where
  target : StateId
  action : Action
  deriving DecidableEq, Repr

def TransitionLine.text (l : TransitionLine) : String :=
  s!"to {l.target} : when true , " ++ l.action.text ++ " ;\n"

structure StateBlock where
  number : StateId
  lines : List TransitionLine
  deriving DecidableEq, Repr

def StateBlock.text (b : StateBlock) : String :=
  s!"state {b.number} :\n" ++ String.join (b.lines.map TransitionLine.text)

structure AutomatonBlock where
  pid : ProcessId
  initial : List StateId
  states : List StateBlock
  deriving DecidableEq, Repr

def AutomatonBlock.text (b : AutomatonBlock) : String :=
  s!"automaton p{b.pid} :\n" ++
    ("initial : " ++ String.intercalate " , " (b.initial.map toString) ++ "\n" ++
      String.join (b.states.map StateBlock.text)) ++ "\n"

structure Layout where
  name : String
  /-- The channels that are counted, and named in the comment. -/
  channels : List Channel
  /-- The labels that are declared, each by a line `real`. -/
  parameters : List String
  automata : List AutomatonBlock

namespace Layout

def text (d : Layout) : String :=
  "scm " ++ d.name ++ ":\n\n" ++
    s!"nb_channels = {d.channels.length} ;\n" ++
    "/*\n" ++
    String.join (d.channels.map fun c => s!"channel {c.index} : " ++ c.text ++ "\n") ++
    "*/\n\n" ++
    "parameters :\n" ++
    String.join (d.parameters.map fun label => "real " ++ label ++ " ;\n") ++
    "\nlossy: 0\n\n" ++
    String.join (d.automata.map AutomatonBlock.text)

def lines (d : Layout) : List TransitionLine :=
  d.automata.flatMap fun a => a.states.flatMap (·.lines)

/-- The description uses what it declares and nothing else: the states to which
transitions lead, the channels and the labels. -/
structure IsConsistent (d : Layout) : Prop where
  target_mem : ∀ a ∈ d.automata, ∀ s ∈ a.states, ∀ l ∈ s.lines,
    ∃ s' ∈ a.states, s'.number = l.target
  channel_lt : ∀ l ∈ d.lines, ∀ c, l.action.channel? = some c → c < d.channels.length
  declared_once : ∀ l ∈ d.lines, d.parameters.count l.action.label = 1
  used : ∀ label ∈ d.parameters, ∃ l ∈ d.lines, l.action.label = label
  isIdentifier : ∀ label ∈ d.parameters, IsIdentifier label

end Layout

/-! ### The layout of a system -/

def Automaton.stateBlock (a : Automaton) (s : StateId) : StateBlock :=
  ⟨s, (a.transitions s).map fun (e, t) => ⟨t, e.toAction⟩⟩

def Automaton.block (a : Automaton) : AutomatonBlock :=
  ⟨a.pid, a.initialStates, (List.range a.size).map a.stateBlock⟩

def System.layout (sys : System) (name : String) : Layout :=
  ⟨name, sys.allChannels, sys.messageLabels.toList, sys.automata.map (·.block)⟩

/-! ### The text -/

theorem Event.text_toAction (e : Event) : e.toAction.text = e.action := by
  cases e <;> rfl

theorem Event.label_toAction (e : Event) : e.toAction.label = e.messageLabel := by
  cases e <;> rfl

theorem Automaton.text_stateBlock (a : Automaton) (s : StateId) :
    (a.stateBlock s).text = a.describeState s := by
  have hlines : (a.stateBlock s).lines.map TransitionLine.text =
      (a.transitions s).map fun (e, t) => s!"to {t} : when true , " ++ e.action ++ " ;\n" := by
    refine List.map_map.trans (List.map_congr_left fun ⟨e, t⟩ _ => ?_)
    show s!"to {t} : when true , " ++ e.toAction.text ++ " ;\n" = _
    rw [Event.text_toAction]
  exact congrArg (fun lines => s!"state {s} :\n" ++ String.join lines) hlines

theorem Automaton.text_block (a : Automaton) :
    a.block.text = s!"automaton p{a.pid} :\n" ++ a.describe ++ "\n" := by
  have hstates : a.block.states.map StateBlock.text = (List.range a.size).map a.describeState :=
    List.map_map.trans (List.map_congr_left fun s _ => a.text_stateBlock s)
  exact congrArg (fun states => s!"automaton p{a.pid} :\n" ++
    ("initial : " ++ String.intercalate " , " (a.initialStates.map toString) ++ "\n" ++
      String.join states) ++ "\n") hstates

/-- The parts make up the description. -/
theorem System.describe_eq_text (sys : System) (name : String) :
    sys.describe name = (sys.layout name).text := by
  have hautomata : (sys.layout name).automata.map AutomatonBlock.text =
      sys.automata.map fun a => s!"automaton p{a.pid} :\n" ++ a.describe ++ "\n" :=
    List.map_map.trans (List.map_congr_left fun a _ => a.text_block)
  exact congrArg (fun automata => _ ++ String.join automata) hautomata.symm

end ProtocolInference
