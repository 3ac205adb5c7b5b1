import ProtocolInference.System.Layout

/-!
Reading a description.

A description comes to the external checker as a text. The text falls into
lines, a line into words, and the first word of a line tells what the line is
about. What a description declares and what it uses is read off line by line;
the lines that name the system and its channels say nothing.

Those lines print names as they were given. A name that has line breaks in it
begins new lines, and they are read as any others.
-/

namespace ProtocolInference

/-- The pieces of a text between the places where the character stands. -/
def pieces (c : Char) (text : String) : List String :=
  (text.toList.splitOn c).map String.ofList

/-- The lines of a text. Behind a line break at the end there is one more line,
which is empty. -/
def textLines (text : String) : List String := pieces '\n' text

/-- What a line of a description says. -/
inductive Statement
  | channelCount (count : Nat)
  | parameter (label : String)
  | automaton (pid : ProcessId)
  | initial (states : List StateId)
  | state (number : StateId)
  | transition (line : TransitionLine)
  deriving DecidableEq, Repr

/-- The number that a word of decimal digits denotes. -/
def readNumber (word : String) : Option Nat :=
  if word.toList.isEmpty || !word.toList.all Char.isDigit then none
  else some (Nat.ofDigitChars 10 word.toList 0)

/-- The process in the name of an automaton. -/
def readProcess (word : String) : Option ProcessId :=
  match word.toList with
  | 'p' :: digits => readNumber (String.ofList digits)
  | _ => none

def Action.ofWords : List String → Option Action
  | [label, ";"] => some (.internal label)
  | [channel, "!", label, ";"] => (readNumber channel).map (.send · label)
  | [channel, "?", label, ";"] => (readNumber channel).map (.receive · label)
  | _ => none

namespace Statement

def ofWords : List String → Option Statement
  | ["nb_channels", "=", count, ";"] => (readNumber count).map .channelCount
  | ["real", label, ";"] => some (.parameter label)
  | ["automaton", process, ":"] => (readProcess process).map .automaton
  | "initial" :: ":" :: states => some (.initial (states.filterMap readNumber))
  | ["state", number, ":"] => (readNumber number).map .state
  | "to" :: target :: ":" :: "when" :: "true" :: "," :: action => do
    return .transition ⟨← readNumber target, ← Action.ofWords action⟩
  | _ => none

def ofLine (line : String) : Option Statement := ofWords (pieces ' ' line)

end Statement

/-- What the lines of a text say. -/
def statements (text : String) : List Statement := (textLines text).filterMap Statement.ofLine

/-- Whether the line is one that declares a label. -/
def isDeclaration (line : String) : Bool := "real ".toList.isPrefixOf line.toList

/-- The lines of a text that declare labels. -/
def declarations (text : String) : List String := (textLines text).filter isDeclaration

/-! ### Putting the parts together -/

/-- What a description declares and uses: a layout without names. -/
structure Parts where
  channelCount : Nat
  parameters : List String
  automata : List AutomatonBlock
  deriving DecidableEq

def Layout.parts (d : Layout) : Parts := ⟨d.channels.length, d.parameters, d.automata⟩

/-- A description that has been read from its end up to some line, with the states
and lines for which the beginning of the block is still to come. -/
structure Reading where
  parts : Parts
  initial : List StateId
  states : List StateBlock
  lines : List TransitionLine

namespace Reading

def empty : Reading := ⟨⟨0, [], []⟩, [], [], []⟩

/-- Read the line above. -/
def above : Statement → Reading → Reading
  | .channelCount count, r => { r with parts.channelCount := count }
  | .parameter label, r => { r with parts.parameters := label :: r.parts.parameters }
  | .automaton pid, r =>
    { r with parts.automata := ⟨pid, r.initial, r.states⟩ :: r.parts.automata
             initial := []
             states := [] }
  | .initial states, r => { r with initial := states }
  | .state number, r => { r with states := ⟨number, r.lines⟩ :: r.states, lines := [] }
  | .transition line, r => { r with lines := line :: r.lines }

end Reading

/-- The parts of the description that the text gives. -/
def readParts (text : String) : Parts :=
  ((statements text).foldr Reading.above .empty).parts

/-! ### What is printed -/

/-- The text has a single line. -/
def IsOneLine (text : String) : Prop := '\n' ∉ text.toList

instance (text : String) : Decidable (IsOneLine text) := inferInstanceAs (Decidable (_ ∉ _))

def Channel.printed (c : Channel) : String := "channel " ++ toString c.index ++ " : " ++ c.text

def printedParameter (label : String) : String := "real " ++ label ++ " ;"

def TransitionLine.printed (l : TransitionLine) : String :=
  "to " ++ toString l.target ++ " : when true , " ++ l.action.text ++ " ;"

def StateBlock.printed (b : StateBlock) : List String :=
  ("state " ++ toString b.number ++ " :") :: b.lines.map TransitionLine.printed

def AutomatonBlock.printed (b : AutomatonBlock) : List String :=
  ["automaton p" ++ toString b.pid ++ " :",
      "initial : " ++ String.intercalate " , " (b.initial.map toString)] ++
    b.states.flatMap StateBlock.printed ++ [""]

namespace Layout

/-- The line that names the system. -/
def title (d : Layout) : String := "scm " ++ d.name ++ ":"

/-- The lines between the name of the system and the channels. -/
def head (d : Layout) : List String :=
  ["", "nb_channels = " ++ toString d.channels.length ++ " ;", "/*"]

/-- The lines below the channels. -/
def body (d : Layout) : List String :=
  ["*/", "", "parameters :"] ++ d.parameters.map printedParameter ++ ["", "lossy: 0", ""] ++
    d.automata.flatMap AutomatonBlock.printed

end Layout

/-! ### What is said -/

def StateBlock.statements (b : StateBlock) : List Statement :=
  .state b.number :: b.lines.map .transition

def AutomatonBlock.statements (b : AutomatonBlock) : List Statement :=
  .automaton b.pid :: .initial b.initial :: b.states.flatMap StateBlock.statements

/-- The lines of the text say what the layout says, and besides only what the names
of the system and of the channels say. -/
structure Layout.IsShownBy (d : Layout) (text : String) : Prop where
  statements_eq : statements text =
    statements d.title ++ [.channelCount d.channels.length] ++
      (d.channels.flatMap fun c => statements c.printed) ++
      (d.parameters.map .parameter ++ d.automata.flatMap AutomatonBlock.statements)
  declarations_eq : declarations text =
    declarations d.title ++ (d.channels.flatMap fun c => declarations c.printed) ++
      d.parameters.map printedParameter

end ProtocolInference
