import ProtocolInference.Event

/-!
The labels under which events appear in a system description.

The external checker reads identifiers made of ASCII letters, digits and
underscores. `identifier` brings an arbitrary name into that form, and
three kinds of label are built from it: the message label that a
description declares, the action that a transition performs, and the
tracer label that records an event on a tracer channel. A tracer label
ends in a mark that tells the kind of event and its process or channel,
so that it can be read from the right: the mark decides what the event
was, and what stands before the mark is the name.
-/

namespace ProtocolInference

/-- The characters of `name` with everything but ASCII letters and digits
replaced by an underscore, and an `m` put in front where the result would
be empty or start with a digit. -/
def identifierChars (name : List Char) : List Char :=
  match name.map fun c => if c.isAlphanum then c else '_' with
  | [] => ['m']
  | c :: rest => if c.isDigit then 'm' :: c :: rest else c :: rest

/-- An identifier that the external checker accepts, as close to the name
as possible. -/
def identifier (name : String) : String := String.ofList (identifierChars name.toList)

/-- A character that the external checker reads as part of an identifier. -/
def IsWordChar (c : Char) : Prop := c.isAlphanum = true ∨ c = '_'

/-- The external checker reads the label as one identifier: it is made of ASCII
letters, digits and underscores, is not empty, and does not start with a
digit. -/
def IsIdentifier (label : String) : Prop :=
  (∀ c ∈ label.toList, IsWordChar c) ∧
    ∃ first rest, label.toList = first :: rest ∧ first.isDigit = false

namespace Event

/-- The label that the description declares for the event. An internal
event carries its process, so that equal names of different processes
stay apart; a message is known by its payload alone. -/
def messageLabel : Event → String
  | internal pid name => identifier name ++ "_p" ++ toString pid
  | send _ payload => identifier payload
  | receive _ payload => identifier payload

/-- The label that records the event on a tracer channel. -/
def tracerLabel : Event → String
  | internal pid name => identifier name ++ "_p" ++ toString pid
  | send channel payload => identifier payload ++ "_c" ++ toString channel.index ++ "s"
  | receive channel payload => identifier payload ++ "_c" ++ toString channel.index ++ "r"

/-- What a transition does in the description. -/
def action : Event → String
  | internal pid name => identifier name ++ "_p" ++ toString pid
  | send channel payload => toString channel.index ++ " ! " ++ identifier payload
  | receive channel payload => toString channel.index ++ " ? " ++ identifier payload

end Event

end ProtocolInference
