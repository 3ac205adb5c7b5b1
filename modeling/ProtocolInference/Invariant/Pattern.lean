import ProtocolInference.Event.Label
import ProtocolInference.Invariant

/-!
What a tracer channel holds when an invariant is violated.

A tracer channel records the events of one invariant, each as its tracer
label and those of a process in their order. Which records witness a
violation is a regular expression over the two labels, and this module
holds the expressions, the words that they denote (`Pattern.Matches`) and
their printed form.

Time leaves no trace on a tracer channel, so the expressions are those of
the invariant without its bound.
-/

namespace ProtocolInference

/-- A regular expression over message labels. -/
inductive Pattern
  | label (l : String)
  | either (p q : Pattern)
  | star (p : Pattern)
  | sequence (p q : Pattern)
  deriving DecidableEq

namespace Pattern

/-- The words of labels that an expression denotes. -/
inductive Matches : Pattern → List String → Prop
  | label (l : String) : Matches (label l) [l]
  | left {p q : Pattern} {w : List String} : Matches p w → Matches (either p q) w
  | right {p q : Pattern} {w : List String} : Matches q w → Matches (either p q) w
  | stop {p : Pattern} : Matches (star p) []
  | more {p : Pattern} {v w : List String} :
      Matches p v → Matches (star p) w → Matches (star p) (v ++ w)
  | sequence {p q : Pattern} {v w : List String} :
      Matches p v → Matches q w → Matches (sequence p q) (v ++ w)

/-- The printed form. A choice stands in parentheses, and everything else
that is starred here is a choice, so no other parentheses are needed. -/
def text : Pattern → String
  | label l => l
  | either p q => "(" ++ p.text ++ " | " ++ q.text ++ ")"
  | star p => p.text ++ "^*"
  | sequence p q => p.text ++ " . " ++ q.text

def labels : Pattern → List String
  | label l => [l]
  | either p q => p.labels ++ q.labels
  | star p => p.labels
  | sequence p q => p.labels ++ q.labels

end Pattern

inductive QueueConstraint
  /-- The channel is empty. -/
  | empty
  /-- The channel holds anything. -/
  | anything
  /-- The contents match the expression. -/
  | pattern (p : Pattern)
  deriving DecidableEq

namespace QueueConstraint

def Admits : QueueConstraint → List String → Prop
  | empty, w => w = []
  | anything, _ => True
  | pattern p, w => p.Matches w

def text : QueueConstraint → String
  | empty => "_"
  | anything => ".*"
  | pattern p => p.text

/-- The labels that stand in the printed form. -/
def labels : QueueConstraint → List String
  | empty => []
  | anything => []
  | pattern p => p.labels

end QueueConstraint

/-- The contents of the invariant's tracer channel that witness a
violation. -/
def Invariant.violation (inv : Invariant) : QueueConstraint :=
  let a := Pattern.label inv.first.tracerLabel
  let b := Pattern.label inv.second.tracerLabel
  let any := Pattern.star (.either a b)
  match inv.relation with
  | .alwaysFollowedBy => .pattern (.sequence any a)
  | .neverFollowedBy =>
    .pattern (.sequence any (.sequence a (.sequence any (.sequence b any))))
  | .alwaysPrecedes => .pattern (.sequence b any)
  | .eventually => .empty

end ProtocolInference
