import ProtocolInference.Document.Event
import ProtocolInference.Json.Kept

/-!
The JSON form of invariants documents.

A document is a list of invariants. The first event is left out where
there is none, and a bound that is missing is written as null.
-/

namespace ProtocolInference

open Json

def Relation.documentNames : List (String × Relation) :=
  [("afby", .alwaysFollowedBy), ("nfby", .neverFollowedBy), ("ap", .alwaysPrecedes),
    ("eventually", .eventually)]

def Relation.toJson : Relation → Json
  | alwaysFollowedBy => .string "afby"
  | neverFollowedBy => .string "nfby"
  | alwaysPrecedes => .string "ap"
  | eventually => .string "eventually"

def Relation.ofJson? (v : Json) : Option Relation := v.oneOf? Relation.documentNames

def Bound.toJson : Bound → Json
  | atMost limit => .object [("upper", .natural limit)]
  | atLeast limit => .object [("lower", .natural limit)]

def Bound.ofJson? (v : Json) : Option Bound := do
  match ← v.alternative? with
  | ("upper", content) => return .atMost (← required nat? content)
  | ("lower", content) => return .atLeast (← required nat? content)
  | _ => none

def InvariantSpec.toJson (spec : InvariantSpec) : Json :=
  .object <|
    [("kind", spec.relation.toJson)] ++
      (spec.first.map fun first => ("first", first.toJson)).toList ++
      [("second", spec.second.toJson),
        ("constraint", (spec.bound.map Bound.toJson).getD .null)]

/-- How many arrays and objects there are around an event: the document and
one of its invariants. -/
def InvariantSpec.nesting : Nat := 2

def InvariantSpec.ofJson? (v : Json) : Option InvariantSpec := do
  let [kind, first, second, constraint] ←
    v.record? ["kind", "first", "second", "constraint"] | none
  return {
    relation := ← required Relation.ofJson? kind
    first := ← optional (kept InvariantSpec.nesting EventSpec.ofJson?) first
    second := ← required (kept InvariantSpec.nesting EventSpec.ofJson?) second
    bound := ← optional Bound.ofJson? constraint }

end ProtocolInference
