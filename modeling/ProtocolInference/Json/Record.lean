import ProtocolInference.Json
import ProtocolInference.Word

/-!
Decoding JSON values.

A document is made of records, lists and alternatives. A decoder is a
function from values to optional results; a document that does not fit is
refused without a reason.

A *record* is written as an object, with its fields by name and in any
order, or as an array, with its fields by position. Either way a field
may be missing, which is left to the decoder of the field: it is
`required`, `optional` or has a default. Fields of other names are
ignored, a field given twice is refused, and so is an array with more
items than the record has fields.

An *alternative* is written as its name, or as an object whose single
field has that name and holds the alternative's content.
-/

namespace ProtocolInference.Json

variable {α : Type}

/-- A natural number of at most 64 bits. -/
def nat? : Json → Option Nat
  | natural n => if n < wordSize then some n else none
  | _ => none

def bool? : Json → Option Bool
  | bool b => some b
  | _ => none

def string? : Json → Option String
  | string s => some s
  | _ => none

/-- A list whose items are all decoded. -/
def list? (decode : Json → Option α) : Json → Option (List α)
  | array items => items.mapM decode
  | _ => none

/-- A value that may be null. -/
def nullable? (decode : Json → Option α) : Json → Option (Option α)
  | null => some none
  | v => (decode v).map some

/-! ### Records -/

/-- The value of the field with the given name: `some none` if there is
no such field, and `none` if there are several. -/
def uniqueField? (fields : List (String × Json)) (name : String) : Option (Option Json) :=
  match fields.filter (·.1 = name) with
  | [] => some none
  | [(_, v)] => some (some v)
  | _ => none

/-- The fields of a record with the given field names, in the order of
the names. -/
def record? (names : List String) : Json → Option (List (Option Json))
  | object fields => names.mapM (uniqueField? fields)
  | array items =>
    if items.length ≤ names.length then
      some (items.map some ++ List.replicate (names.length - items.length) none)
    else none
  | _ => none

/-- A field that must be given. -/
def required (decode : Json → Option α) : Option Json → Option α
  | none => none
  | some v => decode v

/-- A field that may be missing or null. -/
def optional (decode : Json → Option α) : Option Json → Option (Option α)
  | none => some none
  | some v => nullable? decode v

/-- A field that may be missing and then has the given value. -/
def withDefault (value : α) (decode : Json → Option α) : Option Json → Option α
  | none => some value
  | some v => decode v

/-- A record that says in its field `type` which record it is: that
field, and the record of the others. In an array the type comes first. -/
def tagged? : Json → Option (String × Json)
  | object fields =>
    match uniqueField? fields "type" with
    | some (some (string tag)) => some (tag, object (fields.filter (·.1 ≠ "type")))
    | _ => none
  | array (string tag :: items) => some (tag, array items)
  | _ => none

/-! ### Alternatives -/

/-- The name of an alternative, and its content if it has one. -/
def alternative? : Json → Option (String × Option Json)
  | string name => some (name, none)
  | object [(name, v)] => some (name, some v)
  | _ => none

/-- An alternative without content; null stands for no content. -/
def bare (value : α) : Option Json → Option α
  | none => some value
  | some null => some value
  | some _ => none

/-- One of several alternatives without content. -/
def oneOf? (table : List (String × α)) (v : Json) : Option α := do
  let (name, content) ← v.alternative?
  let (_, value) ← table.find? (·.1 = name)
  bare value content

end ProtocolInference.Json
