import ProtocolInference.Json.Double

/-!
Values that are kept before they are decoded.

A record that says in one of its fields which record it is cannot be
decoded before that field has been found, and the field may come last. So
its value is kept as a whole until then, with all its fields, those
included that the record does not have. A field that is passed over may
hold anything that is well written; what is kept has to be such that it
can be kept:

* its strings and keys are texts;
* its numbers are words, or in the range of doubles;
* its arrays and objects are not nested too deep, those that are around
  the value being counted in.
-/

namespace ProtocolInference.Json

/-- How deep arrays and objects may be nested in what is kept. -/
def maxNesting : Nat := 127

mutual

/-- Whether a value can be kept where so many levels of arrays and objects
are left. -/
def canKeep (levels : Nat) : Json → Bool
  | null => true
  | bool _ => true
  | natural n => n < wordSize || Numeral.isInRange ⟨(toString n).toList, [], 0⟩
  | number written => Numeral.isInRange (.ofWritten written.toList)
  | string _ => true
  | array items => levels ≠ 0 && canKeepItems (levels - 1) items
  | object fields => levels ≠ 0 && canKeepFields (levels - 1) fields
  | illFormed => false

/-- Whether the items of an array can all be kept. -/
def canKeepItems (levels : Nat) : List Json → Bool
  | [] => true
  | v :: vs => v.canKeep levels && canKeepItems levels vs

/-- Whether the fields of an object can all be kept. -/
def canKeepFields (levels : Nat) : List (String × Json) → Bool
  | [] => true
  | (_, v) :: fs => v.canKeep levels && canKeepFields levels fs

end

/-- A value that is kept and then decoded, inside so many arrays and
objects. -/
def kept {α : Type} (around : Nat) (decode : Json → Option α) (v : Json) : Option α :=
  if v.canKeep (maxNesting - around) then decode v else none

end ProtocolInference.Json
