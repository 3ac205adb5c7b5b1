/-!
JSON values.

The documents of this library are JSON. The only numbers they hold are
natural numbers, so a value keeps a plain decimal numeral as the number
it denotes, and every other number as the text that was written: `1.0`
and `-0` are numbers, but not natural numbers, and no document accepts
them in place of one.

A string is a text. What is written may fail to be one, for an escaped
surrogate without its partner denotes no character; such a string, and an
object that has one for a key, is well written all the same, and is kept
apart as a value of its own.

An object is a list of fields. The order of the fields is the order in
which they are written, and nothing forbids a name to occur twice;
whether a repetition matters is for the reader of a document to say.
-/

namespace ProtocolInference

inductive Json
  | null
  | bool (value : Bool)
  /-- A number written as a plain numeral. -/
  | natural (value : Nat)
  /-- A number written with a sign, a fraction or an exponent. -/
  | number (written : String)
  | string (value : String)
  | array (items : List Json)
  | object (fields : List (String × Json))
  /-- A string that is no text, or an object with such a key. -/
  | illFormed
  deriving Inhabited

end ProtocolInference
