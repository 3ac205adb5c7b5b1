import ProtocolInference.Json

/-!
Reading JSON text.

The text is read as RFC 8259 has it and no more generously: no comments,
no comma before a closing bracket, no leading zeros, and no control
character inside a string. An escaped surrogate without its partner is
well written, and makes its string ill-formed.

Reading takes two passes. The first cuts the text into tokens; a string
token has its escapes resolved already. The second runs over the tokens
once and keeps the arrays and objects that are still open on a stack, so
it is a fold, and nesting needs no recursion of its own.
-/

namespace ProtocolInference.Json

/-! ### String literals -/

/-- A piece of a string literal: a character, or one UTF-16 unit written
as an escape. -/
inductive Piece
  | char (c : Char)
  | unit (n : Nat)

def hexValue (c : Char) : Option Nat :=
  if c.isDigit then some (c.toNat - '0'.toNat)
  else if 'a' ≤ c ∧ c ≤ 'f' then some (c.toNat - 'a'.toNat + 10)
  else if 'A' ≤ c ∧ c ≤ 'F' then some (c.toNat - 'A'.toNat + 10)
  else none

/-- The UTF-16 unit that four hexadecimal digits denote. -/
def unitValue (a b c d : Char) : Option Nat := do
  return (((← hexValue a) * 16 + (← hexValue b)) * 16 + (← hexValue c)) * 16 + (← hexValue d)

/-- The character that stands behind a backslash for another one. -/
def escaped : Char → Option Char
  | '"' => some '"'
  | '\\' => some '\\'
  | '/' => some '/'
  | 'b' => some '\x08'
  | 'f' => some '\x0c'
  | 'n' => some '\n'
  | 'r' => some '\r'
  | 't' => some '\t'
  | _ => none

/-- The pieces of a string literal up to its closing quote, and the text
behind it. -/
def scanString : List Char → Option (List Piece × List Char)
  | [] => none
  | '"' :: rest => some ([], rest)
  | '\\' :: 'u' :: a :: b :: c :: d :: rest =>
    match unitValue a b c d, scanString rest with
    | some n, some (pieces, after) => some (.unit n :: pieces, after)
    | _, _ => none
  | ['\\'] => none
  | '\\' :: e :: rest =>
    match escaped e, scanString rest with
    | some c, some (pieces, after) => some (.char c :: pieces, after)
    | _, _ => none
  | c :: rest =>
    if c.toNat < 0x20 then none
    else (scanString rest).map fun (pieces, after) => (.char c :: pieces, after)

theorem length_lt_of_scanString {s after : List Char} {pieces : List Piece}
    (h : scanString s = some (pieces, after)) : after.length < s.length := by
  fun_induction scanString s generalizing pieces after <;> simp_all <;> grind

/-- The character for a high surrogate followed by a low one. -/
def surrogatePair (high low : Nat) : Option Char :=
  if 0xD800 ≤ high ∧ high < 0xDC00 ∧ 0xDC00 ≤ low ∧ low < 0xE000 then
    some (Char.ofNat (0x10000 + (high - 0xD800) * 0x400 + (low - 0xDC00)))
  else none

/-- The characters of a string literal, if it is a text. A unit that is no
surrogate is a character by itself, and surrogates count only in pairs. -/
def joinPieces : List Piece → Option (List Char)
  | [] => some []
  | .char c :: rest => (joinPieces rest).map (c :: ·)
  | .unit n :: rest =>
    if n < 0xD800 ∨ 0xE000 ≤ n then (joinPieces rest).map (Char.ofNat n :: ·)
    else
      match rest with
      | .unit m :: rest => do
        let c ← surrogatePair n m
        return c :: (← joinPieces rest)
      | _ => none

/-! ### Numbers and keywords -/

/-- What follows the leading digits, of which there must be one. -/
def skipDigits : List Char → Option (List Char)
  | c :: rest => if c.isDigit then some (rest.dropWhile Char.isDigit) else none
  | [] => none

/-- What follows the integer part of a number. A zero stands alone. -/
def skipInteger : List Char → Option (List Char)
  | '0' :: rest => some rest
  | rest => skipDigits rest

/-- What follows the fraction of a number, if it has one. -/
def skipFraction : List Char → Option (List Char)
  | '.' :: rest => skipDigits rest
  | rest => some rest

/-- What follows the exponent of a number, if it has one. -/
def skipExponent : List Char → Option (List Char)
  | c :: rest =>
    if c = 'e' ∨ c = 'E' then
      match rest with
      | s :: rest' => if s = '+' ∨ s = '-' then skipDigits rest' else skipDigits rest
      | [] => none
    else some (c :: rest)
  | [] => some []

def isNumber (w : List Char) : Bool :=
  let unsigned := match w with
    | '-' :: rest => rest
    | w => w
  (skipInteger unsigned >>= skipFraction >>= skipExponent) == some []

def digitsValue (w : List Char) : Nat := w.foldl (fun n c => n * 10 + (c.toNat - '0'.toNat)) 0

/-- The value that a word without quotes denotes. -/
def ofWord (w : List Char) : Option Json :=
  if w = "null".toList then some .null
  else if w = "true".toList then some (.bool true)
  else if w = "false".toList then some (.bool false)
  else if isNumber w then
    if w.all Char.isDigit then some (.natural (digitsValue w))
    else some (.number (String.ofList w))
  else none

/-! ### Tokens -/

inductive Token
  | openArray
  | closeArray
  | openObject
  | closeObject
  | comma
  | colon
  /-- A string, with its text if it has one. -/
  | string (s : Option String)
  /-- A number or a keyword. -/
  | word (v : Json)

/-- The token that a punctuation mark is by itself. -/
def Token.ofMark : Char → Option Token
  | '[' => some .openArray
  | ']' => some .closeArray
  | '\x7b' => some .openObject
  | '\x7d' => some .closeObject
  | ',' => some .comma
  | ':' => some .colon
  | _ => none

/-- The characters that may stand between tokens. -/
def isBlank (c : Char) : Bool := c = ' ' || c = '\t' || c = '\n' || c = '\r'

def isWordChar (c : Char) : Bool := c.isAlphanum || c = '+' || c = '-' || c = '.'

theorem length_dropWhile_le {α : Type} (p : α → Bool) (l : List α) :
    (l.dropWhile p).length ≤ l.length := (List.dropWhile_sublist p).length_le

/-- The tokens of a text, put in front of those read before, last first. -/
def tokenize (read : List Token) : List Char → Option (List Token)
  | [] => some read.reverse
  | c :: rest =>
    if isBlank c then tokenize read rest
    else if c = '"' then
      match h : scanString rest with
      | none => none
      | some (pieces, after) =>
        have : after.length < rest.length := length_lt_of_scanString h
        tokenize (.string ((joinPieces pieces).map String.ofList) :: read) after
    else
      match Token.ofMark c with
      | some mark => tokenize (mark :: read) rest
      | none =>
        have : (rest.dropWhile isWordChar).length ≤ rest.length := length_dropWhile_le ..
        match ofWord (c :: rest.takeWhile isWordChar) with
        | none => none
        | some v => tokenize (.word v :: read) (rest.dropWhile isWordChar)
  termination_by s => s.length
  decreasing_by all_goals simp only [List.length_cons]; omega

/-! ### Values -/

/-- The fields of an object that is still open, last first; none once a
key has been no text. -/
abbrev OpenFields := Option (List (String × Json))

def OpenFields.add (fields : OpenFields) (key : Option String) (v : Json) : OpenFields := do
  return (← key, v) :: (← fields)

/-- The object, once all its fields have been read. -/
def OpenFields.close : OpenFields → Json
  | some fields => .object fields.reverse
  | none => .illFormed

/-- An array or object that is still open, with what it holds so far,
last first. -/
inductive Frame
  | array (items : List Json)
  | object (fields : OpenFields)
  /-- An object whose last key still lacks its value. -/
  | member (fields : OpenFields) (key : Option String)

/-- What the next token may be. -/
inductive Expected
  /-- A value. -/
  | value
  /-- A value, or the end of an array that is still empty. -/
  | item
  /-- A key. -/
  | key
  /-- A key, or the end of an object that is still empty. -/
  | field
  /-- The colon behind this key. -/
  | colon (key : Option String)
  /-- A comma, or the end of what is open. -/
  | separator
  /-- Nothing: the whole value has been read. -/
  | nothing (v : Json)

/-- A value has been read: it goes into what is open, or it is the whole. -/
def deliver (v : Json) : List Frame → Expected × List Frame
  | [] => (.nothing v, [])
  | .array items :: open' => (.separator, .array (v :: items) :: open')
  | .object fields :: open' => (.separator, .object fields :: open')
  | .member fields key :: open' => (.separator, .object (fields.add key v) :: open')

/-- The beginning of a value. -/
def beginValue (frames : List Frame) : Token → Option (Expected × List Frame)
  | .string (some s) => some (deliver (.string s) frames)
  | .string none => some (deliver .illFormed frames)
  | .word v => some (deliver v frames)
  | .openArray => some (.item, .array [] :: frames)
  | .openObject => some (.field, .object (some []) :: frames)
  | _ => none

/-- The end of what is open. -/
def endValue : List Frame → Token → Option (Expected × List Frame)
  | .array items :: frames, .closeArray => some (deliver (.array items.reverse) frames)
  | .object fields :: frames, .closeObject => some (deliver fields.close frames)
  | _, _ => none

/-- One token more. -/
def step : Expected × List Frame → Token → Option (Expected × List Frame)
  | (.value, frames), t => beginValue frames t
  | (.item, frames), t => (beginValue frames t).or (endValue frames t)
  | (.key, frames), .string s => some (.colon s, frames)
  | (.field, frames), .string s => some (.colon s, frames)
  | (.field, frames), t => endValue frames t
  | (.colon key, .object fields :: frames), .colon => some (.value, .member fields key :: frames)
  | (.separator, .array items :: frames), .comma => some (.value, .array items :: frames)
  | (.separator, .object fields :: frames), .comma => some (.key, .object fields :: frames)
  | (.separator, frames), t => endValue frames t
  | _, _ => none

/-- The value of a text, if the text is JSON. -/
def parse? (text : String) : Option Json := do
  let tokens ← tokenize [] text.toList
  match ← tokens.foldlM step (.value, []) with
  | (.nothing v, _) => some v
  | _ => none

end ProtocolInference.Json
