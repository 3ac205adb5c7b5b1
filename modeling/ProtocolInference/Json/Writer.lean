import ProtocolInference.Json

/-!
Writing JSON values.

There are two layouts. The compact one has no blanks at all. The
indented one puts each item and each field on a line of its own, two
blanks deeper than the bracket around it, and leaves empty brackets
closed up. A value that is ill-formed has no text of its own; it is
written as null.
-/

namespace ProtocolInference.Json

def hexDigit (n : Nat) : Char := "0123456789abcdef".toList.getD n '0'

/-- A character inside a string literal. Only quotes, backslashes and
control characters are escaped, and a control character without a short
escape is written with four digits. -/
def escapeChar (c : Char) : List Char :=
  if c = '"' then ['\\', '"']
  else if c = '\\' then ['\\', '\\']
  else if c = '\x08' then ['\\', 'b']
  else if c = '\x0c' then ['\\', 'f']
  else if c = '\n' then ['\\', 'n']
  else if c = '\r' then ['\\', 'r']
  else if c = '\t' then ['\\', 't']
  else if c.toNat < 0x20 then
    ['\\', 'u', '0', '0', hexDigit (c.toNat / 16), hexDigit (c.toNat % 16)]
  else [c]

def quote (s : String) : String :=
  "\"" ++ String.ofList (s.toList.flatMap escapeChar) ++ "\""

mutual

def compact : Json → String
  | null => "null"
  | bool b => if b then "true" else "false"
  | natural n => toString n
  | number written => written
  | string s => quote s
  | array items => "[" ++ String.intercalate "," (compactItems items) ++ "]"
  | object fields => "\x7b" ++ String.intercalate "," (compactFields fields) ++ "\x7d"
  | illFormed => "null"

def compactItems : List Json → List String
  | [] => []
  | v :: vs => v.compact :: compactItems vs

def compactFields : List (String × Json) → List String
  | [] => []
  | (k, v) :: fs => (quote k ++ ":" ++ v.compact) :: compactFields fs

end

/-- The lines between two brackets, or closed brackets if there are none. -/
def bracket (opening closing margin : String) (lines : List String) : String :=
  if lines.isEmpty then opening ++ closing
  else opening ++ "\n" ++ String.intercalate ",\n" lines ++ "\n" ++ margin ++ closing

mutual

/-- The indented layout; `margin` stands in front of the line on which
the value begins. -/
def indented (margin : String) : Json → String
  | array items => bracket "[" "]" margin (indentedItems (margin ++ "  ") items)
  | object fields => bracket "\x7b" "\x7d" margin (indentedFields (margin ++ "  ") fields)
  | null => "null"
  | bool b => if b then "true" else "false"
  | natural n => toString n
  | number written => written
  | string s => quote s
  | illFormed => "null"

def indentedItems (margin : String) : List Json → List String
  | [] => []
  | v :: vs => (margin ++ v.indented margin) :: indentedItems margin vs

def indentedFields (margin : String) : List (String × Json) → List String
  | [] => []
  | (k, v) :: fs => (margin ++ quote k ++ ": " ++ v.indented margin) :: indentedFields margin fs

end

/-- The indented layout from the left margin on. -/
def pretty (v : Json) : String := v.indented ""

end ProtocolInference.Json
