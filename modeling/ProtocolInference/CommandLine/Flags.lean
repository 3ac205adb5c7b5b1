import ProtocolInference.Word

/-!
Flags on a command line.

A flag is written `--name`, with its value behind an equals sign or as
the next argument; in the second case the value must not look like a
flag. No flag may be given twice. Two hyphens alone end the flags.
-/

namespace ProtocolInference

/-- The number that a text denotes: decimal digits, possibly behind a plus
sign, of at most 64 bits. -/
def parseNumber? (text : String) : Option Nat :=
  let digits := match text.toList with
    | '+' :: rest => rest
    | cs => cs
  if digits.isEmpty || !digits.all Char.isDigit then none
  else
    let n := digits.foldl (fun n c => n * 10 + (c.toNat - '0'.toNat)) 0
    if n < wordSize then some n else none

/-- What kind of value a flag takes. -/
inductive FlagKind
  /-- None at all. -/
  | switch
  | text
  /-- The name of a file, which is not empty. -/
  | path
  | number
  deriving DecidableEq

def FlagKind.accepts : FlagKind → String → Bool
  | switch, _ => false
  | text, _ => true
  | path, value => value ≠ ""
  | number, value => (parseNumber? value).isSome

structure Flag where
  name : String
  kind : FlagKind

/-- What an argument looks like. -/
inductive Argument
  /-- A flag, with the value behind the equals sign. -/
  | flag (name : String) (value : Option String)
  /-- Letters behind a single hyphen. -/
  | letters (l : String)
  /-- The end of the flags. -/
  | stop
  | word (w : String)
  deriving DecidableEq

/-- What the argument looks like. A hyphen alone is a word. -/
def Argument.ofString (s : String) : Argument :=
  match s.toList with
  | ['-', '-'] => .stop
  | '-' :: '-' :: rest =>
    let value := match rest.dropWhile (· ≠ '=') with
      | [] => none
      | _ :: v => some (String.ofList v)
    .flag (String.ofList (rest.takeWhile (· ≠ '='))) value
  | '-' :: c :: rest => .letters (String.ofList (c :: rest))
  | _ => .word s

/-- Flags with their values; a switch has the empty one. -/
abbrev Given := List (String × String)

namespace Given

def value? (given : Given) (name : String) : Option String :=
  (given.find? (·.1 = name)).map Prod.snd

/-- The value of a flag that takes a number. -/
def number? (given : Given) (name : String) : Option Nat :=
  (given.value? name).bind parseNumber?

def has (given : Given) (name : String) : Bool := (given.value? name).isSome

/-- Add a flag with its value, if it is not given yet and the value is of
the right kind. -/
def add? (given : Given) (flag : Flag) (value : String) : Option Given :=
  if given.has flag.name || !flag.kind.accepts value then none
  else some (given ++ [(flag.name, value)])

def addSwitch? (given : Given) (flag : Flag) : Option Given :=
  if given.has flag.name then none else some (given ++ [(flag.name, "")])

end Given

/-- Read flags up to the first argument that is none of those known. None
if a known flag is used wrongly. -/
def readFlags (flags : List Flag) (given : Given) : List String → Option (Given × List String)
  | [] => some (given, [])
  | arg :: rest =>
    match Argument.ofString arg with
    | .flag name attached =>
      match flags.find? (·.name = name) with
      | none => some (given, arg :: rest)
      | some flag =>
        match flag.kind, attached with
        | .switch, none => do readFlags flags (← given.addSwitch? flag) rest
        | .switch, some _ => none
        | _, some value => do readFlags flags (← given.add? flag value) rest
        | _, none =>
          match rest with
          | value :: rest =>
            match Argument.ofString value with
            | .word value => do readFlags flags (← given.add? flag value) rest
            | _ => none
          | [] => none
    | _ => some (given, arg :: rest)

end ProtocolInference
