import ProtocolInference.CommandLine.Flags

/-!
The commands of the program and their arguments.

Two flags belong to every command and may stand before its name or
behind it; where both is the case, the one behind counts.
-/

namespace ProtocolInference

inductive Command
  /-- Check invariants against the traces. -/
  | check (traces invariants : String) (threads : Option Nat)
  /-- Describe the first model of the traces. -/
  | describe (traces : String) (invariants : Option String) (badStates : Option Nat)
    (name out : Option String)
  /-- Refine the model against invariants. -/
  | refine (traces invariants : String) (maxIterations : Option Nat) (remainder : Option String)
    (coarsen : Bool) (name modelOut reportOut : Option String)
  deriving DecidableEq

/-- A command, with the flags that belong to all commands. -/
structure Invocation where
  config : Option String
  format : String
  command : Command
  deriving DecidableEq

/-- What a command line asks for. -/
inductive Request
  | version
  | run (invocation : Invocation)
  deriving DecidableEq

def commonFlags : List Flag := [⟨"config", .path⟩, ⟨"format", .text⟩]

/-- The flags of a command of its own. -/
def commandFlags : String → Option (List Flag)
  | "check" => some [⟨"traces", .path⟩, ⟨"invariants", .path⟩, ⟨"threads", .number⟩]
  | "scm" => some [⟨"traces", .path⟩, ⟨"invariants", .path⟩, ⟨"bad-states", .number⟩,
      ⟨"name", .text⟩, ⟨"out", .path⟩]
  | "refine" => some [⟨"traces", .path⟩, ⟨"invariants", .path⟩, ⟨"max-iterations", .number⟩,
      ⟨"remainder", .text⟩, ⟨"coarsen-by-name", .switch⟩, ⟨"name", .text⟩, ⟨"scm-out", .path⟩,
      ⟨"report-out", .path⟩]
  | _ => none

/-- The command of the given name with its flags. None if a flag is
missing that the command or another flag requires. -/
def Command.ofFlags? (name : String) (given : Given) : Option Command := do
  let traces ← given.value? "traces"
  let invariants := given.value? "invariants"
  match name with
  | "check" => return .check traces (← invariants) (given.number? "threads")
  | "scm" =>
    if given.has "bad-states" && invariants.isNone then none
    return .describe traces invariants (given.number? "bad-states") (given.value? "name")
      (given.value? "out")
  | "refine" =>
    return .refine traces (← invariants) (given.number? "max-iterations")
      (given.value? "remainder") (given.has "coarsen-by-name") (given.value? "name")
      (given.value? "scm-out") (given.value? "report-out")
  | _ => none

/-- The request of the command `name` with the arguments behind it, given
the common flags before it. -/
def Request.ofCommand? (before : Given) (name : String) (args : List String) : Option Request := do
  let (given, rest) ← readFlags ((← commandFlags name) ++ commonFlags) [] args
  if !(rest = [] || rest = ["--"]) then none
  let common (flag : String) : Option String := (given.value? flag).or (before.value? flag)
  return .run ⟨common "config", (common "format").getD "text", ← Command.ofFlags? name given⟩

/-- What the arguments ask for. None if they are misused. -/
def Request.ofArguments? (args : List String) : Option Request := do
  let (before, rest) ← readFlags commonFlags [] args
  let arg :: rest := rest | none
  match Argument.ofString arg with
  | .flag "version" none => return .version
  | .letters l => if l.toList.head? = some 'V' then return .version else none
  | .word name => Request.ofCommand? before name rest
  | _ => none

end ProtocolInference
