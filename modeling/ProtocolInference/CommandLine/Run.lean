import ProtocolInference.CommandLine.Arguments
import ProtocolInference.CommandLine.Files
import ProtocolInference.CommandLine.Report
import ProtocolInference.Document.Invariant
import ProtocolInference.Document.Options
import ProtocolInference.Document.Report
import ProtocolInference.Document.TraceLog
import ProtocolInference.Json.Reader
import ProtocolInference.Json.Writer
import ProtocolInference.Search
import ProtocolInference.System.Description

/-!
Running a command.

A command reads its documents, does its work, writes the files that it is
asked for and prints its report. If anything fails, it ends with a list
of messages, from what was to be done to what was in the way; what it has
printed and written by then stays.
-/

namespace ProtocolInference

/-- What a run leaves behind, apart from files. -/
structure RunResult where
  exitCode : Nat
  output : String
  /-- Why the run failed, from the outermost to the innermost message. -/
  errors : List String
  deriving DecidableEq

/-- The messages of a failure, outermost first. -/
abbrev Diagnostic := List String

inductive OutputFormat
  | text
  | json
  deriving DecidableEq

def OutputFormat.ofName (name : String) : Except Diagnostic OutputFormat :=
  match name with
  | "text" => .ok .text
  | "json" => .ok .json
  | other => .error ["Unknown output format '" ++ other ++ "'. Use 'text' or 'json'."]

def RemainderPolicy.ofName (name : String) : Except Diagnostic RemainderPolicy :=
  match name with
  | "left" => .ok .left
  | "right" => .ok .right
  | other =>
    match other.toList with
    | 's' :: 'e' :: 'e' :: 'd' :: ':' :: seed =>
      match parseNumber? (String.ofList seed) with
      | some n => .ok (.seeded n)
      | none => .error ["Invalid remainder seed '" ++ String.ofList seed ++ "'"]
    | _ => .error ["Unknown remainder policy '" ++ other ++ "'. Use left | right | seed:<n>."]

/-- The messages of a failed refinement. An oracle's failure has a cause
of its own. -/
def RefinementError.diagnostic {ε : Type} (describe : ε → String) (e : RefinementError ε) :
    Diagnostic :=
  match e with
  | .oracle _ _ cause => [e.message describe, describe cause]
  | e => [e.message describe]

section

variable {m : Type → Type} [Monad m]

/-- A command at work, which may fail. -/
abbrev Job (m : Type → Type) := ExceptT Diagnostic m

/-- Go on with a result, or fail with the messages of an error. -/
def orFail {ε α : Type} (describe : ε → Diagnostic) (r : Except ε α) : Job m α :=
  match r with
  | .ok a => pure a
  | .error e => throw (describe e)

/-- The document in a file; `what` is the name for it in messages. -/
def readDocument {α : Type} (files : Files m) (what path : String) (decode : Json → Option α) :
    Job m α := do
  let some text ← files.read path | throw ["Failed to read " ++ path]
  match (Json.parse? text).bind decode with
  | some a => return a
  | none => throw ["Failed to parse " ++ what ++ " " ++ path]

/-- The trace document in a file, with its executions. -/
def readTraces (files : Files m) (path : String) : Job m (TraceLog × List Execution) := do
  let log ← readDocument files "trace document" path TraceLog.ofJson?
  let executions ← orFail (fun e => ["Invalid trace document " ++ path, e.message]) log.resolve
  return (log, executions)

/-- The invariants in a file, over the given channels. -/
def readInvariants (files : Files m) (path : String) (channels : List Channel) :
    Job m (List Invariant) := do
  let specs ← readDocument files "invariants document" path (·.list? InvariantSpec.ofJson?)
  specs.zipIdx.mapM fun (spec, i) =>
    orFail (fun e => [s!"Invalid invariant #{i} in " ++ path, e.message]) (spec.resolve channels)

/-- The options in a file, or the standard ones. -/
def readOptions (files : Files m) : Option String → Job m InferenceOptions
  | none => return .standard
  | some path => readDocument files "config" path InferenceOptions.ofJson?

def writeText (files : Files m) (path text : String) : Job m Unit := do
  match ← files.write path text with
  | .ok () => return ()
  | .error .file => throw ["Failed to write " ++ path]
  | .error .directory => throw ["cannot make the directory of " ++ path]

def writeReport (files : Files m) (path : String) (report : Json) : Job m Unit := do
  match ← files.write path report.pretty with
  | .ok () => return ()
  | .error _ => throw ["cannot write " ++ path]

/-! ### The commands

A command that succeeds returns what it prints, and possibly a failure
that comes after the printing. -/

/-- Check invariants against traces. A violation is a failure. -/
def runCheck (files : Files m) (format : OutputFormat) (traces invariants : String) :
    Job m (String × Diagnostic) := do
  let (log, executions) ← readTraces files traces
  let invs ← readInvariants files invariants log.channels
  let report ← orFail (fun e => [e.message]) (checkExecutions invs executions)
  let printed := match format with
    | .text => report.text
    | .json => report.toJson.pretty ++ "\n"
  let failure := if report.passed then []
    else [s!"{report.violations.length} invariant violation(s) in the observed traces"]
  return (printed, failure)

/-- The description of a model in which the invariants are traced, with
the bad states of the one at position `target`. -/
def describeTraced (model : Model) (name path : String) (invs : List Invariant) (target : Nat) :
    Except Diagnostic String := do
  let some inv := invs[target]?
    | .error [s!"Invariant index {target} out of range ({invs.length} invariant(s) in " ++
        path ++ ")"]
  let traced ← (model.traceAll invs).mapError fun e => [e.message]
  (traced.system.describeWithBadStates name inv).mapError fun e => [e.message]

/-- Describe the first model of traces. -/
def runDescribe (files : Files m) (opts : InferenceOptions) (traces : String)
    (invariants : Option String) (badStates : Option Nat) (out : Option String) :
    Job m (String × Diagnostic) := do
  let (log, executions) ← readTraces files traces
  let g ← orFail (fun e => [e.message]) (startGraph executions log.processes log.channels opts)
  let model ← orFail (fun e => [e.message]) (g.model log.channels)
  let text ← match invariants with
    | none => pure (model.system.describe opts.systemName)
    | some path => do
      let invs ← readInvariants files path log.channels
      orFail id (describeTraced model opts.systemName path invs (badStates.getD 0))
  match out with
  | none => return (text, [])
  | some path => do
    writeText files path text
    return ("Wrote " ++ path ++ "\n", [])

/-- Refine the model of traces against invariants. -/
def runRefine (files : Files m) (format : OutputFormat) (opts : InferenceOptions)
    (traces invariants : String) (modelOut reportOut : Option String) :
    Job m (String × Diagnostic) := do
  let (log, executions) ← readTraces files traces
  let invs ← readInvariants files invariants log.channels
  let (g, report) ← orFail (RefinementError.diagnostic SearchError.message)
    (infer (productSearch defaultSearchLimit) () executions log.processes log.channels invs opts)
  if let some path := modelOut then
    let model ← orFail (fun e => [e.message]) (g.model g.channels)
    writeText files path (model.system.describe opts.systemName)
  if let some path := reportOut then writeReport files path report.toJson
  match format with
  | .json => return (report.toJson.pretty ++ "\n", [])
  | .text =>
    let written := (modelOut.map fun path => "Model written to " ++ path ++ "\n").getD ""
    return (report.text ++ written, [])

/-- Options with those given on the command line in place of the others. -/
def InferenceOptions.override (opts : InferenceOptions) (command : Command) :
    Except Diagnostic InferenceOptions :=
  match command with
  | .check _ _ threads => .ok { opts with checkThreads := threads.or opts.checkThreads }
  | .describe _ _ _ name _ => .ok { opts with systemName := name.getD opts.systemName }
  | .refine _ _ maxIterations remainder coarsen name _ _ => do
    return { opts with
      maxIterations := maxIterations.getD opts.maxIterations
      remainder := ← match remainder with
        | some policy => RemainderPolicy.ofName policy
        | none => .ok opts.remainder
      coarsenByName := coarsen || opts.coarsenByName
      systemName := name.getD opts.systemName }

def runInvocation (files : Files m) (inv : Invocation) : Job m (String × Diagnostic) := do
  let format ← orFail id (OutputFormat.ofName inv.format)
  let opts ← orFail id ((← readOptions files inv.config).override inv.command)
  match inv.command with
  | .check traces invariants _ => runCheck files format traces invariants
  | .describe traces invariants badStates _ out =>
    runDescribe files opts traces invariants badStates out
  | .refine traces invariants _ _ _ _ modelOut reportOut =>
    runRefine files format opts traces invariants modelOut reportOut

/-- The line that tells the version of the program. -/
def versionLine : String := "fifomine 0.1.0\n"

/-- Run the program with the given arguments. -/
def runProgram (files : Files m) (args : List String) : m RunResult := do
  match Request.ofArguments? args with
  | none => return ⟨2, "", ["unusable arguments"]⟩
  | some .version => return ⟨0, versionLine, []⟩
  | some (.run invocation) =>
    match ← (runInvocation files invocation).run with
    | .error errors => return ⟨1, "", errors⟩
    | .ok (output, []) => return ⟨0, output, []⟩
    | .ok (output, errors) => return ⟨1, output, errors⟩

end

end ProtocolInference
