import ProtocolInference.Json
import ProtocolInference.Refinement
import ProtocolInference.Trace.Check

/-!
The JSON form of reports.
-/

namespace ProtocolInference

def Violation.toJson (v : Violation) : Json :=
  .object [
    ("execution", .natural v.execution),
    ("pid", .natural v.pid),
    ("invariant", .string v.invariant.text),
    ("failed_at", (v.failedAt.map Json.natural).getD .null)]

def CheckReport.toJson (r : CheckReport) : Json :=
  .object [
    ("passed", .bool r.passed),
    ("invariants_checked", .natural r.checked),
    ("executions", .natural r.executions),
    ("violations", .array (r.violations.map Violation.toJson)),
    ("skipped", .array (r.skipped.map fun inv => .string inv.text))]

def InvariantOutcome.toJson : InvariantOutcome → Json
  | satisfied => .string "satisfied"
  | unresolved => .string "unresolved"
  | boundReached => .string "bound_reached"
  | skipped => .string "skipped"

def InvariantReport.toJson (r : InvariantReport) : Json :=
  .object [
    ("invariant", .string r.invariant.text),
    ("outcome", r.outcome.toJson),
    ("refinements", .natural r.refinements)]

def RefinementReport.toJson (r : RefinementReport) : Json :=
  .object [
    ("iterations", .natural r.iterations),
    ("partitions", .natural r.partitions),
    ("invariants", .array (r.invariants.map InvariantReport.toJson))]

end ProtocolInference
