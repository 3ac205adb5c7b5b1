import ProtocolInference.Refinement
import ProtocolInference.Trace.Check

/-!
Reports as text.
-/

namespace ProtocolInference

def Violation.line (v : Violation) : String :=
  s!"  VIOLATION execution {v.execution} p{v.pid}" ++
    ((v.failedAt.map fun i => s!" at event {i}").getD "") ++ ": " ++ v.invariant.text ++ "\n"

def CheckReport.text (r : CheckReport) : String :=
  s!"Checked {r.checked} invariant(s) over {r.executions} execution(s): " ++
    (if r.passed then "PASS" else "FAIL") ++ "\n" ++
    String.join (r.violations.map Violation.line) ++
    String.join (r.skipped.map fun inv => "  SKIPPED (cross-process): " ++ inv.text ++ "\n")

/-- The word for what became of an invariant, filled up with blanks to ten
characters. -/
def InvariantOutcome.label : InvariantOutcome → String
  | satisfied => "SATISFIED "
  | unresolved => "UNRESOLVED"
  | boundReached => "BOUND     "
  | skipped => "SKIPPED   "

def InvariantReport.line (r : InvariantReport) : String :=
  "  " ++ r.outcome.label ++ " " ++ r.invariant.text ++ s!" ({r.refinements} refinement(s))\n"

def RefinementReport.text (r : RefinementReport) : String :=
  s!"Refinement: {r.iterations} split(s), {r.partitions} partition(s)\n" ++
    String.join (r.invariants.map InvariantReport.line) ++
    (if r.isFixpoint then "Fixpoint reached.\n"
    else "Some invariants are not established on the model.\n")

end ProtocolInference
