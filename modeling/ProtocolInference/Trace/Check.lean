import ProtocolInference.Monitor

/-!
Checking invariants against observed executions.

An invariant within one process is checked on every trace of that
process. An invariant between two processes is not checked at all: the
traces of two processes say nothing about the order of their events.
-/

namespace ProtocolInference

structure Violation where
  execution : Nat
  pid : ProcessId
  invariant : Invariant
  failedAt : Option Nat
  deriving DecidableEq

structure CheckReport where
  /-- How many invariants were checked. -/
  checked : Nat
  /-- How many executions they were checked against. -/
  executions : Nat
  /-- By invariant, then by execution. -/
  violations : List Violation
  /-- The invariants between two processes. -/
  skipped : List Invariant
  deriving DecidableEq

def CheckReport.passed (r : CheckReport) : Bool := r.violations.isEmpty

/-- The violation that one trace is of an invariant, if it is one. -/
def Invariant.violation? (inv : Invariant) (execution : Nat) (trace : ProcessTrace) :
    Except UnsupportedBound (Option Violation) := do
  let verdict ← inv.check trace.events
  return if verdict.passed then none
    else some ⟨execution, trace.pid, inv, verdict.failedAt⟩

/-- The violations of one invariant, in the order of the executions. -/
def Invariant.violations (inv : Invariant) (executions : List Execution) :
    Except UnsupportedBound (List Violation) := do
  let traces := executions.zipIdx.flatMap fun (x, i) =>
    (x.processes.filter (·.pid = inv.pid)).map fun t => (i, t)
  return (← traces.mapM fun (i, t) => inv.violation? i t).filterMap id

/-- Check all invariants against all executions. An invariant without a
monitor is refused before anything is checked. -/
def checkExecutions (invariants : List Invariant) (executions : List Execution) :
    Except UnsupportedBound CheckReport := do
  invariants.forM (·.checkMonitor)
  let (within, across) := invariants.partition (·.isWithinProcess)
  let violations ← within.mapM (·.violations executions)
  return {
    checked := within.length
    executions := executions.length
    violations := violations.flatten
    skipped := across }

end ProtocolInference
