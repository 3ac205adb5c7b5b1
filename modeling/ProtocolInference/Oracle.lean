import ProtocolInference.Model

/-!
Oracles for the violation of invariants.

An oracle is asked whether a traced model can violate an invariant, and
answers with runs that witness a violation or with none. It may carry a
state of its own from one question to the next, and it may fail. To find
nothing is no promise that there is nothing to find.
-/

namespace ProtocolInference

/-- A witness that a model violates an invariant: one run for each process
that takes part. -/
structure Counterexample where
  runs : List ProcessRun
  deriving DecidableEq, Inhabited

/-- A decision procedure with states in `σ` and failures in `ε`. -/
structure Oracle (σ ε : Type) where
  name : String
  /-- Whether the oracle can decide about the invariant at all. -/
  supports : Invariant → Bool
  /-- The answer to one question, and the state for the next. -/
  ask : σ → Model → Invariant → Except ε (Option Counterexample) × σ

end ProtocolInference
