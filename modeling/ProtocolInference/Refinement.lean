import ProtocolInference.Options
import ProtocolInference.Oracle
import ProtocolInference.Partition.Merge

/-!
The refinement of a graph against invariants.

The first graph of a set of executions admits more than was observed. For
each invariant in turn, an oracle looks for a violation in the model of
the graph. A violation whose path is stitched together from several
traces is none of the system's, and the graph is split such that it goes
away; one that cannot be split away is a fact about the traces. This goes
on until the oracle finds nothing more, or nothing more can be split, or
as many splits have been made as the options allow.

Splits only take behaviour away, so an invariant that has been settled is
not looked at again.

A failure leaves the graph as it has become by then, which is why the
graph is part of the result in any case.
-/

namespace ProtocolInference

/-- Why a refinement has no outcome; `ε` holds the failures of the
oracle. -/
inductive RefinementError (ε : Type)
  | graph (e : GraphError)
  | model (e : ModelError)
  | refine (e : RefineError)
  /-- The oracle of the given name failed on an invariant. -/
  | oracle (name : String) (inv : Invariant) (cause : ε)
  deriving DecidableEq

/-- The wording of each cause, given the wording of the oracle's failures. -/
def RefinementError.message {ε : Type} (describe : ε → String) : RefinementError ε → String
  | graph e => e.message
  | model e => e.message
  | refine e => e.message
  | oracle name inv cause => name ++ " failed on " ++ inv.text ++ ": " ++ describe cause

inductive InvariantOutcome
  /-- No violation is left in the model. -/
  | satisfied
  /-- A violation is left that cannot be split away. -/
  | unresolved
  /-- There was a violation when no more splits were allowed. -/
  | boundReached
  /-- The oracle cannot decide about the invariant. -/
  | skipped
  deriving DecidableEq, Inhabited

/-- What became of an invariant, and how many splits that took. -/
structure InvariantReport where
  invariant : Invariant
  outcome : InvariantOutcome
  refinements : Nat
  deriving DecidableEq

structure RefinementReport where
  /-- How many splits were made in all. -/
  iterations : Nat
  /-- How many partitions there are in the end. -/
  partitions : Nat
  invariants : List InvariantReport
  deriving DecidableEq

def RefinementReport.isFixpoint (r : RefinementReport) : Bool :=
  r.invariants.all (·.outcome = .satisfied)

/-- Split the graph at the first of the runs that has a stitch. Returns
nothing if none of them has one. -/
def refineAlong (g : PartitionGraph) (m : Model) (opts : RefineOptions) :
    List ProcessRun → Except (RefineError ⊕ ModelError) (Option PartitionGraph)
  | [] => .ok none
  | run :: rest => do
    let path ← (m.path run).mapError .inr
    match ← (path.refine g opts).mapError .inl with
    | (g, .refined ..) => return some g
    | (_, .noStitch) => refineAlong g m opts rest

variable {σ ε : Type}

/-- The oracle's answer about the model of a graph in which the invariant
is traced, together with that model. -/
def askAbout (oracle : Oracle σ ε) (s : σ) (g : PartitionGraph) (inv : Invariant) :
    Except (RefinementError ε) (Model × Option Counterexample) × σ :=
  match (g.model g.channels).bind fun m => m.trace inv with
  | .error e => (.error (.model e), s)
  | .ok (m, _) =>
    match oracle.ask s m inv with
    | (.error cause, s) => (.error (.oracle oracle.name inv cause), s)
    | (.ok answer, s) => (.ok (m, answer), s)

/-- The progress of a refinement: the graph, the state of the oracle, and
the number of splits made so far. -/
structure Progress (σ : Type) where
  graph : PartitionGraph
  oracle : σ
  iterations : Nat

/-- Drive one invariant, in the pursuit of which `refinements` splits have
been made so far, to its outcome. -/
def drive (oracle : Oracle σ ε) (opts : InferenceOptions) (inv : Invariant) (refinements : Nat)
    (p : Progress σ) : Except (RefinementError ε) InvariantReport × Progress σ :=
  match askAbout oracle p.oracle p.graph inv with
  | (.error e, s) => (.error e, { p with oracle := s })
  | (.ok (_, none), s) => (.ok ⟨inv, .satisfied, refinements⟩, { p with oracle := s })
  | (.ok (m, some cex), s) =>
    -- The bound matters only where there is something left to refine.
    if _h : opts.maxIterations ≤ p.iterations then
      (.ok ⟨inv, .boundReached, refinements⟩, { p with oracle := s })
    else
      match refineAlong p.graph m opts.refine cex.runs with
      | .error (.inl e) => (.error (.refine e), { p with oracle := s })
      | .error (.inr e) => (.error (.model e), { p with oracle := s })
      | .ok none => (.ok ⟨inv, .unresolved, refinements⟩, { p with oracle := s })
      | .ok (some g) => drive oracle opts inv (refinements + 1) ⟨g, s, p.iterations + 1⟩
  termination_by opts.maxIterations - p.iterations

/-- Drive the invariants to their outcomes, one after the other. -/
def driveAll (oracle : Oracle σ ε) (opts : InferenceOptions) (p : Progress σ) :
    List Invariant → Except (RefinementError ε) (List InvariantReport) × Progress σ
  | [] => (.ok [], p)
  | inv :: rest =>
    let (report, p) :=
      if oracle.supports inv then drive oracle opts inv 0 p
      else (.ok ⟨inv, .skipped, 0⟩, p)
    match report with
    | .error e => (.error e, p)
    | .ok report =>
      let (reports, p) := driveAll oracle opts p rest
      (reports.map (report :: ·), p)

def refineGraph (oracle : Oracle σ ε) (s : σ) (opts : InferenceOptions)
    (invariants : List Invariant) (g : PartitionGraph) :
    Except (RefinementError ε) RefinementReport × PartitionGraph :=
  let (reports, p) := driveAll oracle opts ⟨g, s, 0⟩ invariants
  (reports.map fun reports => ⟨p.iterations, p.graph.partitions.length, reports⟩, p.graph)

def startGraph (executions : List Execution) (processes : Nat) (channels : List Channel)
    (opts : InferenceOptions) : Except GraphError PartitionGraph := do
  let (g, _) ←
    PartitionGraph.ofExecutions executions processes channels opts.partitioning .standard
  if opts.coarsenByName then return (← g.coarsenByName).1 else return g

/-- Infer a graph from executions: start from their first graph and refine
it against the invariants. -/
def infer (oracle : Oracle σ ε) (s : σ) (executions : List Execution) (processes : Nat)
    (channels : List Channel) (invariants : List Invariant) (opts : InferenceOptions) :
    Except (RefinementError ε) (PartitionGraph × RefinementReport) := do
  let g ← (startGraph executions processes channels opts).mapError .graph
  match refineGraph oracle s opts invariants g with
  | (.error e, _) => .error e
  | (.ok report, g) => return (g, report)

end ProtocolInference
