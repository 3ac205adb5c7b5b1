import Mathlib.Order.Bounds.Defs
import ProtocolInference.Trace
import ProtocolInference.Word

/-!
What invariants say about traces.

A monitor decides an invariant in one pass, with a finite memory. What it
decides is said here without one, by speaking about all positions of a
trace at once. A trace that violates an invariant does so at some position
or other; which positions come into question, so that the first of them is
to blame, is part of what the invariant says.
-/

namespace ProtocolInference

/-- The sequence of events satisfies the invariant, its bound being
disregarded. -/
def Invariant.Holds (inv : Invariant) (es : List Event) : Prop :=
  match inv.relation with
  | .alwaysFollowedBy =>
    ∀ i : Nat, es[i]? = some inv.first → ∃ j : Nat, i < j ∧ es[j]? = some inv.second
  | .neverFollowedBy =>
    ∀ i j : Nat, i < j → es[i]? = some inv.first → es[j]? ≠ some inv.second
  | .alwaysPrecedes =>
    ∀ j : Nat, es[j]? = some inv.second → ∃ i : Nat, i < j ∧ es[i]? = some inv.first
  | .eventually => inv.second ∈ es

/-- The position is the first of a set. Where there is no position, the set
has none. -/
def IsFirstOf (s : Set Nat) : Option Nat → Prop
  | none => s = ∅
  | some i => IsLeast s i

/-- The positions that come into question if the sequence violates the
invariant, its bound being disregarded. That an event does not occur is
the fault of no position. -/
def Invariant.culprits (inv : Invariant) (es : List Event) : Set Nat :=
  match inv.relation with
  | .alwaysFollowedBy =>
    {i | es[i]? = some inv.first ∧ ∀ j, i < j → es[j]? ≠ some inv.second}
  | .neverFollowedBy =>
    {j | es[j]? = some inv.second ∧ ∃ i, i < j ∧ es[i]? = some inv.first}
  | .alwaysPrecedes => {j | es[j]? = some inv.second}
  | .eventually => ∅

/-! ### Times -/

def eventAt? (es : List TimedEvent) (i : Nat) : Option Event := (es[i]?).map (·.event)

/-- The time that passes from position `i` of a trace to position `j`. -/
def timeBetween (es : List TimedEvent) (i j : Nat) : Time :=
  (((es.take (j + 1)).drop (i + 1)).map (·.delta)).foldr (· + ·) 0

/-- Position `j` of the trace holds a second event, and `latency` is the
time since the last first event before it. -/
def Invariant.IsLatency (inv : Invariant) (es : List TimedEvent) (j : Nat) (latency : Time) :
    Prop :=
  eventAt? es j = some inv.second ∧
    ∃ i, i < j ∧ eventAt? es i = some inv.first ∧
      (∀ k, i < k → k < j → eventAt? es k ≠ some inv.first) ∧
      latency = timeBetween es i j

def Bound.limit : Bound → Time
  | atMost limit => limit
  | atLeast limit => limit

/-- The bound forbids the latency. The greatest time that fits into a word
is no limit from above. -/
def Bound.IsMissedBy : Bound → Time → Prop
  | atMost limit, latency => limit < latency ∧ limit + 1 ≠ wordSize
  | atLeast limit, latency => latency < limit

/-- Position `j` of the trace holds a second event at a time that the bound
forbids. -/
def Invariant.IsUntimely (inv : Invariant) (es : List TimedEvent) (j : Nat) : Prop :=
  ∃ bound latency, inv.bound = some bound ∧ inv.IsLatency es j latency ∧
    bound.IsMissedBy latency

/-- The trace satisfies the invariant together with its bound: no second
event is untimely, and the events are there. For `alwaysFollowedBy` it is
enough that the last first event is followed by a second one. -/
def Invariant.HoldsInTime (inv : Invariant) (es : List TimedEvent) : Prop :=
  (∀ j, ¬ inv.IsUntimely es j) ∧
    match inv.relation with
    | .alwaysFollowedBy =>
      ∀ i, IsGreatest {i | eventAt? es i = some inv.first} i →
        ∃ j, i < j ∧ eventAt? es j = some inv.second
    | _ => inv.Holds (es.map (·.event))

/-- The positions at which the trace violates the invariant for good,
whatever comes behind them. -/
def Invariant.offences (inv : Invariant) (es : List TimedEvent) : Set Nat :=
  {j | inv.IsUntimely es j ∨
    inv.relation = .alwaysPrecedes ∧ eventAt? es j = some inv.second ∧
      ∀ i, i < j → eventAt? es i ≠ some inv.first}

end ProtocolInference
