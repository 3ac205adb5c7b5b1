import ProtocolInference.Trace
import ProtocolInference.Word

/-!
Monitors: finite-state checkers of single invariants.

A monitor reads the events of one process and knows at any time whether
the invariant would hold if the trace ended there, and whether any
continuation could still change that. All invariants share four phases;
what a phase means, and how an event changes it, depends on the relation.

* `idle`: nothing of interest has happened yet.
* `armed`: the last event of interest was a first event.
* `met`: the invariant has been fulfilled, for now or for good.
* `broken`: it has been violated for good.

A monitor for an invariant with a bound also keeps the time since the
last first event. Times fit into 64 bits, and the clock stops at the
greatest of them instead of starting anew.

A bound makes sense only where a second event answers a first one, so
`neverFollowedBy` and `eventually` have no monitors with a bound.
-/

namespace ProtocolInference

inductive Validity
  /-- Violated, but a continuation may fulfil the invariant. -/
  | tempFail
  /-- Fulfilled, but a continuation may violate the invariant. -/
  | tempSuccess
  | permFail
  | permSuccess
  deriving DecidableEq, Inhabited

namespace Validity

/-- Whether the invariant is violated if the trace ends here. -/
def isFail : Validity → Bool
  | tempFail | permFail => true
  | tempSuccess | permSuccess => false

/-- Whether no continuation changes the answer. -/
def isPermanent : Validity → Bool
  | permFail | permSuccess => true
  | tempFail | tempSuccess => false

end Validity

/-- How far a monitor has come. -/
inductive Phase
  | idle
  | armed
  | met
  | broken
  deriving DecidableEq, Inhabited

/-- A monitor at work: its phase, and the time since the last first event
where there is a bound on it. -/
structure Monitor where
  phase : Phase
  elapsed : Time
  deriving DecidableEq, Inhabited

def Monitor.start : Monitor := ⟨.idle, 0⟩

/-- The greatest time, at which clocks stop. -/
def maxTime : Time := wordSize - 1

/-! ### Steps -/

/-- The phase after one event, for an invariant without a bound. The
first event is looked for before the second, which matters when the two
are the same. -/
def Phase.next (inv : Invariant) (p : Phase) (e : Event) : Phase :=
  match inv.relation with
  | .alwaysFollowedBy =>
    if e = inv.first then .armed
    else if e = inv.second ∧ p = .armed then .met
    else p
  | .neverFollowedBy =>
    if p = .broken then .broken
    else if e = inv.first then .armed
    else if e = inv.second ∧ p = .armed then .broken
    else p
  | .alwaysPrecedes =>
    if p ≠ .idle then p
    else if e = inv.first then .met
    else if e = inv.second then .broken
    else p
  | .eventually => if e = inv.second then .met else p

/-- The time since the last first event after `delta` more units. The
clock runs from the first such event on. -/
def Monitor.clock (m : Monitor) (delta : Time) : Time :=
  if m.phase = .idle then m.elapsed else min (m.elapsed + delta) maxTime

/-- One event of an invariant with a bound. A second event is measured
against the last first one, answered or not; without any first event it
violates `alwaysPrecedes` and nothing else. -/
def Monitor.timedStep (inv : Invariant) (bound : Bound) (m : Monitor) (e : Event)
    (delta : Time) : Monitor :=
  if m.phase = .broken then m
  else if e = inv.first then ⟨.armed, 0⟩
  else if e = inv.second then
    if m.phase = .idle then
      ⟨if inv.relation = .alwaysPrecedes then .broken else .idle, m.clock delta⟩
    else ⟨if bound.holds (m.clock delta) then .met else .broken, m.clock delta⟩
  else ⟨m.phase, m.clock delta⟩

/-- One event, `delta` time units after the previous event of the
process. -/
def Monitor.step (inv : Invariant) (m : Monitor) (e : Event) (delta : Time) : Monitor :=
  match inv.bound with
  | none => ⟨m.phase.next inv e, m.elapsed⟩
  | some bound => m.timedStep inv bound e delta

/-- The phase after all of some events, for an invariant without a bound. -/
def Phase.feed (inv : Invariant) (p : Phase) (es : List Event) : Phase :=
  es.foldl (Phase.next inv) p

/-- The monitor after all of some events. -/
def Monitor.feed (inv : Invariant) (m : Monitor) (es : List TimedEvent) : Monitor :=
  es.foldl (fun m e => m.step inv e.event e.delta) m

/-! ### Answers -/

def Phase.validity (inv : Invariant) (p : Phase) : Validity :=
  match inv.relation, p with
  | .alwaysFollowedBy, .armed => .tempFail
  -- Only a second event that misses a bound leads here.
  | .alwaysFollowedBy, .broken => .permFail
  | .alwaysFollowedBy, _ => .tempSuccess
  | .neverFollowedBy, .broken => .permFail
  | .neverFollowedBy, _ => .tempSuccess
  | .alwaysPrecedes, .met => if inv.bound.isSome then .tempSuccess else .permSuccess
  | .alwaysPrecedes, .broken => .permFail
  | .alwaysPrecedes, _ => .tempSuccess
  | .eventually, .met => .permSuccess
  | .eventually, _ => .tempFail

def Monitor.validity (inv : Invariant) (m : Monitor) : Validity := m.phase.validity inv

/-- An invariant whose bound no monitor can check. -/
structure UnsupportedBound where
  relation : Relation
  bound : Bound
  deriving DecidableEq

def UnsupportedBound.message (e : UnsupportedBound) : String :=
  s!"no checker for {e.relation.longName} with a {e.bound.text} latency bound"

namespace Invariant

/-- Refuses an invariant that no monitor can check. -/
def checkMonitor (inv : Invariant) : Except UnsupportedBound Unit :=
  match inv.relation, inv.bound with
  | .neverFollowedBy, some bound => .error ⟨.neverFollowedBy, bound⟩
  | .eventually, some bound => .error ⟨.eventually, bound⟩
  | _, _ => .ok ()

def monitorName (inv : Invariant) : String :=
  if inv.bound.isSome then inv.relation.text ++ "-timed" else inv.relation.text

end Invariant

/-! ### Whole traces -/

/-- The verdict on a trace. A failing trace names the position at which
it went from passing to failing, if there is one. -/
structure Verdict where
  passed : Bool
  failedAt : Option Nat
  deriving DecidableEq, Inhabited

/-- The verdict on a trace that ends with the given validity, if it has
been failing since the given position. -/
def Verdict.ofValidity (v : Validity) (since : Option Nat) : Verdict :=
  ⟨!v.isFail, if v.isFail then since else none⟩

/-- The verdict on the events from `position` on, read up to the first
answer that is permanent. -/
def Monitor.watch (inv : Invariant) (m : Monitor) (since : Option Nat) (position : Nat) :
    List TimedEvent → Verdict
  | [] => .ofValidity (m.validity inv) since
  | e :: rest =>
    let next := m.step inv e.event e.delta
    let after := next.validity inv
    -- A failure for good is put down to this event even if the trace failed before.
    let since :=
      if after = .permFail ∨ (after.isFail ∧ ¬ (m.validity inv).isFail) then some position
      else since
    if after.isPermanent then .ofValidity after since
    else next.watch inv since (position + 1) rest

def Invariant.check (inv : Invariant) (events : List TimedEvent) :
    Except UnsupportedBound Verdict := do
  inv.checkMonitor
  return Monitor.start.watch inv none 0 events

end ProtocolInference
