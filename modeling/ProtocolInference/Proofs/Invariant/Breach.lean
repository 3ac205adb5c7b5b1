import Mathlib.Data.Nat.SuccPred
import Mathlib.Data.Set.Basic
import Mathlib.Order.Bounds.Basic
import Mathlib.Order.SuccPred.Archimedean
import ProtocolInference.Invariant.Meaning
import ProtocolInference.Monitor

/-!
Where a trace violates an invariant.

There are two ways to violate one. Some second events are a *breach*: with
them the invariant is violated for good. Whether an event is one depends on
the events before it and on nothing else (`Invariant.BreaksAfter`). And
first events may be left *unanswered*; that is for the events behind them
to decide. A monitor reads one event after the other, so both are followed
here as a trace grows by an event.

A breach of a bound is said in terms of a clock that stops at the greatest
time, as clocks do. This is the same as to speak about the exact time, for
all bounds that fit into a word (`Bound.holds_min_eq_false_iff`).

An event that is both a first and a second one answers nothing. The
positions of `Invariant.Holds` and `Invariant.offences` know no such
exception, so to come from one to the other takes two different events.
-/

namespace ProtocolInference

variable {inv : Invariant} {es : List TimedEvent} {e : TimedEvent} {x : Event} {i j : Nat}

/-! ### Positions -/

theorem lt_of_eventAt? (h : eventAt? es i = some x) : i < es.length := by
  obtain ⟨e, he, -⟩ := Option.map_eq_some_iff.1 h
  exact (List.getElem?_eq_some_iff.1 he).1

theorem getElem?_map_event (es : List TimedEvent) (i : Nat) :
    (es.map (·.event))[i]? = eventAt? es i := List.getElem?_map

theorem eventAt?_concat :
    eventAt? (es ++ [e]) i = some x ↔ eventAt? es i = some x ∨ i = es.length ∧ e.event = x := by
  rw [eventAt?, eventAt?, List.getElem?_append]
  split
  · next hlt => simp [Nat.ne_of_lt hlt]
  · next hle =>
    rw [List.getElem?_eq_none (Nat.le_of_not_lt hle), List.getElem?_singleton]
    grind

theorem eventAt?_take (h : i < j) : eventAt? (es.take j) i = eventAt? es i := by
  rw [eventAt?, List.getElem?_take_of_lt h, eventAt?]

/-! ### Times -/

/-- The time that has passed since position `i` when the events end. -/
def timeSince (es : List TimedEvent) (i : Nat) : Time :=
  ((es.drop (i + 1)).map (·.delta)).foldr (· + ·) 0

theorem timeSince_concat (h : i < es.length) :
    timeSince (es ++ [e]) i = timeSince es i + e.delta := by
  have hsum (l : List Time) : (l ++ [e.delta]).foldr (· + ·) 0 = l.foldr (· + ·) 0 + e.delta := by
    induction l with
    | nil => exact Nat.add_comm _ _
    | cons d l ih => rw [List.cons_append, List.foldr_cons, List.foldr_cons, ih, Nat.add_assoc]
  rw [timeSince, List.drop_append_of_le_length h, List.map_append]
  exact hsum _

@[simp] theorem timeSince_concat_length : timeSince (es ++ [e]) es.length = 0 := by
  simp [timeSince]

theorem timeBetween_eq (hlt : i < j) (he : es[j]? = some e) :
    timeBetween es i j = timeSince (es.take j) i + e.delta := by
  have hj : j < es.length := (List.getElem?_eq_some_iff.1 he).1
  have htake : es.take (j + 1) = es.take j ++ [e] := by
    rw [List.take_add_one, he]
    rfl
  have hi : i < (es.take j).length := by
    rw [List.length_take]
    omega
  rw [← timeSince_concat hi, ← htake]
  rfl

/-- To a bound that fits into a word, a clock that stops is as good as the
exact time. -/
theorem Bound.holds_min_eq_false_iff {bound : Bound} (hlimit : bound.limit < wordSize)
    (latency : Time) : bound.holds (min latency maxTime) = false ↔ bound.IsMissedBy latency := by
  cases bound with
  | atMost limit =>
      have hmax : limit < maxTime ↔ limit + 1 ≠ wordSize := by
        simp only [Bound.limit, wordSize] at hlimit
        simp only [maxTime, wordSize, Time] at hlimit ⊢
        omega
      simp only [holds, decide_eq_false_iff_not, IsMissedBy, Nat.not_le, lt_min_iff, hmax]
  | atLeast limit =>
      have hmax : limit ≤ maxTime := Nat.le_sub_one_of_lt hlimit
      simp only [holds, decide_eq_false_iff_not, IsMissedBy, Nat.not_le, min_lt_iff]
      exact or_iff_left (Nat.not_lt.2 hmax)

namespace Invariant

/-! ### First events and answers -/

/-- The positions of first events. -/
def firsts (inv : Invariant) (es : List TimedEvent) : Set Nat :=
  {i | eventAt? es i = some inv.first}

/-- The positions of the events that are taken for second ones. -/
def answers (inv : Invariant) (es : List TimedEvent) : Set Nat :=
  {j | eventAt? es j = some inv.second ∧ inv.first ≠ inv.second}

/-- The positions of first events with no answer behind them. -/
def unanswered (inv : Invariant) (es : List TimedEvent) : Set Nat :=
  {i | i ∈ inv.firsts es ∧ ∀ j ∈ inv.answers es, j < i}

theorem mem_firsts_concat :
    i ∈ inv.firsts (es ++ [e]) ↔ i ∈ inv.firsts es ∨ i = es.length ∧ e.event = inv.first :=
  eventAt?_concat

theorem mem_answers_concat : j ∈ inv.answers (es ++ [e]) ↔
    j ∈ inv.answers es ∨ j = es.length ∧ e.event = inv.second ∧ inv.first ≠ inv.second := by
  simp only [answers, Set.mem_ofPred_eq, eventAt?_concat]
  grind

theorem firsts_concat_of_ne (h : e.event ≠ inv.first) :
    inv.firsts (es ++ [e]) = inv.firsts es := by
  ext i
  simp [mem_firsts_concat, h]

theorem isGreatest_firsts_concat (h : e.event = inv.first) :
    IsGreatest (inv.firsts (es ++ [e])) es.length := by
  refine ⟨mem_firsts_concat.2 (.inr ⟨rfl, h⟩), fun i hi => ?_⟩
  rcases mem_firsts_concat.1 hi with hi | ⟨rfl, -⟩
  · exact Nat.le_of_lt (lt_of_eventAt? hi)
  · exact Nat.le_refl _

theorem exists_isGreatest_firsts (h : (inv.firsts es).Nonempty) :
    ∃ i, IsGreatest (inv.firsts es) i :=
  BddAbove.exists_isGreatest_of_nonempty
    ⟨es.length, fun _ hi => Nat.le_of_lt (lt_of_eventAt? hi)⟩ h

theorem mem_unanswered_concat_of_first (he : e.event = inv.first) :
    i ∈ inv.unanswered (es ++ [e]) ↔ i ∈ inv.unanswered es ∨ i = es.length := by
  have hanswers : inv.answers (es ++ [e]) = inv.answers es := by
    ext j
    rw [mem_answers_concat]
    grind
  simp only [unanswered, hanswers, Set.mem_ofPred_eq, mem_firsts_concat]
  constructor
  · rintro ⟨hi | ⟨rfl, -⟩, hj⟩
    · exact .inl ⟨hi, hj⟩
    · exact .inr rfl
  · rintro (⟨hi, hj⟩ | rfl)
    · exact ⟨.inl hi, hj⟩
    · exact ⟨.inr ⟨rfl, he⟩, fun j hj => lt_of_eventAt? hj.1⟩

theorem unanswered_concat_of_answer (hfirst : e.event ≠ inv.first)
    (hsecond : e.event = inv.second) : inv.unanswered (es ++ [e]) = ∅ := by
  refine Set.eq_empty_of_forall_notMem fun i hi => ?_
  have hanswer : es.length ∈ inv.answers (es ++ [e]) :=
    mem_answers_concat.2 (.inr ⟨rfl, hsecond, fun h => hfirst (hsecond.trans h.symm)⟩)
  have hlt : es.length < i := hi.2 _ hanswer
  have hle : i < (es ++ [e]).length := lt_of_eventAt? hi.1
  rw [List.length_append, List.length_singleton] at hle
  omega

theorem unanswered_concat_of_ne (hfirst : e.event ≠ inv.first)
    (hsecond : e.event ≠ inv.second) : inv.unanswered (es ++ [e]) = inv.unanswered es := by
  ext i
  simp [unanswered, mem_firsts_concat, mem_answers_concat, hfirst, hsecond]

/-! ### Breaches -/

/-- The bound, if there is one, forbids what the clock shows. -/
def Misses (inv : Invariant) (shown : Time) : Prop :=
  ∃ bound, inv.bound = some bound ∧ bound.holds shown = false

theorem not_misses (hbound : inv.bound = none) (shown : Time) : ¬ inv.Misses shown := by
  simp [Misses, hbound]

/-- After the events seen, a second event that comes next misses the bound. -/
def MissesAfter (inv : Invariant) (seen : List TimedEvent) (e : TimedEvent) : Prop :=
  ∃ i, IsGreatest (inv.firsts seen) i ∧ inv.Misses (min (timeSince seen i + e.delta) maxTime)

/-- After the events seen, the next one violates the invariant for good. -/
def BreaksAfter (inv : Invariant) (seen : List TimedEvent) (e : TimedEvent) : Prop :=
  e.event = inv.second ∧ inv.first ≠ inv.second ∧
    match inv.relation with
    | .alwaysFollowedBy => inv.MissesAfter seen e
    | .neverFollowedBy => (inv.firsts seen).Nonempty
    | .alwaysPrecedes => inv.firsts seen = ∅ ∨ inv.MissesAfter seen e
    | .eventually => False

def breaches (inv : Invariant) (es : List TimedEvent) : Set Nat :=
  {j | ∃ e, es[j]? = some e ∧ inv.BreaksAfter (es.take j) e}

theorem lt_of_mem_breaches (h : j ∈ inv.breaches es) : j < es.length := by
  obtain ⟨e, he, -⟩ := h
  exact (List.getElem?_eq_some_iff.1 he).1

theorem mem_breaches_concat :
    j ∈ inv.breaches (es ++ [e]) ↔
      j ∈ inv.breaches es ∨ j = es.length ∧ inv.BreaksAfter es e := by
  rcases Nat.lt_trichotomy j es.length with h | rfl | h
  · simp [breaches, List.getElem?_append_left h, List.take_append_of_le_length (Nat.le_of_lt h),
      Nat.ne_of_lt h]
  · simp [breaches]
  · have hnone : (es ++ [e])[j]? = none := by
      apply List.getElem?_eq_none
      simpa using h
    simp [breaches, hnone, List.getElem?_eq_none (Nat.le_of_lt h), Nat.ne_of_gt h]

theorem breaches_concat_of_not (h : ¬ inv.BreaksAfter es e) :
    inv.breaches (es ++ [e]) = inv.breaches es := by
  ext j
  simp [mem_breaches_concat, h]

/-- What comes behind the first breach does not make it less so. -/
theorem isLeast_breaches_concat (h : IsLeast (inv.breaches es) j) :
    IsLeast (inv.breaches (es ++ [e])) j := by
  refine ⟨mem_breaches_concat.2 (.inl h.1), fun k hk => ?_⟩
  rcases mem_breaches_concat.1 hk with hk | ⟨rfl, -⟩
  · exact h.2 hk
  · exact Nat.le_of_lt (lt_of_mem_breaches h.1)

/-! ### Breaches by position -/

theorem mem_firsts_take : i ∈ inv.firsts (es.take j) ↔ i < j ∧ i ∈ inv.firsts es := by
  constructor
  · intro h
    have hlt : i < j := by
      have hlt := lt_of_eventAt? h
      rw [List.length_take] at hlt
      omega
    exact ⟨hlt, (eventAt?_take hlt).symm.trans h⟩
  · rintro ⟨hlt, h⟩
    exact (eventAt?_take hlt).trans h

theorem isGreatest_firsts_take : IsGreatest (inv.firsts (es.take j)) i ↔
    i < j ∧ eventAt? es i = some inv.first ∧
      ∀ k, i < k → k < j → eventAt? es k ≠ some inv.first := by
  simp only [IsGreatest, upperBounds, Set.mem_ofPred_eq, mem_firsts_take, and_assoc]
  refine and_congr_right fun _ => and_congr_right fun _ => ?_
  constructor
  · intro h k hik hkj hk
    exact absurd (h ⟨hkj, hk⟩) (by omega)
  · rintro h k ⟨hkj, hk⟩
    exact Nat.le_of_not_lt fun hik => h k hik hkj hk

theorem missesAfter_take (he : es[j]? = some e) (hsecond : e.event = inv.second) :
    inv.MissesAfter (es.take j) e ↔
      ∃ latency, inv.IsLatency es j latency ∧ inv.Misses (min latency maxTime) := by
  have hat : eventAt? es j = some inv.second := by simp [eventAt?, he, hsecond]
  simp only [MissesAfter, IsLatency, isGreatest_firsts_take, hat, true_and]
  constructor
  · rintro ⟨i, ⟨hlt, hi, hlast⟩, hmisses⟩
    exact ⟨_, ⟨i, hlt, hi, hlast, (timeBetween_eq hlt he).symm⟩, hmisses⟩
  · rintro ⟨_, ⟨i, hlt, hi, hlast, rfl⟩, hmisses⟩
    rw [timeBetween_eq hlt he] at hmisses
    exact ⟨i, ⟨hlt, hi, hlast⟩, hmisses⟩

/-- With two different events, breaches are second events. -/
theorem mem_breaches_iff (hne : inv.first ≠ inv.second) : j ∈ inv.breaches es ↔
    eventAt? es j = some inv.second ∧
      match inv.relation with
      | .alwaysFollowedBy =>
        ∃ latency, inv.IsLatency es j latency ∧ inv.Misses (min latency maxTime)
      | .neverFollowedBy => ∃ i, i < j ∧ eventAt? es i = some inv.first
      | .alwaysPrecedes => (∀ i, i < j → eventAt? es i ≠ some inv.first) ∨
        ∃ latency, inv.IsLatency es j latency ∧ inv.Misses (min latency maxTime)
      | .eventually => False := by
  have hfirsts {seen : List TimedEvent} :
      inv.firsts seen = ∅ ↔ ∀ i, i ∉ inv.firsts seen := Set.eq_empty_iff_forall_notMem
  cases he : es[j]? with
  | none => simp [breaches, eventAt?, he]
  | some e =>
      simp only [breaches, BreaksAfter, Set.mem_ofPred_eq, he, eventAt?, Option.map_some,
        Option.some.injEq, exists_eq_left']
      refine and_congr_right fun hsecond => ?_
      rw [and_iff_right hne, missesAfter_take he hsecond]
      cases inv.relation with
      | alwaysFollowedBy => exact Iff.rfl
      | neverFollowedBy => exact exists_congr fun i => mem_firsts_take
      | alwaysPrecedes =>
          simp only [hfirsts, mem_firsts_take, not_and]
          exact Iff.rfl
      | eventually => exact Iff.rfl

/-! ### The meaning of an invariant -/

section Meaning

variable (hne : inv.first ≠ inv.second)
include hne

theorem mem_unanswered_iff : i ∈ inv.unanswered es ↔
    eventAt? es i = some inv.first ∧ ∀ j, i < j → eventAt? es j ≠ some inv.second := by
  refine and_congr_right fun hi => ?_
  constructor
  · intro h j hij hj
    exact absurd (h j ⟨hj, hne⟩) (by omega)
  · intro h j hj
    refine Nat.lt_of_not_le fun hij => ?_
    rcases Nat.eq_or_lt_of_le hij with rfl | hij
    · exact hne (Option.some.inj (hi.symm.trans hj.1))
    · exact h j hij hj.1

theorem unanswered_eq_culprits (hrelation : inv.relation = .alwaysFollowedBy) :
    inv.unanswered es = inv.culprits (es.map (·.event)) := by
  ext i
  simp only [mem_unanswered_iff hne, culprits, hrelation, getElem?_map_event]
  exact Iff.rfl

/-- All first events have an answer if the last one has. -/
theorem unanswered_eq_empty_iff : inv.unanswered es = ∅ ↔
    ∀ i, IsGreatest (inv.firsts es) i → ∃ j, i < j ∧ eventAt? es j = some inv.second := by
  rw [Set.eq_empty_iff_forall_notMem]
  simp only [mem_unanswered_iff hne]
  constructor
  · intro h i hi
    simpa using not_and.1 (h i) hi.1
  · rintro h k ⟨hk, hopen⟩
    obtain ⟨i, hi⟩ := exists_isGreatest_firsts ⟨k, hk⟩
    obtain ⟨j, hij, hj⟩ := h i hi
    exact hopen j (Nat.lt_of_le_of_lt (hi.2 hk) hij) hj

/-- Without a bound, what is left over from breaches and unanswered events is
the meaning of the invariant. -/
theorem holds_iff (hrelation : inv.relation ≠ .eventually) (hbound : inv.bound = none) :
    inv.Holds (es.map (·.event)) ↔
      inv.breaches es = ∅ ∧ (inv.relation = .alwaysFollowedBy → inv.unanswered es = ∅) := by
  simp only [Set.eq_empty_iff_forall_notMem, mem_breaches_iff hne, mem_unanswered_iff hne, Holds,
    getElem?_map_event, not_misses hbound]
  cases hcase : inv.relation with
  | alwaysFollowedBy => simp
  | neverFollowedBy => grind
  | alwaysPrecedes => simp
  | eventually => exact absurd hcase hrelation

/-- Without a bound, the first breach is the first position that comes into
question. -/
theorem isLeast_culprits (hbound : inv.bound = none) (hj : IsLeast (inv.breaches es) j) :
    IsLeast (inv.culprits (es.map (·.event))) j := by
  obtain ⟨hbreach, hleast⟩ := hj
  simp only [lowerBounds, Set.mem_ofPred_eq, mem_breaches_iff hne, not_misses hbound]
    at hbreach hleast
  cases hcase : inv.relation with
  | alwaysFollowedBy => simp [hcase] at hbreach
  | neverFollowedBy =>
      simp only [culprits, hcase, getElem?_map_event]
      simp only [hcase] at hbreach hleast
      exact ⟨hbreach, fun k hk => hleast hk⟩
  | alwaysPrecedes =>
      simp only [culprits, hcase, getElem?_map_event]
      simp only [hcase, and_false, exists_false, or_false] at hbreach hleast
      refine ⟨hbreach.1, fun k hk => Nat.le_of_not_lt fun hkj => ?_⟩
      have hle : j ≤ k := hleast ⟨hk, fun i hik => hbreach.2 i (Nat.lt_trans hik hkj)⟩
      omega
  | eventually => simp [hcase] at hbreach

section Bounded

variable {bound : Bound} (hbound : inv.bound = some bound) (hlimit : bound.limit < wordSize)
  (hrelation : inv.relation = .alwaysFollowedBy ∨ inv.relation = .alwaysPrecedes)
include hbound hlimit hrelation

/-- With a bound, the breaches are the offences: the clock is exact enough. -/
theorem breaches_eq_offences : inv.breaches es = inv.offences es := by
  have huntimely (j : Nat) :
      (∃ latency, inv.IsLatency es j latency ∧ inv.Misses (min latency maxTime)) ↔
        inv.IsUntimely es j := by
    simp [Misses, IsUntimely, hbound, Bound.holds_min_eq_false_iff hlimit]
  have hsecond (j : Nat) (h : inv.IsUntimely es j) : eventAt? es j = some inv.second := by
    obtain ⟨bound, latency, -, hlatency, -⟩ := h
    exact hlatency.1
  ext j
  rw [mem_breaches_iff hne, huntimely, offences, Set.mem_ofPred_eq]
  rcases hrelation with hcase | hcase
  · simp only [hcase]
    grind
  · simp only [hcase]
    grind

theorem holdsInTime_iff : inv.HoldsInTime es ↔
    inv.breaches es = ∅ ∧ (inv.relation = .alwaysFollowedBy → inv.unanswered es = ∅) := by
  rw [breaches_eq_offences hne hbound hlimit hrelation, unanswered_eq_empty_iff hne, HoldsInTime,
    Set.eq_empty_iff_forall_notMem]
  simp only [offences, Set.mem_ofPred_eq, not_or]
  rcases hrelation with hcase | hcase
  · simp [hcase, firsts]
  · simp only [hcase, Holds, getElem?_map_event]
    grind

end Bounded

end Meaning

end Invariant

end ProtocolInference
