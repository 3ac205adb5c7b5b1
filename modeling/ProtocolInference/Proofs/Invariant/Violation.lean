import Mathlib.Data.List.Basic
import Mathlib.Data.List.Induction
import ProtocolInference.Invariant.Pattern
import ProtocolInference.Invariant.Record
import ProtocolInference.Proofs.Monitor

/-!
Two ways to recognise a violation.

A violation is recognised by the monitor, which reads events, and by the
pattern for the tracer channel, which reads labels. Either way what is
looked for is the same: a first event at the end, a first event before a
second one, a second event at the beginning, or nothing at all
(`Relation.IsBroken`). So the two ways agree as long as the labels tell
the two events apart (`admits_record_iff`).

Where both events have one label they do not agree. The pattern then
counts labels, while the monitor takes an event that is both a first and
a second event for a first event and nothing else, and keeps different
events with one label apart. Only `alwaysFollowedBy` with a single event is
recognised in the same way on all sequences.
-/

namespace ProtocolInference

/-- What a violation looks like among the occurrences of the two events `a`
and `b`. -/
def Relation.IsBroken {α : Type} (r : Relation) (a b : α) (l : List α) : Prop :=
  match r with
  | alwaysFollowedBy => l.getLast? = some a
  | neverFollowedBy => [a, b].Sublist l
  | alwaysPrecedes => l.head? = some b
  | eventually => l = []

/-- It looks the same under another name for each of the two. -/
theorem Relation.isBroken_map {α β : Type} {f : α → β} {r : Relation} {a b : α} {l : List α}
    (hne : f a ≠ f b) (hl : ∀ x ∈ l, x = a ∨ x = b) :
    r.IsBroken (f a) (f b) (l.map f) ↔ r.IsBroken a b l := by
  have ha : ∀ x ∈ l, f x = f a → x = a := by
    intro x hx heq
    rcases hl x hx with rfl | rfl
    · rfl
    · exact absurd heq.symm hne
  have hb : ∀ x ∈ l, f x = f b → x = b := by
    intro x hx heq
    rcases hl x hx with rfl | rfl
    · exact absurd heq hne
    · rfl
  cases r with
  | alwaysFollowedBy =>
      simp only [IsBroken, List.getLast?_map, Option.map_eq_some_iff]
      constructor
      · rintro ⟨x, hx, heq⟩
        rwa [← ha x (List.mem_of_getLast? hx) heq]
      · exact fun h => ⟨a, h, rfl⟩
  | neverFollowedBy =>
      simp only [IsBroken, List.sublist_map_iff]
      constructor
      · rintro ⟨l', hl', heq⟩
        obtain ⟨x, rest, rfl, hx, hrest⟩ := List.map_eq_cons_iff.1 heq.symm
        obtain ⟨y, rest', rfl, hy, hrest'⟩ := List.map_eq_cons_iff.1 hrest
        obtain rfl := List.map_eq_nil_iff.1 hrest'
        rwa [← ha x (hl'.subset (by simp)) hx, ← hb y (hl'.subset (by simp)) hy]
      · exact fun h => ⟨[a, b], h, rfl⟩
  | alwaysPrecedes =>
      simp only [IsBroken, List.head?_map, Option.map_eq_some_iff]
      constructor
      · rintro ⟨x, hx, heq⟩
        rwa [← hb x (List.mem_of_head? hx) heq]
      · exact fun h => ⟨b, h, rfl⟩
  | eventually => simp only [IsBroken, List.map_eq_nil_iff]

/-! ### The words of a pattern -/

namespace Pattern

variable {p q : Pattern} {l a b : String} {w : List String}

theorem matches_label_iff : (label l).Matches w ↔ w = [l] := by
  constructor
  · rintro ⟨⟩
    rfl
  · rintro rfl
    exact .label l

theorem matches_either_iff : (either p q).Matches w ↔ p.Matches w ∨ q.Matches w := by
  constructor
  · intro h
    cases h with
    | left h => exact .inl h
    | right h => exact .inr h
  · rintro (h | h)
    · exact .left h
    · exact .right h

theorem matches_sequence_iff :
    (sequence p q).Matches w ↔ ∃ u v, w = u ++ v ∧ p.Matches u ∧ q.Matches v := by
  constructor
  · intro h
    cases h with
    | sequence hp hq => exact ⟨_, _, rfl, hp, hq⟩
  · rintro ⟨u, v, rfl, hp, hq⟩
    exact .sequence hp hq

theorem matches_star_iff :
    (star (either (label a) (label b))).Matches w ↔ ∀ l ∈ w, l = a ∨ l = b := by
  constructor
  · intro h
    generalize hp : star (either (label a) (label b)) = p at h
    induction h with
    | label | left | right | sequence => cases hp
    | stop => exact fun l hl => absurd hl List.not_mem_nil
    | more hfirst _ _ ih =>
        obtain rfl := (Pattern.star.inj hp).symm
        simp only [matches_either_iff, matches_label_iff] at hfirst
        rcases hfirst with rfl | rfl
        · exact List.forall_mem_cons.2 ⟨.inl rfl, ih rfl⟩
        · exact List.forall_mem_cons.2 ⟨.inr rfl, ih rfl⟩
  · intro h
    induction w with
    | nil => exact .stop
    | cons l w ih =>
        obtain ⟨hl, hw⟩ := List.forall_mem_cons.1 h
        have hfirst : (either (label a) (label b)).Matches [l] := by
          simpa only [matches_either_iff, matches_label_iff, List.cons.injEq, and_true] using hl
        exact .more hfirst (ih hw)

end Pattern

/-- What the pattern says of a record that holds labels of the invariant
only. -/
theorem Invariant.violation_admits_iff {inv : Invariant} {w : List String}
    (hw : ∀ l ∈ w, l = inv.first.tracerLabel ∨ l = inv.second.tracerLabel) :
    inv.violation.Admits w ↔
      inv.relation.IsBroken inv.first.tracerLabel inv.second.tracerLabel w := by
  rw [violation]
  cases inv.relation with
  | alwaysFollowedBy =>
      simp only [QueueConstraint.Admits, Pattern.matches_sequence_iff, Pattern.matches_star_iff,
        Pattern.matches_label_iff, Relation.IsBroken, List.getLast?_eq_some_iff]
      constructor
      · rintro ⟨u, v, rfl, -, rfl⟩
        exact ⟨u, rfl⟩
      · rintro ⟨u, rfl⟩
        exact ⟨u, _, rfl, fun l hl => hw l (List.mem_append_left _ hl), rfl⟩
  | neverFollowedBy =>
      simp only [QueueConstraint.Admits, Pattern.matches_sequence_iff, Pattern.matches_star_iff,
        Pattern.matches_label_iff, Relation.IsBroken]
      constructor
      · rintro ⟨u, -, rfl, -, -, -, rfl, rfl, v, -, rfl, -, -, x, rfl, rfl, -⟩
        refine List.Sublist.trans ?_ (List.sublist_append_right u _)
        refine .cons_cons _ (List.Sublist.trans ?_ (List.sublist_append_right v _))
        exact .cons_cons _ (List.nil_sublist x)
      · intro h
        obtain ⟨r, r', rfl, ha, hb⟩ := List.cons_sublist_iff.1 h
        obtain ⟨u, v, rfl⟩ := List.append_of_mem ha
        obtain ⟨v', x, rfl⟩ := List.append_of_mem (List.singleton_sublist.1 hb)
        have hword : ∀ l, l ∈ u ∨ l ∈ v ++ v' ∨ l ∈ x →
            l = inv.first.tracerLabel ∨ l = inv.second.tracerLabel := by
          intro l hl
          refine hw l ?_
          simp only [List.mem_append, List.mem_cons] at hl ⊢
          grind
        exact ⟨u, inv.first.tracerLabel :: (v ++ v' ++ inv.second.tracerLabel :: x), by simp,
          fun l hl => hword l (.inl hl), _, _, rfl, rfl, v ++ v', inv.second.tracerLabel :: x, rfl,
          fun l hl => hword l (.inr (.inl hl)), _, x, rfl, rfl,
          fun l hl => hword l (.inr (.inr hl))⟩
  | alwaysPrecedes =>
      simp only [QueueConstraint.Admits, Pattern.matches_sequence_iff, Pattern.matches_star_iff,
        Pattern.matches_label_iff, Relation.IsBroken, List.head?_eq_some_iff]
      constructor
      · rintro ⟨-, v, rfl, rfl, -⟩
        exact ⟨v, rfl⟩
      · rintro ⟨v, rfl⟩
        exact ⟨_, v, rfl, rfl, fun l hl => hw l (List.mem_cons_of_mem _ hl)⟩
  | eventually => exact Iff.rfl

/-! ### What the monitor says -/

section Monitor

variable {inv : Invariant} {p : Phase} {e : Event} {es : List Event}

namespace Invariant

theorem eq_or_eq_of_mem_events (he : e ∈ inv.events) : e = inv.first ∨ e = inv.second := by
  rw [events] at he
  split at he
  · exact .inr (List.mem_singleton.1 he)
  · simpa using he

theorem second_mem_events (inv : Invariant) : inv.second ∈ inv.events := by
  rw [events]
  split <;> simp

/-- Where the pattern is not empty, it reads the labels of the events. -/
theorem mem_labels_violation_iff (hrelation : inv.relation ≠ .eventually) {l : String} :
    l ∈ inv.violation.labels ↔ ∃ e ∈ inv.events, e.tracerLabel = l := by
  have hevents : ∀ e, e ∈ inv.events ↔ e = inv.first ∨ e = inv.second := by
    intro e
    rw [events]
    by_cases heq : inv.first = inv.second
    · simp [heq]
    · simp [hrelation, heq]
  have hlabels : l ∈ inv.violation.labels ↔
      l = inv.first.tracerLabel ∨ l = inv.second.tracerLabel := by
    rw [violation]
    cases hr : inv.relation with
    | eventually => exact absurd hr hrelation
    | _ =>
        simp only [QueueConstraint.labels, Pattern.labels, List.mem_append, List.mem_singleton]
        grind
  simp only [hlabels, hevents, or_and_right, exists_or, exists_eq_left, eq_comm]

theorem pid_of_mem_events (hwithin : inv.isWithinProcess = true) (he : e ∈ inv.events) :
    e.pid = inv.pid := by
  rcases eq_or_eq_of_mem_events he with rfl | rfl
  · exact of_decide_eq_true hwithin
  · rfl

theorem eq_or_eq_of_mem_occurrences (he : e ∈ inv.occurrences es) :
    e = inv.first ∨ e = inv.second :=
  eq_or_eq_of_mem_events (of_decide_eq_true (List.mem_filter.1 he).2)

theorem mem_record {l : String} (hl : l ∈ inv.record es) :
    l = inv.first.tracerLabel ∨ l = inv.second.tracerLabel := by
  obtain ⟨e, he, rfl⟩ := List.mem_map.1 hl
  exact (eq_or_eq_of_mem_occurrences he).imp (congrArg _) (congrArg _)

end Invariant

namespace Phase

/-- A monitor need not read more than the events of its invariant. -/
theorem feed_occurrences (p : Phase) (es : List Event) :
    p.feed inv (inv.occurrences es) = p.feed inv es := by
  have hdrop : ∀ e ∈ inv.events, decide (e ∉ inv.events) = false := by simp
  have hfilter : inv.occurrences es = es.filter fun e => !decide (e ∉ inv.events) := by
    simp [Invariant.occurrences]
  rw [hfilter]
  exact p.feed_filter es hdrop

theorem feed_append_singleton (p : Phase) (es : List Event) (e : Event) :
    p.feed inv (es ++ [e]) = (p.feed inv es).next inv e := by
  rw [feed, List.foldl_append]
  rfl

theorem feed_cons (p : Phase) (e : Event) (es : List Event) :
    p.feed inv (e :: es) = (p.next inv e).feed inv es := rfl

theorem feed_of_next (hp : ∀ e, p.next inv e = p) (es : List Event) : p.feed inv es = p := by
  induction es with
  | nil => rfl
  | cons e es ih => rw [feed_cons, hp, ih]

theorem feed_alwaysFollowedBy (hrelation : inv.relation = .alwaysFollowedBy) {es : List Event}
    (hes : ∀ e ∈ es, e = inv.first ∨ e = inv.second) : Phase.feed inv .idle es ≠ .broken ∧
      (Phase.feed inv .idle es = .armed ↔ es.getLast? = some inv.first) := by
  induction es using List.reverseRecOn with
  | nil => simp [feed]
  | append_singleton es e ih =>
      obtain ⟨hbroken, -⟩ := ih fun x hx => hes x (List.mem_append_left _ hx)
      rw [feed_append_singleton, next, hrelation, List.getLast?_concat]
      dsimp only
      by_cases hfirst : e = inv.first
      · simp [hfirst]
      · obtain rfl : e = inv.second := (hes e (by simp)).resolve_left hfirst
        by_cases hp : Phase.feed inv .idle es = .armed
        · simp [hfirst, hp]
        · simp [hfirst, hp, hbroken]

/-- Once armed, a monitor for `neverFollowedBy` waits for a second event. -/
theorem feed_armed_neverFollowedBy (hrelation : inv.relation = .neverFollowedBy)
    (hne : inv.first ≠ inv.second) {es : List Event}
    (hes : ∀ e ∈ es, e = inv.first ∨ e = inv.second) :
    Phase.feed inv .armed es = .broken ↔ inv.second ∈ es := by
  induction es with
  | nil => simp [feed]
  | cons e es ih =>
      obtain ⟨he, hrest⟩ := List.forall_mem_cons.1 hes
      rw [feed_cons, next, hrelation, List.mem_cons]
      dsimp only
      rcases he with rfl | rfl
      · simp [hne.symm, ih hrest]
      · have hbroken : Phase.feed inv .broken es = .broken :=
          feed_of_next (fun e => by rw [next, hrelation]; rfl) es
        simp [hne.symm, hbroken]

theorem feed_neverFollowedBy (hrelation : inv.relation = .neverFollowedBy)
    (hne : inv.first ≠ inv.second) {es : List Event}
    (hes : ∀ e ∈ es, e = inv.first ∨ e = inv.second) :
    Phase.feed inv .idle es = .broken ↔ [inv.first, inv.second].Sublist es := by
  induction es with
  | nil => simp [feed]
  | cons e es ih =>
      obtain ⟨he, hrest⟩ := List.forall_mem_cons.1 hes
      rw [feed_cons, next, hrelation]
      dsimp only
      rcases he with rfl | rfl
      · rw [List.cons_sublist_cons, List.singleton_sublist]
        simpa using feed_armed_neverFollowedBy hrelation hne hrest
      · rw [List.cons_sublist_cons']
        simp [hne, hne.symm, ih hrest]

theorem feed_alwaysPrecedes (hrelation : inv.relation = .alwaysPrecedes)
    (hne : inv.first ≠ inv.second) {es : List Event}
    (hes : ∀ e ∈ es, e = inv.first ∨ e = inv.second) :
    Phase.feed inv .idle es = .broken ↔ es.head? = some inv.second := by
  have hkept {p : Phase} (hp : p ≠ .idle) (es : List Event) : p.feed inv es = p :=
    feed_of_next (fun e => by rw [next, hrelation]; exact if_pos hp) es
  cases es with
  | nil => simp [feed]
  | cons e es =>
      rw [feed_cons, next, hrelation]
      dsimp only
      rcases hes e List.mem_cons_self with rfl | rfl
      · simp [hkept (p := .met) Phase.noConfusion, hne]
      · simp [hkept (p := .broken) Phase.noConfusion, hne.symm]

theorem feed_eventually (hrelation : inv.relation = .eventually) {es : List Event}
    (hes : ∀ e ∈ es, e = inv.second) : Phase.feed inv .idle es = .met ↔ es ≠ [] := by
  cases es with
  | nil => simp [feed]
  | cons e es =>
      have hmet : Phase.feed inv .met es = .met :=
        feed_of_next (fun e => by rw [next, hrelation]; exact ite_self _) es
      rw [feed_cons, next, hrelation]
      simp [hes e List.mem_cons_self, hmet]

/-- The phases in which an invariant is violated if the trace ends. -/
def EndsViolated (r : Relation) (p : Phase) : Prop :=
  match r with
  | .alwaysFollowedBy => p = .armed ∨ p = .broken
  | .neverFollowedBy => p = .broken
  | .alwaysPrecedes => p = .broken
  | .eventually => p ≠ .met

theorem isFail_validity_iff (inv : Invariant) (p : Phase) :
    (p.validity inv).isFail = true ↔ EndsViolated inv.relation p := by
  obtain ⟨relation, first, second, bound⟩ := inv
  cases relation <;> cases p <;> cases bound <;>
    simp [validity, Validity.isFail, EndsViolated]

end Phase

/-- What the monitor says of a sequence. Two relations need two different
events. -/
theorem Invariant.failsOn_iff
    (hne : inv.first = inv.second →
      inv.relation = .alwaysFollowedBy ∨ inv.relation = .eventually) :
    inv.FailsOn es ↔ inv.relation.IsBroken inv.first inv.second (inv.occurrences es) := by
  have hfeed : Phase.feed inv.untimed .idle (inv.occurrences es) = Phase.feed inv.untimed .idle es :=
    @Phase.feed_occurrences inv.untimed .idle es
  have hmem : ∀ e ∈ inv.occurrences es, e = inv.first ∨ e = inv.second :=
    fun e he => eq_or_eq_of_mem_occurrences he
  rw [FailsOn, ← hfeed, Phase.isFail_validity_iff]
  change Phase.EndsViolated inv.relation _ ↔ _
  cases hrelation : inv.relation with
  | alwaysFollowedBy =>
      obtain ⟨hbroken, harmed⟩ := @Phase.feed_alwaysFollowedBy inv.untimed hrelation _ hmem
      exact (or_iff_left hbroken).trans harmed
  | neverFollowedBy =>
      have hne : inv.first ≠ inv.second := fun heq => by simpa [hrelation] using hne heq
      exact @Phase.feed_neverFollowedBy inv.untimed hrelation hne _ hmem
  | alwaysPrecedes =>
      have hne : inv.first ≠ inv.second := fun heq => by simpa [hrelation] using hne heq
      exact @Phase.feed_alwaysPrecedes inv.untimed hrelation hne _ hmem
  | eventually =>
      have hsecond : ∀ e ∈ inv.occurrences es, e = inv.second := by
        intro e he
        have hevent := of_decide_eq_true (List.mem_filter.1 he).2
        rw [events, if_pos (.inl hrelation)] at hevent
        exact List.mem_singleton.1 hevent
      have hmet := @Phase.feed_eventually inv.untimed hrelation _ hsecond
      exact (not_congr hmet).trans Decidable.not_not

/-- **Pattern and monitor agree** on the record of a sequence, if the labels
tell the two events apart. -/
theorem Invariant.admits_record_iff
    (hlabels : inv.relation = .eventually ∨ inv.first.tracerLabel ≠ inv.second.tracerLabel) :
    inv.violation.Admits (inv.record es) ↔ inv.FailsOn es := by
  have hne : inv.first = inv.second →
      inv.relation = .alwaysFollowedBy ∨ inv.relation = .eventually :=
    fun heq => .inr (hlabels.resolve_right fun h => h (congrArg _ heq))
  rw [violation_admits_iff fun _ => mem_record, failsOn_iff hne, record]
  rcases hlabels with hrelation | hlabels
  · rw [hrelation, Relation.IsBroken, Relation.IsBroken, List.map_eq_nil_iff]
  · exact Relation.isBroken_map hlabels fun _ => eq_or_eq_of_mem_occurrences

/-! ### Two events with one label -/

/-- With a single event, a record ends in the label of the first event exactly
if the occurrences end in the first event. -/
theorem Invariant.isBroken_record_of_eq (hsame : inv.first = inv.second) (es : List Event) :
    Relation.alwaysFollowedBy.IsBroken inv.first.tracerLabel inv.second.tracerLabel
        (inv.record es) ↔
      Relation.alwaysFollowedBy.IsBroken inv.first inv.second (inv.occurrences es) := by
  rw [Relation.IsBroken, Relation.IsBroken, record, List.getLast?_map]
  cases hlast : (inv.occurrences es).getLast? with
  | none => simp
  | some e =>
      have he : e = inv.first := by
        rcases eq_or_eq_of_mem_occurrences (List.mem_of_getLast? hlast) with rfl | rfl
        · rfl
        · exact hsame.symm
      simp [he]

/-- Of two events with one label, the second goes unnoticed by the monitor
where the first is looked for before, and is no first event to it where the
two are different. So pattern and monitor agree on all sequences only for
`alwaysFollowedBy` with a single event. -/
theorem Invariant.same_label_agrees_iff (hrelation : inv.relation ≠ .eventually)
    (hlabel : inv.first.tracerLabel = inv.second.tracerLabel) :
    (∀ es, inv.violation.Admits (inv.record es) ↔ inv.FailsOn es) ↔
      inv.relation = .alwaysFollowedBy ∧ inv.first = inv.second := by
  have hfirst : inv.first ∈ inv.events := by
    rw [events]
    split <;> simp_all
  have hsecond : inv.second ∈ inv.events := by
    rw [events]
    split <;> simp
  simp only [violation_admits_iff fun _ => mem_record]
  constructor
  · intro hagrees
    cases hcase : inv.relation with
    | alwaysFollowedBy =>
        refine ⟨rfl, Decidable.byContradiction fun hne => ?_⟩
        have hadmits := hagrees [inv.first, inv.second]
        rw [failsOn_iff fun heq => absurd heq hne, hcase] at hadmits
        simp [Relation.IsBroken, record, occurrences, hfirst, hsecond, hlabel, Ne.symm hne]
          at hadmits
    | neverFollowedBy =>
        have hadmits := hagrees [inv.first, inv.first]
        simp [Relation.IsBroken, record, occurrences, hfirst, hlabel, hcase, FailsOn,
          Phase.isFail_validity_iff, Phase.EndsViolated, Phase.feed, Phase.next, untimed]
          at hadmits
    | alwaysPrecedes =>
        have hadmits := hagrees [inv.first]
        simp [Relation.IsBroken, record, occurrences, hfirst, hlabel, hcase, FailsOn,
          Phase.isFail_validity_iff, Phase.EndsViolated, Phase.feed, Phase.next, untimed]
          at hadmits
    | eventually => exact absurd hcase hrelation
  · rintro ⟨hcase, hsame⟩ es
    rw [failsOn_iff fun _ => .inl hcase, hcase]
    exact isBroken_record_of_eq hsame es

/-! ### One event, and two events with one label -/

/-- The invariant between the events `x` and `y` of one process. -/
def Invariant.betweenNames (relation : Relation) (x y : String) : Invariant :=
  ⟨relation, .internal 0 x, .internal 0 y, none⟩

theorem Invariant.same_label_agrees_somewhere :
    (betweenNames .alwaysFollowedBy "x" "x").relation ≠ .eventually ∧
      (∀ es, (betweenNames .alwaysFollowedBy "x" "x").violation.Admits
          ((betweenNames .alwaysFollowedBy "x" "x").record es) ↔
        (betweenNames .alwaysFollowedBy "x" "x").FailsOn es) ∧
      (betweenNames .alwaysFollowedBy "x-y" "x_y").first.tracerLabel =
        (betweenNames .alwaysFollowedBy "x-y" "x_y").second.tracerLabel ∧
      ¬ ∀ es, (betweenNames .alwaysFollowedBy "x-y" "x_y").violation.Admits
          ((betweenNames .alwaysFollowedBy "x-y" "x_y").record es) ↔
        (betweenNames .alwaysFollowedBy "x-y" "x_y").FailsOn es := by
  have hlabel : (betweenNames .alwaysFollowedBy "x-y" "x_y").first.tracerLabel =
      (betweenNames .alwaysFollowedBy "x-y" "x_y").second.tracerLabel := by decide
  refine ⟨by decide, ?_, hlabel, ?_⟩
  · exact (same_label_agrees_iff (by decide) rfl).2 ⟨rfl, rfl⟩
  · intro hagrees
    exact absurd ((same_label_agrees_iff (by decide) hlabel).1 hagrees).2 (by decide)

/-- The record of two `x` matches the pattern of `x NFby x`, but the monitor
is satisfied; likewise one `x` and `x AP x`. -/
theorem Invariant.reflexive_disagrees :
    ((betweenNames .neverFollowedBy "x" "x").violation.Admits
        ((betweenNames .neverFollowedBy "x" "x").record [.internal 0 "x", .internal 0 "x"]) ∧
      ¬ (betweenNames .neverFollowedBy "x" "x").FailsOn [.internal 0 "x", .internal 0 "x"]) ∧
    ((betweenNames .alwaysPrecedes "x" "x").violation.Admits
        ((betweenNames .alwaysPrecedes "x" "x").record [.internal 0 "x"]) ∧
      ¬ (betweenNames .alwaysPrecedes "x" "x").FailsOn [.internal 0 "x"]) := by
  refine ⟨⟨?_, by decide⟩, ?_, by decide⟩
  · exact (violation_admits_iff fun _ => mem_record).2 (List.Sublist.refl _)
  · exact (violation_admits_iff fun _ => mem_record).2 rfl

end Monitor

end ProtocolInference
