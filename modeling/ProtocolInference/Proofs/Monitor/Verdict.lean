import ProtocolInference.Proofs.Monitor.Reading

/-!
What verdicts mean.

A verdict comes from a machine with four phases, a clock and an early stop.
It says what `Invariant.Holds` and `Invariant.HoldsInTime` say of all
positions of the trace at once, and the position that it names for a failure
is the first one that comes into question (`plain_verdict_is_exact`,
`timed_verdict_is_exact`). The clock stops at the greatest time, but the
meaning of a bound is that of exact times.

Both follow from what a monitor that has read the whole trace knows, and so
does the effect of a bound: a looser one, or none, lets the same traces pass
and perhaps more (`looser_bound_relaxes`). There the two events may even be
the same.
-/

namespace ProtocolInference

variable {inv : Invariant} {es : List TimedEvent} {m : Monitor} {since : Option Nat}

/-! ### Verdicts of monitors that are abreast -/

namespace Monitor.IsAbreast

variable (hrelation : inv.relation ≠ .eventually) (h : m.IsAbreast inv es since)
include hrelation h

theorem passed_iff : (Verdict.ofValidity (m.validity inv) since).passed = true ↔
    inv.breaches es = ∅ ∧ (inv.relation = .alwaysFollowedBy → inv.unanswered es = ∅) := by
  simp only [Verdict.ofValidity, Bool.not_eq_true', ← Bool.not_eq_true, isFail_iff hrelation]
  by_cases hm : m.phase = .broken
  · obtain ⟨j, -, hj⟩ := h.isLeast_breach hm
    simp [hm, hj.nonempty.ne_empty]
  · simp only [hm, false_or, h.breaches_eq hm, true_and, not_and]
    refine forall_congr' fun hafby => ?_
    rw [h.armed_iff hafby hm, Set.not_nonempty_iff_eq_empty]

theorem failedAt_of_breach (hbreach : (inv.breaches es).Nonempty) :
    ∃ j, (Verdict.ofValidity (m.validity inv) since).failedAt = some j ∧
      IsLeast (inv.breaches es) j := by
  have hm : m.phase = .broken := by
    by_contra hm
    exact hbreach.ne_empty (h.breaches_eq hm)
  obtain ⟨j, rfl, hj⟩ := h.isLeast_breach hm
  rw [Verdict.ofValidity, if_pos ((isFail_iff hrelation m).2 (.inl hm))]
  exact ⟨j, rfl, hj⟩

/-- Without a breach, a trace can fail for one reason only. -/
theorem failedAt_of_unanswered (hnone : inv.breaches es = ∅)
    (hfails : (Verdict.ofValidity (m.validity inv) since).passed = false) :
    inv.relation = .alwaysFollowedBy ∧
      IsFirstOf (inv.unanswered es) (Verdict.ofValidity (m.validity inv) since).failedAt := by
  have hfail : (m.validity inv).isFail = true := by simpa [Verdict.ofValidity] using hfails
  rcases (isFail_iff hrelation m).1 hfail with hm | ⟨hafby, hm⟩
  · obtain ⟨j, -, hj⟩ := h.isLeast_breach hm
    exact absurd hnone hj.nonempty.ne_empty
  · obtain ⟨i, rfl, hi⟩ := h.isLeast_armed hafby hm
    rw [Verdict.ofValidity, if_pos hfail]
    exact ⟨hafby, hi⟩

end Monitor.IsAbreast

namespace Invariant

theorem exists_isAbreast (hsupported : inv.checkMonitor = .ok ())
    (hrelation : inv.relation ≠ .eventually) (es : List TimedEvent) :
    ∃ m since, Monitor.IsAbreast inv m es since ∧
      inv.check es = .ok (.ofValidity (m.validity inv) since) :=
  @exists_check_eq inv (fun es m since => m.IsAbreast inv es since) hsupported
    (fun _ _ _ e h => h.step hsupported hrelation e) (.start inv) es

theorem exists_isAbreast_of_timed
    (hrelation : inv.relation = .alwaysFollowedBy ∨ inv.relation = .alwaysPrecedes)
    (es : List TimedEvent) :
    inv.relation ≠ .eventually ∧ ∃ m since, Monitor.IsAbreast inv m es since ∧
      inv.check es = .ok (.ofValidity (m.validity inv) since) := by
  have hsupported : inv.checkMonitor = .ok () := by
    rcases hrelation with hcase | hcase <;> simp [checkMonitor, hcase]
  have hnever : inv.relation ≠ .eventually := by
    rcases hrelation with hcase | hcase <;> simp [hcase]
  exact ⟨hnever, exists_isAbreast hsupported hnever es⟩

section Eventually

variable (hrelation : inv.relation = .eventually) (hbound : inv.bound = none)
include hrelation hbound

theorem phase_step_eventually (m : Monitor) (e : TimedEvent) :
    (m.step inv e.event e.delta).phase = if e.event = inv.second then .met else m.phase := by
  simp [Monitor.step, hbound, Phase.next, hrelation]

omit hbound in
theorem validity_eventually (m : Monitor) :
    m.validity inv = if m.phase = .met then .permSuccess else .tempFail := by
  rw [Monitor.validity, Phase.validity.eq_def, hrelation]
  cases m.phase <;> rfl

theorem blame_eventually (m : Monitor) (e : TimedEvent) (since : Option Nat) (position : Nat) :
    m.blame inv (m.step inv e.event e.delta) since position = since := by
  rw [Monitor.blame, validity_eventually hrelation, validity_eventually hrelation,
    phase_step_eventually hrelation hbound]
  by_cases hm : m.phase = .met
  · simp [hm, Validity.isPermanent]
  · by_cases he : e.event = inv.second <;> simp [hm, he, Validity.isPermanent, Validity.isFail]

/-- A monitor for `eventually` knows whether the event has occurred, and names
no position. -/
theorem exists_check_eventually (es : List TimedEvent) :
    ∃ m : Monitor, (m.phase = .met ↔ inv.second ∈ es.map (·.event)) ∧
      inv.check es = .ok (.ofValidity (m.validity inv) none) := by
  have hsupported : inv.checkMonitor = .ok () := by
    simp [checkMonitor, hrelation, hbound]
  obtain ⟨m, since, ⟨rfl, hm⟩, hcheck⟩ := @exists_check_eq inv
    (fun seen m since => since = none ∧ (m.phase = .met ↔ inv.second ∈ seen.map (·.event)))
    hsupported
    (by
      rintro seen m since e ⟨rfl, hm⟩
      refine ⟨blame_eventually hrelation hbound m e none seen.length, ?_⟩
      rw [phase_step_eventually hrelation hbound, List.map_append, List.mem_append, ← hm]
      grind)
    ⟨rfl, by simp [Monitor.start]⟩ es
  exact ⟨m, hm, hcheck⟩

end Eventually

/-! ### Without a bound -/

/-- **A verdict without a bound** says of the whole trace what the invariant
means, names the first position that comes into question if the trace
fails, and is the same as if the monitor had read to the end. -/
theorem plain_verdict_is_exact (hbound : inv.bound = none)
    (hne : inv.relation = .eventually ∨ inv.first ≠ inv.second) (es : List TimedEvent) :
    ∃ v, inv.check es = .ok v ∧
      (v.passed = true ↔ inv.Holds (es.map (·.event))) ∧
      (v.passed = false → IsFirstOf (inv.culprits (es.map (·.event))) v.failedAt) ∧
      v.passed = !((Monitor.start.feed inv es).validity inv).isFail := by
  have hsupported : inv.checkMonitor = .ok () := by
    cases hcase : inv.relation <;> simp [checkMonitor, hcase, hbound]
  have hfeed {v : Verdict} (hv : inv.check es = .ok v) :
      v.passed = !((Monitor.start.feed inv es).validity inv).isFail := by
    rw [check, hsupported] at hv
    rw [← Except.ok.inj hv]
    exact Monitor.passed_watch hsupported (Monitor.isSound_start inv) none 0 es
  by_cases hrelation : inv.relation = .eventually
  · obtain ⟨m, hm, hcheck⟩ := exists_check_eventually hrelation hbound es
    refine ⟨_, hcheck, ?_, fun _ => ?_, hfeed hcheck⟩
    · rw [Holds, hrelation, ← hm, validity_eventually hrelation]
      by_cases hmet : m.phase = .met <;> simp [hmet, Verdict.ofValidity, Validity.isFail]
    · rw [culprits, hrelation, Verdict.ofValidity, ite_self]
      rfl
  · have hne := hne.resolve_left hrelation
    obtain ⟨m, since, hm, hcheck⟩ := exists_isAbreast hsupported hrelation es
    refine ⟨_, hcheck, ?_, fun hfails => ?_, hfeed hcheck⟩
    · rw [hm.passed_iff hrelation, holds_iff hne hrelation hbound]
    · rcases Set.eq_empty_or_nonempty (inv.breaches es) with hnone | hbreach
      · obtain ⟨hafby, hfirst⟩ := hm.failedAt_of_unanswered hrelation hnone hfails
        rwa [unanswered_eq_culprits hne hafby] at hfirst
      · obtain ⟨j, hj, hleast⟩ := hm.failedAt_of_breach hrelation hbreach
        rw [hj]
        exact isLeast_culprits hne hbound hleast

/-- Requests of a process and the replies that it gets. -/
def requestReply (relation : Relation) (bound : Option Bound) : Invariant :=
  ⟨relation, .internal 0 "request", .internal 0 "reply", bound⟩

/-- A request with two replies, and two requests without any. -/
def exchange : List TimedEvent :=
  [⟨.internal 0 "request", 0⟩, ⟨.internal 0 "reply", 3⟩, ⟨.internal 0 "reply", 3⟩,
    ⟨.internal 0 "request", 1⟩, ⟨.internal 0 "tick", 2⟩, ⟨.internal 0 "request", 1⟩]

theorem exchange_plain_verdict :
    (requestReply .alwaysFollowedBy none).bound = none ∧
      (requestReply .alwaysFollowedBy none).first ≠
        (requestReply .alwaysFollowedBy none).second ∧
      (requestReply .alwaysFollowedBy none).check exchange = .ok ⟨false, some 3⟩ ∧
      ¬ (requestReply .alwaysFollowedBy none).Holds (exchange.map (·.event)) ∧
      IsLeast ((requestReply .alwaysFollowedBy none).culprits (exchange.map (·.event))) 3 := by
  have hne : (requestReply .alwaysFollowedBy none).first ≠
      (requestReply .alwaysFollowedBy none).second := by decide
  have hcheck : (requestReply .alwaysFollowedBy none).check exchange =
      .ok ⟨false, some 3⟩ := by decide
  obtain ⟨v, hv, hpassed, hfirst, -⟩ := plain_verdict_is_exact rfl (.inr hne) exchange
  obtain rfl := Except.ok.inj (hcheck.symm.trans hv)
  exact ⟨rfl, hne, hcheck, fun h => Bool.false_ne_true (hpassed.2 h), hfirst rfl⟩

/-! ### With a bound -/

/-- **A verdict with a bound** says of the whole trace what the invariant means
in exact time. If the trace fails, the verdict names the first position that
makes it fail for good. If there is none, the trace fails since a first event
is not followed by a second one any more, and the verdict names the first
such event. -/
theorem timed_verdict_is_exact {bound : Bound} (hbound : inv.bound = some bound)
    (hlimit : bound.limit < wordSize)
    (hrelation : inv.relation = .alwaysFollowedBy ∨ inv.relation = .alwaysPrecedes)
    (hne : inv.first ≠ inv.second) (es : List TimedEvent) :
    ∃ v, inv.check es = .ok v ∧
      (v.passed = true ↔ inv.HoldsInTime es) ∧
      (v.passed = false → (inv.offences es).Nonempty → IsFirstOf (inv.offences es) v.failedAt) ∧
      (v.passed = false → inv.offences es = ∅ → inv.relation = .alwaysFollowedBy ∧
        IsFirstOf (inv.culprits (es.map (·.event))) v.failedAt) := by
  obtain ⟨hnever, m, since, hm, hcheck⟩ := exists_isAbreast_of_timed hrelation es
  rw [← breaches_eq_offences hne hbound hlimit hrelation]
  refine ⟨_, hcheck, ?_, fun _ hbreach => ?_, fun hfails hnone => ?_⟩
  · rw [hm.passed_iff hnever, holdsInTime_iff hne hbound hlimit hrelation]
  · obtain ⟨j, hj, hleast⟩ := hm.failedAt_of_breach hnever hbreach
    rw [hj]
    exact hleast
  · obtain ⟨hafby, hfirst⟩ := hm.failedAt_of_unanswered hnever hnone hfails
    rw [unanswered_eq_culprits hne hafby] at hfirst
    exact ⟨hafby, hfirst⟩

/-- The second reply comes six units after its request, which only the tighter
bound forbids. With the looser one it is the requests at the end that are
left. -/
theorem exchange_timed_verdict :
    (requestReply .alwaysFollowedBy (some (.atMost 5))).first ≠
        (requestReply .alwaysFollowedBy (some (.atMost 5))).second ∧
      (requestReply .alwaysFollowedBy (some (.atMost 5))).check exchange =
        .ok ⟨false, some 2⟩ ∧
      IsLeast ((requestReply .alwaysFollowedBy (some (.atMost 5))).offences exchange) 2 ∧
      (requestReply .alwaysFollowedBy (some (.atMost 6))).check exchange =
        .ok ⟨false, some 3⟩ ∧
      ¬ (requestReply .alwaysFollowedBy (some (.atMost 6))).HoldsInTime exchange := by
  have hne (bound : Option Bound) : (requestReply .alwaysFollowedBy bound).first ≠
      (requestReply .alwaysFollowedBy bound).second := by
    show Event.internal 0 "request" ≠ .internal 0 "reply"
    decide
  have htight : (requestReply .alwaysFollowedBy (some (.atMost 5))).check exchange =
      .ok ⟨false, some 2⟩ := by decide
  have hloose : (requestReply .alwaysFollowedBy (some (.atMost 6))).check exchange =
      .ok ⟨false, some 3⟩ := by decide
  obtain ⟨v, hv, -, hoffence, hopen⟩ :=
    timed_verdict_is_exact rfl (by decide) (.inl rfl) (hne (some (.atMost 5))) exchange
  obtain rfl := Except.ok.inj (htight.symm.trans hv)
  obtain ⟨w, hw, hpassed, -⟩ :=
    timed_verdict_is_exact rfl (by decide) (.inl rfl) (hne (some (.atMost 6))) exchange
  obtain rfl := Except.ok.inj (hloose.symm.trans hw)
  refine ⟨hne _, htight, ?_, hloose, fun h => Bool.false_ne_true (hpassed.2 h)⟩
  rcases Set.eq_empty_or_nonempty
    ((requestReply .alwaysFollowedBy (some (.atMost 5))).offences exchange) with hnone | hsome
  · obtain ⟨-, hfirst, -⟩ := hopen rfl hnone
    exact absurd hfirst.1 (by decide)
  · exact hoffence rfl hsome

/-! ### Looser bounds -/

/-- The trace passes the check of the invariant. -/
def Passes (inv : Invariant) (es : List TimedEvent) : Prop :=
  ∃ v, inv.check es = .ok v ∧ v.passed = true

/-- The same invariant with the bound, or without any. -/
def withBound (inv : Invariant) (bound : Option Bound) : Invariant := { inv with bound := bound }

section Looser

variable (hrelation : inv.relation = .alwaysFollowedBy ∨ inv.relation = .alwaysPrecedes)
include hrelation

theorem passes_withBound_iff (bound : Option Bound) : (inv.withBound bound).Passes es ↔
    (inv.withBound bound).breaches es = ∅ ∧
      (inv.relation = .alwaysFollowedBy → inv.unanswered es = ∅) := by
  obtain ⟨hnever, m, since, hm, hcheck⟩ :=
    @exists_isAbreast_of_timed (inv.withBound bound) hrelation es
  simp only [Passes, hcheck, Except.ok.injEq, exists_eq_left']
  exact hm.passed_iff hnever

/-- A bound that forbids nothing that the other one allows on a clock lets pass
what the other one does. -/
theorem passes_withBound (bound bound' : Option Bound)
    (hlooser : ∀ shown ≤ maxTime,
      (inv.withBound bound').Misses shown → (inv.withBound bound).Misses shown)
    (h : (inv.withBound bound).Passes es) : (inv.withBound bound').Passes es := by
  rw [passes_withBound_iff hrelation] at h ⊢
  refine ⟨Set.subset_eq_empty ?_ h.1, h.2⟩
  have hmisses (seen : List TimedEvent) (e : TimedEvent)
      (h : (inv.withBound bound').MissesAfter seen e) :
      (inv.withBound bound).MissesAfter seen e := by
    obtain ⟨i, hi, hmisses⟩ := h
    exact ⟨i, hi, hlooser _ (Nat.min_le_right _ _) hmisses⟩
  rintro j ⟨e, he, hsecond, hne, hbreaks⟩
  refine ⟨e, he, hsecond, hne, ?_⟩
  rcases hrelation with hcase | hcase
  · simp only [withBound, hcase] at hbreaks ⊢
    exact hmisses _ _ hbreaks
  · simp only [withBound, hcase] at hbreaks ⊢
    exact hbreaks.imp_right (hmisses _ _)

end Looser

/-- **Loosening a bound only relaxes the check**, and so does dropping it. A
bound that every time on a clock meets is no bound. -/
theorem looser_bound_relaxes
    (hrelation : inv.relation = .alwaysFollowedBy ∨ inv.relation = .alwaysPrecedes)
    (es : List TimedEvent) :
    (∀ bound, (inv.withBound bound).Passes es → inv.untimed.Passes es) ∧
      (∀ n m, n ≤ m → (inv.withBound (some (.atMost n))).Passes es →
        (inv.withBound (some (.atMost m))).Passes es) ∧
      (∀ n m, m ≤ n → (inv.withBound (some (.atLeast n))).Passes es →
        (inv.withBound (some (.atLeast m))).Passes es) ∧
      ((inv.withBound (some (.atLeast 0))).Passes es ↔ inv.untimed.Passes es) ∧
      ((inv.withBound (some (.atMost maxTime))).Passes es ↔ inv.untimed.Passes es) ∧
      (inv.Passes es → ¬ inv.FailsOn (es.map (·.event))) := by
  have hmisses (bound : Bound) (shown : Time) :
      (inv.withBound (some bound)).Misses shown ↔ bound.holds shown = false := by
    simp [Misses, withBound]
  have hdrop (bound : Option Bound) : (inv.withBound bound).Passes es → inv.untimed.Passes es :=
    passes_withBound hrelation bound none fun shown _ h => absurd h (not_misses rfl shown)
  have hadd {bound : Bound} (hholds : ∀ shown ≤ maxTime, bound.holds shown = true) :
      (inv.withBound (some bound)).Passes es ↔ inv.untimed.Passes es := by
    refine ⟨hdrop _, passes_withBound hrelation none (some bound) fun shown hshown h => ?_⟩
    rw [hmisses, hholds shown hshown] at h
    cases h
  refine ⟨hdrop, fun n m hnm => ?_, fun n m hmn => ?_, hadd fun shown _ => ?_,
    hadd fun shown hshown => ?_, fun hpasses hfails => ?_⟩
  · refine passes_withBound hrelation _ _ fun shown _ h => ?_
    simp only [hmisses, Bound.holds, decide_eq_false_iff_not] at h ⊢
    exact fun hle => h (Nat.le_trans hle hnm)
  · refine passes_withBound hrelation _ _ fun shown _ h => ?_
    simp only [hmisses, Bound.holds, decide_eq_false_iff_not] at h ⊢
    exact fun hle => h (Nat.le_trans hmn hle)
  · exact decide_eq_true (Nat.zero_le shown)
  · exact decide_eq_true hshown
  · obtain ⟨v, hv, hpassed⟩ := hdrop inv.bound hpasses
    have hpass : (inv.untimed.check es).map (·.passed) = .ok true := by
      rw [hv, ← hpassed]
      rfl
    exact passes_iff.1 hpass hfails

theorem exchange_relaxed :
    (requestReply .alwaysFollowedBy none).relation = .alwaysFollowedBy ∧
      (requestReply .alwaysFollowedBy (some (.atMost 6))).Passes (exchange.take 3) ∧
      (requestReply .alwaysFollowedBy (some (.atMost 9))).Passes (exchange.take 3) ∧
      (requestReply .alwaysFollowedBy none).Passes (exchange.take 3) := by
  have hpasses : (requestReply .alwaysFollowedBy (some (.atMost 6))).Passes (exchange.take 3) :=
    ⟨⟨true, none⟩, by decide, rfl⟩
  obtain ⟨hdrop, hatMost, -⟩ :=
    @looser_bound_relaxes (requestReply .alwaysFollowedBy none) (.inl rfl) (exchange.take 3)
  exact ⟨rfl, hpasses, hatMost 6 9 (by decide) hpasses, hdrop (some (.atMost 6)) hpasses⟩

end Invariant

end ProtocolInference
