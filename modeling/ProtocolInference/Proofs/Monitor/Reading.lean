import ProtocolInference.Proofs.Invariant.Breach
import ProtocolInference.Proofs.Invariant.Violation

/-!
What a monitor knows of the events it has read.

A monitor stops at the first permanent answer, and names a position if the
answer is a failure. If it read on, neither the answer nor the position
would change. So a verdict can be read off from what holds of the monitor
after the whole trace, and for that it is enough to show that each event
keeps it (`Invariant.exists_check_eq`).

What is kept is `Monitor.IsAbreast`: the phase tells whether there has been
a breach and whether a first event is unanswered, the position is that of
the first one, and the clock shows the time since the last first event. An
event is a first one, or a second one and no first one, or neither; each of
the three does the same to a monitor whatever the relation and the bound
(`Monitor.step_first`, `Monitor.step_second`, `Monitor.step_other`), and so
it is only there that monitors are taken apart.
-/

namespace ProtocolInference

variable {inv : Invariant} {es seen : List TimedEvent} {e : TimedEvent} {m : Monitor}
variable {since : Option Nat}

/-! ### Reading on -/

/-- The position a monitor names for its failure after one more event. A
permanent answer is not put down to what comes behind it. -/
def Monitor.blame (inv : Invariant) (before after : Monitor) (since : Option Nat)
    (position : Nat) : Option Nat :=
  if (before.validity inv).isPermanent then since
  else if after.validity inv = .permFail ∨
    ((after.validity inv).isFail ∧ ¬ (before.validity inv).isFail) then some position
  else since

section ReadingOn

variable {Knows : List TimedEvent → Monitor → Option Nat → Prop}
  (hsupported : inv.checkMonitor = .ok ())
  (hstep : ∀ seen m since e, Knows seen m since →
    Knows (seen ++ [e]) (m.step inv e.event e.delta)
      (m.blame inv (m.step inv e.event e.delta) since seen.length))
include hsupported hstep

theorem Monitor.exists_of_permanent (hsound : m.IsSound inv)
    (hpermanent : (m.validity inv).isPermanent = true) (h : Knows seen m since)
    (rest : List TimedEvent) :
    ∃ m', Knows (seen ++ rest) m' since ∧ m'.validity inv = m.validity inv := by
  induction rest generalizing seen m with
  | nil => exact ⟨m, by rwa [List.append_nil], rfl⟩
  | cons e rest ih =>
      have hkept := Monitor.validity_step hsupported hsound hpermanent e.event e.delta
      have hnext := hstep seen m since e h
      rw [blame, if_pos hpermanent] at hnext
      obtain ⟨m', hm', hvalidity⟩ :=
        ih (hsound.step e.event e.delta) (hkept ▸ hpermanent) hnext
      rw [List.append_assoc] at hm'
      exact ⟨m', hm', hvalidity.trans hkept⟩

theorem Monitor.exists_watch_eq (hsound : m.IsSound inv)
    (hopen : ¬ (m.validity inv).isPermanent = true) (h : Knows seen m since)
    (rest : List TimedEvent) :
    ∃ m' since', Knows (seen ++ rest) m' since' ∧
      m.watch inv since seen.length rest = .ofValidity (m'.validity inv) since' := by
  induction rest generalizing seen m since with
  | nil => exact ⟨m, since, by rwa [List.append_nil], rfl⟩
  | cons e rest ih =>
      have hnext := hstep seen m since e h
      have hsound' := hsound.step e.event e.delta
      rw [blame, if_neg hopen] at hnext
      rw [watch]
      by_cases hpermanent : ((m.step inv e.event e.delta).validity inv).isPermanent = true
      · rw [if_pos hpermanent]
        obtain ⟨m', hm', hvalidity⟩ :=
          exists_of_permanent hsupported hstep hsound' hpermanent hnext rest
        rw [List.append_assoc] at hm'
        exact ⟨m', _, hm', by rw [hvalidity]⟩
      · rw [if_neg hpermanent]
        obtain ⟨m', since', hm', hwatch⟩ := ih hsound' hpermanent hnext
        rw [List.append_assoc] at hm'
        rw [List.length_append] at hwatch
        exact ⟨m', since', hm', hwatch⟩

/-- What holds at the beginning, and is kept by every event, holds of the
monitor from which the verdict is read off. -/
theorem Invariant.exists_check_eq (hstart : Knows [] .start none) (es : List TimedEvent) :
    ∃ m since, Knows es m since ∧
      inv.check es = .ok (.ofValidity (m.validity inv) since) := by
  have hopen : ¬ (Monitor.start.validity inv).isPermanent = true := by
    rw [Monitor.validity]
    cases h : inv.relation <;> simp [Phase.validity, h, Monitor.start, Validity.isPermanent]
  obtain ⟨m, since, hm, hwatch⟩ :=
    Monitor.exists_watch_eq hsupported hstep (Monitor.isSound_start inv) hopen hstart es
  refine ⟨m, since, hm, ?_⟩
  rw [check, hsupported, ← hwatch]
  rfl

end ReadingOn

/-! ### The three kinds of events -/

section Kinds

variable (hsupported : inv.checkMonitor = .ok ()) (hrelation : inv.relation ≠ .eventually)
  (delta : Time)
include hsupported hrelation

theorem Monitor.step_of_broken (hm : m.phase = .broken)
    (hbound : inv.relation = .alwaysFollowedBy → inv.bound ≠ none) (e : Event) :
    (m.step inv e delta).phase = .broken := by
  obtain ⟨relation, first, second, bound⟩ := inv
  obtain ⟨phase, elapsed⟩ := m
  cases bound <;> cases relation <;>
    simp_all [step, Phase.next, timedStep, Invariant.checkMonitor]

theorem Monitor.step_first (hm : m.phase ≠ .broken) :
    (m.step inv inv.first delta).phase ≠ .idle ∧
      (m.step inv inv.first delta).phase ≠ .broken ∧
      (inv.relation = .alwaysFollowedBy → (m.step inv inv.first delta).phase = .armed) ∧
      (inv.relation = .neverFollowedBy → (m.step inv inv.first delta).phase ≠ .met) ∧
      (inv.bound ≠ none → (m.step inv inv.first delta).elapsed = 0) := by
  obtain ⟨relation, first, second, bound⟩ := inv
  obtain ⟨phase, elapsed⟩ := m
  cases bound <;> cases relation <;> cases phase <;>
    simp_all [step, Phase.next, timedStep, Invariant.checkMonitor]

theorem Monitor.step_second (hm : m.phase ≠ .broken) (hne : inv.second ≠ inv.first)
    (hmet : inv.relation = .neverFollowedBy → m.phase ≠ .met) :
    ((m.step inv inv.second delta).phase = .broken ↔
      if m.phase = .idle then inv.relation = .alwaysPrecedes
      else inv.relation = .neverFollowedBy ∨ inv.Misses (m.clock delta)) ∧
      ((m.step inv inv.second delta).phase ≠ .broken →
        ((m.step inv inv.second delta).phase = .idle ↔ m.phase = .idle)) ∧
      (inv.relation = .alwaysFollowedBy → (m.step inv inv.second delta).phase ≠ .armed) ∧
      (inv.relation = .neverFollowedBy → (m.step inv inv.second delta).phase ≠ .met) ∧
      (inv.bound ≠ none → (m.step inv inv.second delta).elapsed = m.clock delta) := by
  obtain ⟨relation, first, second, bound⟩ := inv
  obtain ⟨phase, elapsed⟩ := m
  cases bound <;> cases relation <;> cases phase <;>
    simp_all [step, Phase.next, timedStep, Invariant.checkMonitor, Invariant.Misses]
  all_goals grind

theorem Monitor.step_other {e : Event} (hm : m.phase ≠ .broken) (hfirst : e ≠ inv.first)
    (hsecond : e ≠ inv.second) :
    (m.step inv e delta).phase = m.phase ∧
      (inv.bound ≠ none → (m.step inv e delta).elapsed = m.clock delta) := by
  obtain ⟨relation, first, second, bound⟩ := inv
  obtain ⟨phase, elapsed⟩ := m
  cases bound <;> cases relation <;> cases phase <;>
    simp_all [step, Phase.next, timedStep, Invariant.checkMonitor]

end Kinds

/-! ### Answers and phases -/

section Answers

variable {before after : Monitor} {position : Nat} (hrelation : inv.relation ≠ .eventually)
include hrelation

theorem Phase.validity_eq_permFail_iff (p : Phase) : p.validity inv = .permFail ↔ p = .broken := by
  obtain ⟨relation, first, second, bound⟩ := inv
  cases relation <;> cases bound <;> cases p <;> simp_all [validity]

theorem Monitor.isFail_iff (m : Monitor) : (m.validity inv).isFail = true ↔
    m.phase = .broken ∨ inv.relation = .alwaysFollowedBy ∧ m.phase = .armed := by
  rw [validity, Phase.isFail_validity_iff]
  cases h : inv.relation <;> simp_all [Phase.EndsViolated, or_comm]

theorem Monitor.isPermanent_iff (m : Monitor) : (m.validity inv).isPermanent = true ↔
    m.phase = .broken ∨ inv.relation = .alwaysPrecedes ∧ inv.bound = none ∧ m.phase = .met := by
  obtain ⟨relation, first, second, bound⟩ := inv
  obtain ⟨phase, elapsed⟩ := m
  cases relation <;> cases bound <;> cases phase <;>
    simp_all [validity, Phase.validity, Validity.isPermanent]

/-- When a failure is put down to the event that was read. -/
theorem Monitor.startsToFail_iff :
    (after.validity inv = .permFail ∨
      (after.validity inv).isFail = true ∧ ¬ (before.validity inv).isFail = true) ↔
    after.phase = .broken ∨ inv.relation = .alwaysFollowedBy ∧ after.phase = .armed ∧
      before.phase ≠ .broken ∧ before.phase ≠ .armed := by
  rw [validity, Phase.validity_eq_permFail_iff hrelation, ← validity, isFail_iff hrelation,
    isFail_iff hrelation]
  grind

theorem Monitor.blame_of_broken (h : before.phase = .broken) (after : Monitor) :
    before.blame inv after since position = since := by
  rw [blame, if_pos ((isPermanent_iff hrelation _).2 (.inl h))]

theorem Monitor.blame_of_kept (hafter : after.phase ≠ .broken)
    (h : inv.relation = .alwaysFollowedBy → after.phase = .armed → before.phase = .armed) :
    before.blame inv after since position = since := by
  simp only [blame, startsToFail_iff hrelation]
  have hstays : ¬ (after.phase = .broken ∨ inv.relation = .alwaysFollowedBy ∧
      after.phase = .armed ∧ before.phase ≠ .broken ∧ before.phase ≠ .armed) := by
    rintro (hbroken | ⟨hafby, harmed, -, hopen⟩)
    · exact hafter hbroken
    · exact hopen (h hafby harmed)
  rw [if_neg hstays, ite_self]

theorem Monitor.blame_of_failing (hopen : ¬ (before.validity inv).isPermanent = true)
    (h : after.phase = .broken ∨ inv.relation = .alwaysFollowedBy ∧ after.phase = .armed ∧
      before.phase ≠ .armed) :
    before.blame inv after since position = some position := by
  have hbefore : before.phase ≠ .broken :=
    fun hbroken => hopen ((isPermanent_iff hrelation before).2 (.inl hbroken))
  rw [blame, if_neg hopen, if_pos ((startsToFail_iff hrelation).2 ?_)]
  rcases h with hbroken | ⟨hafby, harmed, hne⟩
  · exact .inl hbroken
  · exact .inr ⟨hafby, harmed, hbefore, hne⟩

end Answers

/-! ### Keeping abreast -/

/-- What a monitor knows of the events it has read, and of the position to
which it would put a failure down. -/
structure Monitor.IsAbreast (inv : Invariant) (m : Monitor) (es : List TimedEvent)
    (since : Option Nat) : Prop where
  breaches_eq : m.phase ≠ .broken → inv.breaches es = ∅
  isLeast_breach : m.phase = .broken → ∃ j, since = some j ∧ IsLeast (inv.breaches es) j
  idle_iff : m.phase ≠ .broken → (m.phase = .idle ↔ inv.firsts es = ∅)
  armed_iff : inv.relation = .alwaysFollowedBy → m.phase ≠ .broken →
    (m.phase = .armed ↔ (inv.unanswered es).Nonempty)
  isLeast_armed : inv.relation = .alwaysFollowedBy → m.phase = .armed →
    ∃ i, since = some i ∧ IsLeast (inv.unanswered es) i
  ne_met : inv.relation = .neverFollowedBy → m.phase ≠ .met
  elapsed_eq : ∀ i, m.phase ≠ .broken → inv.bound ≠ none → IsGreatest (inv.firsts es) i →
    m.elapsed = min (timeSince es i) maxTime

namespace Monitor.IsAbreast

theorem start (inv : Invariant) : Monitor.start.IsAbreast inv [] none where
  breaches_eq _ := by simp [Invariant.breaches]
  isLeast_breach h := by cases h
  idle_iff _ := by simp [Monitor.start, Invariant.firsts, eventAt?]
  armed_iff _ _ := by simp [Monitor.start, Invariant.unanswered, Invariant.firsts, eventAt?]
  isLeast_armed _ h := by cases h
  ne_met _ := Phase.noConfusion
  elapsed_eq i _ _ h := absurd h.1 (by simp [Invariant.firsts, eventAt?])

/-- The clock at the next event, unless that is a first one. -/
theorem clock_eq (h : m.IsAbreast inv es since) (hm : m.phase ≠ .broken)
    (hbound : inv.bound ≠ none) {i : Nat} (hi : IsGreatest (inv.firsts es) i) (delta : Time) :
    m.clock delta = min (timeSince es i + delta) maxTime := by
  have hidle : m.phase ≠ .idle := fun hidle => hi.nonempty.ne_empty ((h.idle_iff hm).1 hidle)
  rw [clock, if_neg hidle, h.elapsed_eq i hm hbound hi, ← Nat.add_min_add_right, min_assoc,
    min_eq_right (Nat.le_add_right _ _)]

/-- The clock is exact enough to tell whether the next event misses the bound. -/
theorem missesAfter_iff (h : m.IsAbreast inv es since) (hm : m.phase ≠ .broken)
    (hidle : m.phase ≠ .idle) (e : TimedEvent) :
    inv.MissesAfter es e ↔ inv.Misses (m.clock e.delta) := by
  have hsome : (inv.firsts es).Nonempty :=
    Set.nonempty_iff_ne_empty.2 fun hnone => hidle ((h.idle_iff hm).2 hnone)
  obtain ⟨i, hi⟩ := Invariant.exists_isGreatest_firsts hsome
  by_cases hbound : inv.bound = none
  · simp [Invariant.MissesAfter, Invariant.Misses, hbound]
  · rw [h.clock_eq hm hbound hi]
    constructor
    · rintro ⟨k, hk, hmisses⟩
      rwa [hi.unique hk]
    · intro hmisses
      exact ⟨i, hi, hmisses⟩

section Steps

variable (hsupported : inv.checkMonitor = .ok ()) (hrelation : inv.relation ≠ .eventually)
  (h : m.IsAbreast inv es since)
include hsupported hrelation h

theorem step_broken (hm : m.phase = .broken) (e : TimedEvent) :
    (m.step inv e.event e.delta).IsAbreast inv (es ++ [e])
      (m.blame inv (m.step inv e.event e.delta) since es.length) := by
  obtain ⟨j, hsince, hj⟩ := h.isLeast_breach hm
  have hbound : inv.relation = .alwaysFollowedBy → inv.bound ≠ none := by
    intro hafby hnone
    obtain ⟨⟨e, -, -, -, hbreaks⟩, -⟩ := hj
    simp [hafby, Invariant.MissesAfter, Invariant.Misses, hnone] at hbreaks
  have hstep := step_of_broken hsupported hrelation e.delta hm hbound e.event
  rw [blame_of_broken hrelation hm]
  exact {
    breaches_eq h := absurd hstep h
    isLeast_breach _ := ⟨j, hsince, Invariant.isLeast_breaches_concat hj⟩
    idle_iff h := absurd hstep h
    armed_iff _ h := absurd hstep h
    isLeast_armed _ h := by simp [hstep] at h
    ne_met _ := by simp [hstep]
    elapsed_eq _ h := absurd hstep h }

theorem step_first (hm : m.phase ≠ .broken) (he : e.event = inv.first) :
    (m.step inv e.event e.delta).IsAbreast inv (es ++ [e])
      (m.blame inv (m.step inv e.event e.delta) since es.length) := by
  rw [he]
  obtain ⟨hidle, hbroken, harmed, hmet, helapsed⟩ :=
    Monitor.step_first hsupported hrelation e.delta hm
  have hbreaks : ¬ inv.BreaksAfter es e := fun hbreaks => hbreaks.2.1 (he.symm.trans hbreaks.1)
  have hlast : IsGreatest (inv.firsts (es ++ [e])) es.length :=
    Invariant.isGreatest_firsts_concat he
  have hunanswered {i : Nat} :
      i ∈ inv.unanswered (es ++ [e]) ↔ i ∈ inv.unanswered es ∨ i = es.length :=
    Invariant.mem_unanswered_concat_of_first he
  have hleast : inv.relation = .alwaysFollowedBy →
      ∃ i, m.blame inv (m.step inv inv.first e.delta) since es.length = some i ∧
        IsLeast (inv.unanswered (es ++ [e])) i := by
    intro hafby
    by_cases hp : m.phase = .armed
    · rw [blame_of_kept hrelation hbroken fun _ _ => hp]
      obtain ⟨i, hsince, hi, hleast⟩ := h.isLeast_armed hafby hp
      refine ⟨i, hsince, hunanswered.2 (.inl hi), fun k hk => ?_⟩
      rcases hunanswered.1 hk with hk | rfl
      · exact hleast hk
      · exact Nat.le_of_lt (lt_of_eventAt? hi.1)
    · have hopen : ¬ (m.validity inv).isPermanent = true := by
        simp [isPermanent_iff hrelation, hm, hafby]
      have hnone : inv.unanswered es = ∅ :=
        Set.not_nonempty_iff_eq_empty.1 fun hsome => hp ((h.armed_iff hafby hm).2 hsome)
      rw [blame_of_failing hrelation hopen (.inr ⟨hafby, harmed hafby, hp⟩)]
      refine ⟨_, rfl, hunanswered.2 (.inr rfl), fun k hk => ?_⟩
      rcases hunanswered.1 hk with hk | rfl
      · simp [hnone] at hk
      · exact Nat.le_refl _
  exact {
    breaches_eq _ := by rw [Invariant.breaches_concat_of_not hbreaks, h.breaches_eq hm]
    isLeast_breach h := absurd h hbroken
    idle_iff _ := ⟨fun h => absurd h hidle, fun h => absurd hlast.1 (by simp [h])⟩
    armed_iff hafby _ := ⟨fun _ => ⟨es.length, hunanswered.2 (.inr rfl)⟩, fun _ => harmed hafby⟩
    isLeast_armed hafby _ := hleast hafby
    ne_met := hmet
    elapsed_eq i _ hbound hi := by
      rw [helapsed hbound, hi.unique hlast, timeSince_concat_length]
      rfl }

theorem step_second (hm : m.phase ≠ .broken) (hfirst : e.event ≠ inv.first)
    (hsecond : e.event = inv.second) :
    (m.step inv e.event e.delta).IsAbreast inv (es ++ [e])
      (m.blame inv (m.step inv e.event e.delta) since es.length) := by
  have hne : inv.second ≠ inv.first := hsecond ▸ hfirst
  have hfirsts : inv.firsts (es ++ [e]) = inv.firsts es := Invariant.firsts_concat_of_ne hfirst
  rw [hsecond]
  obtain ⟨hbroken, hidle, harmed, hmet, helapsed⟩ :=
    Monitor.step_second hsupported hrelation e.delta hm hne h.ne_met
  have hbreaks : (m.step inv inv.second e.delta).phase = .broken ↔ inv.BreaksAfter es e := by
    rw [hbroken, Invariant.BreaksAfter, and_iff_right hsecond, and_iff_right hne.symm]
    by_cases hp : m.phase = .idle
    · have hnone := (h.idle_iff hm).1 hp
      have hmisses : ¬ inv.MissesAfter es e := by
        rintro ⟨i, hi, -⟩
        exact hi.nonempty.ne_empty hnone
      rw [if_pos hp]
      cases inv.relation <;> simp [hnone, hmisses]
    · have hsome : inv.firsts es ≠ ∅ := fun hnone => hp ((h.idle_iff hm).2 hnone)
      rw [if_neg hp, ← h.missesAfter_iff hm hp]
      cases hcase : inv.relation <;> simp_all [Set.nonempty_iff_ne_empty]
  have hleast : (m.step inv inv.second e.delta).phase = .broken →
      ∃ j, m.blame inv (m.step inv inv.second e.delta) since es.length = some j ∧
        IsLeast (inv.breaches (es ++ [e])) j := by
    intro hb
    have hopen : ¬ (m.validity inv).isPermanent = true := by
      rw [isPermanent_iff hrelation]
      rintro (hp | ⟨hap, hnone, hp⟩)
      · exact hm hp
      · have hb := hbroken.1 hb
        simp [hap, hnone, hp, Invariant.Misses] at hb
    rw [blame_of_failing hrelation hopen (.inl hb)]
    refine ⟨_, rfl, Invariant.mem_breaches_concat.2 (.inr ⟨rfl, hbreaks.1 hb⟩), fun k hk => ?_⟩
    rcases Invariant.mem_breaches_concat.1 hk with hk | ⟨rfl, -⟩
    · simp [h.breaches_eq hm] at hk
    · exact Nat.le_refl _
  exact {
    breaches_eq hb := by
      rw [Invariant.breaches_concat_of_not fun h => hb (hbreaks.2 h), h.breaches_eq hm]
    isLeast_breach := hleast
    idle_iff hb := by rw [hidle hb, hfirsts, h.idle_iff hm]
    armed_iff hafby _ := by
      simp [Invariant.unanswered_concat_of_answer hfirst hsecond, harmed hafby]
    isLeast_armed hafby hp := absurd hp (harmed hafby)
    ne_met := hmet
    elapsed_eq i _ hbound hi := by
      rw [hfirsts] at hi
      rw [helapsed hbound, h.clock_eq hm hbound hi, timeSince_concat (lt_of_eventAt? hi.1)] }

theorem step_other (hm : m.phase ≠ .broken) (hfirst : e.event ≠ inv.first)
    (hsecond : e.event ≠ inv.second) :
    (m.step inv e.event e.delta).IsAbreast inv (es ++ [e])
      (m.blame inv (m.step inv e.event e.delta) since es.length) := by
  obtain ⟨hphase, helapsed⟩ := Monitor.step_other hsupported hrelation e.delta hm hfirst hsecond
  have hbreaks : ¬ inv.BreaksAfter es e := fun hbreaks => hsecond hbreaks.1
  have hbreaches := Invariant.breaches_concat_of_not hbreaks
  have hfirsts : inv.firsts (es ++ [e]) = inv.firsts es := Invariant.firsts_concat_of_ne hfirst
  have hunanswered : inv.unanswered (es ++ [e]) = inv.unanswered es :=
    Invariant.unanswered_concat_of_ne hfirst hsecond
  rw [blame_of_kept hrelation (hphase ▸ hm) fun _ hp => hphase ▸ hp]
  exact {
    breaches_eq _ := by rw [hbreaches, h.breaches_eq hm]
    isLeast_breach hb := absurd hb (hphase ▸ hm)
    idle_iff _ := by rw [hphase, hfirsts, h.idle_iff hm]
    armed_iff hafby _ := by rw [hphase, hunanswered, h.armed_iff hafby hm]
    isLeast_armed hafby hp := by
      rw [hunanswered]
      exact h.isLeast_armed hafby (hphase ▸ hp)
    ne_met hnfby := by
      rw [hphase]
      exact h.ne_met hnfby
    elapsed_eq i _ hbound hi := by
      rw [hfirsts] at hi
      rw [helapsed hbound, h.clock_eq hm hbound hi, timeSince_concat (lt_of_eventAt? hi.1)] }

theorem step (e : TimedEvent) :
    (m.step inv e.event e.delta).IsAbreast inv (es ++ [e])
      (m.blame inv (m.step inv e.event e.delta) since es.length) := by
  by_cases hm : m.phase = .broken
  · exact h.step_broken hsupported hrelation hm e
  · by_cases hfirst : e.event = inv.first
    · exact h.step_first hsupported hrelation hm hfirst
    · by_cases hsecond : e.event = inv.second
      · exact h.step_second hsupported hrelation hm hfirst hsecond
      · exact h.step_other hsupported hrelation hm hfirst hsecond

end Steps

end Monitor.IsAbreast

end ProtocolInference
