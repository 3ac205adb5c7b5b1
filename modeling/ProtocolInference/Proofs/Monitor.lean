import ProtocolInference.Monitor

/-!
Monitors that stop early, and monitors that read too much.

The verdict on a trace is given at the first answer that is permanent.
This is the answer after the whole trace (`Monitor.passed_watch`), since
what comes behind a permanent answer does not change it. Only one phase
stands in the way of the general statement: without a bound,
`alwaysFollowedBy` has a phase for violations that no event leads into
and that an event leads out of again. `Monitor.IsSound` leaves it out.

In the other direction, an event of which the invariant does not speak
leaves the phase alone, so it does not matter to a monitor whether it
reads such events (`Phase.feed_filter`).

No relation makes use of all four phases as long as there is no bound
(`Phase.feed_mem_phases`).
-/

namespace ProtocolInference

variable {inv : Invariant} {m : Monitor} {p : Phase} {e : Event} {es : List Event}

/-! ### Permanent answers -/

/-- The monitor is not in the one phase in which its answer would be
mistaken for a permanent one. -/
def Monitor.IsSound (inv : Invariant) (m : Monitor) : Prop :=
  inv.relation = .alwaysFollowedBy → inv.bound = none → m.phase ≠ .broken

theorem Monitor.isSound_start (inv : Invariant) : Monitor.start.IsSound inv :=
  fun _ _ => Phase.noConfusion

theorem Monitor.IsSound.step (h : m.IsSound inv) (e : Event) (delta : Time) :
    (m.step inv e delta).IsSound inv := by
  intro hrelation hbound
  have hphase := h hrelation hbound
  rw [Monitor.step, hbound]
  dsimp only
  rw [Phase.next, hrelation]
  dsimp only
  split
  · exact Phase.noConfusion
  · split
    · exact Phase.noConfusion
    · exact hphase

/-- A permanent answer stays. -/
theorem Monitor.validity_step (hsupported : inv.checkMonitor = .ok ()) (h : m.IsSound inv)
    (hpermanent : (m.validity inv).isPermanent = true) (e : Event) (delta : Time) :
    (m.step inv e delta).validity inv = m.validity inv := by
  obtain ⟨relation, first, second, bound⟩ := inv
  obtain ⟨phase, elapsed⟩ := m
  cases bound with
  | none =>
      cases relation <;> cases phase <;>
        simp_all [Monitor.IsSound, Monitor.validity, Phase.validity, Validity.isPermanent,
          Monitor.step, Phase.next]
  | some bound =>
      cases relation <;> cases phase <;>
        simp_all [Monitor.validity, Phase.validity, Validity.isPermanent, Monitor.step,
          Monitor.timedStep, Invariant.checkMonitor]

theorem Monitor.validity_feed (hsupported : inv.checkMonitor = .ok ()) (h : m.IsSound inv)
    (hpermanent : (m.validity inv).isPermanent = true) (events : List TimedEvent) :
    (m.feed inv events).validity inv = m.validity inv := by
  induction events generalizing m with
  | nil => rfl
  | cons e events ih =>
      have hstep := Monitor.validity_step hsupported h hpermanent e.event e.delta
      rw [Monitor.feed, List.foldl_cons]
      rw [← hstep] at hpermanent ⊢
      exact ih (h.step e.event e.delta) hpermanent

/-- The verdict on a trace is the answer after the whole trace. -/
theorem Monitor.passed_watch (hsupported : inv.checkMonitor = .ok ()) (h : m.IsSound inv)
    (since : Option Nat) (position : Nat) (events : List TimedEvent) :
    (m.watch inv since position events).passed = !((m.feed inv events).validity inv).isFail := by
  induction events generalizing m since position with
  | nil => rfl
  | cons e events ih =>
      have hsound := h.step e.event e.delta
      rw [Monitor.watch]
      split
      · next hpermanent =>
        have hfeed := Monitor.validity_feed hsupported hsound hpermanent events
        rw [Monitor.feed, List.foldl_cons]
        rw [Monitor.feed] at hfeed
        rw [hfeed]
        rfl
      · exact ih hsound _ _

/-! ### Invariants without a bound -/

theorem Monitor.phase_feed (hbound : inv.bound = none) (events : List TimedEvent) :
    (m.feed inv events).phase = m.phase.feed inv (events.map (·.event)) := by
  induction events generalizing m with
  | nil => rfl
  | cons e events ih =>
      rw [Monitor.feed, List.foldl_cons, List.map_cons, Phase.feed, List.foldl_cons]
      have hstep : (m.step inv e.event e.delta).phase = m.phase.next inv e.event := by
        rw [Monitor.step, hbound]
      rw [← hstep]
      exact ih

namespace Invariant

/-- The events, read without their times, violate the invariant. -/
def FailsOn (inv : Invariant) (es : List Event) : Prop :=
  ((Phase.feed inv.untimed .idle es).validity inv.untimed).isFail = true

instance (inv : Invariant) (es : List Event) : Decidable (inv.FailsOn es) :=
  inferInstanceAs (Decidable (_ = true))

theorem check_untimed (inv : Invariant) (events : List TimedEvent) :
    ∃ v, inv.untimed.check events = .ok v ∧
      (v.passed = true ↔ ¬ inv.FailsOn (events.map (·.event))) := by
  have hsupported : inv.untimed.checkMonitor = .ok () := by
    obtain ⟨relation, first, second, bound⟩ := inv
    cases relation <;> rfl
  refine ⟨Monitor.start.watch inv.untimed none 0 events, ?_, ?_⟩
  · rw [check, hsupported]
    rfl
  · rw [Monitor.passed_watch hsupported (Monitor.isSound_start _), FailsOn, Monitor.validity,
      Monitor.phase_feed rfl]
    simp [Monitor.start]

theorem passes_iff {inv : Invariant} {events : List TimedEvent} :
    (inv.untimed.check events).map (·.passed) = .ok true ↔
      ¬ inv.FailsOn (events.map (·.event)) := by
  obtain ⟨v, hv, hpassed⟩ := inv.check_untimed events
  rw [hv, ← hpassed]
  simp [Except.map]

theorem fails_iff {inv : Invariant} {events : List TimedEvent} :
    (inv.untimed.check events).map (·.passed) = .ok false ↔
      inv.FailsOn (events.map (·.event)) := by
  obtain ⟨v, hv, hpassed⟩ := inv.check_untimed events
  rw [hv, ← Decidable.not_not (p := inv.FailsOn _), ← hpassed]
  simp [Except.map]

end Invariant

theorem Phase.next_of_permSuccess (hp : p.validity inv.untimed = .permSuccess) (e : Event) :
    p.next inv.untimed e = p := by
  obtain ⟨relation, first, second, bound⟩ := inv
  cases relation <;> cases p <;> simp_all [Phase.validity, Invariant.untimed, Phase.next]
  exact ite_self _

theorem Phase.feed_of_permSuccess (hp : p.validity inv.untimed = .permSuccess)
    (es : List Event) : p.feed inv.untimed es = p := by
  induction es with
  | nil => rfl
  | cons e es ih =>
      rw [Phase.feed, List.foldl_cons, Phase.next_of_permSuccess hp]
      exact ih

/-- The phases to which a monitor without a bound gets. -/
def Relation.phases : Relation → List Phase
  | alwaysFollowedBy => [.idle, .armed, .met]
  | neverFollowedBy => [.idle, .armed, .broken]
  | alwaysPrecedes => [.idle, .met, .broken]
  | eventually => [.idle, .met]

theorem Relation.length_phases_le (r : Relation) : r.phases.length ≤ 3 := by
  cases r <;> decide

theorem Relation.idle_mem_phases (r : Relation) : .idle ∈ r.phases := by
  cases r <;> exact List.mem_cons_self

theorem Phase.next_mem_phases (hp : p ∈ inv.relation.phases) (e : Event) :
    p.next inv e ∈ inv.relation.phases := by
  rw [Phase.next]
  cases hrelation : inv.relation <;> rw [hrelation] at hp <;> dsimp only
  all_goals repeat' split
  all_goals first | exact hp | simp [Relation.phases]

theorem Phase.feed_mem_phases (hp : p ∈ inv.relation.phases) (es : List Event) :
    p.feed inv es ∈ inv.relation.phases := by
  induction es generalizing p with
  | nil => exact hp
  | cons e es ih => exact ih (Phase.next_mem_phases hp e)

theorem Phase.next_of_not_mem (p : Phase) (he : e ∉ inv.events) : p.next inv e = p := by
  rw [Phase.next]
  obtain ⟨relation, first, second, bound⟩ := inv
  by_cases hsame : first = second <;> cases relation <;>
    simp_all [Invariant.events]

/-- Events of which the invariant does not speak may be left out. -/
theorem Phase.feed_filter {drop : Event → Bool} (p : Phase) (es : List Event)
    (hdrop : ∀ e ∈ inv.events, drop e = false) :
    p.feed inv (es.filter (!drop ·)) = p.feed inv es := by
  induction es generalizing p with
  | nil => rfl
  | cons e es ih =>
      cases hd : drop e with
      | false =>
          rw [List.filter_cons_of_pos (by simp [hd])]
          exact ih _
      | true =>
          have hnot : e ∉ inv.events := fun he => by simp [hdrop e he] at hd
          have hnext : p.next inv e = p := p.next_of_not_mem hnot
          rw [List.filter_cons_of_neg (by simp [hd]), ih, Phase.feed, Phase.feed, List.foldl_cons,
            hnext]

/-- Nor do they matter to the verdict. -/
theorem Invariant.failsOn_filter {drop : Event → Bool} (es : List Event)
    (hdrop : ∀ e ∈ inv.events, drop e = false) :
    inv.FailsOn (es.filter (!drop ·)) ↔ inv.FailsOn es := by
  rw [FailsOn, FailsOn, Phase.feed_filter]
  exact hdrop

end ProtocolInference
