import ProtocolInference.Invariant.Record
import ProtocolInference.Proofs.Automaton.Rewriting

/-!
What the sends on a tracer channel tell of a run.

An event and the send that records it are two steps, so in between the
automaton owes the record of the event. What it owes is a matter of the
state it is in: original states owe nothing, and a state in the middle of
a transition owes the event of the transition, with whatever is owed at
the end of it. `Automaton.Records` is the bookkeeping. It is kept when
further events are traced, on this channel or on others, and it says of a
whole run that all that happened is recorded, in its order, but for what
is still owed (`Records.carries_of_run`).

Tracing only looks at the states that the search gets to. The bookkeeping
is therefore about *live* states, which no step leads out of, and among
which are the initial ones.
-/

namespace ProtocolInference

namespace Automaton

variable {a b b' : Automaton} {e f record : Event} {s t x y : StateId} {es es' : List Event}
variable {states : List StateId} {ends : List (StateId × StateId)}
variable {tracer : Event → Bool} {index : Nat} {events events' : List Event}
variable {live : StateId → Prop} {owed : StateId → List Event}

/-! ### Debts -/

/-- Of the given events, those that were owed before and those that happen are
recorded on the channel, in their order, up to those that are owed after. -/
def Carries (events : List Event) (index : Nat) (before es after : List Event) : Prop :=
  ∃ recorded, before ++ es.filter (· ∈ events) = recorded ++ after ∧
    sentOn index es = recorded.map Event.tracerLabel

theorem Carries.nil {debt : List Event} : Carries events index debt [] debt :=
  ⟨[], List.append_nil debt, rfl⟩

theorem Carries.append {p q r : List Event} (h : Carries events index p es q)
    (h' : Carries events index q es' r) : Carries events index p (es ++ es') r := by
  obtain ⟨first, hfirst, hsent⟩ := h
  obtain ⟨second, hsecond, hsent'⟩ := h'
  refine ⟨first ++ second, ?_, ?_⟩
  · rw [List.filter_append, ← List.append_assoc, hfirst, List.append_assoc, hsecond,
      List.append_assoc]
  · rw [sentOn, List.filterMap_append, List.map_append]
    exact congrArg₂ _ hsent hsent'

theorem carries_singleton_iff {p q : List Event} (hf : f ∉ events) (hsent : f.sentOn? index = none) :
    Carries events index p [f] q ↔ p = q := by
  have hnil : sentOn index [f] = [] := List.filterMap_cons_none hsent
  rw [Carries, List.filter_singleton, decide_eq_false hf, hnil]
  constructor
  · rintro ⟨recorded, hp, hrecorded⟩
    rw [List.map_eq_nil_iff.1 hrecorded.symm] at hp
    simpa using hp
  · rintro rfl
    exact ⟨[], by simp, rfl⟩

/-! ### The bookkeeping -/

/-- The automaton `b` comes from `a` by tracing, and records the given events
on the channel; in every live state it owes the record of some of them. -/
structure Records (tracer : Event → Bool) (index : Nat) (events : List Event) (a b : Automaton)
    (live : StateId → Prop) (owed : StateId → List Event) : Prop where
  size_le : a.size ≤ b.size
  isInitial_eq : ∀ s, b.isInitial s = a.isInitial s
  isAccepting_eq : ∀ s, b.isAccepting s = a.isAccepting s
  live_of_isInitial : ∀ s, b.isInitial s = true → live s
  live_of_step : ∀ {x f y}, live x → b.Step x f y → live y
  /-- Original states owe nothing. -/
  owed_of_lt : ∀ x < a.size, owed x = []
  /-- Nor do those from which an event of the original automaton leads on. -/
  owed_of_step : ∀ {x f y}, live x → b.Step x f y → tracer f = false → owed x = []
  carries : ∀ {x f y}, live x → b.Step x f y → Carries events index (owed x) [f] (owed y)

/-- What is owed after the given transitions have been led through states of
their own, the first of which has the number `n`. -/
def owedAfter (n : Nat) (middle : List Event → List Event) (ends : List (StateId × StateId))
    (owed : StateId → List Event) (x : StateId) : List Event :=
  if x < n then owed x else (ends[x - n]?).elim [] fun p => middle (owed p.2)

/-- The states that are live afterwards: those that the search has met, and
those in the middle of a transition from a live state. -/
def LiveAfter (n : Nat) (states : List StateId) (ends : List (StateId × StateId))
    (live : StateId → Prop) (x : StateId) : Prop :=
  (x ∈ states ∧ live x) ∨ ∃ i s t, ends[i]? = some (s, t) ∧ live s ∧ x = n + i

section After

variable {n : Nat} {middle : List Event → List Event}

theorem owedAfter_of_lt (hx : x < n) : owedAfter n middle ends owed x = owed x := if_pos hx

theorem owedAfter_add {i : Nat} (hi : ends[i]? = some (s, t)) :
    owedAfter n middle ends owed (n + i) = middle (owed t) := by
  rw [owedAfter, if_neg (Nat.not_lt.2 (Nat.le_add_right n i)), Nat.add_sub_cancel_left, hi]
  rfl

/-- The steps out of a state that is live afterwards: a step on another event
between live states, or one half of a detour between live states. -/
theorem LiveAfter.cases_step (hexplored : a.Explored states)
    (hlive : ∀ {x f y}, live x → a.Step x f y → live y)
    (hiff : b.Step x f y ↔ (a.Step x f y ∧ ¬ (f = e ∧ x ∈ states)) ∨
      IsDetourStep a.size e record (a.occurrences e states) x f y)
    (hx : LiveAfter a.size states (a.occurrences e states) live x) (hstep : b.Step x f y) :
    (a.Step x f y ∧ f ≠ e ∧ live x ∧ y ∈ states ∧ live y) ∨
      ∃ i s t, (a.occurrences e states)[i]? = some (s, t) ∧ a.Step s e t ∧ live s ∧
        t ∈ states ∧ live t ∧
        (x = s ∧ f = e ∧ y = a.size + i ∨ x = a.size + i ∧ f = record ∧ y = t) := by
  rcases hiff.1 hstep with ⟨hold, hne⟩ | ⟨i, s, t, hi, hhalf⟩
  · rcases hx with ⟨hmem, hx⟩ | ⟨i, -, -, -, -, rfl⟩
    · exact .inl ⟨hold, fun hf => hne ⟨hf, hmem⟩, hx, hexplored.step _ hmem _ _ hold, hlive hx hold⟩
    · exact absurd hold.lt_size (Nat.not_lt.2 (Nat.le_add_right _ i))
  · obtain ⟨hs, hst⟩ := mem_occurrences.1 (List.mem_of_getElem? hi)
    have hsource : live s := by
      rcases hhalf with ⟨rfl, -, -⟩ | ⟨rfl, -, -⟩
      · rcases hx with ⟨-, hx⟩ | ⟨j, -, -, -, -, rfl⟩
        · exact hx
        · exact absurd hst.lt_size (Nat.not_lt.2 (Nat.le_add_right _ j))
      · rcases hx with ⟨hmem, -⟩ | ⟨j, s', t', hj, hs', heq⟩
        · exact absurd (hexplored.lt_size _ hmem) (Nat.not_lt.2 (Nat.le_add_right _ i))
        · obtain rfl := Nat.add_left_cancel heq
          obtain ⟨rfl, -⟩ := Prod.mk.inj (Option.some.inj (hi.symm.trans hj))
          exact hs'
    exact .inr ⟨i, s, t, hi, hst, hsource, hexplored.step _ hs _ _ hst, hlive hsource hst, hhalf⟩

end After

namespace Records

theorem refl (hsends : ∀ s f t, a.Step s f t → f.sentOn? index = none) :
    Records tracer index [] a a (fun _ => True) (fun _ => []) where
  size_le := Nat.le_refl _
  isInitial_eq _ := rfl
  isAccepting_eq _ := rfl
  live_of_isInitial _ _ := trivial
  live_of_step _ _ := trivial
  owed_of_lt _ _ := rfl
  owed_of_step _ _ _ := rfl
  carries _ hstep := (carries_singleton_iff List.not_mem_nil (hsends _ _ _ hstep)).2 rfl

/-- The bookkeeping is kept when an event is traced, if the two halves of a
detour can be paid for: `middle` says what is owed in the middle. -/
theorem trace_of_carries (middle : List Event → List Event)
    (h : Records tracer index events a b live owed) (htrace : b.trace e record = .ok b')
    (hrecord : tracer record = true)
    (hother : ∀ {p q f}, f ≠ e → Carries events index p [f] q → Carries events' index p [f] q)
    (hfirst : ∀ {p q}, (tracer e = false → p = []) → Carries events index p [e] q →
      Carries events' index p [e] (middle q))
    (hsecond : ∀ q, Carries events' index (middle q) [record] q) :
    ∃ live' owed', Records tracer index events' a b' live' owed' := by
  obtain ⟨states, hexplored, hsize, hinitial, haccepting, hiff⟩ := trace_eq_ok htrace
  have hcases {x f y} := @LiveAfter.cases_step b b' e f record x y states live hexplored
    h.live_of_step (hiff x f y)
  have hold {x} (hx : x ∈ states) :
      owedAfter b.size middle (b.occurrences e states) owed x = owed x :=
    owedAfter_of_lt (hexplored.lt_size x hx)
  refine ⟨LiveAfter b.size states (b.occurrences e states) live,
    owedAfter b.size middle (b.occurrences e states) owed, ?_⟩
  constructor
  case size_le =>
    rw [hsize]
    exact Nat.le_add_right_of_le h.size_le
  case isInitial_eq => exact fun s => (hinitial s).trans (h.isInitial_eq s)
  case isAccepting_eq => exact fun s => (haccepting s).trans (h.isAccepting_eq s)
  case live_of_isInitial =>
    intro s hs
    rw [hinitial] at hs
    exact .inl ⟨hexplored.initial s hs, h.live_of_isInitial s hs⟩
  case live_of_step =>
    intro x f y hx hstep
    rcases hcases hx hstep with
      ⟨-, -, -, hy, hlive⟩ | ⟨i, s, t, hi, -, hs, ht, hlive, ⟨-, -, rfl⟩ | ⟨-, -, rfl⟩⟩
    · exact .inl ⟨hy, hlive⟩
    · exact .inr ⟨i, s, t, hi, hs, rfl⟩
    · exact .inl ⟨ht, hlive⟩
  case owed_of_lt =>
    intro x hx
    rw [owedAfter_of_lt (Nat.lt_of_lt_of_le hx h.size_le), h.owed_of_lt x hx]
  case owed_of_step =>
    intro x f y hx hstep hf
    rcases hcases hx hstep with
      ⟨hstep, -, hx, -⟩ | ⟨i, s, t, -, hst, hs, -, -, ⟨rfl, rfl, -⟩ | ⟨-, rfl, -⟩⟩
    · rw [owedAfter_of_lt hstep.lt_size, h.owed_of_step hx hstep hf]
    · rw [owedAfter_of_lt hst.lt_size, h.owed_of_step hs hst hf]
    · rw [hrecord] at hf
      cases hf
  case carries =>
    intro x f y hx hstep
    rcases hcases hx hstep with
      ⟨hstep, hne, hx, hy, -⟩ | ⟨i, s, t, hi, hst, hs, ht, -, ⟨rfl, rfl, rfl⟩ | ⟨rfl, rfl, rfl⟩⟩
    · rw [owedAfter_of_lt hstep.lt_size, hold hy]
      exact hother hne (h.carries hx hstep)
    · rw [owedAfter_of_lt hst.lt_size, owedAfter_add hi]
      exact hfirst (fun he => h.owed_of_step hs hst he) (h.carries hs hst)
    · rw [owedAfter_add hi, hold ht]
      exact hsecond (owed y)

theorem not_mem_of_tracer (hrecord : tracer record = true)
    (hevents : ∀ f ∈ events, tracer f = false) : record ∉ events := fun hmem =>
  Bool.false_ne_true ((hevents record hmem).symm.trans hrecord)

theorem trace (h : Records tracer index events a b live owed) (htrace : b.trace e record = .ok b')
    (hrecord : tracer record = true) (hsent : record.sentOn? index = some e.tracerLabel)
    (he : tracer e = false) (hnew : e ∉ events) (hevents : ∀ f ∈ events, tracer f = false)
    (hsilent : e.sentOn? index = none) :
    ∃ live' owed', Records tracer index (events ++ [e]) a b' live' owed' := by
  have hne : record ∉ events ++ [e] :=
    not_mem_of_tracer hrecord (List.forall_mem_append.2 ⟨hevents, by simpa using he⟩)
  refine trace_of_carries (e :: ·) h htrace hrecord ?_ ?_ ?_
  · intro p q f hf
    simp [Carries, List.filter_singleton, hf]
  · intro p q hp hcarries
    obtain rfl := hp he
    obtain rfl := (carries_singleton_iff hnew hsilent).1 hcarries
    exact ⟨[], by simp, by simp [sentOn, hsilent]⟩
  · intro q
    exact ⟨[e], by simpa using hne, by simp [sentOn, hsent]⟩

theorem trace_of_ne (h : Records tracer index events a b live owed)
    (htrace : b.trace e record = .ok b') (hrecord : tracer record = true)
    (hsent : record.sentOn? index = none) (hevents : ∀ f ∈ events, tracer f = false) :
    ∃ live' owed', Records tracer index events a b' live' owed' := by
  have hne : record ∉ events := not_mem_of_tracer hrecord hevents
  exact trace_of_carries id h htrace hrecord (fun _ hcarries => hcarries)
    (fun _ hcarries => hcarries) fun q => (carries_singleton_iff hne hsent).2 rfl

/-! ### Runs -/

/-- **A run records what happens on it**, up to what is owed at its ends. -/
theorem carries_of_run (h : Records tracer index events a b live owed) (hx : live x)
    (hrun : b.Run x es y) : live y ∧ Carries events index (owed x) es (owed y) := by
  induction hrun with
  | stay => exact ⟨hx, .nil⟩
  | step hstep _ ih =>
      obtain ⟨hy, hcarries⟩ := ih (h.live_of_step hx hstep)
      exact ⟨hy, (h.carries hx hstep).append hcarries⟩

/-- What is sent from an initial to an original state records the events of
the run. -/
theorem sentOn_eq (h : Records tracer index events a b live owed) (hs : b.isInitial s = true)
    (hrun : b.Run s es t) (ht : t < a.size) :
    sentOn index es = (es.filter (· ∈ events)).map Event.tracerLabel := by
  obtain ⟨-, recorded, hes, hsent⟩ := h.carries_of_run (h.live_of_isInitial s hs) hrun
  have hlt : s < a.size := isInitial_lt (h.isInitial_eq s ▸ hs)
  rw [h.owed_of_lt s hlt, h.owed_of_lt t ht, List.nil_append, List.append_nil] at hes
  rw [hsent, hes]

end Records

end Automaton

end ProtocolInference
