import ProtocolInference.Proofs.Automaton.Containment
import ProtocolInference.Proofs.Automaton.History
import ProtocolInference.Proofs.System.BadState

/-!
When tracing an invariant asks for a row that is missing.

No check keeps an automaton out of a system on account of where its transitions
lead. When an invariant is traced, the automata of its events are searched and
changed, and no others. A row is found missing if and only if one of these
automata can get to a state that it does not have; if this happens it does so in
the automaton as it was before, for an automaton that has been traced is contained
and its rows are all there when it is traced again.

First it is shown, event by event, that to trace row by row is to trace in place
(`InPlace.traceByRows_eq`), so that what fails in one fails in the other.
-/

namespace ProtocolInference.System

variable {sys traced t t' : System} {inv : Invariant} {k index : Nat} {e : Event}
variable {events : List Event} {err : SystemError} {pid : ProcessId} {a b : Automaton}

/-! ### Row by row -/

namespace InPlace

theorem runOn_traceEvent_eq (t : System) (k : Nat) (e : Event) :
    (traceEvent k e).runOn t =
      match t.traceEvent k e with
      | .ok t' => (.ok (), t')
      | .error err => (.error err, t) := by
  refine (run_bind_of_ok (runOn_get t) _).trans ?_
  cases t.traceEvent k e with
  | ok t' => rfl
  | error err => rfl

theorem runOn_onAutomaton_of_none {α : Type} {x : Automaton.InPlace α}
    (ha : t.automaton? pid = none) :
    (onAutomaton pid x).runOn t = (.error (.processOutOfRange pid t.processes), t) := by
  refine (run_bind_of_ok (runOn_get t) _).trans ?_
  simp only [ha]
  rfl

theorem runOn_onAutomaton_of_some {α : Type} {x : Automaton.InPlace α}
    (ha : t.automaton? pid = some a) :
    (onAutomaton pid x).runOn t =
      ((x.runOn a).1.mapError (.missingState pid),
        { t with automata := t.automata.set pid (x.runOn a).2 }) := by
  refine (run_bind_of_ok (runOn_get t) _).trans ?_
  simp only [ha]
  rcases x.runOn a with ⟨answer, left⟩
  cases answer with
  | ok r => rfl
  | error s => rfl

/-- To store an automaton where it comes from changes nothing. -/
theorem set_automata_eq (ha : t.automaton? pid = some a) :
    ({ t with automata := t.automata.set pid a } : System) = t := by
  obtain ⟨hlt, rfl⟩ := List.getElem?_eq_some_iff.1 ha
  rw [List.set_getElem_self]

theorem runOn_traceRows (t : System) (k : Nat) (e : Event) :
    (traceRows k e).runOn t = (traceEvent k e).runOn t := by
  refine (run_bind_of_ok (runOn_get t) _).trans ?_
  rw [runOn_traceEvent_eq, System.traceEvent]
  cases ha : t.automaton? e.pid with
  | none => exact run_bind_of_error (runOn_onAutomaton_of_none ha) _
  | some a =>
      generalize Event.send (t.tracerChannel k e.pid) e.tracerLabel = record
      have hrun := runOn_onAutomaton_of_some (x := .trace e record) ha
      cases hsearch : a.reachable with
      | ok states =>
          have htrace : a.trace e record = .ok _ := bind_eq_ok.2 ⟨states, hsearch, rfl⟩
          rw [Automaton.InPlace.runOn_trace_of_ok hsearch] at hrun
          simp only [htrace]
          exact run_bind_of_ok hrun _
      | error s =>
          have htrace : a.trace e record = .error s := bind_eq_error.2 (.inl hsearch)
          rw [Automaton.InPlace.runOn_trace_of_error hsearch, set_automata_eq ha] at hrun
          simp only [htrace]
          exact run_bind_of_error hrun _

/-- Tracing row by row is the same program. -/
theorem traceByRows_eq (inv : Invariant) : traceByRows inv = trace inv := by
  have hevents : traceRows = traceEvent :=
    funext fun k => funext fun e => funext fun t => runOn_traceRows t k e
  rw [traceByRows, trace, hevents]

theorem runOn_forM_traceEvent_of_error
    (h : events.foldlM (fun t e => t.traceEvent k e) t = .error err) :
    ∃ left, (events.forM (traceEvent k)).runOn t = (.error err, left) := by
  induction events generalizing t with
  | nil => cases h
  | cons e events ih =>
      have hhead := runOn_traceEvent_eq t k e
      rw [List.foldlM_cons] at h
      cases hnext : t.traceEvent k e with
      | error err' =>
          rw [hnext] at h hhead
          obtain rfl := Except.error.inj h
          exact ⟨t, run_bind_of_error hhead _⟩
      | ok next =>
          rw [hnext] at h hhead
          obtain ⟨left, hleft⟩ := ih h
          exact ⟨left, (run_bind_of_ok hhead _).trans hleft⟩

/-- An invariant that cannot be traced is refused in place, for the same reason. -/
theorem exists_runOn_trace_of_error (h : t.trace inv = .error err) :
    ∃ left, (trace inv).runOn t = (.error err, left) := by
  rcases trace_eq_error_iff.1 h with hold | ⟨hnew, herr | ⟨hall, herr⟩⟩
  · exact ⟨t, runOn_trace_of_check (.inl hold)⟩
  · exact ⟨t, runOn_trace_of_check (.inr ⟨hnew, herr⟩)⟩
  · have hfirst := runOn_checkNew t inv
    have hcheck := runOn_forM_checkOwner t inv.events
    rw [hnew, if_neg Bool.false_ne_true] at hfirst
    rw [hall] at hcheck
    obtain ⟨left, hleft⟩ := runOn_forM_traceEvent_of_error herr
    refine ⟨left, (run_bind_of_ok hfirst _).trans ?_⟩
    refine (run_bind_of_ok hcheck _).trans ?_
    exact (run_bind_of_ok (runOn_get t) _).trans (run_bind_of_error hleft _)

end InPlace

/-! ### One event -/

/-- The process has an automaton, and it is contained. -/
def IsContainedAt (sys : System) (pid : ProcessId) : Prop :=
  ∃ a, sys.automaton? pid = some a ∧ a.IsContained

/-- The automaton of the process can get to the state but does not have it. -/
def Misses (sys : System) (pid : ProcessId) (s : StateId) : Prop :=
  ∃ a, sys.automaton? pid = some a ∧ a.IsReachable s ∧ a.size ≤ s

theorem Misses.not_isContainedAt {s : StateId} (h : sys.Misses pid s) :
    ¬ sys.IsContainedAt pid := by
  obtain ⟨a, ha, hs, hge⟩ := h
  rintro ⟨b, hb, hcontained⟩
  obtain rfl := Option.some.inj (ha.symm.trans hb)
  exact Nat.not_lt.2 hge (hcontained s hs)

theorem isContainedAt_congr (h : t.automaton? pid = sys.automaton? pid) :
    t.IsContainedAt pid ↔ sys.IsContainedAt pid := by
  rw [IsContainedAt, IsContainedAt, h]

theorem misses_congr {s : StateId} (h : t.automaton? pid = sys.automaton? pid) :
    t.Misses pid s ↔ sys.Misses pid s := by
  rw [Misses, Misses, h]

theorem IsContainedAt.lt (h : sys.IsContainedAt pid) : pid < sys.processes := by
  obtain ⟨a, ha, -⟩ := h
  exact automaton?_lt ha

theorem traceEvent_eq_error (h : t.traceEvent k e = .error err) :
    t.processes ≤ e.pid ∧ err = .processOutOfRange e.pid t.processes ∨
      ∃ s, err = .missingState e.pid s ∧ t.Misses e.pid s := by
  rw [traceEvent] at h
  split at h
  · next hnone =>
    exact .inl ⟨List.getElem?_eq_none_iff.1 hnone, (Except.error.inj h).symm⟩
  · next a ha =>
    split at h
    · next s hs =>
      obtain ⟨hreach, hge⟩ := Automaton.trace_eq_error hs
      exact .inr ⟨s, (Except.error.inj h).symm, a, ha, hreach, hge⟩
    · cases h

theorem exists_traceEvent_iff :
    (∃ t', t.traceEvent k e = .ok t') ↔ t.IsContainedAt e.pid := by
  constructor
  · rintro ⟨t', h⟩
    rw [traceEvent] at h
    split at h
    · cases h
    · next a ha =>
      split at h
      · cases h
      · next b hb => exact ⟨a, ha, Automaton.exists_trace_iff.1 ⟨b, hb⟩⟩
  · intro hcontained
    cases h : t.traceEvent k e with
    | ok t' => exact ⟨t', rfl⟩
    | error err =>
        rcases traceEvent_eq_error h with ⟨hge, -⟩ | ⟨s, -, hmisses⟩
        · exact absurd hcontained.lt (Nat.not_lt.2 hge)
        · exact absurd hcontained hmisses.not_isContainedAt

theorem automaton?_of_traceEvent (h : t.traceEvent k e = .ok t') (pid : ProcessId) :
    t'.automaton? pid = t.automaton? pid ∨
      pid = e.pid ∧ t.IsContainedAt pid ∧ t'.IsContainedAt pid := by
  obtain ⟨-, hprocesses, hautomata⟩ := traceEvent_eq_ok h
  cases hb : t'.automaton? pid with
  | none =>
      have hge := List.getElem?_eq_none_iff.1 hb
      exact .inl (List.getElem?_eq_none_iff.2 (hprocesses.symm.trans_le hge)).symm
  | some b =>
      rcases hautomata pid b hb with ⟨-, hold⟩ | ⟨rfl, a, ha, hab⟩
      · exact .inl hold.symm
      · exact .inr ⟨rfl, exists_traceEvent_iff.1 ⟨t', h⟩, b, hb,
          Automaton.isContained_of_trace hab⟩

theorem isContainedAt_iff_of_traceEvent (h : t.traceEvent k e = .ok t') :
    t'.IsContainedAt pid ↔ t.IsContainedAt pid := by
  rcases automaton?_of_traceEvent h pid with heq | ⟨-, hbefore, hafter⟩
  · exact isContainedAt_congr heq
  · exact iff_of_true hafter hbefore

/-! ### Many events -/

theorem exists_traceEvents_iff :
    (∃ t', events.foldlM (fun t e => t.traceEvent k e) t = .ok t') ↔
      ∀ e ∈ events, t.IsContainedAt e.pid := by
  induction events generalizing t with
  | nil => exact ⟨fun _ => List.forall_mem_nil _, fun _ => ⟨t, rfl⟩⟩
  | cons e events ih =>
      simp only [List.foldlM_cons, bind_eq_ok, List.forall_mem_cons]
      constructor
      · rintro ⟨t', next, hnext, h⟩
        have hevents := ih.1 ⟨t', h⟩
        exact ⟨exists_traceEvent_iff.1 ⟨next, hnext⟩, fun f hf =>
          (isContainedAt_iff_of_traceEvent hnext).1 (hevents f hf)⟩
      · rintro ⟨he, hevents⟩
        obtain ⟨next, hnext⟩ := exists_traceEvent_iff.2 he
        obtain ⟨t', h⟩ := ih.2 fun f hf =>
          (isContainedAt_iff_of_traceEvent hnext).2 (hevents f hf)
        exact ⟨t', next, hnext, h⟩

/-- What is missing has been missing from the beginning. -/
theorem traceEvents_eq_error (hevents : ∀ e ∈ events, e.pid < t.processes)
    (h : events.foldlM (fun t e => t.traceEvent k e) t = .error err) :
    ∃ e ∈ events, ∃ s, t.Misses e.pid s ∧ err = .missingState e.pid s := by
  induction events generalizing t with
  | nil => cases h
  | cons e events ih =>
      obtain ⟨he, hevents⟩ := List.forall_mem_cons.1 hevents
      rw [List.foldlM_cons] at h
      rcases bind_eq_error.1 h with hhead | ⟨next, hnext, h⟩
      · rcases traceEvent_eq_error hhead with ⟨hge, -⟩ | ⟨s, rfl, hmisses⟩
        · exact absurd he (Nat.not_lt.2 hge)
        · exact ⟨e, List.mem_cons_self, s, hmisses, rfl⟩
      · have hprocesses := (traceEvent_eq_ok hnext).2.1
        obtain ⟨f, hf, s, hmisses, rfl⟩ := ih (fun f hf => hprocesses ▸ hevents f hf) h
        -- An automaton that has been traced by then is contained, so this is another one.
        rcases automaton?_of_traceEvent hnext f.pid with heq | ⟨-, -, hafter⟩
        · exact ⟨f, List.mem_cons_of_mem _ hf, s, (misses_congr heq).1 hmisses, rfl⟩
        · exact absurd hafter hmisses.not_isContainedAt

/-! ### An invariant -/

theorem trace_eq_error (h : sys.trace inv = .error err) :
    sys.tracers.contains inv = true ∧ err = .alreadyTraced inv ∨
      sys.tracers.contains inv = false ∧ (∃ e ∈ inv.events, sys.processes ≤ e.pid ∧
        err = .processOutOfRange e.pid sys.processes) ∨
      sys.tracers.contains inv = false ∧ (∀ e ∈ inv.events, e.pid < sys.processes) ∧
        ∃ e ∈ inv.events, ∃ s, sys.Misses e.pid s ∧ err = .missingState e.pid s := by
  rcases trace_eq_error_iff.1 h with hold | ⟨hnew, hcheck | ⟨hcheck, hevents⟩⟩
  · exact .inl hold
  · exact .inr (.inl ⟨hnew, exists_of_forM_ownerCheck_eq_error hcheck⟩)
  · have hrange := forM_ownerCheck_eq_ok.1 hcheck
    exact .inr (.inr ⟨hnew, hrange, traceEvents_eq_error hrange hevents⟩)

theorem exists_trace_iff :
    (∃ t index, sys.trace inv = .ok (t, index)) ↔
      sys.tracers.contains inv = false ∧ ∀ e ∈ inv.events, sys.IsContainedAt e.pid := by
  constructor
  · rintro ⟨t, index, h⟩
    obtain ⟨hnew, -, final, hfinal, -⟩ := trace_eq_ok.1 h
    exact ⟨hnew, exists_traceEvents_iff.1 ⟨final, hfinal⟩⟩
  · rintro ⟨hnew, hevents⟩
    obtain ⟨final, hfinal⟩ := exists_traceEvents_iff.2 hevents
    exact ⟨_, _, trace_eq_ok.2 ⟨hnew, fun e he => (hevents e he).lt, final, hfinal, rfl, rfl⟩⟩

theorem automaton?_of_trace (h : sys.trace inv = .ok (t, index))
    (hpid : ∀ e ∈ inv.events, e.pid ≠ pid) : t.automaton? pid = sys.automaton? pid :=
  trace_induction (P := fun u => u.automaton? pid = sys.automaton? pid)
    (fun e he _ _ hstep hu => by
      rcases automaton?_of_traceEvent hstep pid with heq | ⟨rfl, -, -⟩
      · exact heq.trans hu
      · exact absurd rfl (hpid e he))
    (fun _ _ hu => hu) h rfl

theorem isContainedAt_iff_of_trace (h : sys.trace inv = .ok (t, index)) :
    t.IsContainedAt pid ↔ sys.IsContainedAt pid :=
  trace_induction (P := fun u => u.IsContainedAt pid ↔ sys.IsContainedAt pid)
    (fun _ _ _ _ hstep hu => (isContainedAt_iff_of_traceEvent hstep).trans hu)
    (fun _ _ hu => hu) h Iff.rfl

theorem answer_traceByRows (sys : System) (inv : Invariant) :
    ((InPlace.traceByRows inv).runOn sys).1 = (sys.trace inv).map Prod.snd := by
  rw [InPlace.traceByRows_eq]
  cases h : sys.trace inv with
  | ok result =>
      rw [InPlace.runOn_trace_of_ok h]
      rfl
  | error err =>
      obtain ⟨left, hleft⟩ := InPlace.exists_runOn_trace_of_error h
      rw [hleft]
      rfl

/-- A new invariant of the processes asks for a missing row if and only if some automaton
of its events is not contained. -/
theorem exists_missingState_iff :
    (∃ pid s, sys.trace inv = .error (.missingState pid s)) ↔
      sys.tracers.contains inv = false ∧ (∀ e ∈ inv.events, e.pid < sys.processes) ∧
        ∃ e ∈ inv.events, ¬ sys.IsContainedAt e.pid := by
  constructor
  · rintro ⟨pid, s, h⟩
    rcases trace_eq_error h with ⟨-, ⟨⟩⟩ | ⟨-, e, -, -, ⟨⟩⟩ | ⟨hnew, hrange, e, he, s', hmisses, -⟩
    exact ⟨hnew, hrange, e, he, hmisses.not_isContainedAt⟩
  · rintro ⟨hnew, hrange, e, he, hnot⟩
    have hfails : ∃ err, sys.trace inv = .error err := by
      refine exists_eq_error_iff.2 ?_
      rintro ⟨⟨t, index⟩, h⟩
      exact hnot ((exists_trace_iff.1 ⟨t, index, h⟩).2 e he)
    obtain ⟨err, h⟩ := hfails
    rcases trace_eq_error h with ⟨hold, -⟩ | ⟨-, f, hf, hge, -⟩ | ⟨-, -, f, -, s, -, rfl⟩
    · exact nomatch hold.symm.trans hnew
    · exact absurd (hrange f hf) (Nat.not_lt.2 hge)
    · exact ⟨f.pid, s, h⟩

/-- **A row is missing exactly where an automaton is not contained**: tracing a new
invariant of the processes succeeds if the automata of its events can get to no state
that they do not have, and asks for the row of such a state otherwise. -/
theorem missing_row_iff_not_contained (sys : System) (inv : Invariant) :
    ((∃ index, ((InPlace.traceByRows inv).runOn sys).1 = .ok index) ↔
      sys.tracers.contains inv = false ∧ ∀ e ∈ inv.events, sys.IsContainedAt e.pid) ∧
    ((∃ pid s, ((InPlace.traceByRows inv).runOn sys).1 = .error (.missingState pid s)) ↔
      sys.tracers.contains inv = false ∧ (∀ e ∈ inv.events, e.pid < sys.processes) ∧
        ∃ e ∈ inv.events, ¬ sys.IsContainedAt e.pid) ∧
    (∀ err, ((InPlace.traceByRows inv).runOn sys).1 = .error err →
      sys.tracers.contains inv = true ∧ err = .alreadyTraced inv ∨
      sys.tracers.contains inv = false ∧ (∃ e ∈ inv.events, sys.processes ≤ e.pid ∧
        err = .processOutOfRange e.pid sys.processes) ∨
      sys.tracers.contains inv = false ∧ (∀ e ∈ inv.events, e.pid < sys.processes) ∧
        ∃ e ∈ inv.events, ∃ s, sys.Misses e.pid s ∧ err = .missingState e.pid s) ∧
    ∀ index t, (InPlace.traceByRows inv).runOn sys = (.ok index, t) →
      (∀ e ∈ inv.events, t.IsContainedAt e.pid) ∧
      ∀ pid, (∀ e ∈ inv.events, e.pid ≠ pid) → t.automaton? pid = sys.automaton? pid := by
  have hanswer := answer_traceByRows sys inv
  refine ⟨?_, ?_, fun err h => ?_, fun index t h => ?_⟩
  · rw [hanswer, ← exists_trace_iff]
    simp only [map_eq_ok, Prod.exists, exists_eq_right]
    exact exists_comm
  · simp only [hanswer, map_eq_error]
    exact exists_missingState_iff
  · rw [hanswer, map_eq_error] at h
    exact trace_eq_error h
  · rw [h] at hanswer
    obtain ⟨⟨t', index'⟩, htrace, -⟩ := map_eq_ok.1 hanswer.symm
    rw [InPlace.traceByRows_eq, InPlace.runOn_trace_of_ok htrace] at h
    obtain ⟨-, rfl⟩ := Prod.mk.inj h
    have hevents := (exists_trace_iff.1 ⟨t', index', htrace⟩).2
    exact ⟨fun e he => (isContainedAt_iff_of_trace htrace).2 (hevents e he),
      fun pid hpid => automaton?_of_trace htrace hpid⟩

/-- An automaton that leads from its only state to one that it does not have. -/
def dangling : Automaton :=
  ((Automaton.empty 1).addState true false).addTransition 0 (.internal 1 "b") 7

/-- Two automata, and the second of them leads out of its states. -/
def danglingPair : System where
  channels := []
  automata := [
    (((Automaton.empty 0).addState true false).addState false true).addTransition
      0 (.internal 0 "a") 1,
    dangling]
  tracers := ∅

def eventuallyA : Invariant := ⟨.eventually, .internal 0 "a", .internal 0 "a", none⟩

def eventuallyB : Invariant := ⟨.eventually, .internal 1 "b", .internal 1 "b", none⟩

/-- Nothing that the system is checked for keeps the rows together: one invariant asks for
a missing one, and the other is traced although an automaton leads out of its states. -/
theorem danglingPair_misses_a_row :
    danglingPair.IsFinished ∧ (∀ a ∈ danglingPair.automata, a.Arises) ∧
    ((InPlace.traceByRows eventuallyB).runOn danglingPair).1 = .error (.missingState 1 7) ∧
    ∃ t, (InPlace.traceByRows eventuallyA).runOn danglingPair = (.ok 0, t) ∧ t.Misses 1 7 := by
  have hrefused : danglingPair.trace eventuallyB = .error (.missingState 1 7) := by cbv
  have hok : (danglingPair.trace eventuallyA).map (fun r => (r.2, r.1.automaton? 1)) =
      .ok (0, some dangling) := by cbv
  obtain ⟨⟨t, index⟩, htrace, heq⟩ := map_eq_ok.1 hok
  obtain ⟨rfl, ht⟩ := Prod.mk.inj heq
  have hstep : dangling.Step 0 (.internal 1 "b") 7 :=
    (by decide : (Event.internal 1 "b", 7) ∈ dangling.transitions 0)
  refine ⟨⟨2, [], danglingPair.automata, _, rfl, rfl⟩, ?_, ?_, t, ?_, ?_⟩
  · simp only [danglingPair, List.forall_mem_cons]
    exact ⟨.addTransition _ _ _ (.addState _ _ (.addState _ _ (.empty 0))),
      .addTransition _ _ _ (.addState _ _ (.empty 1)), List.forall_mem_nil _⟩
  · rw [answer_traceByRows, hrefused]
    rfl
  · rw [InPlace.traceByRows_eq]
    exact InPlace.runOn_trace_of_ok htrace
  · exact ⟨dangling, ht, ⟨0, _, rfl, .step hstep (.stay 7)⟩, by decide⟩

end ProtocolInference.System
