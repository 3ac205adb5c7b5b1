import Mathlib
import ProtocolInference.Automaton.History
import ProtocolInference.Proofs.Automaton.Recording
import ProtocolInference.Proofs.Invariant.Violation
import ProtocolInference.Proofs.System.Draft
import ProtocolInference.Proofs.System.Tracing

/-!
What the tracer channels tell of a single process.

A tracer channel gets its index when its invariant is traced, and until
then nobody sends on it. From then on it records the events of the
invariant, each in the automaton of its own process, and the invariants
that are traced later do not disturb it, since they have channels of
their own (`Accounts`). So between an initial and an accepting state a
process sends on the channel of an invariant exactly the labels of its
own events, in their order.

Of an invariant within one process the channel therefore holds the whole
record, and its pattern gives the verdict of the monitor, as long as the
labels of the two events differ.
-/

namespace ProtocolInference

namespace System

variable {sys traced traced' : System} {pid : ProcessId} {a b : Automaton} {e : Event}
variable {k index : Nat} {events es : List Event} {inv : Invariant} {invs : List Invariant}

theorem sentOn?_eq_none (hindex : sys.firstTracer ≤ index) (he : sys.isTracerEvent e = false) :
    e.sentOn? index = none := by
  cases e with
  | internal => rfl
  | receive => rfl
  | send c payload =>
      refine if_neg fun heq => ?_
      have htracer : sys.isTracerEvent (.send c payload) = true := decide_eq_true (heq ▸ hindex)
      rw [he] at htracer
      cases htracer

/-- Every automaton of `traced`, which comes from `sys` by tracing, records on
the channel those of the events that belong to its process. -/
structure Records (sys traced : System) (index : Nat) (events : List Event) : Prop where
  channels_eq : traced.channels = sys.channels
  processes_eq : traced.processes = sys.processes
  automaton : ∀ {pid b}, traced.automaton? pid = some b →
    ∃ a live owed, sys.automaton? pid = some a ∧
      Automaton.Records sys.isTracerEvent index (events.filter (·.pid = pid)) a b live owed

namespace Records

/-- In a finished system there is nothing to record on a tracer channel. -/
theorem refl (hsys : sys.IsFinished) (hindex : sys.firstTracer ≤ index) :
    sys.Records sys index [] where
  channels_eq := rfl
  processes_eq := rfl
  automaton ha := ⟨_, _, _, ha, .refl fun _ _ _ hstep =>
    sentOn?_eq_none hindex (hsys.isTracerEvent_eq_false ha hstep)⟩

theorem isTracerEvent_record (h : sys.Records traced index events) (k : Nat) (e : Event) :
    sys.isTracerEvent (.send (traced.tracerChannel k e.pid) e.tracerLabel) = true := by
  rw [← isTracerEvent_congr h.channels_eq]
  exact traced.isTracerEvent_record k e.pid e.tracerLabel

theorem firstTracer_eq (h : sys.Records traced index events) :
    traced.firstTracer = sys.firstTracer := congrArg List.length h.channels_eq

theorem withTracers (h : sys.Records traced index events) (tracers : OrderedMap Invariant Channel) :
    sys.Records { traced with tracers } index events :=
  ⟨h.channels_eq, h.processes_eq, h.automaton⟩

theorem traceEvent (h : sys.Records traced index events) (hk : sys.firstTracer + k = index)
    (hnew : e ∉ events) (hevents : ∀ f ∈ events ++ [e], sys.isTracerEvent f = false)
    (htrace : traced.traceEvent k e = .ok traced') : sys.Records traced' index (events ++ [e]) := by
  obtain ⟨hchannels, hprocesses, hautomata⟩ := traceEvent_eq_ok htrace
  refine ⟨hchannels.trans h.channels_eq, hprocesses.trans h.processes_eq, fun {pid c} hc => ?_⟩
  rw [List.filter_append]
  rcases hautomata pid c hc with ⟨hpid, hc⟩ | ⟨rfl, b, hb, hbc⟩
  · rw [List.filter_singleton, decide_eq_false fun heq => hpid heq.symm, cond_false,
      List.append_nil]
    exact h.automaton hc
  · obtain ⟨a, live, owed, ha, hrecords⟩ := h.automaton hb
    rw [List.filter_singleton, decide_eq_true rfl, cond_true]
    have he : sys.isTracerEvent e = false := hevents e (by simp)
    have hsent : (Event.send (traced.tracerChannel k e.pid) e.tracerLabel).sentOn? index =
        some e.tracerLabel := by
      refine if_pos ?_
      rw [tracerChannel, h.firstTracer_eq, hk]
    obtain ⟨live', owed', hrecords'⟩ := hrecords.trace hbc (h.isTracerEvent_record k e) hsent he
      (fun hmem => hnew (List.mem_filter.1 hmem).1)
      (fun f hf => hevents f (List.mem_append_left _ (List.mem_filter.1 hf).1))
      (sentOn?_eq_none (hk ▸ Nat.le_add_right _ k) he)
    exact ⟨a, live', owed', ha, hrecords'⟩

theorem traceEvent_of_ne (h : sys.Records traced index events) (hk : sys.firstTracer + k ≠ index)
    (hevents : ∀ f ∈ events, sys.isTracerEvent f = false)
    (htrace : traced.traceEvent k e = .ok traced') : sys.Records traced' index events := by
  obtain ⟨hchannels, hprocesses, hautomata⟩ := traceEvent_eq_ok htrace
  refine ⟨hchannels.trans h.channels_eq, hprocesses.trans h.processes_eq, fun {pid c} hc => ?_⟩
  rcases hautomata pid c hc with ⟨-, hc⟩ | ⟨rfl, b, hb, hbc⟩
  · exact h.automaton hc
  · obtain ⟨a, live, owed, ha, hrecords⟩ := h.automaton hb
    have hsent : (Event.send (traced.tracerChannel k e.pid) e.tracerLabel).sentOn? index =
        none := by
      refine if_neg ?_
      rwa [tracerChannel, h.firstTracer_eq]
    obtain ⟨live', owed', hrecords'⟩ := hrecords.trace_of_ne hbc (h.isTracerEvent_record k e) hsent
      (fun f hf => hevents f (List.mem_filter.1 hf).1)
    exact ⟨a, live', owed', ha, hrecords'⟩

theorem traceEvents {added : List Event} (h : sys.Records traced index events)
    (hk : sys.firstTracer + k = index) (hnodup : (events ++ added).Nodup)
    (hevents : ∀ f ∈ events ++ added, sys.isTracerEvent f = false)
    (htrace : added.foldlM (fun t e => t.traceEvent k e) traced = .ok traced') :
    sys.Records traced' index (events ++ added) := by
  induction added generalizing traced events with
  | nil =>
      obtain rfl := Except.ok.inj htrace
      rwa [List.append_nil]
  | cons e added ih =>
      rw [List.foldlM_cons, bind_eq_ok] at htrace
      obtain ⟨next, hnext, htrace⟩ := htrace
      have happend : events ++ e :: added = (events ++ [e]) ++ added := by simp
      have hnew : e ∉ events := fun hmem =>
        (List.nodup_append.1 hnodup).2.2 e hmem e List.mem_cons_self rfl
      rw [happend] at hnodup hevents ⊢
      exact ih (h.traceEvent hk hnew (fun f hf => hevents f (List.mem_append_left _ hf)) hnext)
        hnodup hevents htrace

end Records

/-! ### All tracer channels together -/

theorem nodup_events (inv : Invariant) : inv.events.Nodup := by
  rw [Invariant.events]
  split
  · exact List.nodup_singleton _
  · next h => simpa using fun heq => h (.inr heq)

/-- What holds of the tracer channels of a system: those still free are not
sent on, and every other one records the events of its invariant. -/
structure Accounts (sys traced : System) : Prop where
  free : ∀ index, sys.firstTracer + traced.tracers.size ≤ index → sys.Records traced index []
  used : ∀ inv c, traced.tracers.get? inv = some c →
    sys.firstTracer ≤ c.index ∧ c.index < sys.firstTracer + traced.tracers.size ∧
      ((∀ e ∈ inv.events, sys.isTracerEvent e = false) → sys.Records traced c.index inv.events)

theorem IsFinished.accounts (h : sys.IsFinished) : sys.Accounts sys where
  free index hindex := .refl h (Nat.le_of_add_right_le hindex)
  used inv c hc := by
    rw [h.tracers_eq] at hc
    cases hc

/-- The accounts stay in order when an invariant is traced. -/
theorem Accounts.trace (h : sys.Accounts traced)
    (htrace : traced.trace inv = .ok (traced', index)) : sys.Accounts traced' := by
  obtain ⟨hnew, -, final, hfinal, rfl, -⟩ := trace_eq_ok.1 htrace
  have hsize := OrderedMap.size_insert (m := traced.tracers) (k := inv)
    (by simpa [OrderedMap.contains] using hnew)
    (traced.tracerChannel traced.tracers.size inv.first.pid)
  have hfree := h.free (sys.firstTracer + traced.tracers.size) (Nat.le_refl _)
  have hothers {index : Nat} {events : List Event}
      (hindex : sys.firstTracer + traced.tracers.size ≠ index)
      (hevents : ∀ f ∈ events, sys.isTracerEvent f = false)
      (hrecords : sys.Records traced index events) : sys.Records final index events :=
    foldlM_induction (P := fun t => sys.Records t index events)
      (fun e _ _ _ hstep ht => ht.traceEvent_of_ne hindex hevents hstep) hfinal hrecords
  constructor
  case free =>
    intro index hindex
    simp only [hsize] at hindex
    exact (hothers (Nat.ne_of_lt hindex) (fun _ hf => absurd hf List.not_mem_nil)
      (h.free index (Nat.le_of_lt hindex))).withTracers _
  case used =>
    intro inv' c hc
    rw [OrderedMap.get?_insert] at hc
    split at hc
    · next heq =>
      subst heq
      obtain rfl := Option.some.inj hc
      have hindex : (traced.tracerChannel traced.tracers.size inv'.first.pid).index =
          sys.firstTracer + traced.tracers.size := by
        rw [tracerChannel, hfree.firstTracer_eq]
      simp only [hindex, hsize]
      refine ⟨Nat.le_add_right _ _, Nat.lt_succ_self _, fun hevents => ?_⟩
      exact (hfree.traceEvents rfl (by simpa using nodup_events inv') (by simpa using hevents)
        hfinal).withTracers _
    · obtain ⟨hle, hlt, hrecords⟩ := h.used inv' c hc
      simp only [hsize]
      refine ⟨hle, Nat.lt_succ_of_lt hlt, fun hevents => ?_⟩
      exact (hothers (Nat.ne_of_gt hlt) hevents (hrecords hevents)).withTracers _

theorem IsFinished.accounts_of_traceAll (h : sys.IsFinished)
    (htrace : sys.traceAll invs = .ok traced) : sys.Accounts traced :=
  traceAll_induction (fun _ _ _ _ _ hstep hacc => hacc.trace hstep) htrace h.accounts

/-! ### Invariants within one process -/

/-- A run from an initial to an accepting state sends the whole record of an
invariant within its process. -/
theorem sentOn_eq_record {c : Channel} {s t : StateId} (hsys : sys.IsFinished)
    (htrace : sys.traceAll invs = .ok traced) (hc : traced.tracers.get? inv = some c)
    (hevents : ∀ e ∈ inv.events, sys.isTracerEvent e = false)
    (hwithin : inv.isWithinProcess = true) (hb : traced.automaton? inv.pid = some b)
    (hs : b.isInitial s = true) (hrun : b.Run s es t) (ht : b.isAccepting t = true) :
    sentOn c.index es = inv.record es := by
  obtain ⟨-, -, hrecords⟩ := (hsys.accounts_of_traceAll htrace).used inv c hc
  obtain ⟨a, live, owed, -, hrecords⟩ := (hrecords hevents).automaton hb
  have hown : inv.events.filter (·.pid = inv.pid) = inv.events := by
    refine List.filter_eq_self.2 fun e he => decide_eq_true ?_
    rcases Invariant.eq_or_eq_of_mem_events he with rfl | rfl
    · exact of_decide_eq_true hwithin
    · rfl
  have hlt : t < a.size := Automaton.isAccepting_lt (hrecords.isAccepting_eq t ▸ ht)
  rw [hown] at hrecords
  exact hrecords.sentOn_eq hs hrun hlt

/-- **The pattern for the tracer channel and the monitor agree** on every run
of a process from an initial to an accepting state. -/
theorem tracer_pattern_agrees_with_monitor {c : Channel} {s t : StateId} (hsys : sys.IsFinished)
    (htrace : sys.traceAll invs = .ok traced) (hc : traced.tracers.get? inv = some c)
    (hevents : ∀ e ∈ inv.events, sys.isTracerEvent e = false)
    (hwithin : inv.isWithinProcess = true)
    (hlabels : inv.relation = .eventually ∨ inv.first.tracerLabel ≠ inv.second.tracerLabel)
    (hb : traced.automaton? inv.pid = some b) (hs : b.isInitial s = true) (hrun : b.Run s es t)
    (ht : b.isAccepting t = true) :
    inv.violation.Admits (sentOn c.index es) ↔ inv.FailsOn es := by
  rw [sentOn_eq_record hsys htrace hc hevents hwithin hb hs hrun ht]
  exact Invariant.admits_record_iff hlabels

end System

/-- An automaton that makes a single step. -/
def Automaton.oneStep (pid : ProcessId) (e : Event) : Automaton :=
  (((empty pid).addState true false).addState false true).addTransition 0 e 1

theorem Automaton.step_oneStep {p : ProcessId} {e f : Event} {x y : StateId} :
    (oneStep p e).Step x f y ↔ x = 0 ∧ f = e ∧ y = 1 := by
  have hnone : ¬ (empty p).Step x f y := fun h => absurd h.lt_size (Nat.not_lt_zero x)
  rw [oneStep, step_addTransition, step_addState, step_addState, or_iff_right hnone]
  simp

theorem Automaton.arises_oneStep {pid : ProcessId} {e : Event} : (oneStep pid e).Arises :=
  (((Arises.empty pid).addState true false).addState false true).addTransition _ _ _

theorem Automaton.isClosed_oneStep {pid : ProcessId} {e : Event} : (oneStep pid e).IsClosed := by
  intro x f y hstep
  obtain ⟨-, -, rfl⟩ := step_oneStep.1 hstep
  exact Nat.one_lt_two

namespace System

/-! ### A single step

One step on `a` is traced for two invariants, so that it becomes three steps. The step violates the second invariant, and the channel of that
invariant shows it. -/

/-- A system of one automaton that makes a single step on `a`. -/
def oneStep : System := ⟨[], [.oneStep 0 (.internal 0 "a")], ∅⟩

/-- Its automaton after tracing. -/
def oneStepTraced : Automaton :=
  ((Automaton.oneStep 0 (.internal 0 "a")).detour
    (.internal 0 "a") (.send ⟨0, 0, 0, some "tracer0"⟩ "a_p0") (0, 1)).detour
    (.internal 0 "a") (.send ⟨0, 0, 1, some "tracer1"⟩ "a_p0") (0, 2)

def precededB : Invariant := ⟨.alwaysPrecedes, .internal 0 "a", .internal 0 "b", none⟩

def followedA : Invariant := ⟨.alwaysFollowedBy, .internal 0 "a", .internal 0 "b", none⟩

theorem oneStep_isFinished : oneStep.IsFinished := ⟨1, [], oneStep.automata, _, rfl, rfl⟩

theorem oneStep_pattern_agrees :
    ∃ traced b es, oneStep.traceAll [precededB, followedA] = .ok traced ∧
      traced.automaton? 0 = some b ∧ b.Run 0 es 1 ∧ followedA.FailsOn es ∧
      (followedA.violation.Admits (sentOn 1 es) ↔ followedA.FailsOn es) := by
  have hboth : (oneStep.traceAll [precededB, followedA]).map (fun t =>
      (t.automata, t.tracers.get? followedA)) =
        .ok ([oneStepTraced], some ⟨0, 0, 1, some "tracer1"⟩) := by cbv
  obtain ⟨traced, htrace, heq⟩ := map_eq_ok.1 hboth
  obtain ⟨hautomata, hc⟩ := Prod.mk.inj heq
  have hb : traced.automaton? 0 = some oneStepTraced := by
    rw [automaton?, hautomata]
    rfl
  have hsteps : oneStepTraced.Step 0 (.internal 0 "a") 3 ∧
      oneStepTraced.Step 3 (.send ⟨0, 0, 1, some "tracer1"⟩ "a_p0") 2 ∧
      oneStepTraced.Step 2 (.send ⟨0, 0, 0, some "tracer0"⟩ "a_p0") 1 := by
    simp only [Automaton.Step]
    decide
  have hrun : oneStepTraced.Run 0 [.internal 0 "a", .send ⟨0, 0, 1, some "tracer1"⟩ "a_p0",
      .send ⟨0, 0, 0, some "tracer0"⟩ "a_p0"] 1 :=
    .step hsteps.1 (.step hsteps.2.1 (.step hsteps.2.2 (.stay 1)))
  exact ⟨traced, oneStepTraced, _, htrace, hb, hrun, by decide,
    tracer_pattern_agrees_with_monitor oneStep_isFinished htrace hc (by decide) rfl
      (.inr (by decide)) hb rfl hrun rfl⟩

end System

end ProtocolInference
