import ProtocolInference.Proofs.Automaton.Occurrence
import ProtocolInference.Proofs.System.Description

/-!
Which labels of the bad states are declared.

The labels in a description are declared for the events on transitions, but
the pattern of an invariant speaks of both its events whether they are on
transitions or not. Tracing an event inserts sends only where the event
occurs, so its label is declared if it occurs, and need not be declared
otherwise. The first is the rule (`constraint_label_is_declared_iff`), with
the exception that another event may happen to have the same label; the
second is shown by `missing_event_is_undeclared`.
-/

namespace ProtocolInference.System

variable {sys traced t t' : System} {pid : ProcessId} {e f : Event} {x : StateId}
variable {inv : Invariant} {invs : List Invariant} {k : Nat} {label name : String}

/-! ### Occurring events -/

/-- The event occurs in the automaton of its process. -/
def Occurs (sys : System) (e : Event) : Prop :=
  ∃ a, sys.automaton? e.pid = some a ∧ a.Occurs e

theorem exists_trace_of_traceEvent {b : Automaton} (h : t.traceEvent k e = .ok t')
    (hb : t'.automaton? e.pid = some b) :
    ∃ a, t.automaton? e.pid = some a ∧
      a.trace e (.send (t.tracerChannel k e.pid) e.tracerLabel) = .ok b := by
  rcases (traceEvent_eq_ok h).2.2 e.pid b hb with ⟨hne, -⟩ | ⟨-, a, ha, hab⟩
  · exact absurd rfl hne
  · exact ⟨a, ha, hab⟩

theorem exists_appears_iff (h : t.traceEvent k e = .ok t') :
    (∃ x, Appears t t' e.pid x) ↔ t.Occurs e := by
  constructor
  · rintro ⟨x, a, b, ha, hb, hle, hlt⟩
    obtain ⟨a', ha', hab⟩ := exists_trace_of_traceEvent h hb
    obtain rfl := Option.some.inj (ha.symm.trans ha')
    exact ⟨a, ha, (Automaton.size_lt_iff_of_trace hab).1 (Nat.lt_of_le_of_lt hle hlt)⟩
  · rintro ⟨a, ha, hoccurs⟩
    obtain ⟨b, hb⟩ := automaton?_of_lt ((traceEvent_eq_ok h).2.1.symm ▸ automaton?_lt ha)
    obtain ⟨a', ha', hab⟩ := exists_trace_of_traceEvent h hb
    obtain rfl := Option.some.inj (ha.symm.trans ha')
    exact ⟨a.size, a, b, ha, hb, Nat.le_refl _, (Automaton.size_lt_iff_of_trace hab).2 hoccurs⟩

theorem Unfolds.occurs_iff (h : Unfolds sys traced) (he : sys.isTracerEvent e = false) :
    traced.Occurs e ↔ sys.Occurs e := by
  constructor
  · rintro ⟨b, hb, hoccurs⟩
    obtain ⟨a, home, ha, hab⟩ := h.automaton hb
    exact ⟨a, ha, (hab.occurs_iff he).1 hoccurs⟩
  · rintro ⟨a, ha, hoccurs⟩
    obtain ⟨b, hb⟩ := automaton?_of_lt (h.processes_eq.symm ▸ automaton?_lt ha)
    obtain ⟨a', home, ha', hab⟩ := h.automaton hb
    obtain rfl := Option.some.inj (ha.symm.trans ha')
    exact ⟨b, hb, (hab.occurs_iff he).2 hoccurs⟩

/-- At the stage at which it is traced, the same events occur as in the system as
it was: what has been traced by then has only unfolded the system. -/
theorem occurs_iff_of_stage {before after : List Invariant} {earlier later : List Event}
    (hsys : sys.IsUntraced)
    (hinvs : ∀ i ∈ before ++ inv :: after, ∀ f ∈ i.events, sys.isTracerEvent f = false)
    (hevents : inv.events = earlier ++ e :: later) (ht : sys.traceAll before = .ok t)
    (hu : earlier.foldlM (fun t' f => t'.traceEvent t.tracers.size f) t = .ok t') :
    t'.Occurs e ↔ sys.Occurs e := by
  have hown : ∀ f ∈ inv.events, sys.isTracerEvent f = false := hinvs inv (by simp)
  have hunfolds : Unfolds sys t :=
    .traceAll hsys (fun i hi => hinvs i (List.mem_append_left _ hi)) ht
  have hunfolds' : Unfolds sys t' :=
    foldlM_induction (P := Unfolds sys) (fun f hf _ _ hstep ht =>
      ht.traceEvent (hown f (hevents ▸ List.mem_append_left _ hf)) hstep) hu hunfolds
  exact hunfolds'.occurs_iff (hown e (by simp [hevents]))

theorem exists_insertedFor_iff (hsys : sys.IsUntraced)
    (hinvs : ∀ inv ∈ invs, ∀ e ∈ inv.events, sys.isTracerEvent e = false)
    (htrace : sys.traceAll invs = .ok traced) :
    (∃ x, sys.InsertedFor invs inv e x) ↔ inv ∈ invs ∧ e ∈ inv.events ∧ sys.Occurs e := by
  constructor
  · rintro ⟨x, before, after, earlier, later, t, u, v, rfl, ht, hevents, hu, hv, happears⟩
    have hoccurs := (exists_appears_iff hv).1 ⟨x, happears⟩
    exact ⟨by simp, by simp [hevents], (occurs_iff_of_stage hsys hinvs hevents ht hu).1 hoccurs⟩
  · rintro ⟨hinv, he, hoccurs⟩
    obtain ⟨before, after, rfl⟩ := List.append_of_mem hinv
    obtain ⟨earlier, later, hevents⟩ := List.append_of_mem he
    obtain ⟨t, u, v, -, -, ht, hu, hv, -⟩ := exists_stage htrace hevents
    obtain ⟨x, happears⟩ :=
      (exists_appears_iff hv).2 ((occurs_iff_of_stage hsys hinvs hevents ht hu).2 hoccurs)
    exact ⟨x, before, after, earlier, later, t, u, v, rfl, ht, hevents, hu, hv, happears⟩

/-! ### Declared labels -/

theorem messageLabel_record (c : Channel) (e : Event) :
    (Event.send c e.tracerLabel).messageLabel = e.tracerLabel :=
  e.isIdentifier_tracerLabel.identifier_eq

/-- Declared are the labels of the system's own events, and those of the events for
which states have been inserted. -/
theorem mem_messageLabels_iff_of_traceAll (hsys : sys.IsFinished) (hclosed : sys.IsClosed)
    (harises : ∀ a ∈ traced.automata, a.Arises) (htrace : sys.traceAll invs = .ok traced) :
    label ∈ traced.messageLabels.toList ↔
      (∃ pid f, sys.Performs pid f ∧ f.messageLabel = label) ∨
        ∃ inv e x, sys.InsertedFor invs inv e x ∧ e.tracerLabel = label := by
  have hprocesses : traced.processes = sys.processes :=
    traceAll_induction (P := fun t => t.processes = sys.processes)
      (fun _ _ _ _ _ hstep ht => (processes_of_trace hstep).trans ht) htrace rfl
  have hold {pid : ProcessId} {a : Automaton} (ha : sys.automaton? pid = some a) {x : StateId}
      (hx : x < a.size) : traced.LeavesBy pid x fun f => ∃ y, a.Step x f y :=
    LeavesBy.traceAll ⟨a, ha, hx, fun _ => Iff.rfl⟩ htrace
  rw [mem_messageLabels_iff harises]
  constructor
  · rintro ⟨pid, f, ⟨b, x, y, hb, hstep⟩, rfl⟩
    obtain ⟨a, ha⟩ := automaton?_of_lt (hprocesses ▸ automaton?_lt hb)
    rcases Nat.lt_or_ge x a.size with hx | hx
    · obtain ⟨b', hb', -, hsteps⟩ := hold ha hx
      obtain rfl := Option.some.inj (hb.symm.trans hb')
      obtain ⟨y', hstep'⟩ := (hsteps f).1 ⟨y, hstep⟩
      exact .inl ⟨pid, f, ⟨a, x, y', ha, hstep'⟩, rfl⟩
    · obtain ⟨inv, e, rfl, hinserted⟩ := exists_insertedFor htrace ⟨a, b, ha, hb, hx, hstep.lt_size⟩
      obtain ⟨c, k, -, -, b', hb', -, hsteps⟩ := hinserted.leavesBy hsys hclosed htrace
      obtain rfl := Option.some.inj (hb.symm.trans hb')
      obtain rfl := (hsteps f).1 ⟨y, hstep⟩
      exact .inr ⟨inv, e, x, hinserted, (messageLabel_record _ e).symm⟩
  · rintro (⟨pid, f, ⟨a, x, y, ha, hstep⟩, rfl⟩ | ⟨inv, e, x, hinserted, rfl⟩)
    · obtain ⟨b, hb, -, hsteps⟩ := hold ha hstep.lt_size
      obtain ⟨y', hstep'⟩ := (hsteps f).2 ⟨y, hstep⟩
      exact ⟨pid, f, ⟨b, x, y', hb, hstep'⟩, rfl⟩
    · obtain ⟨c, k, -, -, b, hb, -, hsteps⟩ := hinserted.leavesBy hsys hclosed htrace
      obtain ⟨y, hstep⟩ := (hsteps _).2 rfl
      exact ⟨e.pid, _, ⟨b, x, y, hb, hstep⟩, messageLabel_record _ e⟩

/-! ### The bad states -/

theorem IsCover.exists_event {bad : List BadState} (h : traced.IsCover inv k bad) {b : BadState}
    (hb : b ∈ bad) {q : QueueConstraint} (hq : q ∈ b.queues) (hlabel : label ∈ q.labels) :
    ∃ e ∈ inv.events, e.tracerLabel = label := by
  obtain ⟨i, hi⟩ := List.mem_iff_getElem?.1 hq
  have hlt : i < traced.allChannels.length :=
    h.length_queues b hb ▸ (List.getElem?_eq_some_iff.1 hi).1
  obtain rfl := Option.some.inj (hi.symm.trans (h.queue_eq b hb i hlt))
  split at hlabel
  · cases hlabel
  · split at hlabel
    · by_cases hrelation : inv.relation = .eventually
      · rw [Invariant.violation, hrelation] at hlabel
        cases hlabel
      · exact (inv.mem_labels_violation_iff hrelation).1 hlabel
    · cases hlabel

/-- **A label in the bad states is declared** if states have been inserted for
the event that it stands for, and no label is declared but for such an event or
one on a transition. The events for which states are inserted are those that
occur. -/
theorem constraint_label_is_declared_iff (hsys : sys.IsFinished) (hclosed : sys.IsClosed)
    (harises : ∀ a ∈ sys.automata, a.Arises) (htrace : sys.traceAll invs = .ok traced)
    (hinv : inv ∈ invs) (name : String) :
    ∃ bad, traced.badStates inv = .ok bad ∧
      traced.describeWithBadStates name inv =
        .ok ((traced.layout name).text ++ describeBadStates bad) ∧
      (∀ b ∈ bad, ∀ q ∈ b.queues, ∀ label ∈ q.labels, ∃ e ∈ inv.events, e.tracerLabel = label) ∧
      (∀ label, label ∈ (traced.layout name).parameters ↔
        (∃ pid f, sys.Performs pid f ∧ f.messageLabel = label) ∨
          ∃ inv e x, sys.InsertedFor invs inv e x ∧ e.tracerLabel = label) ∧
      ((∀ e ∈ inv.events, ∃ x, sys.InsertedFor invs inv e x) →
        ∀ b ∈ bad, ∀ q ∈ b.queues, ∀ label ∈ q.labels,
          label ∈ (traced.layout name).parameters) ∧
      ((∀ inv ∈ invs, ∀ e ∈ inv.events, sys.isTracerEvent e = false) →
        ∀ {inv e}, (∃ x, sys.InsertedFor invs inv e x) ↔
          inv ∈ invs ∧ e ∈ inv.events ∧ sys.Occurs e) := by
  obtain ⟨-, hledger⟩ := ledger_of_traceAll hsys hclosed htrace
  have hdescribable : sys.IsDescribable := ⟨hclosed, hsys.isOnChannels, harises⟩
  have hparameters : ∀ label, label ∈ (traced.layout name).parameters ↔
      (∃ pid f, sys.Performs pid f ∧ f.messageLabel = label) ∨
        ∃ inv e x, sys.InsertedFor invs inv e x ∧ e.tracerLabel = label := fun _ =>
    mem_messageLabels_iff_of_traceAll hsys hclosed (hdescribable.traceAll htrace).arises htrace
  obtain ⟨i, hi⟩ := List.mem_iff_getElem?.1 hinv
  obtain ⟨c, hc, -⟩ := exists_tracer_of_traceAll hsys hclosed htrace hi
  have hcover := hledger.isCover hsys hc
  refine ⟨_, by rw [badStates, hc], ?_, fun b hb q hq label hl => hcover.exists_event hb hq hl,
    hparameters, fun hall b hb q hq label hl => ?_,
    fun hinvs => exists_insertedFor_iff (hsys.isUntraced hclosed) hinvs htrace⟩
  · rw [describeWithBadStates, badStates, hc, ← describe_eq_text]
    rfl
  · obtain ⟨e, he, heq⟩ := hcover.exists_event hb hq hl
    obtain ⟨x, hx⟩ := hall e he
    exact (hparameters label).2 (.inr ⟨inv, e, x, hx, heq⟩)

theorem present_events_are_declared :
    ∃ inv traced bad, oneStep.traceAll [inv] = .ok traced ∧ traced.badStates inv = .ok bad ∧
      (∃ b ∈ bad, ∃ q ∈ b.queues, q.labels ≠ []) ∧
      ∀ b ∈ bad, ∀ q ∈ b.queues, ∀ label ∈ q.labels,
        label ∈ (traced.layout "one").parameters := by
  let inv : Invariant := ⟨.alwaysPrecedes, .internal 0 "a", .internal 0 "a", none⟩
  have hok : (oneStep.traceAll [inv] >>= fun t =>
      (t.badStates inv).map fun bad => bad.any fun b => b.queues.any (·.labels ≠ [])) =
        .ok true := by cbv
  obtain ⟨traced, htrace, hbad⟩ := bind_eq_ok.1 hok
  obtain ⟨bad, hbad, hany⟩ := map_eq_ok.1 hbad
  obtain ⟨bad', hbad', -, -, -, hdeclared, hoccurs⟩ := constraint_label_is_declared_iff
    oneStep_isFinished oneStep_isClosed oneStep_arises htrace (List.mem_singleton_self inv) "one"
  obtain rfl := Except.ok.inj (hbad.symm.trans hbad')
  have hown : ∀ i ∈ [inv], ∀ e ∈ i.events, oneStep.isTracerEvent e = false := by decide
  have hreachable : (Automaton.oneStep 0 (.internal 0 "a")).IsReachable 0 :=
    ⟨0, [], rfl, .stay 0⟩
  refine ⟨inv, traced, bad, htrace, hbad, by simpa using hany, hdeclared fun e he => ?_⟩
  obtain rfl : e = .internal 0 "a" := by simpa [inv, Invariant.events] using he
  have hstep : (Automaton.oneStep 0 (.internal 0 "a")).Step 0 (.internal 0 "a") 1 :=
    Automaton.step_oneStep.2 ⟨rfl, rfl, rfl⟩
  exact (hoccurs hown).2 ⟨by simp, he, _, rfl, 0, 1, hreachable, hstep⟩

/-- The second event is on no transition: the bad states speak of its label, which
is not declared. -/
theorem missing_event_is_undeclared :
    ∃ traced bad, oneStep.IsFinished ∧ oneStep.IsClosed ∧ (∀ a ∈ oneStep.automata, a.Arises) ∧
      oneStep.traceAll [precededB] = .ok traced ∧ traced.badStates precededB = .ok bad ∧
      (∃ b ∈ bad, ∃ q ∈ b.queues, "b_p0" ∈ q.labels) ∧
      "b_p0" ∉ (traced.layout "demo").parameters := by
  have hok : (oneStep.traceAll [precededB] >>= fun t => (t.badStates precededB).map fun bad =>
      (bad.any fun b => b.queues.any fun q => q.labels.contains "b_p0",
        (t.layout "demo").parameters)) = .ok (true, ["a_p0"]) := by cbv
  obtain ⟨traced, htrace, hbad⟩ := bind_eq_ok.1 hok
  obtain ⟨bad, hbad, hpair⟩ := map_eq_ok.1 hbad
  obtain ⟨hany, hparameters⟩ := Prod.mk.inj hpair
  refine ⟨traced, bad, oneStep_isFinished, oneStep_isClosed, oneStep_arises, htrace, hbad,
    by simpa using hany, ?_⟩
  rw [hparameters]
  decide

end ProtocolInference.System
