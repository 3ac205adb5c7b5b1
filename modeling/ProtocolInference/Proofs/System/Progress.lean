import ProtocolInference.Proofs.Automaton.Containment
import ProtocolInference.Proofs.System.Transparency

/-!
Tracing does not fail.

The search for the reachable states stops at a state that the automaton
does not have, so it is sure to end well in an automaton whose transitions
all lead to states of its own. Tracing keeps automata so, whatever event
is traced, be it a tracer send. Therefore a system of such automata
can be traced again and again: an invariant is refused only if one of its
events belongs to no process, or if it is traced already.
-/

namespace ProtocolInference

namespace Automaton

variable {a b : Automaton} {e record : Event}

theorem IsClosed.exists_trace (h : a.IsClosed) (e record : Event) :
    ∃ b, a.trace e record = .ok b := exists_trace_iff.2 h.isContained

theorem IsClosed.trace (h : a.IsClosed) (htrace : a.trace e record = .ok b) : b.IsClosed := by
  obtain ⟨states, -, hsize, -, -, hstep⟩ := trace_eq_ok htrace
  intro x f y hxy
  rw [hsize]
  rcases (hstep x f y).1 hxy with ⟨hold, -⟩ | ⟨i, s, t, hi, ⟨-, -, rfl⟩ | ⟨-, -, rfl⟩⟩
  · exact Nat.lt_add_right _ (h x f y hold)
  · exact Nat.add_lt_add_left (List.getElem?_eq_some_iff.1 hi).1 _
  · exact Nat.lt_add_right _ (h s e y (mem_occurrences.1 (List.mem_of_getElem? hi)).2)

end Automaton

namespace System

variable {sys traced : System} {inv : Invariant} {invs : List Invariant} {k : Nat} {e : Event}

/-- An event of one of the processes can be traced, and then others can. -/
theorem IsClosed.exists_traceEvent (h : sys.IsClosed) (k : Nat) (he : e.pid < sys.processes) :
    ∃ traced, sys.traceEvent k e = .ok traced ∧ traced.IsClosed ∧
      traced.processes = sys.processes := by
  obtain ⟨a, ha⟩ := automaton?_of_lt he
  have hclosed : a.IsClosed := h a (List.mem_of_getElem? ha)
  obtain ⟨b, hb⟩ := hclosed.exists_trace e (.send (sys.tracerChannel k e.pid) e.tracerLabel)
  refine ⟨{ sys with automata := sys.automata.set e.pid b }, ?_, fun c hc => ?_, ?_⟩
  · simp only [traceEvent, ha, hb]
  · rcases List.mem_or_eq_of_mem_set hc with hc | rfl
    · exact h c hc
    · exact hclosed.trace hb
  · exact List.length_set ..

theorem IsClosed.exists_traceEvents (h : sys.IsClosed) (k : Nat) {events : List Event}
    (hevents : ∀ e ∈ events, e.pid < sys.processes) :
    ∃ traced, events.foldlM (fun t e => t.traceEvent k e) sys = .ok traced ∧ traced.IsClosed ∧
      traced.processes = sys.processes := by
  induction events generalizing sys with
  | nil => exact ⟨sys, rfl, h, rfl⟩
  | cons e events ih =>
      obtain ⟨he, hevents⟩ := List.forall_mem_cons.1 hevents
      obtain ⟨next, hnext, hclosed, hprocesses⟩ := h.exists_traceEvent k he
      obtain ⟨traced, htraced, hclosed', hprocesses'⟩ :=
        ih hclosed fun f hf => hprocesses ▸ hevents f hf
      refine ⟨traced, ?_, hclosed', hprocesses'.trans hprocesses⟩
      rw [List.foldlM_cons, hnext]
      exact htraced

theorem IsClosed.exists_trace (h : sys.IsClosed) (hnew : sys.tracers.contains inv = false)
    (hevents : ∀ e ∈ inv.events, e.pid < sys.processes) :
    ∃ traced, sys.trace inv = .ok (traced, sys.firstTracer + sys.tracers.size) ∧
      traced.IsClosed ∧ traced.processes = sys.processes ∧
      traced.firstTracer = sys.firstTracer ∧
      ∃ channel, traced.tracers = sys.tracers.insert inv channel := by
  obtain ⟨final, hfinal, hclosed, hprocesses⟩ := h.exists_traceEvents sys.tracers.size hevents
  have hchannels : final.channels = sys.channels :=
    foldlM_induction (P := fun t : System => t.channels = sys.channels)
      (fun _ _ _ _ hstep ht => (traceEvent_eq_ok hstep).1.trans ht) hfinal rfl
  refine ⟨_, trace_eq_ok.2 ⟨hnew, hevents, final, hfinal, rfl, rfl⟩, hclosed, hprocesses, ?_, _, rfl⟩
  exact congrArg List.length hchannels

/-- The check of an event before anything is traced. -/
def ownerCheck (sys : System) (e : Event) : Except SystemError Unit :=
  if e.pid < sys.processes then .ok () else .error (.processOutOfRange e.pid sys.processes)

theorem forM_ownerCheck_eq_ok :
    inv.events.forM sys.ownerCheck = .ok () ↔ ∀ e ∈ inv.events, e.pid < sys.processes := by
  rw [forM_eq_ok]
  refine forall₂_congr fun e _ => ?_
  by_cases h : e.pid < sys.processes
  · exact iff_of_true (if_pos h) h
  · rw [ownerCheck, if_neg h]
    exact iff_of_false (fun herr => by cases herr) h

theorem exists_of_forM_ownerCheck_eq_error {err : SystemError}
    (h : inv.events.forM sys.ownerCheck = .error err) :
    ∃ e ∈ inv.events, sys.processes ≤ e.pid ∧ err = .processOutOfRange e.pid sys.processes := by
  obtain ⟨e, he, herr⟩ := exists_of_forM_eq_error h
  rw [ownerCheck] at herr
  split at herr
  · cases herr
  · next hge => exact ⟨e, he, Nat.not_lt.1 hge, (Except.error.inj herr).symm⟩

/-- An invariant is refused by one of the two checks, or one of its events cannot
be traced. -/
theorem trace_eq_error_iff {err : SystemError} :
    sys.trace inv = .error err ↔
      sys.tracers.contains inv = true ∧ err = .alreadyTraced inv ∨
      sys.tracers.contains inv = false ∧
        (inv.events.forM sys.ownerCheck = .error err ∨
          inv.events.forM sys.ownerCheck = .ok () ∧
            inv.events.foldlM (fun t e => t.traceEvent sys.tracers.size e) sys =
              .error err) := by
  cases hnew : sys.tracers.contains inv with
  | true =>
      rw [System.trace, hnew]
      simp [eq_comm]
  | false =>
      rw [System.trace, hnew]
      refine (check_bind_eq_error (x := inv.events.forM sys.ownerCheck)).trans ?_
      simp only [bind_eq_error, pure_ne_error, and_false, exists_false, or_false,
        Bool.false_eq_true, false_and, false_or, true_and]

/-- It is one of the two checks that refuses an invariant: what comes behind them
does not fail. -/
theorem IsClosed.check_of_trace_eq_error (h : sys.IsClosed) {err : SystemError}
    (htrace : sys.trace inv = .error err) :
    (sys.tracers.contains inv = true ∧ err = .alreadyTraced inv) ∨
      (sys.tracers.contains inv = false ∧ inv.events.forM sys.ownerCheck = .error err) := by
  rcases trace_eq_error_iff.1 htrace with hold | ⟨hnew, hcheck | ⟨hcheck, hevents⟩⟩
  · exact .inl hold
  · exact .inr ⟨hnew, hcheck⟩
  · obtain ⟨traced, htraced, -⟩ :=
      h.exists_traceEvents sys.tracers.size (forM_ownerCheck_eq_ok.1 hcheck)
    rw [htraced] at hevents
    cases hevents

/-- A new invariant is refused only on account of an event that belongs to
none of the processes. -/
theorem IsClosed.trace_eq_error (h : sys.IsClosed) (hnew : sys.tracers.contains inv = false)
    {err : SystemError} (htrace : sys.trace inv = .error err) :
    ∃ e ∈ inv.events, sys.processes ≤ e.pid ∧ err = .processOutOfRange e.pid sys.processes := by
  rcases h.check_of_trace_eq_error htrace with ⟨hold, -⟩ | ⟨-, hcheck⟩
  · rw [hnew] at hold
    cases hold
  · exact exists_of_forM_ownerCheck_eq_error hcheck

/-- Tracing keeps a system closed, whatever is traced. -/
theorem IsClosed.traceEvent (h : sys.IsClosed) (htrace : sys.traceEvent k e = .ok traced) :
    traced.IsClosed := by
  obtain ⟨-, -, hautomata⟩ := traceEvent_eq_ok htrace
  intro b hb
  obtain ⟨pid, hpid⟩ := List.mem_iff_getElem?.1 hb
  rcases hautomata pid b hpid with ⟨-, hold⟩ | ⟨-, a, ha, hab⟩
  · exact h b (List.mem_of_getElem? hold)
  · exact (h a (List.mem_of_getElem? ha)).trace hab

theorem IsClosed.trace {index : Nat} (h : sys.IsClosed)
    (htrace : sys.trace inv = .ok (traced, index)) : traced.IsClosed :=
  trace_induction (P := IsClosed) (fun _ _ _ _ hstep ht => ht.traceEvent hstep)
    (fun _ _ ht => ht) htrace h

end System

namespace Model

variable {base m : Model} {inv : Invariant} {invs : List Invariant}

/-- Any number of invariants traced one after the other, tracer sends among
their events or not, leave a closed system with the same processes. -/
theorem isClosed_of_traceAll (hbase : base.system.IsClosed) (htrace : base.traceAll invs = .ok m) :
    m.system.IsClosed ∧ m.system.processes = base.system.processes := by
  refine foldlM_induction
    (P := fun t : Model => t.system.IsClosed ∧ t.system.processes = base.system.processes)
    (fun inv _ t t' hstep ht => ?_) htrace ⟨hbase, rfl⟩
  obtain ⟨⟨t'', index⟩, htraced, rfl⟩ := map_eq_ok.1 hstep
  obtain ⟨sys, hsys, rfl⟩ := trace_eq_ok.1 htraced
  exact ⟨ht.1.trace hsys, (System.processes_of_trace hsys).trans ht.2⟩

/-- The model `m` comes from `base`, in which nothing is traced, by tracing
the invariants, and more can be traced in it. -/
structure IsTraced (base : Model) (invs : List Invariant) (m : Model) : Prop where
  closed : m.system.IsClosed
  processes_eq : m.system.processes = base.system.processes
  firstTracer_eq : m.system.firstTracer = base.system.firstTracer
  size_eq : m.system.tracers.size = invs.length
  mem_of_contains : ∀ inv, m.system.tracers.contains inv = true → inv ∈ invs

theorem IsTraced.exists_trace (h : base.IsTraced invs m) (hnew : inv ∉ invs)
    (hevents : ∀ e ∈ inv.events, e.pid < base.system.processes) :
    ∃ m', m.trace inv = .ok (m', base.system.firstTracer + invs.length) ∧
      base.IsTraced (invs ++ [inv]) m' := by
  have hfresh : m.system.tracers.contains inv = false :=
    Bool.eq_false_iff.2 fun hcontains => hnew (h.mem_of_contains inv hcontains)
  obtain ⟨sys, hsys, hclosed, hprocesses, hfirst, channel, htracers⟩ :=
    h.closed.exists_trace hfresh (h.processes_eq ▸ hevents)
  rw [h.firstTracer_eq, h.size_eq] at hsys
  refine ⟨{ m with system := sys }, trace_eq_ok.2 ⟨sys, hsys, rfl⟩, hclosed,
    hprocesses.trans h.processes_eq, hfirst.trans h.firstTracer_eq, ?_, fun inv' hinv' => ?_⟩
  · have hnone : m.system.tracers.get? inv = none := by
      simpa [OrderedMap.contains] using hfresh
    show sys.tracers.size = _
    rw [htracers, OrderedMap.size_insert hnone, h.size_eq, List.length_append]
    rfl
  · have hinv' : sys.tracers.contains inv' = true := hinv'
    rw [htracers, OrderedMap.contains, OrderedMap.get?_insert] at hinv'
    by_cases heq : inv' = inv
    · exact List.mem_append_right _ (List.mem_singleton.2 heq)
    · rw [if_neg heq] at hinv'
      exact List.mem_append_left _ (h.mem_of_contains inv' hinv')

theorem exists_traceAll (hclosed : base.system.IsClosed) (hnone : base.system.tracers = ∅)
    (hnodup : invs.Nodup)
    (hevents : ∀ inv ∈ invs, ∀ e ∈ inv.events, e.pid < base.system.processes) :
    ∃ m, base.traceAll invs = .ok m ∧ base.IsTraced invs m := by
  induction invs using List.reverseRecOn with
  | nil =>
      refine ⟨base, rfl, hclosed, rfl, rfl, by rw [hnone]; rfl, fun inv hinv => ?_⟩
      rw [hnone] at hinv
      cases hinv
  | append_singleton invs inv ih =>
      obtain ⟨hnodup, -, hnew⟩ := List.nodup_append.1 hnodup
      obtain ⟨m, hm, htraced⟩ := ih hnodup fun i hi => hevents i (List.mem_append_left _ hi)
      have hinv : inv ∉ invs := fun hmem => hnew inv hmem inv List.mem_cons_self rfl
      obtain ⟨m', hm', htraced'⟩ :=
        htraced.exists_trace hinv (hevents inv (List.mem_append_right _ List.mem_cons_self))
      refine ⟨m', ?_, htraced'⟩
      rw [traceAll] at hm ⊢
      rw [List.foldlM_append, hm, ok_bind, List.foldlM_cons, hm']
      rfl

/-- In a model in which nothing is traced, an invariant within one process is
refused only if there is no such process. -/
theorem trace_eq_error (hclosed : base.system.IsClosed)
    (hnone : base.system.tracers = ∅) (hwithin : inv.isWithinProcess = true) {err : ModelError}
    (h : base.trace inv = .error err) :
    base.system.processes ≤ inv.pid ∧
      err = .system (.processOutOfRange inv.pid base.system.processes) := by
  have hnew : base.system.tracers.contains inv = false := by
    rw [hnone]
    rfl
  cases htrace : base.system.trace inv with
  | error cause =>
      obtain ⟨f, hf, hge, rfl⟩ := hclosed.trace_eq_error hnew htrace
      rw [Invariant.pid_of_mem_events hwithin hf] at hge htrace
      rw [trace, htrace] at h
      exact ⟨hge, (Except.error.inj h).symm⟩
  | ok traced =>
      rw [trace, htrace] at h
      cases h

theorem exists_automaton_of_trace {index : Nat} (hclosed : base.system.IsClosed) (h : base.trace inv = .ok (m, index)) :
    ∃ a, m.system.automaton? inv.pid = some a := by
  obtain ⟨sys, hsys, rfl⟩ := trace_eq_ok.1 h
  obtain ⟨hnew, hevents, -⟩ := System.trace_eq_ok.1 hsys
  obtain ⟨traced, htraced, -, hprocesses, -⟩ := hclosed.exists_trace hnew hevents
  obtain rfl := (Prod.mk.inj (Except.ok.inj (htraced.symm.trans hsys))).1
  exact System.automaton?_of_lt (hprocesses.symm ▸ hevents _ inv.second_mem_events)

end Model

end ProtocolInference
