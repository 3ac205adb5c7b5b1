import ProtocolInference.Proofs.Automaton.Rewriting

/-!
What tracing does to a system: every automaton is unfolded, and all else
but the list of tracers stays.

A send that tracing inserts happens on a channel behind the real ones, so
within a system it can be told from the system's own events by the index
of its channel alone.
-/

namespace ProtocolInference

namespace System

variable {sys traced traced' : System} {pid : ProcessId} {a b : Automaton} {e : Event}

theorem automaton?_lt (h : sys.automaton? pid = some a) : pid < sys.processes :=
  (List.getElem?_eq_some_iff.1 h).1

theorem automaton?_of_lt (h : pid < sys.processes) : ∃ a, sys.automaton? pid = some a :=
  ⟨_, List.getElem?_eq_getElem h⟩

theorem map_automata_congr {β : Type} {view : Automaton → β}
    (hprocesses : traced.processes = sys.processes)
    (h : ∀ {pid b}, traced.automaton? pid = some b →
      ∃ a, sys.automaton? pid = some a ∧ view b = view a) :
    traced.automata.map view = sys.automata.map view := by
  refine List.ext_getElem? fun pid => ?_
  rw [List.getElem?_map, List.getElem?_map]
  cases hb : traced.automata[pid]? with
  | none =>
      have hle : sys.processes ≤ pid := hprocesses ▸ List.getElem?_eq_none_iff.1 hb
      rw [List.getElem?_eq_none hle]
  | some b =>
      obtain ⟨a, ha, hab⟩ := h hb
      rw [automaton?] at ha
      rw [ha, Option.map_some, Option.map_some, hab]

theorem length_allChannels (sys : System) :
    sys.allChannels.length = sys.firstTracer + sys.tracers.size := by
  rw [allChannels, List.length_append, OrderedMap.values, List.length_map]
  rfl

theorem isTracerEvent_record (sys : System) (k : Nat) (pid : ProcessId) (label : String) :
    sys.isTracerEvent (.send (sys.tracerChannel k pid) label) = true := by
  rw [isTracerEvent, Event.channel?, Option.any_some, isTracer, tracerChannel, decide_eq_true_iff]
  exact Nat.le_add_right _ _

theorem isTracerEvent_congr (h : traced.channels = sys.channels) :
    traced.isTracerEvent = sys.isTracerEvent := by
  funext e
  have htracer : traced.isTracer = sys.isTracer := by
    funext c
    show decide (traced.channels.length ≤ c.index) = decide (sys.channels.length ≤ c.index)
    rw [h]
  rw [isTracerEvent, isTracerEvent, htracer]

/-- Tracing an event concerns the automaton of its process and no other. -/
theorem traceEvent_eq_ok {k : Nat} (h : sys.traceEvent k e = .ok traced) :
    traced.channels = sys.channels ∧ traced.processes = sys.processes ∧
      ∀ pid b, traced.automaton? pid = some b →
        (pid ≠ e.pid ∧ sys.automaton? pid = some b) ∨
          (pid = e.pid ∧ ∃ a, sys.automaton? e.pid = some a ∧
            a.trace e (.send (sys.tracerChannel k e.pid) e.tracerLabel) = .ok b) := by
  rw [traceEvent] at h
  split at h
  · cases h
  · next a ha =>
    split at h
    · cases h
    · next b hb =>
      obtain rfl := Except.ok.inj h
      refine ⟨rfl, List.length_set .., fun pid c hc => ?_⟩
      rw [automaton?, List.getElem?_set] at hc
      split at hc
      · next hpid =>
        have hlt : e.pid < sys.automata.length := automaton?_lt ha
        rw [if_pos hlt] at hc
        exact .inr ⟨hpid.symm, a, ha, Option.some.inj hc ▸ hb⟩
      · next hpid => exact .inl ⟨fun heq => hpid heq.symm, hc⟩

theorem tracers_of_traceEvent {k : Nat} (h : sys.traceEvent k e = .ok traced) :
    traced.tracers = sys.tracers := by
  rw [traceEvent] at h
  split at h
  · cases h
  · split at h
    · cases h
    · rw [← Except.ok.inj h]

theorem trace_eq_ok {inv : Invariant} {index : Nat} :
    sys.trace inv = .ok (traced, index) ↔
      sys.tracers.contains inv = false ∧ (∀ e ∈ inv.events, e.pid < sys.processes) ∧
      ∃ final, inv.events.foldlM (fun t e => t.traceEvent sys.tracers.size e) sys = .ok final ∧
        ⟨final.channels, final.automata,
          sys.tracers.insert inv (sys.tracerChannel sys.tracers.size inv.first.pid)⟩ = traced ∧
        sys.firstTracer + sys.tracers.size = index := by
  have hpids : (inv.events.forM fun e => if e.pid < sys.processes then Except.ok ()
        else Except.error (SystemError.processOutOfRange e.pid sys.processes)) = .ok () ↔
      ∀ e ∈ inv.events, e.pid < sys.processes := by
    rw [forM_eq_ok]
    refine forall₂_congr fun e _ => ?_
    by_cases h : e.pid < sys.processes <;> simp [h]
  simp only [trace, error_bind, check_eq_ok, bind_eq_ok, pure_eq_ok, Prod.mk.injEq,
    Bool.not_eq_true]
  constructor
  · rintro ⟨hnew, ⟨⟩, hrange, final, hfinal, rfl, rfl⟩
    exact ⟨hnew, hpids.1 hrange, final, hfinal, rfl, rfl⟩
  · rintro ⟨hnew, hrange, final, hfinal, rfl, rfl⟩
    exact ⟨hnew, ⟨⟩, hpids.2 hrange, final, hfinal, rfl, rfl⟩

/-- What is kept when an event is traced, and does not depend on the list of the
tracers, is kept when an invariant is traced. -/
theorem trace_induction {P : System → Prop} {inv : Invariant} {index : Nat}
    (hstep : ∀ e ∈ inv.events, ∀ t t', t.traceEvent sys.tracers.size e = .ok t' → P t → P t')
    (htracers : ∀ t tracers, P t → P { t with tracers })
    (h : sys.trace inv = .ok (traced, index)) (hsys : P sys) : P traced := by
  obtain ⟨-, -, final, hfinal, rfl, -⟩ := trace_eq_ok.1 h
  exact htracers final _ (foldlM_induction hstep hfinal hsys)

theorem processes_of_trace {inv : Invariant} {index : Nat}
    (h : sys.trace inv = .ok (traced, index)) : traced.processes = sys.processes :=
  trace_induction (P := fun t => t.processes = sys.processes)
    (fun _ _ _ _ hstep ht => (traceEvent_eq_ok hstep).2.1.trans ht) (fun _ _ ht => ht) h rfl

theorem traceAll_induction {P : System → Prop} {invs : List Invariant}
    (hstep : ∀ inv ∈ invs, ∀ t t' index, t.trace inv = .ok (t', index) → P t → P t')
    (h : sys.traceAll invs = .ok traced) (hsys : P sys) : P traced := by
  refine foldlM_induction (fun inv hinv t t' htrace ht => ?_) h hsys
  obtain ⟨⟨t'', index⟩, hinv', rfl⟩ := map_eq_ok.1 htrace
  exact hstep inv hinv t t'' index hinv' ht

/-- The process can do the event in some state. -/
def Performs (sys : System) (pid : ProcessId) (e : Event) : Prop :=
  ∃ a x y, sys.automaton? pid = some a ∧ a.Step x e y

/-- The processes do what they did before, and send the record of the event. -/
theorem performs_of_traceEvent {k : Nat} {f : Event} (h : sys.traceEvent k e = .ok traced)
    (hf : traced.Performs pid f) :
    sys.Performs pid f ∨ f = .send (sys.tracerChannel k e.pid) e.tracerLabel := by
  obtain ⟨-, -, hautomata⟩ := traceEvent_eq_ok h
  obtain ⟨c, x, y, hc, hstep⟩ := hf
  rcases hautomata pid c hc with ⟨-, hold⟩ | ⟨rfl, b, hb, hbc⟩
  · exact .inl ⟨c, x, y, hold, hstep⟩
  · exact (Automaton.step_or_eq_of_trace hbc hstep).imp_left fun ⟨x', y', hold⟩ =>
      ⟨b, x', y', hb, hold⟩

/-- The processes of `traced` do what those of `sys` do, and send on tracer
channels. -/
structure AddsSends (sys traced : System) : Prop where
  channels_eq : traced.channels = sys.channels
  performs : ∀ {pid e}, traced.Performs pid e →
    sys.Performs pid e ∨ ∃ c label, e = .send c label ∧ sys.isTracerEvent e = true

namespace AddsSends

theorem refl (sys : System) : AddsSends sys sys := ⟨rfl, .inl⟩

theorem traceEvent {k : Nat} (h : AddsSends sys traced)
    (htrace : traced.traceEvent k e = .ok traced') : AddsSends sys traced' := by
  refine ⟨(traceEvent_eq_ok htrace).1.trans h.channels_eq, fun {pid f} hf => ?_⟩
  rcases performs_of_traceEvent htrace hf with hold | rfl
  · exact h.performs hold
  · refine .inr ⟨_, _, rfl, ?_⟩
    rw [← isTracerEvent_congr h.channels_eq]
    exact traced.isTracerEvent_record k e.pid e.tracerLabel

theorem trace {inv : Invariant} {index : Nat} (h : AddsSends sys traced)
    (htrace : traced.trace inv = .ok (traced', index)) : AddsSends sys traced' :=
  trace_induction (P := AddsSends sys) (fun _ _ _ _ hstep ht => ht.traceEvent hstep)
    (fun _ _ ht => ⟨ht.channels_eq, ht.performs⟩) htrace h

theorem traceAll {invs : List Invariant} (htrace : sys.traceAll invs = .ok traced) :
    AddsSends sys traced :=
  traceAll_induction (fun _ _ _ _ _ hstep h => h.trace hstep) htrace (refl sys)

end AddsSends

/-- The system `traced` comes from `sys` by tracing. -/
structure Unfolds (sys traced : System) : Prop where
  channels_eq : traced.channels = sys.channels
  processes_eq : traced.processes = sys.processes
  automaton : ∀ {pid b}, traced.automaton? pid = some b →
    ∃ a home, sys.automaton? pid = some a ∧ Automaton.Unfolds sys.isTracerEvent a b home

/-- Every automaton of the system has all the states to which it leads,
and none of its events happens on a tracer channel. -/
def IsUntraced (sys : System) : Prop :=
  ∀ pid a, sys.automaton? pid = some a →
    a.IsClosed ∧ ∀ s e t, a.Step s e t → sys.isTracerEvent e = false

namespace Unfolds

theorem refl (h : sys.IsUntraced) : Unfolds sys sys where
  channels_eq := rfl
  processes_eq := rfl
  automaton := fun {pid a} ha =>
    ⟨a, id, ha, .refl (h pid a ha).1 fun hstep => (h pid a ha).2 _ _ _ hstep⟩

theorem isTracerEvent_eq (h : Unfolds sys traced) : traced.isTracerEvent = sys.isTracerEvent :=
  isTracerEvent_congr h.channels_eq

theorem traceEvent {k : Nat} (h : Unfolds sys traced) (he : sys.isTracerEvent e = false)
    (htrace : traced.traceEvent k e = .ok traced') : Unfolds sys traced' := by
  obtain ⟨hchannels, hprocesses, hautomata⟩ := traceEvent_eq_ok htrace
  refine ⟨hchannels.trans h.channels_eq, hprocesses.trans h.processes_eq, fun {pid c} hc => ?_⟩
  rcases hautomata pid c hc with ⟨-, hc⟩ | ⟨rfl, b, hb, hbc⟩
  · exact h.automaton hc
  · have hrecord : sys.isTracerEvent (.send (traced.tracerChannel k e.pid) e.tracerLabel) =
        true := by
      rw [← h.isTracerEvent_eq]
      exact traced.isTracerEvent_record k e.pid e.tracerLabel
    obtain ⟨a, home, ha, hunfolds⟩ := h.automaton hb
    obtain ⟨home', hunfolds'⟩ := hunfolds.trace he hrecord hbc
    exact ⟨a, home', ha, hunfolds'⟩

theorem trace {inv : Invariant} {index : Nat} (h : Unfolds sys traced)
    (hinv : ∀ e ∈ inv.events, sys.isTracerEvent e = false)
    (htrace : traced.trace inv = .ok (traced', index)) : Unfolds sys traced' :=
  trace_induction (P := Unfolds sys) (fun e he _ _ hstep ht => ht.traceEvent (hinv e he) hstep)
    (fun _ _ ht => ⟨ht.channels_eq, ht.processes_eq, ht.automaton⟩) htrace h

end Unfolds

end System

end ProtocolInference
