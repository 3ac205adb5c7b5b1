import Mathlib
import ProtocolInference.Proofs.Model.Path

/-!
The model never loses an observed trace.

Changes of a graph may add words and take words away, but what was
observed is admitted by every graph that arises, and the automaton of its
process accepts it. Tracing an event replaces transitions by longer ways
between the same states, on which nothing but tracer sends is added. So a
word that was accepted before is accepted still, with such sends put in
(`System.Retains`). That holds for any event whatsoever, also for one that
is a tracer send of an invariant traced earlier; the converse, that
nothing else is accepted, needs more (`Automaton.Unfolds`).
-/

namespace ProtocolInference

/-! ### Automata -/

namespace Automaton

variable {a b : Automaton} {e f record : Event} {tracer : Event → Bool} {s t : StateId}
variable {es : List Event}

/-- A step is still there after an event has been traced, or there is a way
around it. -/
theorem exists_run_of_step (h : a.trace e record = .ok b) (hrecord : tracer record = true)
    (hstep : a.Step s f t) :
    ∃ es, b.Run s es t ∧ es.filter (!tracer ·) = [f].filter (!tracer ·) := by
  obtain ⟨states, -, -, -, -, hiff⟩ := trace_eq_ok h
  by_cases hmoved : f = e ∧ s ∈ states
  · obtain ⟨rfl, hs⟩ := hmoved
    obtain ⟨i, hi⟩ := List.mem_iff_getElem?.1 (mem_occurrences.2 ⟨hs, hstep⟩)
    have hout : b.Step s f (a.size + i) :=
      (hiff _ _ _).2 (.inr ⟨i, s, t, hi, .inl ⟨rfl, rfl, rfl⟩⟩)
    have hback : b.Step (a.size + i) record t :=
      (hiff _ _ _).2 (.inr ⟨i, s, t, hi, .inr ⟨rfl, rfl, rfl⟩⟩)
    refine ⟨[f, record], .step hout (.step hback (.stay t)), ?_⟩
    simp [List.filter_cons, hrecord]
  · exact ⟨[f], .step ((hiff _ _ _).2 (.inl ⟨hstep, hmoved⟩)) (.stay t), rfl⟩

theorem exists_run_of_trace (h : a.trace e record = .ok b) (hrecord : tracer record = true)
    (hrun : a.Run s es t) :
    ∃ es', b.Run s es' t ∧ es'.filter (!tracer ·) = es.filter (!tracer ·) := by
  induction hrun with
  | stay s => exact ⟨[], .stay s, rfl⟩
  | @step s r t f es hstep _ ih =>
      obtain ⟨way, hway, hfirst⟩ := exists_run_of_step h hrecord hstep
      obtain ⟨rest, hrest, htail⟩ := ih
      refine ⟨way ++ rest, hway.append hrest, ?_⟩
      rw [List.filter_append, hfirst, htail, ← List.filter_append, List.singleton_append]

theorem exists_accepts_of_trace (h : a.trace e record = .ok b) (hrecord : tracer record = true)
    (haccepts : a.Accepts es) :
    ∃ es', b.Accepts es' ∧ es'.filter (!tracer ·) = es.filter (!tracer ·) := by
  obtain ⟨s, t, hs, hrun, ht⟩ := haccepts
  obtain ⟨es', hrun', heq⟩ := exists_run_of_trace h hrecord hrun
  obtain ⟨-, -, -, hinitial, haccepting, -⟩ := trace_eq_ok h
  exact ⟨es', ⟨s, t, (hinitial s).trans hs, hrun', (haccepting t).trans ht⟩, heq⟩

end Automaton

/-! ### Systems -/

namespace System

variable {sys traced traced' : System} {e : Event} {inv : Invariant} {invs : List Invariant}

/-- What the automata of `sys` accept, those of `traced` accept with tracer
sends put in. -/
structure Retains (sys traced : System) : Prop where
  channels_eq : traced.channels = sys.channels
  processes_eq : traced.processes = sys.processes
  accepts : ∀ {pid a b es}, sys.automaton? pid = some a → traced.automaton? pid = some b →
    a.Accepts es → ∃ es', b.Accepts es' ∧ sys.withoutTracers es' = sys.withoutTracers es

namespace Retains

theorem refl (sys : System) : Retains sys sys where
  channels_eq := rfl
  processes_eq := rfl
  accepts ha hb haccepts := by
    obtain rfl := Option.some.inj (ha.symm.trans hb)
    exact ⟨_, haccepts, rfl⟩

theorem traceEvent {k : Nat} (h : Retains sys traced)
    (htrace : traced.traceEvent k e = .ok traced') : Retains sys traced' := by
  obtain ⟨hchannels, hprocesses, hautomata⟩ := traceEvent_eq_ok htrace
  refine ⟨hchannels.trans h.channels_eq, hprocesses.trans h.processes_eq, ?_⟩
  intro pid a c es ha hc haccepts
  rcases hautomata pid c hc with ⟨-, hb⟩ | ⟨rfl, b, hb, hbc⟩
  · exact h.accepts ha hb haccepts
  · obtain ⟨es', haccepts', heq⟩ := h.accepts ha hb haccepts
    have hrecord : sys.isTracerEvent (.send (traced.tracerChannel k e.pid) e.tracerLabel) =
        true := by
      rw [← isTracerEvent_congr h.channels_eq]
      exact traced.isTracerEvent_record k e.pid e.tracerLabel
    obtain ⟨es'', haccepts'', heq'⟩ :=
      Automaton.exists_accepts_of_trace hbc hrecord haccepts'
    exact ⟨es'', haccepts'', heq'.trans heq⟩

theorem trace {index : Nat} (h : Retains sys traced)
    (htrace : traced.trace inv = .ok (traced', index)) : Retains sys traced' := by
  obtain ⟨-, -, final, hfinal, rfl, -⟩ := trace_eq_ok.1 htrace
  have key : Retains sys final :=
    foldlM_induction (P := Retains sys) (fun _ _ _ _ hstep h => h.traceEvent hstep) hfinal h
  exact ⟨key.channels_eq, key.processes_eq, key.accepts⟩

end Retains

end System

/-! ### Models of graphs -/

namespace Model

variable {m traced : Model} {invs : List Invariant} {g : PartitionGraph}
variable {channels : List Channel} {pid : ProcessId} {a : Automaton} {es : List Event}

theorem retains_of_traceAll (h : m.traceAll invs = .ok traced) :
    m.system.Retains traced.system := by
  refine foldlM_induction (P := fun m' => m.system.Retains m'.system)
    (fun inv _ t t' hstep ht => ?_) h (.refl m.system)
  obtain ⟨⟨t'', index⟩, htrace, rfl⟩ := map_eq_ok.1 hstep
  obtain ⟨sys, hsys, rfl⟩ := trace_eq_ok.1 htrace
  exact ht.trace hsys

/-- Whatever the automaton of a process accepts in a model, it still accepts
after any tracing, with tracer sends put in. -/
theorem Mirrors.exists_accepts_of_traceAll (h : m.Mirrors g channels)
    (htrace : m.traceAll invs = .ok traced) (ha : m.system.automaton? pid = some a)
    (haccepts : a.Accepts es) :
    ∃ b es', traced.system.automaton? pid = some b ∧ b.Accepts es' ∧
      traced.system.withoutTracers es' = es := by
  have hretains := retains_of_traceAll htrace
  have hpid : pid < traced.system.processes := hretains.processes_eq ▸ System.automaton?_lt ha
  obtain ⟨b, hb⟩ := System.automaton?_of_lt hpid
  obtain ⟨hclosed, hevents⟩ := h.isUntraced pid a ha
  have hunfolds := Automaton.Unfolds.refl hclosed fun hstep => hevents _ _ _ hstep
  obtain ⟨es₀, haccepts₀, rfl⟩ := hunfolds.accepts_iff.2 haccepts
  obtain ⟨es', haccepts', heq⟩ := hretains.accepts ha hb haccepts₀
  refine ⟨b, es', hb, haccepts', ?_⟩
  rw [System.withoutTracers, System.isTracerEvent_congr hretains.channels_eq]
  exact heq

end Model

/-- **No observed trace is lost.** In the model of a graph, however the graph
has been changed since it was built, the automaton of each process accepts
every trace that was observed of the process. After any tracing it does so
with tracer sends put in. -/
theorem observed_is_accepted {executions : List Execution} {processes : Nat}
    {channels channels' : List Channel} {g : PartitionGraph} {m : Model} {t : ProcessTrace}
    (h : PartitionGraph.Arises executions processes channels g)
    (hmodel : g.model channels' = .ok m) (ht : t ∈ executions.flatMap (·.processes)) :
    ∃ a, m.system.automaton? t.pid = some a ∧ a.Accepts (t.events.map (·.event)) ∧
      ∀ invs traced, m.traceAll invs = .ok traced →
        ∃ b es, traced.system.automaton? t.pid = some b ∧ b.Accepts es ∧
          traced.system.withoutTracers es = t.events.map (·.event) := by
  have hmirrors := h.valid.mirrors_model hmodel
  obtain ⟨a, ha⟩ := System.automaton?_of_lt (hmirrors.processes_eq.symm ▸ h.pid_lt ht)
  have hobserved : g.Observed t.pid (t.events.map (·.event)) :=
    (h.observes.observed_iff _ _).2 ⟨t, ht, rfl, rfl⟩
  have haccepts : a.Accepts (t.events.map (·.event)) :=
    ((hmirrors.automaton t.pid a ha).1.accepts_iff h.valid).2 (h.valid.admits_of_observed hobserved)
  exact ⟨a, ha, haccepts, fun invs traced htrace =>
    hmirrors.exists_accepts_of_traceAll htrace ha haccepts⟩

/-- `x AFby y`, and an invariant about the record of `x` itself. -/
def nestedInvariants : List Invariant :=
  [⟨.alwaysFollowedBy, .internal 0 "x", .internal 0 "y", none⟩,
    ⟨.alwaysFollowedBy, .send ⟨0, 0, 0, some "tracer0"⟩ "x_p0", .internal 0 "y", none⟩]

open PartitionGraph in
theorem loopSplit_observed_is_accepted :
    ∃ m traced b es, loopSplit.model [] = .ok m ∧ m.traceAll nestedInvariants = .ok traced ∧
      traced.system.automaton? 0 = some b ∧ b.Accepts es ∧
      traced.system.withoutTracers es = [.internal 0 "x", .internal 0 "x", .internal 0 "y"] := by
  have hok : (loopSplit.model [] >>= fun m =>
      m.traceAll nestedInvariants).map (fun _ => ()) = .ok () := by cbv
  obtain ⟨traced, h, -⟩ := map_eq_ok.1 hok
  obtain ⟨m, hmodel, htrace⟩ := bind_eq_ok.1 h
  obtain ⟨a, -, -, hall⟩ := observed_is_accepted arises_loopSplit hmodel (.head _)
  obtain ⟨b, es, hb, haccepts, hes⟩ := hall _ _ htrace
  exact ⟨m, traced, b, es, hmodel, htrace, hb, haccepts, hes⟩

end ProtocolInference
