import ProtocolInference.Proofs.Model.Existence
import ProtocolInference.Proofs.System.Progress
import ProtocolInference.Proofs.Trace.Resolution

/-!
What is accepted does not fail later on.

The checks of a trace document are not the last ones. The first graph
refuses traces of processes that there are not, a draft refuses automata
whose events speak of unknown processes or channels, a system is finished
only over channels in their places, and tracing refuses invariants on
events of unknown processes. None of these looks at the document, and
each may be reached by a graph that has been merged and split many times.

A document that is accepted passes them all. The link is the arena: no
change of a graph touches it, so the event of an edge is always one that
was observed, and the observed events fit the system.
-/

namespace ProtocolInference

theorem TraceLog.WellFormed.fits {log : TraceLog} (h : log.WellFormed) :
    ∀ t ∈ log.resolved.flatMap (·.processes), t.pid < log.processes ∧
      ∀ e ∈ t.events, e.event.Fits log.processes log.channels := by
  intro t ht
  obtain ⟨x, hx, ht⟩ := List.mem_flatMap.1 ht
  obtain ⟨spec, hspec, rfl⟩ := List.mem_map.1 hx
  obtain ⟨trace, htrace, rfl⟩ := List.mem_map.1 ht
  have hwf := (h.executions spec hspec).traces trace htrace
  refine ⟨hwf.pid_lt, fun e he => ?_⟩
  obtain ⟨event, hevent, rfl⟩ := List.mem_map.1 he
  obtain ⟨hdeclared, howned⟩ := hwf.events event hevent
  refine ⟨lt_of_eq_of_lt howned hwf.pid_lt, fun c hc => ?_⟩
  have hmem : c ∈ log.channels := by
    cases hspec : event.event with
    | internal pid name =>
        rw [hspec] at hc
        cases hc
    | send index payload =>
        rw [hspec] at hc hdeclared
        have hlt := hdeclared index rfl
        obtain rfl : log.channels.getD index default = c := Option.some.inj hc
        simp [hlt]
    | receive index payload =>
        rw [hspec] at hc hdeclared
        have hlt := hdeclared index rfl
        obtain rfl : log.channels.getD index default = c := Option.some.inj hc
        simp [hlt]
  exact ⟨hmem, h.endpoints c hmem⟩

namespace PartitionGraph

variable {executions : List Execution} {processes : Nat} {channels : List Channel}
variable {g : PartitionGraph} {traces : List ProcessTrace} {e : Event}

theorem Observes.mem_events (h : g.Observes traces) {s s' : ObservationId}
    (hnext : g.next? s = some (e, s')) : ∃ t ∈ traces, ∃ te ∈ t.events, te.event = e := by
  have hs : s < g.observations.length := lt_of_next? hnext
  obtain ⟨t, ht, here, hrecords, i, hi, rfl⟩ := h.covered s hs
  rw [next?_of_records hrecords hi, Option.map_eq_some_iff] at hnext
  obtain ⟨te, hte, heq⟩ := hnext
  exact ⟨t, ht, te, List.mem_of_getElem? hte, (Prod.mk.inj heq).1⟩

theorem Arises.mem_events (h : Arises executions processes channels g) {p q : PartitionId}
    (hedge : g.hasEdge p e q = true) :
    ∃ t ∈ executions.flatMap (·.processes), ∃ te ∈ t.events, te.event = e := by
  obtain ⟨s, s', hnext, -, -⟩ := h.valid.hasEdge_iff.1 hedge
  exact h.observes.mem_events hnext

theorem exists_ofExecutions
    (h : ∀ t ∈ executions.flatMap (·.processes), t.pid < processes)
    (how : InitialPartitioning) (names : StateNames) :
    ∃ g names', ofExecutions executions processes channels how names = .ok (g, names') := by
  exact ⟨_, _, ofExecutions_eq_ok.2 ⟨h, rfl, rfl⟩⟩

end PartitionGraph

/-- A graph of an accepted document has a model, in which nothing is traced
and everything can be. -/
theorem TraceLog.WellFormed.exists_model {log : TraceLog} (h : log.WellFormed)
    {g : PartitionGraph}
    (hg : PartitionGraph.Arises log.resolved log.processes log.channels g) :
    ∃ m, g.model log.channels = .ok m ∧ m.Mirrors g log.channels ∧ m.system.IsClosed := by
  have hfits : ∀ p e q, g.hasEdge p e q = true → e.Fits g.processes log.channels := by
    intro p e q hedge
    obtain ⟨t, ht, te, hte, rfl⟩ := hg.mem_events hedge
    rw [hg.system_eq.1]
    exact (h.fits t ht).2 te hte
  obtain ⟨m, hm⟩ := hg.valid.exists_model h.index_eq hfits
  have hmirrors := hg.valid.mirrors_model hm
  refine ⟨m, hm, hmirrors, fun a ha => ?_⟩
  obtain ⟨pid, hpid⟩ := List.mem_iff_getElem?.1 ha
  exact (hmirrors.automaton pid a hpid).1.closed

/-- **Accepted traces never fail later.** They have a first graph, however the
observations are grouped and named. Whatever operations succeed on the
graph, it has a model with one automaton for each process, and in this
model any number of different invariants can be traced one after the
other, as long as their events belong to processes of the system. The
tracer channels are numbered on from the real ones. -/
theorem accepted_never_fails {log : TraceLog} {executions : List Execution}
    (h : log.resolve = .ok executions) :
    (∀ how names, ∃ g names',
      PartitionGraph.ofExecutions executions log.processes log.channels how names =
        .ok (g, names')) ∧
    ∀ g, PartitionGraph.Arises executions log.processes log.channels g →
      ∃ m, g.model g.channels = .ok m ∧ m.system.processes = log.processes ∧
        (∀ pid < log.processes, ∃ a, m.system.automaton? pid = some a ∧ a.pid = pid) ∧
        ∀ invs : List Invariant, invs.Nodup →
          (∀ inv ∈ invs, ∀ e ∈ inv.events, e.pid < log.processes) →
          ∃ traced, m.traceAll invs = .ok traced ∧
            ∀ k inv, invs[k]? = some inv → ∃ before after,
              m.traceAll (invs.take k) = .ok before ∧
              before.trace inv = .ok (after, log.channels.length + k) := by
  obtain ⟨hlog, rfl⟩ := TraceLog.resolve_eq_ok.1 h
  refine ⟨PartitionGraph.exists_ofExecutions fun t ht => (hlog.fits t ht).1, fun g hg => ?_⟩
  obtain ⟨hprocesses, hchannels⟩ := hg.system_eq
  obtain ⟨m, hm, hmirrors, hclosed⟩ := hlog.exists_model hg
  have hcount : m.system.processes = log.processes := hmirrors.processes_eq.trans hprocesses
  have hfirst : m.system.firstTracer = log.channels.length :=
    congrArg List.length hmirrors.channels_eq
  refine ⟨m, by rw [hchannels, hm], hcount, fun pid hpid => ?_, fun invs hnodup hevents => ?_⟩
  · obtain ⟨a, ha⟩ := System.automaton?_of_lt (hcount ▸ hpid)
    exact ⟨a, ha, (hmirrors.automaton pid a ha).1.pid_eq⟩
  · rw [← hcount] at hevents
    obtain ⟨traced, htraced, -⟩ :=
      Model.exists_traceAll hclosed hmirrors.tracers_eq hnodup hevents
    refine ⟨traced, htraced, fun k inv hk => ?_⟩
    have hinv : inv ∈ invs := List.mem_of_getElem? hk
    have hlt : k < invs.length := (List.getElem?_eq_some_iff.1 hk).1
    obtain ⟨before, hbefore, htraced⟩ :=
      Model.exists_traceAll hclosed hmirrors.tracers_eq (hnodup.sublist (List.take_sublist k invs))
        fun inv hinv => hevents inv (List.mem_of_mem_take hinv)
    have hnew : inv ∉ invs.take k := by
      have hnext := hnodup.sublist (List.take_sublist (k + 1) invs)
      rw [List.take_add_one, hk, List.nodup_append] at hnext
      exact fun hmem => hnext.2.2 inv hmem inv List.mem_cons_self rfl
    obtain ⟨after, hafter, -⟩ := htraced.exists_trace hnew (hevents inv hinv)
    rw [hfirst, List.length_take, Nat.min_eq_left (Nat.le_of_lt hlt)] at hafter
    exact ⟨before, after, hbefore, hafter⟩

/-! ### A message that is passed on -/

/-- The channel from the first process to the second. -/
def relayChannel : Channel := ⟨0, 1, 0, some "relay"⟩

/-- A document of two executions: a message is sent and received, and nothing
happens at all. -/
def relayLog : TraceLog :=
  ⟨2, [relayChannel],
    [⟨[⟨0, none, [⟨.send 0 "go", 2⟩]⟩, ⟨1, some ["idle", "done"], [⟨.receive 0 "go", 5⟩]⟩]⟩,
      ⟨[⟨1, none, []⟩]⟩]⟩

/-- An invariant between the processes, and one about the sends with which the
first is traced. -/
def relayInvariants : List Invariant :=
  [⟨.alwaysPrecedes, .send relayChannel "go", .receive relayChannel "go", none⟩,
    ⟨.eventually, .internal 0 "", .send ⟨0, 0, 1, some "tracer0"⟩ "go_c0s", none⟩]

theorem relay_never_fails :
    relayLog.resolve = .ok relayLog.resolved ∧
      ∃ g names', PartitionGraph.ofExecutions relayLog.resolved 2 [relayChannel] .byStateName
          .standard = .ok (g, names') ∧
        ∃ m, g.model g.channels = .ok m ∧ m.system.processes = 2 ∧
          ∃ traced before after, m.traceAll relayInvariants = .ok traced ∧
            m.traceAll (relayInvariants.take 1) = .ok before ∧
            before.trace relayInvariants[1] = .ok (after, 2) := by
  have hlog : relayLog.resolve = .ok relayLog.resolved := rfl
  obtain ⟨hbuilt, hmodels⟩ := accepted_never_fails hlog
  obtain ⟨g, names', hg⟩ := hbuilt .byStateName .standard
  obtain ⟨m, hm, hprocesses, -, htrace⟩ := hmodels g (.built hg)
  obtain ⟨traced, htraced, hindices⟩ := htrace relayInvariants (by decide) (by decide)
  obtain ⟨before, after, hbefore, hafter⟩ := hindices 1 relayInvariants[1] rfl
  exact ⟨hlog, g, names', hg, m, hm, hprocesses, traced, before, after, htraced, hbefore, hafter⟩

end ProtocolInference
