import ProtocolInference.Model
import ProtocolInference.Proofs.Partition.Behaviour
import ProtocolInference.Proofs.Partition.Recount
import ProtocolInference.Proofs.System.Draft
import ProtocolInference.Proofs.System.Tracing

/-!
The model of a graph does what the graph does.

An automaton *mirrors* a process of a graph if its states stand for the
partitions of the process, in their order, and its steps for the edges
between them. The automata that a model is put together from do so, and
a word is then accepted by the automaton exactly if the process admits
it (`Mirrors.accepts_iff`).

Besides, the channels of a model are numbered by position, and its events
happen on these channels only. So no event of a model can be mistaken for
one that tracing inserts.
-/

namespace ProtocolInference

namespace PartitionGraph

variable {g : PartitionGraph} {pid pid' : ProcessId} {a : Automaton} {p q : PartitionId}
variable {s t : StateId} {e : Event}

/-- The numbers of the partitions of a process. -/
def idsOf (g : PartitionGraph) (pid : ProcessId) : List PartitionId :=
  (g.partitionsOf pid).map (·.id)

theorem mem_idsOf : p ∈ g.idsOf pid ↔ ∃ part ∈ g.partitions, part.pid = pid ∧ part.id = p := by
  rw [idsOf, List.mem_map]
  simp only [partitionsOf, List.mem_filter, decide_eq_true_eq, and_assoc]

theorem Coherent.nodup_idsOf (h : g.Coherent) (pid : ProcessId) : (g.idsOf pid).Nodup :=
  h.ids_nodup.sublist (List.filter_sublist.map _)

theorem Coherent.mem_idsOf_iff (h : g.Coherent) :
    p ∈ g.idsOf pid ↔ g.isPartitionOf pid p = true := by
  rw [mem_idsOf, isPartitionOf, Option.any_eq_true]
  constructor
  · rintro ⟨part, hmem, hpid, rfl⟩
    exact ⟨part, h.partition?_of_mem hmem, decide_eq_true hpid⟩
  · rintro ⟨part, hpart, hpid⟩
    obtain ⟨hmem, hid⟩ := partition?_eq_some hpart
    exact ⟨part, hmem, of_decide_eq_true hpid, hid⟩

theorem Coherent.pid_unique (h : g.Coherent) (hp : p ∈ g.idsOf pid) (hp' : p ∈ g.idsOf pid') :
    pid = pid' := by
  rw [h.mem_idsOf_iff, isPartitionOf, Option.any_eq_true] at hp hp'
  obtain ⟨part, hpart, hpid⟩ := hp
  obtain ⟨part', hpart', hpid'⟩ := hp'
  obtain rfl := Option.some.inj (hpart.symm.trans hpart')
  exact (of_decide_eq_true hpid).symm.trans (of_decide_eq_true hpid')

theorem Valid.mem_idsOf_of_hasEdge (h : g.Valid) (hp : p ∈ g.idsOf pid)
    (hedge : g.hasEdge p e q = true) : q ∈ g.idsOf pid := by
  rw [h.coherent.mem_idsOf_iff] at hp ⊢
  exact h.isPartitionOf_of_hasEdge hp hedge

/-! ### The automaton of a process -/

/-- The automaton does what the process of the graph does. -/
structure Mirrors (g : PartitionGraph) (pid : ProcessId) (a : Automaton) : Prop where
  pid_eq : a.pid = pid
  size_eq : a.size = (g.idsOf pid).length
  isInitial_iff : ∀ s, a.isInitial s = true ↔
    ∃ p, (g.idsOf pid)[s]? = some p ∧ g.isInitial p = true
  isAccepting_iff : ∀ s, a.isAccepting s = true ↔
    ∃ p, (g.idsOf pid)[s]? = some p ∧ g.isTerminal p = true
  step_iff : ∀ s e t, a.Step s e t ↔
    ∃ p q, (g.idsOf pid)[s]? = some p ∧ (g.idsOf pid)[t]? = some q ∧ g.hasEdge p e q = true

theorem states_foldl_addState (a : Automaton) (ps : List Partition) :
    (ps.foldl (fun a p => a.addState (g.isInitial p.id) (g.isTerminal p.id)) a).states =
      a.states ++ ps.map fun p => ⟨g.isInitial p.id, g.isTerminal p.id, ∅⟩ := by
  induction ps generalizing a with
  | nil => simp
  | cons p ps ih =>
      rw [List.foldl_cons, ih, Automaton.addState]
      simp

theorem pid_foldl_addState (a : Automaton) (ps : List Partition) :
    (ps.foldl (fun a p => a.addState (g.isInitial p.id) (g.isTerminal p.id)) a).pid = a.pid := by
  induction ps generalizing a with
  | nil => rfl
  | cons p ps ih =>
      rw [List.foldl_cons, ih]
      rfl

theorem state?_automatonStates (g : PartitionGraph) (pid : ProcessId) (s : StateId) :
    (g.automatonStates pid).state? s =
      ((g.idsOf pid)[s]?).map fun p => ⟨g.isInitial p, g.isTerminal p, ∅⟩ := by
  rw [Automaton.state?, automatonStates, states_foldl_addState, idsOf]
  simp [Automaton.empty, Function.comp_def]

theorem size_automatonStates (g : PartitionGraph) (pid : ProcessId) :
    (g.automatonStates pid).size = (g.idsOf pid).length := by
  rw [Automaton.size, automatonStates, states_foldl_addState, idsOf]
  simp [Automaton.empty]

/-- Where a partition stands that none of the earlier processes has. -/
theorem findState_append {known : List (List PartitionId)} {ids : List PartitionId}
    (hnodup : ids.Nodup) (hknown : ∀ ids' ∈ known, q ∉ ids') :
    findState (known ++ [ids]) q = some t ↔ ids[t]? = some q := by
  have hnone : known.findSome? (·.idxOf? q) = none :=
    List.findSome?_eq_none_iff.2 fun ids' hids' => List.idxOf?_eq_none_iff.2 (hknown ids' hids')
  rw [findState, List.findSome?_append, hnone, Option.none_or, List.findSome?_singleton,
    List.idxOf?_eq_some_iff, List.getElem?_eq_some_iff]
  refine exists_congr fun ht => and_iff_left_of_imp fun heq j hj hj' => ?_
  exact Nat.ne_of_lt hj ((List.Nodup.getElem_inj_iff hnodup).1 (hj'.trans heq.symm))

theorem mem_automatonTransitions {known : List (List PartitionId)} {ids : List PartitionId}
    {transitions : List (StateId × Event × StateId)}
    (h : g.automatonTransitions known ids = .ok transitions) :
    (s, e, t) ∈ transitions ↔
      ∃ p q, ids[s]? = some p ∧ g.hasEdge p e q = true ∧ findState known q = some t := by
  rw [mem_of_mapM_eq_ok h]
  constructor
  · rintro ⟨⟨s', e', q⟩, hmem, hok⟩
    obtain ⟨⟨p, s''⟩, hp, hrow⟩ := List.mem_flatMap.1 hmem
    obtain ⟨⟨e'', q'⟩, hedge, heq⟩ := List.mem_map.1 hrow
    obtain ⟨rfl, rfl, rfl⟩ : s'' = s' ∧ e'' = e' ∧ q' = q := by
      simpa using heq
    dsimp only at hok
    split at hok
    · next t' ht' =>
      obtain ⟨rfl, rfl, rfl⟩ : s'' = s ∧ e'' = e ∧ t' = t := by
        simpa using hok
      exact ⟨p, q', List.mem_zipIdx_iff_getElem?.1 hp, mem_edgesFrom.1 hedge, ht'⟩
    · cases hok
  · rintro ⟨p, q, hp, hedge, ht⟩
    refine ⟨(s, e, q), List.mem_flatMap.2 ⟨(p, s), List.mem_zipIdx_iff_getElem?.2 hp, ?_⟩, ?_⟩
    · exact List.mem_map.2 ⟨(e, q), mem_edgesFrom.2 hedge, rfl⟩
    · simp [ht]

/-- The automaton that a model has for a process, if the processes before
are others. -/
theorem Valid.mirrors_automatonOf (h : g.Valid) {before : List ProcessId} (hpid : pid ∉ before)
    (ha : g.automatonOf (before.map g.idsOf) pid = .ok a) : g.Mirrors pid a := by
  obtain ⟨transitions, htransitions, hok⟩ := bind_eq_ok.1 ha
  obtain rfl := pure_eq_ok.1 hok
  have hc := h.coherent
  have hfind {q : PartitionId} {t : StateId} (hq : q ∈ g.idsOf pid) :
      findState (before.map g.idsOf ++ [g.idsOf pid]) q = some t ↔
        (g.idsOf pid)[t]? = some q := by
    refine findState_append (hc.nodup_idsOf pid) fun ids hids hmem => ?_
    obtain ⟨pid', hpid', rfl⟩ := List.mem_map.1 hids
    exact hpid (hc.pid_unique hq hmem ▸ hpid')
  have hsources : ∀ x ∈ transitions, x.1 < (g.automatonStates pid).size := by
    rintro ⟨s, e, t⟩ hmem
    obtain ⟨p, -, hp, -⟩ := (mem_automatonTransitions htransitions).1 hmem
    rw [size_automatonStates]
    exact (List.getElem?_eq_some_iff.1 hp).1
  constructor
  case pid_eq =>
    rw [Automaton.pid_foldl_addTransition, automatonStates, pid_foldl_addState]
    rfl
  case size_eq => rw [Automaton.size_foldl_addTransition, size_automatonStates]
  case isInitial_iff =>
    intro s
    rw [Automaton.isInitial_foldl_addTransition, Automaton.isInitial, state?_automatonStates]
    simp [Option.any_map, Option.any_eq_true]
  case isAccepting_iff =>
    intro s
    rw [Automaton.isAccepting_foldl_addTransition, Automaton.isAccepting, state?_automatonStates]
    simp [Option.any_map, Option.any_eq_true]
  case step_iff =>
    intro s e t
    have hnone : ¬ (g.automatonStates pid).Step s e t := by
      rw [Automaton.step_iff, state?_automatonStates]
      rintro ⟨st, hst, ht⟩
      obtain ⟨p, -, rfl⟩ := Option.map_eq_some_iff.1 hst
      obtain ⟨ts, hts, -⟩ := AutomatonState.mem_targets_iff.1 ht
      cases hts
    rw [Automaton.step_foldl_addTransition hsources, or_iff_right hnone,
      mem_automatonTransitions htransitions]
    refine exists_congr fun p => exists_congr fun q => and_congr_right fun hp => ?_
    rw [and_comm]
    refine and_congr_left fun hedge => hfind ?_
    exact h.mem_idsOf_of_hasEdge (List.mem_of_getElem? hp) hedge

/-! ### Its language -/

namespace Mirrors

theorem closed (h : g.Mirrors pid a) : a.IsClosed := by
  intro s e t hstep
  obtain ⟨p, q, -, hq, -⟩ := (h.step_iff s e t).1 hstep
  rw [h.size_eq]
  exact (List.getElem?_eq_some_iff.1 hq).1

theorem run_iff {es : List Event} (h : g.Mirrors pid a) (hv : g.Valid)
    (hp : (g.idsOf pid)[s]? = some p) :
    a.Run s es t ↔ ∃ q, (g.idsOf pid)[t]? = some q ∧ g.Walk p es q := by
  constructor
  · intro hrun
    induction hrun generalizing p with
    | stay s => exact ⟨p, hp, .stay p⟩
    | step hstep _ ih =>
        obtain ⟨p', q, hp', hq, hedge⟩ := (h.step_iff _ _ _).1 hstep
        obtain rfl := Option.some.inj (hp.symm.trans hp')
        obtain ⟨r, hr, hwalk⟩ := ih hq
        exact ⟨r, hr, .step hedge hwalk⟩
  · rintro ⟨q, hq, hwalk⟩
    induction hwalk generalizing s with
    | stay p =>
        obtain ⟨hs, hsp⟩ := List.getElem?_eq_some_iff.1 hp
        obtain ⟨ht, htp⟩ := List.getElem?_eq_some_iff.1 hq
        obtain rfl : s = t :=
          (List.Nodup.getElem_inj_iff (hv.coherent.nodup_idsOf pid)).1 (hsp.trans htp.symm)
        exact .stay s
    | @step p q' r e es hedge _ ih =>
        have hmem := hv.mem_idsOf_of_hasEdge (List.mem_of_getElem? hp) hedge
        obtain ⟨u, hu⟩ := List.mem_iff_getElem?.1 hmem
        exact .step ((h.step_iff _ _ _).2 ⟨p, q', hp, hu, hedge⟩) (ih hu hq)

/-- The automaton accepts what the process admits. -/
theorem accepts_iff {es : List Event} (h : g.Mirrors pid a) (hv : g.Valid) :
    a.Accepts es ↔ g.Admits pid es := by
  constructor
  · rintro ⟨s, t, hs, hrun, ht⟩
    obtain ⟨p, hp, hinitial⟩ := (h.isInitial_iff s).1 hs
    obtain ⟨q, hq, hterminal⟩ := (h.isAccepting_iff t).1 ht
    obtain ⟨q', hq', hwalk⟩ := (h.run_iff hv hp).1 hrun
    obtain rfl := Option.some.inj (hq.symm.trans hq')
    exact ⟨p, q, hv.coherent.mem_idsOf_iff.1 (List.mem_of_getElem? hp), hinitial, hwalk, hterminal⟩
  · rintro ⟨p, q, hp, hinitial, hwalk, hterminal⟩
    have hmem := hv.coherent.mem_idsOf_iff.2 hp
    obtain ⟨s, hs⟩ := List.mem_iff_getElem?.1 hmem
    have hmem' : q ∈ g.idsOf pid := by
      clear hinitial hterminal hs hp
      induction hwalk with
      | stay => exact hmem
      | step hedge _ ih => exact ih (hv.mem_idsOf_of_hasEdge hmem hedge)
    obtain ⟨t, ht⟩ := List.mem_iff_getElem?.1 hmem'
    exact ⟨s, t, (h.isInitial_iff s).2 ⟨p, hs, hinitial⟩, (h.run_iff hv hs).2 ⟨q, ht, hwalk⟩,
      (h.isAccepting_iff t).2 ⟨q, ht, hterminal⟩⟩

end Mirrors

end PartitionGraph

/-! ### The model of a graph -/

/-- The model is put together from automata that mirror the processes of the
graph, over the given channels, and nothing in it is traced. -/
structure Model.Mirrors (m : Model) (g : PartitionGraph) (channels : List Channel) : Prop where
  channels_eq : m.system.channels = channels
  tracers_eq : m.system.tracers = ∅
  processes_eq : m.system.processes = g.processes
  partitions_eq : m.partitions = (List.range g.processes).map g.idsOf
  index_eq : ∀ (i : Nat) (c : Channel), channels[i]? = some c → c.index = i
  automaton : ∀ pid a, m.system.automaton? pid = some a →
    g.Mirrors pid a ∧ ∀ e ∈ a.alphabet, e.IsOn channels

namespace PartitionGraph

theorem Valid.draftFrom_eq_ok {g : PartitionGraph} (hv : g.Valid) {before pids : List ProcessId}
    {draft draft' : Draft} {partitions : List (List PartitionId)}
    (hnodup : (before ++ pids).Nodup)
    (hdraft : ∀ a ∈ draft.automata, g.Mirrors a.pid a ∧ ∀ e ∈ a.alphabet, e.IsOn draft.channels)
    (h : g.draftFrom draft (before.map g.idsOf) pids = .ok (draft', partitions)) :
    draft'.processes = draft.processes ∧ draft'.channels = draft.channels ∧
      partitions = (before ++ pids).map g.idsOf ∧
      ∀ a ∈ draft'.automata, g.Mirrors a.pid a ∧ ∀ e ∈ a.alphabet, e.IsOn draft.channels := by
  induction pids generalizing before draft with
  | nil =>
      obtain ⟨rfl, rfl⟩ := Prod.mk.inj (Except.ok.inj h)
      exact ⟨rfl, rfl, by rw [List.append_nil], hdraft⟩
  | cons pid pids ih =>
      simp only [draftFrom, bind_eq_ok, mapError_eq_ok] at h
      obtain ⟨a, ha, next, hadd, h⟩ := h
      obtain ⟨rfl, -, -, hevents⟩ := Draft.add_eq_ok hadd
      have hnew : pid ∉ before := fun hmem =>
        (List.nodup_append.1 hnodup).2.2 pid hmem pid List.mem_cons_self rfl
      have hmirrors : g.Mirrors pid a := hv.mirrors_automatonOf hnew ha
      have happend : before ++ pid :: pids = (before ++ [pid]) ++ pids := by simp
      have hknown : before.map g.idsOf ++ [(g.partitionsOf pid).map (·.id)] =
          (before ++ [pid]).map g.idsOf := by simp [idsOf]
      rw [hknown] at h
      rw [happend] at hnodup ⊢
      have hdraft' : ∀ b ∈ draft.automata ++ [a],
          g.Mirrors b.pid b ∧ ∀ e ∈ b.alphabet, e.IsOn draft.channels := by
        intro b hb
        rcases List.mem_append.1 hb with hb | hb
        · exact hdraft b hb
        · obtain rfl := List.mem_singleton.1 hb
          exact ⟨hmirrors.pid_eq ▸ hmirrors, hevents⟩
      exact @ih _ { draft with automata := draft.automata ++ [a] } hnodup hdraft' h

/-- The model of a graph mirrors it. -/
theorem Valid.mirrors_model {g : PartitionGraph} (hv : g.Valid) {channels : List Channel}
    {m : Model} (h : g.model channels = .ok m) : m.Mirrors g channels := by
  simp only [model, bind_eq_ok, mapError_eq_ok] at h
  obtain ⟨⟨draft, partitions⟩, hdraft, sys, hsys, hok⟩ := h
  obtain rfl := pure_eq_ok.1 hok
  have hnodup : ([] ++ List.range g.processes).Nodup := List.nodup_range
  obtain ⟨hprocesses, hchannels, hpartitions, hautomata⟩ :=
    hv.draftFrom_eq_ok hnodup (fun _ h => absurd h List.not_mem_nil) hdraft
  obtain ⟨hchannels', htracers, hprocesses', hindex, hlookup⟩ := Draft.finish_eq_ok hsys
  constructor
  case channels_eq => exact hchannels'.trans hchannels
  case tracers_eq => exact htracers
  case processes_eq => exact hprocesses'.trans hprocesses
  case partitions_eq => exact hpartitions
  case index_eq =>
    rw [hchannels] at hindex
    exact hindex
  case automaton =>
    intro pid a ha
    obtain ⟨hmem, rfl⟩ := Draft.automaton?_eq_some (hlookup pid a ha)
    exact hautomata a hmem

end PartitionGraph

namespace Model.Mirrors

variable {m : Model} {g : PartitionGraph} {channels : List Channel} {e : Event}

theorem isTracerEvent_eq_false (h : m.Mirrors g channels) (he : e.IsOn channels) :
    m.system.isTracerEvent e = false := by
  obtain rfl := h.channels_eq
  exact System.isTracerEvent_eq_false h.index_eq he

theorem isUntraced (h : m.Mirrors g channels) : m.system.IsUntraced := by
  intro pid a ha
  obtain ⟨hmirrors, hevents⟩ := h.automaton pid a ha
  exact ⟨hmirrors.closed, fun s e t hstep =>
    h.isTracerEvent_eq_false (hevents e hstep.mem_alphabet)⟩

end Model.Mirrors

end ProtocolInference
