import ProtocolInference.Proofs.Except
import ProtocolInference.Trace.WellFormed

/-!
What it takes for a trace document to be accepted.

The validation of a document runs through channels, executions, traces and
events in order. For each of its functions there is a lemma here that says
when it succeeds and what it returns, in terms of the conditions that
`TraceLog.WellFormed` names, and free of the order of the checks. They come
together in `TraceLog.resolve_eq_ok`: a document is accepted if and only if
it is well formed, and what is returned is the document itself with
channels in place of indices.
-/

namespace ProtocolInference

/-! ### Events -/

section Events

variable {channels : List Channel}
  (hindex : ∀ (i : Nat) (c : Channel), channels[i]? = some c → c.index = i)
include hindex

/-- Where channels stand at the positions of their indices, looking for an
index is looking at a position. -/
theorem find?_index_eq_getElem? (index : Nat) :
    channels.find? (·.index = index) = channels[index]? := by
  ext c
  constructor
  · intro h
    obtain ⟨i, hi⟩ := List.mem_iff_getElem?.1 (List.mem_of_find?_eq_some h)
    have hc : c.index = index := by simpa using List.find?_some h
    rwa [← hc, hindex i c hi]
  · intro h
    have hsome : (channels.find? (·.index = index)).isSome :=
      List.find?_isSome.2 ⟨c, List.mem_of_getElem? h, decide_eq_true (hindex index c h)⟩
    obtain ⟨d, hd⟩ := Option.isSome_iff_exists.1 hsome
    obtain ⟨i, hi⟩ := List.mem_iff_getElem?.1 (List.mem_of_find?_eq_some hd)
    have hd' : d.index = index := by simpa using List.find?_some hd
    obtain rfl : i = index := (hindex i d hi).symm.trans hd'
    rw [hd, ← hi, h]

theorem findChannel_eq_ok_iff {index : Nat} {c : Channel} :
    findChannel channels index = .ok c ↔ channels[index]? = some c := by
  rw [findChannel, find?_index_eq_getElem? hindex]
  cases channels[index]? <;> simp

theorem EventSpec.resolve_eq_ok {spec : EventSpec} {e : Event} :
    spec.resolve channels = .ok e ↔
      (∀ index, spec.index? = some index → index < channels.length) ∧
        e = spec.resolved channels := by
  have communication {build : Channel → Event} {index : Nat} :
      (findChannel channels index).map build = .ok e ↔
        index < channels.length ∧ e = build (channels.getD index default) := by
    simp only [map_eq_ok, findChannel_eq_ok_iff hindex]
    constructor
    · rintro ⟨c, hc, rfl⟩
      exact ⟨(List.getElem?_eq_some_iff.1 hc).1, by simp [hc]⟩
    · rintro ⟨hlt, rfl⟩
      exact ⟨channels[index], by simp [hlt], by simp [hlt]⟩
  cases spec with
  | internal pid name => simp [resolve, index?, resolved, eq_comm]
  | send index payload => simpa [resolve, index?, resolved] using communication
  | receive index payload => simpa [resolve, index?, resolved] using communication

theorem TimedEventSpec.resolve_eq_ok {spec : TimedEventSpec} {execution : Nat} {pid : ProcessId} {e : TimedEvent} :
    spec.resolve channels execution pid = .ok e ↔
      spec.event.WellFormed channels pid ∧ e = ⟨spec.event.resolved channels, spec.delta⟩ := by
  rw [resolve, bind_eq_ok]
  simp only [EventSpec.resolve_eq_ok hindex]
  constructor
  · rintro ⟨e', ⟨hdeclared, rfl⟩, h⟩
    split at h
    · next howned => exact ⟨⟨hdeclared, howned⟩, (pure_eq_ok.1 h).symm⟩
    · cases h
  · rintro ⟨⟨hdeclared, howned⟩, rfl⟩
    exact ⟨_, ⟨hdeclared, rfl⟩, by rw [if_pos howned]; rfl⟩

end Events

/-! ### Traces and executions -/

section Traces

variable {processes : Nat} {channels : List Channel} {execution : Nat}
  (hindex : ∀ (i : Nat) (c : Channel), channels[i]? = some c → c.index = i)
include hindex

theorem ProcessTraceSpec.resolve_eq_ok {earlier : List ProcessId} {spec : ProcessTraceSpec} {t : ProcessTrace} :
    spec.resolve processes channels execution earlier = .ok t ↔
      spec.WellFormed processes channels ∧ spec.pid ∉ earlier ∧ t = spec.resolved channels := by
  have events (es : List TimedEvent) :
      spec.events.mapM (·.resolve channels execution spec.pid) = .ok es ↔
        (∀ e ∈ spec.events, e.event.WellFormed channels spec.pid) ∧
          es = spec.events.map fun e => ⟨e.event.resolved channels, e.delta⟩ :=
    mapM_eq_ok_map fun _ _ _ => TimedEventSpec.resolve_eq_ok hindex
  have body : (do
        let es ← spec.events.mapM (·.resolve channels execution spec.pid)
        return ⟨spec.pid, spec.states, es⟩) = Except.ok t ↔
      (∀ e ∈ spec.events, e.event.WellFormed channels spec.pid) ∧ t = spec.resolved channels := by
    simp only [bind_eq_ok, events, pure_eq_ok]
    constructor
    · rintro ⟨_, ⟨hevents, rfl⟩, rfl⟩
      exact ⟨hevents, rfl⟩
    · rintro ⟨hevents, rfl⟩
      exact ⟨_, ⟨hevents, rfl⟩, rfl⟩
  simp only [resolve, error_bind, check_eq_ok, Nat.not_le]
  constructor
  · rintro ⟨hlt, hnew, h⟩
    split at h
    · next names hnames =>
      obtain ⟨hlen, h⟩ := check_eq_ok.1 h
      obtain ⟨hevents, ht⟩ := body.1 h
      refine ⟨⟨hlt, fun names' h' => ?_, hevents⟩, hnew, ht⟩
      obtain rfl := Option.some.inj (hnames.symm.trans h')
      exact not_not.1 hlen
    · next hnone =>
      obtain ⟨hevents, ht⟩ := body.1 h
      exact ⟨⟨hlt, fun names h' => (hnone names h').elim, hevents⟩, hnew, ht⟩
  · rintro ⟨⟨hlt, hnames, hevents⟩, hnew, ht⟩
    refine ⟨hlt, hnew, ?_⟩
    split
    · next names h' =>
      exact check_eq_ok.2 ⟨not_not.2 (hnames names h'), body.2 ⟨hevents, ht⟩⟩
    · exact body.2 ⟨hevents, ht⟩

theorem resolveTraces_eq_ok {earlier : List ProcessId} {specs : List ProcessTraceSpec} {ts : List ProcessTrace} :
    resolveTraces processes channels execution earlier specs = .ok ts ↔
      (∀ t ∈ specs, t.WellFormed processes channels) ∧ (specs.map (·.pid)).Nodup ∧
        (∀ t ∈ specs, t.pid ∉ earlier) ∧ ts = specs.map (·.resolved channels) := by
  induction specs generalizing earlier ts with
  | nil => simp [resolveTraces, eq_comm]
  | cons spec specs ih =>
      simp only [resolveTraces, bind_eq_ok, ProcessTraceSpec.resolve_eq_ok hindex, ih, pure_eq_ok,
        List.forall_mem_cons, List.map_cons, List.nodup_cons]
      constructor
      · rintro ⟨t, ⟨hspec, hnew, rfl⟩, _, ⟨hspecs, hnodup, hearlier, rfl⟩, rfl⟩
        refine ⟨⟨hspec, hspecs⟩, ⟨?_, hnodup⟩, ⟨hnew, ?_⟩, rfl⟩
        · rintro hmem
          obtain ⟨t, ht, heq⟩ := List.mem_map.1 hmem
          exact hearlier t ht (List.mem_append_right _ (by simp [heq]))
        · exact fun t ht hmem => hearlier t ht (List.mem_append_left _ hmem)
      · rintro ⟨⟨hspec, hspecs⟩, ⟨hnot, hnodup⟩, ⟨hnew, hearlier⟩, rfl⟩
        refine ⟨_, ⟨hspec, hnew, rfl⟩, _, ⟨hspecs, hnodup, ?_, rfl⟩, rfl⟩
        intro t ht hmem
        rcases List.mem_append.1 hmem with hmem | hmem
        · exact hearlier t ht hmem
        · exact hnot (List.mem_map.2 ⟨t, ht, List.mem_singleton.1 hmem⟩)

theorem resolveExecutions_eq_ok {specs : List ExecutionSpec} {xs : List Execution} :
    resolveExecutions processes channels execution specs = .ok xs ↔
      (∀ x ∈ specs, x.WellFormed processes channels) ∧
        xs = specs.map fun x => ⟨x.processes.map (·.resolved channels)⟩ := by
  induction specs generalizing execution xs with
  | nil => simp [resolveExecutions, eq_comm]
  | cons spec specs ih =>
      simp only [resolveExecutions, bind_eq_ok, resolveTraces_eq_ok hindex, ih, pure_eq_ok,
        List.forall_mem_cons, List.map_cons]
      constructor
      · rintro ⟨_, ⟨htraces, hdistinct, -, rfl⟩, _, ⟨hspecs, rfl⟩, rfl⟩
        exact ⟨⟨⟨htraces, hdistinct⟩, hspecs⟩, rfl⟩
      · rintro ⟨⟨⟨htraces, hdistinct⟩, hspecs⟩, rfl⟩
        exact ⟨_, ⟨htraces, hdistinct, fun _ _ => List.not_mem_nil, rfl⟩, _, ⟨hspecs, rfl⟩, rfl⟩

end Traces

/-! ### Channels and documents -/

theorem checkChannels_eq_ok {processes : Nat} {earlier channels : List Channel}
    (hearlier : ∀ c ∈ earlier, c.index < earlier.length) :
    checkChannels processes earlier channels = .ok () ↔
      (∀ (i : Nat) (c : Channel), channels[i]? = some c → c.index = earlier.length + i) ∧
        ∀ c ∈ channels, c.src < processes ∧ c.dst < processes := by
  induction channels generalizing earlier with
  | nil => simp [checkChannels]
  | cons c channels ih =>
      have hnew : c.index = earlier.length → earlier.any (·.index = c.index) = false := by
        intro hc
        simpa [hc] using fun d hd => Nat.ne_of_lt (hearlier d hd)
      have hcheck : checkChannel processes earlier c = .ok () ↔
          c.index = earlier.length ∧ c.src < processes ∧ c.dst < processes := by
        simp only [checkChannel, check_eq_ok, not_or, Nat.not_le, Bool.not_eq_true, not_not,
          and_true]
        rw [and_iff_right_of_imp hnew, and_comm]
      have hrest (hc : c.index = earlier.length) :
          checkChannels processes (earlier ++ [c]) channels = .ok () ↔
            (∀ (i : Nat) (d : Channel), channels[i]? = some d →
              d.index = earlier.length + (i + 1)) ∧
              ∀ d ∈ channels, d.src < processes ∧ d.dst < processes := by
        have hearlier' : ∀ d ∈ earlier ++ [c], d.index < (earlier ++ [c]).length := by
          intro d hd
          rw [List.length_append, List.length_singleton]
          rcases List.mem_append.1 hd with hd | hd
          · exact Nat.lt_succ_of_lt (hearlier d hd)
          · rw [List.mem_singleton.1 hd, hc]
            exact Nat.lt_succ_self _
        simpa [Nat.add_assoc, Nat.add_comm 1] using ih hearlier'
      rw [checkChannels, bind_eq_ok, List.forall_mem_cons]
      constructor
      · rintro ⟨⟨⟩, hc, h⟩
        obtain ⟨hc, hends⟩ := hcheck.1 hc
        obtain ⟨hindex, hends'⟩ := (hrest hc).1 h
        refine ⟨fun i d hd => ?_, hends, hends'⟩
        cases i with
        | zero => rwa [← Option.some.inj hd]
        | succ i => exact hindex i d hd
      · rintro ⟨hindex, hends, hends'⟩
        have hc : c.index = earlier.length := hindex 0 c rfl
        exact ⟨⟨⟩, hcheck.2 ⟨hc, hends⟩,
          (hrest hc).2 ⟨fun i d hd => hindex (i + 1) d hd, hends'⟩⟩

theorem checkChannels_nil_eq_ok {processes : Nat} {channels : List Channel} :
    checkChannels processes [] channels = .ok () ↔ ChannelsInOrder processes channels := by
  rw [checkChannels_eq_ok (List.forall_mem_nil _)]
  simp only [List.length_nil, Nat.zero_add]
  exact ⟨fun ⟨hindex, hends⟩ => ⟨hindex, hends⟩, fun ⟨hindex, hends⟩ => ⟨hindex, hends⟩⟩

/-- Exactly the well-formed documents are accepted, and what is returned is the
document with channels in place of indices. -/
theorem TraceLog.resolve_eq_ok {log : TraceLog} {xs : List Execution} :
    log.resolve = .ok xs ↔ log.WellFormed ∧ xs = log.resolved := by
  rw [resolve, bind_eq_ok]
  constructor
  · rintro ⟨⟨⟩, hchannels, h⟩
    obtain ⟨hindex, hends⟩ := checkChannels_nil_eq_ok.1 hchannels
    obtain ⟨hexecutions, hxs⟩ := (resolveExecutions_eq_ok hindex).1 h
    exact ⟨⟨hindex, hends, hexecutions⟩, hxs⟩
  · rintro ⟨⟨hindex, hends, hexecutions⟩, hxs⟩
    exact ⟨⟨⟩, checkChannels_nil_eq_ok.2 ⟨hindex, hends⟩,
      (resolveExecutions_eq_ok hindex).2 ⟨hexecutions, hxs⟩⟩

end ProtocolInference
