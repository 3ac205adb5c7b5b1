import ProtocolInference.Proofs.Trace.Resolution
import ProtocolInference.Trace.Fault

/-!
Which error a refused trace document is refused with.

For each function of the validation there is a lemma here, beside the one
that says when it succeeds, that says which errors it gives: those of the
faults of the part that it looks at. A list of parts is looked at one by
one, so its error is the fault of one part behind parts that are all
accepted; what acceptance means is said by the lemmas on success.

Success and failure together leave nothing open: a document is well formed
or has a fault, never both, and it has no second fault.
-/

namespace ProtocolInference

/-! ### Channels -/

section Channels

variable {processes : Nat} {earlier channels : List Channel} {c : Channel} {error : DocumentError}

theorem checkChannel_eq_error (hearlier : ChannelsInOrder processes earlier) :
    checkChannel processes earlier c = .error error ↔
      c.Fault processes earlier.length error := by
  have hused : earlier.any (·.index = c.index) = true ↔ c.index < earlier.length := by
    rw [List.any_eq_true]
    constructor
    · rintro ⟨d, hd, heq⟩
      obtain ⟨i, hi⟩ := List.mem_iff_getElem?.1 hd
      rw [← of_decide_eq_true heq, hearlier.index_eq i d hi]
      exact (List.getElem?_eq_some_iff.1 hi).1
    · intro hlt
      have hget := List.getElem?_eq_getElem hlt
      exact ⟨_, List.getElem_mem hlt, decide_eq_true (hearlier.index_eq c.index _ hget)⟩
  simp only [checkChannel, check_eq_error, hused, not_or, Nat.not_le]
  constructor
  · rintro (⟨hrange, rfl⟩ | ⟨hends, ⟨hlt, rfl⟩ | ⟨hge, ⟨hne, rfl⟩ | ⟨-, ⟨⟩⟩⟩⟩)
    · exact .outOfRange hrange
    · exact .repeated hends hlt
    · exact .gap hends (by omega)
  · rintro (hrange | ⟨hends, hlt⟩ | ⟨hends, hgt⟩)
    · exact .inl ⟨hrange, rfl⟩
    · exact .inr ⟨hends, .inl ⟨hlt, rfl⟩⟩
    · exact .inr ⟨hends, .inr ⟨by omega, .inl ⟨by omega, rfl⟩⟩⟩

theorem checkChannels_eq_error_iff_split :
    checkChannels processes earlier channels = .error error ↔
      ∃ before c after, channels = before ++ c :: after ∧
        checkChannels processes earlier before = .ok () ∧
        checkChannel processes (earlier ++ before) c = .error error := by
  induction channels generalizing earlier with
  | nil => simp [checkChannels]
  | cons c channels ih =>
      simp only [checkChannels, check_bind_eq_error, ih, List.append_assoc, List.singleton_append]
      refine .trans ?_ (.symm (exists_failure_cons rfl fun _ => check_bind_eq_ok))
      rw [List.append_nil]

theorem Channel.exists_fault_iff {position : Nat} :
    (∃ error, c.Fault processes position error) ↔
      ¬ (c.index = position ∧ c.src < processes ∧ c.dst < processes) := by
  constructor
  · rintro ⟨_, hrange | ⟨-, hlt⟩ | ⟨-, hgt⟩⟩ ⟨hindex, hsrc, hdst⟩
    · exact hrange.elim (Nat.not_le.2 hsrc) (Nat.not_le.2 hdst)
    · exact Nat.ne_of_lt hlt hindex
    · exact Nat.ne_of_gt hgt hindex
  · intro h
    by_cases hends : c.src < processes ∧ c.dst < processes
    · rcases Nat.lt_or_gt_of_ne fun hindex => h ⟨hindex, hends⟩ with hlt | hgt
      · exact ⟨_, .repeated hends hlt⟩
      · exact ⟨_, .gap hends hgt⟩
    · rw [not_and_or, Nat.not_lt, Nat.not_lt] at hends
      exact ⟨_, .outOfRange hends⟩

end Channels

/-! ### Events -/

section Events

variable {channels : List Channel} {execution : Nat} {pid : ProcessId} {error : DocumentError}

theorem EventSpec.exists_fault_iff {e : EventSpec} :
    (∃ error, e.Fault channels execution pid error) ↔ ¬ e.WellFormed channels pid := by
  constructor
  · rintro ⟨_, ⟨hindex, hge⟩ | ⟨-, hforeign⟩⟩ ⟨hdeclared, howned⟩
    · exact Nat.not_lt.2 hge (hdeclared _ hindex)
    · exact hforeign howned
  · intro h
    by_cases hdeclared : ∀ index, e.index? = some index → index < channels.length
    · exact ⟨_, .foreign hdeclared fun howned => h ⟨hdeclared, howned⟩⟩
    · simp only [not_forall, Nat.not_lt] at hdeclared
      obtain ⟨index, hindex, hge⟩ := hdeclared
      exact ⟨_, .undeclared hindex hge⟩

variable (hindex : ∀ (i : Nat) (c : Channel), channels[i]? = some c → c.index = i)
include hindex

theorem findChannel_eq_error_iff {index : Nat} :
    findChannel channels index = .error error ↔
      channels.length ≤ index ∧ error = .unknownChannel index := by
  rw [findChannel, find?_index_eq_getElem? hindex]
  rcases Nat.lt_or_ge index channels.length with h | h
  · simp [h, Nat.not_le.2 h]
  · simp [h, eq_comm]

theorem EventSpec.resolve_eq_error {spec : EventSpec} :
    spec.resolve channels = .error error ↔
      ∃ index, spec.index? = some index ∧ channels.length ≤ index ∧
        error = .unknownChannel index := by
  cases spec with
  | internal pid name => simp [resolve, index?]
  | send index payload => simp [resolve, index?, map_eq_error, findChannel_eq_error_iff hindex]
  | receive index payload => simp [resolve, index?, map_eq_error, findChannel_eq_error_iff hindex]

theorem TimedEventSpec.resolve_eq_error {spec : TimedEventSpec} :
    spec.resolve channels execution pid = .error error ↔
      spec.event.Fault channels execution pid error := by
  simp only [resolve, bind_eq_error, EventSpec.resolve_eq_error hindex,
    EventSpec.resolve_eq_ok hindex]
  constructor
  · rintro (⟨index, hspec, hlt, rfl⟩ | ⟨e, ⟨hdeclared, rfl⟩, h⟩)
    · exact .undeclared hspec hlt
    · split at h
      · exact absurd h pure_ne_error
      · next hforeign =>
        cases h
        exact .foreign hdeclared hforeign
  · rintro (⟨hspec, hlt⟩ | ⟨hdeclared, hforeign⟩)
    · exact .inl ⟨_, hspec, hlt, rfl⟩
    · exact .inr ⟨_, ⟨hdeclared, rfl⟩, if_neg hforeign⟩

end Events

/-! ### Traces and executions -/

section Traces

variable {processes : Nat} {channels : List Channel} {execution : Nat} {error : DocumentError}

/-- Traces fail at the first one that fails behind those before it. -/
theorem resolveTraces_eq_error_iff_split {earlier : List ProcessId}
    {specs : List ProcessTraceSpec} :
    resolveTraces processes channels execution earlier specs = .error error ↔
      ∃ before t after, specs = before ++ t :: after ∧
        (∃ ts, resolveTraces processes channels execution earlier before = .ok ts) ∧
        t.resolve processes channels execution (earlier ++ before.map (·.pid)) = .error error := by
  induction specs generalizing earlier with
  | nil => simp [resolveTraces]
  | cons spec specs ih =>
      simp only [resolveTraces, both_eq_error, ih, List.append_assoc, List.singleton_append]
      refine .trans ?_ (.symm (exists_failure_cons ⟨[], rfl⟩ fun _ => exists_both_eq_ok))
      simp only [List.map_nil, List.append_nil, List.map_cons]

theorem resolveExecutions_eq_error_iff_split {specs : List ExecutionSpec} :
    resolveExecutions processes channels execution specs = .error error ↔
      ∃ before x after, specs = before ++ x :: after ∧
        (∃ xs, resolveExecutions processes channels execution before = .ok xs) ∧
        resolveTraces processes channels (execution + before.length) [] x.processes =
          .error error := by
  induction specs generalizing execution with
  | nil => simp [resolveExecutions]
  | cons spec specs ih =>
      simp only [resolveExecutions, both_eq_error, ih, Nat.add_assoc, Nat.add_comm 1]
      exact .symm (exists_failure_cons ⟨[], rfl⟩ fun _ => exists_both_eq_ok)

variable (hindex : ∀ (i : Nat) (c : Channel), channels[i]? = some c → c.index = i)
include hindex

theorem ProcessTraceSpec.resolve_eq_error {earlier : List ProcessId} {spec : ProcessTraceSpec} :
    spec.resolve processes channels execution earlier = .error error ↔
      spec.Fault processes channels execution earlier error := by
  have body : (do
        let es ← spec.events.mapM (·.resolve channels execution spec.pid)
        return (⟨spec.pid, spec.states, es⟩ : ProcessTrace)) = Except.error error ↔
      ∃ before e after, spec.events = before ++ e :: after ∧
        (∀ b ∈ before, b.event.WellFormed channels spec.pid) ∧
        e.event.Fault channels execution spec.pid error := by
    simp only [bind_eq_error, pure_ne_error, and_false, exists_false, or_false, mapM_eq_error,
      TimedEventSpec.resolve_eq_ok hindex, TimedEventSpec.resolve_eq_error hindex, exists_eq_right]
  simp only [resolve, error_bind, check_eq_error, Nat.not_le]
  constructor
  · rintro (⟨hrange, ⟨⟩⟩ | ⟨hpid, ⟨hmem, ⟨⟩⟩ | ⟨hnew, h⟩⟩)
    · exact .outOfRange hrange
    · exact .repeated hpid hmem
    · split at h
      · next names hnames =>
        rcases check_eq_error.1 h with ⟨hlen, ⟨⟩⟩ | ⟨hlen, h⟩
        · exact .names hpid hnew hnames hlen
        · obtain ⟨before, e, after, hevents, hbefore, he⟩ := body.1 h
          refine .event hpid hnew (fun names' h' => ?_) hevents hbefore he
          obtain rfl := Option.some.inj (hnames.symm.trans h')
          exact not_not.1 hlen
      · next hnone =>
        obtain ⟨before, e, after, hevents, hbefore, he⟩ := body.1 h
        exact .event hpid hnew (fun names h' => (hnone names h').elim) hevents hbefore he
  · rintro (hrange | ⟨hpid, hmem⟩ | ⟨hpid, hnew, hnames, hlen⟩ |
      ⟨hpid, hnew, hnames, hevents, hbefore, he⟩)
    · exact .inl ⟨hrange, rfl⟩
    · exact .inr ⟨hpid, .inl ⟨hmem, rfl⟩⟩
    · exact .inr ⟨hpid, .inr ⟨hnew, by simp only [hnames, if_pos hlen]⟩⟩
    · refine .inr ⟨hpid, .inr ⟨hnew, ?_⟩⟩
      have h := body.2 ⟨_, _, _, hevents, hbefore, he⟩
      split
      · next names h' => exact check_eq_error.2 (.inr ⟨not_not.2 (hnames names h'), h⟩)
      · exact h

theorem ProcessTraceSpec.exists_fault_iff {earlier : List ProcessId} {t : ProcessTraceSpec} :
    (∃ error, t.Fault processes channels execution earlier error) ↔
      ¬ (t.WellFormed processes channels ∧ t.pid ∉ earlier) := by
  simp only [← ProcessTraceSpec.resolve_eq_error hindex, exists_eq_error_iff,
    ProcessTraceSpec.resolve_eq_ok hindex, exists_and_left, exists_eq, and_true]

theorem resolveTraces_eq_error {x : ExecutionSpec} :
    resolveTraces processes channels execution [] x.processes = .error error ↔
      x.Fault processes channels execution error := by
  have hbefore (before : List ProcessTraceSpec) :
      (∃ ts, resolveTraces processes channels execution [] before = .ok ts) ↔
        ExecutionSpec.WellFormed processes channels ⟨before⟩ := by
    simp only [resolveTraces_eq_ok hindex]
    constructor
    · rintro ⟨_, htraces, hdistinct, -, -⟩
      exact ⟨htraces, hdistinct⟩
    · rintro ⟨htraces, hdistinct⟩
      exact ⟨_, htraces, hdistinct, fun _ _ => List.not_mem_nil, rfl⟩
  simp only [resolveTraces_eq_error_iff_split, hbefore, List.nil_append,
    ProcessTraceSpec.resolve_eq_error hindex, ExecutionSpec.Fault]

theorem resolveExecutions_eq_error {specs : List ExecutionSpec} :
    resolveExecutions processes channels 0 specs = .error error ↔
      ∃ before x after, specs = before ++ x :: after ∧
        (∀ y ∈ before, y.WellFormed processes channels) ∧
        x.Fault processes channels before.length error := by
  simp only [resolveExecutions_eq_error_iff_split, resolveExecutions_eq_ok hindex,
    resolveTraces_eq_error hindex, Nat.zero_add, exists_and_left, exists_eq, and_true]

end Traces

/-! ### Documents -/

theorem TraceLog.resolve_eq_error {log : TraceLog} {error : DocumentError} :
    log.resolve = .error error ↔ log.Fault error := by
  rw [resolve, check_bind_eq_error, checkChannels_eq_error_iff_split]
  simp only [checkChannels_nil_eq_ok, List.nil_append]
  constructor
  · rintro (⟨before, c, after, hchannels, hbefore, h⟩ | ⟨hchannels, h⟩)
    · exact .channel hchannels hbefore ((checkChannel_eq_error hbefore).1 h)
    · obtain ⟨before, x, after, hexecutions, hbefore, hx⟩ :=
        (resolveExecutions_eq_error hchannels.index_eq).1 h
      exact .trace hchannels hexecutions hbefore hx
  · rintro (⟨hchannels, hbefore, hc⟩ | ⟨hchannels, hexecutions, hbefore, hx⟩)
    · exact .inl ⟨_, _, _, hchannels, hbefore, (checkChannel_eq_error hbefore).2 hc⟩
    · refine .inr ⟨hchannels, (resolveExecutions_eq_error hchannels.index_eq).2 ?_⟩
      exact ⟨_, _, _, hexecutions, hbefore, hx⟩

-- The states are counted before the events are looked at.
example : TraceLog.resolve ⟨1, [], [⟨[⟨0, some ["idle"], [⟨.internal 1 "tick", 0⟩]⟩]⟩]⟩ =
    .error (.stateNameCount 0 0 1 1) := by decide

/-- A document has a fault if and only if it is not well formed. -/
theorem TraceLog.exists_fault_iff {log : TraceLog} :
    (∃ error, log.Fault error) ↔ ¬ log.WellFormed := by
  simp only [← resolve_eq_error, exists_eq_error_iff, resolve_eq_ok, exists_and_left, exists_eq,
    and_true]

/-- A document has one fault at most. -/
theorem TraceLog.Fault.unique {log : TraceLog} {error error' : DocumentError}
    (h : log.Fault error) (h' : log.Fault error') : error = error' := by
  rw [← resolve_eq_error] at h h'
  exact Except.error.inj (h.symm.trans h')

/-- The well-formed documents are accepted, as they are but with channels in
place of indices, and all others are refused with the first of their
faults. -/
theorem TraceLog.resolve_is_exact (log : TraceLog) :
    (∀ xs, log.resolve = .ok xs ↔ log.WellFormed ∧ xs = log.resolved) ∧
      ∀ error, log.resolve = .error error ↔ log.Fault error :=
  ⟨fun _ => resolve_eq_ok, fun _ => resolve_eq_error⟩

end ProtocolInference
