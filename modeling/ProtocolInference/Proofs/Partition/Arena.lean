import ProtocolInference.Partition.Build
import ProtocolInference.Partition.Language

/-!
What stands in the arena.

Observing a trace of `n` events fills `n + 1` positions of the arena, one
behind the other, and what stands at each of them can be written down
without the recursion that puts it there: `ProcessTrace.observation`.
`Records` says that a trace fills the positions from a given one on. The
arena of a graph *observes* some traces if each of them is recorded and
nothing else is there.

Two things are read off from this. The links between observations are
those of doubly linked chains (`Linked`), which is all that the counting
of edges needs. And the words along whole chains are the traces, no more
and no less (`Observes.observed_iff`).
-/

namespace ProtocolInference

/-! ### One trace -/

/-- What the trace leaves at its position `i`, if its first observation
stands at `here`. -/
def ProcessTrace.observation (t : ProcessTrace) (here : ObservationId) (name : String) (i : Nat) :
    Observation where
  pid := t.pid
  name := name
  initial := i = 0
  terminal := i = t.events.length
  next := (t.events[i]?).map fun e => (e.event, here + i + 1)
  prev := if i = 0 then none else (t.events[i - 1]?).map fun e => (e.event, here + (i - 1))

theorem length_observeFrom {pid : ProcessId} {here : ObservationId}
    {prev : Option (Event × ObservationId)} {names : List String} {events : List Event}
    (h : names.length = events.length + 1) :
    (observeFrom pid here prev names events).length = events.length + 1 := by
  induction events generalizing here prev names with
  | nil =>
      obtain ⟨name, rfl⟩ := List.length_eq_one_iff.1 h
      rfl
  | cons e events ih =>
      cases names with
      | nil => cases h
      | cons name names => simpa [observeFrom] using ih (Nat.succ.inj h)

theorem getElem?_observeFrom {pid : ProcessId} {here : Nat}
    {prev : Option (Event × ObservationId)} {names : List String} {events : List Event}
    (h : names.length = events.length + 1) {i : Nat} (hi : i ≤ events.length) :
    (observeFrom pid here prev names events)[i]? = some
      { pid := pid
        name := names.getD i ""
        initial := decide (i = 0) && prev.isNone
        terminal := i = events.length
        next := (events[i]?).map fun e => (e, here + i + 1)
        prev := if i = 0 then prev else (events[i - 1]?).map fun e => (e, here + (i - 1)) } := by
  induction events generalizing here prev names i with
  | nil =>
      obtain ⟨name, rfl⟩ := List.length_eq_one_iff.1 h
      obtain rfl : i = 0 := Nat.le_zero.1 hi
      simp [observeFrom]
  | cons e events ih =>
      cases names with
      | nil => cases h
      | cons name names =>
          cases i with
          | zero => simp [observeFrom]
          | succ i =>
              rw [observeFrom, List.getElem?_cons_succ, ih (Nat.succ.inj h) (Nat.le_of_succ_le_succ hi)]
              have hnext : here + 1 + i + 1 = here + (i + 1) + 1 := by omega
              cases i with
              | zero => simp [hnext, eq_comm]
              | succ i =>
                  have hprev : here + 1 + i = here + (i + 1) := by omega
                  simp [hnext, hprev]

namespace ProcessTrace

theorem length_allNames (t : ProcessTrace) (names : StateNames) :
    (t.allNames names).length = t.events.length + 1 := by
  have hgiven : t.givenNames.length ≤ t.length := by
    rw [givenNames, List.length_take]
    exact Nat.min_le_left _ _
  rw [allNames, List.length_append, StateNames.upcoming, List.length_map, List.length_range]
  rw [length] at hgiven ⊢
  omega

theorem length_observe (t : ProcessTrace) (here : ObservationId) (names : StateNames) :
    (t.observe here names).length = t.events.length + 1 := by
  rw [observe, length_observeFrom (by rw [length_allNames, List.length_map]), List.length_map]

theorem getElem?_observe (t : ProcessTrace) (here : ObservationId) (names : StateNames) {i : Nat}
    (hi : i ≤ t.events.length) :
    (t.observe here names)[i]? =
      some (t.observation here ((t.allNames names).getD i "") i) := by
  rw [observe, getElem?_observeFrom (by rw [length_allNames, List.length_map])
    (by rwa [List.length_map]), observation]
  simp [Option.map_map, Function.comp_def]

end ProcessTrace

/-- The trace stands in the arena from position `here` on. -/
def Records (arena : List Observation) (t : ProcessTrace) (here : ObservationId) : Prop :=
  ∃ names : StateNames, ∀ i ≤ t.events.length,
    arena[here + i]? = some (t.observation here ((t.allNames names).getD i "") i)

theorem records_append (before after : List Observation) (t : ProcessTrace) (names : StateNames) :
    Records (before ++ t.observe before.length names ++ after) t before.length := by
  refine ⟨names, fun i hi => ?_⟩
  have hlen := t.length_observe before.length names
  rw [List.append_assoc, List.getElem?_append_right (Nat.le_add_right _ _), Nat.add_sub_cancel_left,
    List.getElem?_append_left (by omega), t.getElem?_observe _ _ hi]

/-! ### All traces -/

theorem observeAll_prefix (traces : List ProcessTrace) (names : StateNames)
    (arena : List Observation) : ∃ after, (observeAll traces names arena).1 = arena ++ after := by
  induction traces generalizing names arena with
  | nil => exact ⟨[], (List.append_nil _).symm⟩
  | cons t traces ih =>
      obtain ⟨after, hafter⟩ := ih (names.advance (t.length - t.givenNames.length))
        (arena ++ t.observe arena.length names)
      exact ⟨t.observe arena.length names ++ after, by rw [observeAll, hafter, List.append_assoc]⟩

/-- The first of several traces is recorded right behind what was there
before. -/
theorem records_observeAll_head (t : ProcessTrace) (traces : List ProcessTrace)
    (names : StateNames) (arena : List Observation) :
    Records (observeAll (t :: traces) names arena).1 t arena.length := by
  obtain ⟨after, hafter⟩ := observeAll_prefix traces
    (names.advance (t.length - t.givenNames.length)) (arena ++ t.observe arena.length names)
  rw [observeAll, hafter]
  exact records_append arena after t names

theorem records_observeAll {traces : List ProcessTrace} {t : ProcessTrace} (ht : t ∈ traces)
    (names : StateNames) (arena : List Observation) :
    ∃ here, Records (observeAll traces names arena).1 t here := by
  induction traces generalizing names arena with
  | nil => cases ht
  | cons u traces ih =>
      rcases List.mem_cons.1 ht with rfl | ht
      · exact ⟨arena.length, records_observeAll_head t traces names arena⟩
      · exact ih ht _ _

theorem covered_observeAll {traces : List ProcessTrace} {names : StateNames}
    {arena : List Observation} {s : Nat} (hs : arena.length ≤ s)
    (hlt : s < (observeAll traces names arena).1.length) :
    ∃ t ∈ traces, ∃ here, Records (observeAll traces names arena).1 t here ∧
      ∃ i ≤ t.events.length, s = here + i := by
  induction traces generalizing names arena with
  | nil => exact absurd hlt (Nat.not_lt.2 hs)
  | cons t traces ih =>
      by_cases hhead : s < arena.length + (t.events.length + 1)
      · exact ⟨t, List.mem_cons_self, arena.length, records_observeAll_head t traces names arena,
          s - arena.length, by omega, by omega⟩
      · have hlen : (arena ++ t.observe arena.length names).length ≤ s := by
          rw [List.length_append, t.length_observe]
          omega
        obtain ⟨u, hu, hrest⟩ := ih hlen hlt
        exact ⟨u, List.mem_cons_of_mem _ hu, hrest⟩

namespace PartitionGraph

/-- The arena of the graph consists of the traces. -/
structure Observes (g : PartitionGraph) (traces : List ProcessTrace) : Prop where
  records : ∀ t ∈ traces, ∃ here, Records g.observations t here
  covered : ∀ s < g.observations.length, ∃ t ∈ traces, ∃ here, Records g.observations t here ∧
    ∃ i ≤ t.events.length, s = here + i

/-- The observations are linked to their neighbours in both directions,
within one process, and the marks at the ends of traces are true. -/
structure Linked (g : PartitionGraph) : Prop where
  next_iff_prev : ∀ s e t, g.next? s = some (e, t) ↔ g.prev? t = some (e, s)
  pid_eq : ∀ s e t o o', g.next? s = some (e, t) → g.observation? s = some o →
    g.observation? t = some o' → o.pid = o'.pid
  startsTrace_iff : ∀ s < g.observations.length, g.startsTrace s = true ↔ g.prev? s = none
  endsTrace_iff : ∀ s < g.observations.length, g.endsTrace s = true ↔ g.next? s = none

/-! ### Reading a recorded trace -/

section Reading

variable {g : PartitionGraph} {t : ProcessTrace} {here : ObservationId}

theorem observation?_of_records (h : Records g.observations t here) {i : Nat}
    (hi : i ≤ t.events.length) :
    ∃ name, g.observation? (here + i) = some (t.observation here name i) := by
  obtain ⟨names, h⟩ := h
  exact ⟨_, h i hi⟩

theorem next?_of_records (h : Records g.observations t here) {i : Nat}
    (hi : i ≤ t.events.length) :
    g.next? (here + i) = (t.events[i]?).map fun e => (e.event, here + i + 1) := by
  obtain ⟨name, ho⟩ := observation?_of_records h hi
  rw [next?, ho]
  rfl

theorem prev?_of_records (h : Records g.observations t here) {i : Nat}
    (hi : i ≤ t.events.length) :
    g.prev? (here + i) =
      if i = 0 then none else (t.events[i - 1]?).map fun e => (e.event, here + (i - 1)) := by
  obtain ⟨name, ho⟩ := observation?_of_records h hi
  rw [prev?, ho]
  rfl

theorem startsTrace_of_records (h : Records g.observations t here) {i : Nat}
    (hi : i ≤ t.events.length) : g.startsTrace (here + i) = decide (i = 0) := by
  obtain ⟨name, ho⟩ := observation?_of_records h hi
  rw [startsTrace, ho]
  rfl

theorem endsTrace_of_records (h : Records g.observations t here) {i : Nat}
    (hi : i ≤ t.events.length) : g.endsTrace (here + i) = decide (i = t.events.length) := by
  obtain ⟨name, ho⟩ := observation?_of_records h hi
  rw [endsTrace, ho]
  rfl

theorem endsTraceOf_of_records (h : Records g.observations t here) (pid : ProcessId) {i : Nat}
    (hi : i ≤ t.events.length) :
    g.endsTraceOf pid (here + i) = (decide (i = t.events.length) && decide (t.pid = pid)) := by
  obtain ⟨name, ho⟩ := observation?_of_records h hi
  rw [endsTraceOf, ho]
  rfl

/-- From one position of the trace to a later one lead the events in between. -/
theorem leads_between_of_records (h : Records g.observations t here) {i k : Nat}
    (hik : i + k ≤ t.events.length) :
    g.Leads (here + i) (((t.events.drop i).take k).map (·.event)) (here + (i + k)) := by
  induction k generalizing i with
  | zero => exact .stay _
  | succ k ih =>
      have hlt : i < t.events.length := by omega
      rw [List.drop_eq_getElem_cons hlt, List.take_succ_cons, List.map_cons, Nat.add_comm k 1,
        ← Nat.add_assoc i 1 k]
      refine .step ?_ (ih (i := i + 1) (by omega))
      rw [next?_of_records h (Nat.le_of_lt hlt), List.getElem?_eq_getElem hlt]
      rfl

theorem leads_of_records (h : Records g.observations t here) {i : Nat}
    (hi : i ≤ t.events.length) :
    g.Leads (here + i) ((t.events.drop i).map (·.event)) (here + t.events.length) := by
  have hik : i + (t.events.length - i) = t.events.length := Nat.add_sub_cancel' hi
  have hleads := leads_between_of_records h (Nat.le_of_eq hik)
  rwa [List.take_of_length_le (Nat.le_of_eq List.length_drop), hik] at hleads

end Reading

/-! ### The whole arena -/

theorem observation?_lt {g : PartitionGraph} {s : ObservationId} {o : Observation}
    (h : g.observation? s = some o) : s < g.observations.length :=
  (List.getElem?_eq_some_iff.1 h).1

theorem lt_of_next? {g : PartitionGraph} {s t : ObservationId} {e : Event}
    (h : g.next? s = some (e, t)) : s < g.observations.length := by
  obtain ⟨o, ho, -⟩ := Option.bind_eq_some_iff.1 h
  exact observation?_lt ho

theorem lt_of_prev? {g : PartitionGraph} {s t : ObservationId} {e : Event}
    (h : g.prev? t = some (e, s)) : t < g.observations.length := by
  obtain ⟨o, ho, -⟩ := Option.bind_eq_some_iff.1 h
  exact observation?_lt ho

theorem Observes.linked {g : PartitionGraph} {traces : List ProcessTrace}
    (h : g.Observes traces) : g.Linked where
  next_iff_prev s e t := by
    constructor
    · intro hnext
      obtain ⟨tr, -, here, hrec, i, hi, rfl⟩ := h.covered s (lt_of_next? hnext)
      rw [next?_of_records hrec hi, Option.map_eq_some_iff] at hnext
      obtain ⟨ev, hev, heq⟩ := hnext
      obtain ⟨rfl, rfl⟩ := Prod.mk.inj heq
      have hlt : i < tr.events.length := (List.getElem?_eq_some_iff.1 hev).1
      rw [Nat.add_assoc, prev?_of_records hrec hlt, if_neg (Nat.succ_ne_zero i),
        Nat.succ_sub_one, hev]
      rfl
    · intro hprev
      obtain ⟨tr, -, here, hrec, i, hi, rfl⟩ := h.covered t (lt_of_prev? hprev)
      rw [prev?_of_records hrec hi] at hprev
      cases i with
      | zero => cases hprev
      | succ i =>
          rw [if_neg (Nat.succ_ne_zero i), Nat.succ_sub_one, Option.map_eq_some_iff] at hprev
          obtain ⟨ev, hev, heq⟩ := hprev
          obtain ⟨rfl, rfl⟩ := Prod.mk.inj heq
          rw [next?_of_records hrec (Nat.le_of_succ_le hi), hev]
          rfl
  pid_eq s e t o o' hnext ho ho' := by
    obtain ⟨tr, -, here, hrec, i, hi, rfl⟩ := h.covered s (lt_of_next? hnext)
    rw [next?_of_records hrec hi, Option.map_eq_some_iff] at hnext
    obtain ⟨ev, hev, heq⟩ := hnext
    obtain ⟨rfl, rfl⟩ := Prod.mk.inj heq
    have hlt : i < tr.events.length := (List.getElem?_eq_some_iff.1 hev).1
    obtain ⟨name, hs⟩ := observation?_of_records hrec hi
    obtain ⟨name', ht⟩ := observation?_of_records hrec hlt
    rw [hs] at ho
    rw [Nat.add_assoc, ht] at ho'
    rw [← Option.some.inj ho, ← Option.some.inj ho']
    rfl
  startsTrace_iff s hs := by
    obtain ⟨tr, -, here, hrec, i, hi, rfl⟩ := h.covered s hs
    rw [startsTrace_of_records hrec hi, prev?_of_records hrec hi, decide_eq_true_eq]
    cases i with
    | zero => simp
    | succ i =>
        have hlt : i < tr.events.length := hi
        simp [List.getElem?_eq_getElem hlt]
  endsTrace_iff s hs := by
    obtain ⟨tr, -, here, hrec, i, hi, rfl⟩ := h.covered s hs
    rw [endsTrace_of_records hrec hi, next?_of_records hrec hi, decide_eq_true_eq,
      Option.map_eq_none_iff, List.getElem?_eq_none_iff]
    omega

section First

variable {executions : List Execution} {processes : Nat} {channels : List Channel}
variable {how : InitialPartitioning} {names names' : StateNames} {g : PartitionGraph}

/-- There is a first graph if the traces belong to processes of the system, and
it is the graph of the arena that observes them all. -/
theorem ofExecutions_eq_ok :
    ofExecutions executions processes channels how names = .ok (g, names') ↔
      (∀ t ∈ executions.flatMap (·.processes), t.pid < processes) ∧
        ofArena processes channels how
          (observeAll (executions.flatMap (·.processes)) names []).1 = g ∧
        (observeAll (executions.flatMap (·.processes)) names []).2 = names' := by
  have hrange : (executions.flatMap (·.processes)).find? (fun t => processes ≤ t.pid) = none ↔
      ∀ t ∈ executions.flatMap (·.processes), t.pid < processes := by
    simp only [List.find?_eq_none, decide_eq_true_eq, Nat.not_le]
  rw [ofExecutions, ← hrange]
  split
  · next hfind => simp [hfind]
  · next hfind => simp [hfind]

theorem observes_ofExecutions
    (h : ofExecutions executions processes channels how names = .ok (g, names')) :
    g.Observes (executions.flatMap (·.processes)) := by
  obtain ⟨-, rfl, -⟩ := ofExecutions_eq_ok.1 h
  exact ⟨fun t ht => records_observeAll ht names [],
    fun s hs => covered_observeAll (Nat.zero_le s) hs⟩

end First

/-! ### Words of the arena -/

/-- A trace goes on in one way only, so two ways to its end are one. -/
theorem Leads.unique {g : PartitionGraph} {s t t' : ObservationId} {es es' : List Event}
    (h : g.Leads s es t) (h' : g.Leads s es' t') (hend : g.next? t = none)
    (hend' : g.next? t' = none) : es = es' ∧ t = t' := by
  induction h generalizing es' with
  | stay s =>
      cases h' with
      | stay => exact ⟨rfl, rfl⟩
      | step hnext _ =>
          rw [hend] at hnext
          cases hnext
  | step hnext _ ih =>
      cases h' with
      | stay =>
          rw [hend'] at hnext
          cases hnext
      | step hnext' hrest' =>
          rw [hnext] at hnext'
          obtain ⟨rfl, rfl⟩ := Prod.mk.inj (Option.some.inj hnext')
          obtain ⟨rfl, rfl⟩ := ih hrest' hend
          exact ⟨rfl, rfl⟩

/-- The words along whole chains of the arena are the traces. -/
theorem Observes.observed_iff {g : PartitionGraph} {traces : List ProcessTrace}
    (h : g.Observes traces) (pid : ProcessId) (es : List Event) :
    g.Observed pid es ↔ ∃ t ∈ traces, t.pid = pid ∧ t.events.map (·.event) = es := by
  constructor
  · rintro ⟨s, u, hstart, hleads, hend⟩
    have hs : s < g.observations.length := by
      obtain ⟨o, ho, -⟩ := Option.any_eq_true _ _ |>.1 hstart
      exact observation?_lt ho
    obtain ⟨t, ht, here, hrec, i, hi, rfl⟩ := h.covered s hs
    rw [startsTrace_of_records hrec hi, decide_eq_true_eq] at hstart
    subst hstart
    have hu : u < g.observations.length := by
      obtain ⟨o, ho, -⟩ := Option.any_eq_true _ _ |>.1 hend
      exact observation?_lt ho
    have hdone : g.next? u = none := by
      obtain ⟨t', -, here', hrec', j, hj, rfl⟩ := h.covered u hu
      rw [endsTraceOf_of_records hrec' pid hj, Bool.and_eq_true, decide_eq_true_eq] at hend
      rw [next?_of_records hrec' hj, hend.1, List.getElem?_eq_none (Nat.le_refl _)]
      rfl
    have hlast : g.next? (here + t.events.length) = none := by
      rw [next?_of_records hrec (Nat.le_refl _), List.getElem?_eq_none (Nat.le_refl _)]
      rfl
    obtain ⟨rfl, rfl⟩ := hleads.unique (leads_of_records hrec hi) hdone hlast
    rw [endsTraceOf_of_records hrec pid (Nat.le_refl _), Bool.and_eq_true, decide_eq_true_eq,
      decide_eq_true_eq] at hend
    exact ⟨t, ht, hend.2, rfl⟩
  · rintro ⟨t, ht, rfl, rfl⟩
    obtain ⟨here, hrec⟩ := h.records t ht
    refine ⟨here, here + t.events.length, ?_, leads_of_records hrec (Nat.zero_le _), ?_⟩
    · exact (startsTrace_of_records hrec (Nat.zero_le _)).trans (decide_eq_true rfl)
    · simp [endsTraceOf_of_records hrec t.pid (Nat.le_refl _)]

end PartitionGraph

end ProtocolInference
