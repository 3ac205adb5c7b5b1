import Mathlib.Data.List.Induction
import ProtocolInference.Proofs.Partition.Calls
import ProtocolInference.Proofs.Partition.Naming

/-!
The arena retells the traces.

Whoever has the arena and nothing else can have the traces back: the
observations at which traces begin are looked up in the order of the arena,
and from each of them the links are followed until there is none. What is
told in this way are all the traces in the order in which they were given,
with the names that they give to their states (`Retells`). The traces fill
the arena one behind the other, so their beginnings can be computed from
their lengths (`firsts`), and these are the observations that are marked as
beginnings (`starts_eq_firsts`).

No call changes the arena, so it can be read in the same way after any
number of merges, splits, coarsenings and refinements, be it that they
succeed or that they fail (`arena_retells_traces`).
-/

namespace ProtocolInference

theorem ProcessTrace.getD_allNames {t : ProcessTrace} {i : Nat} {name : String}
    (hgiven : t.givenName? i = some name) (hi : i ≤ t.events.length) (names : StateNames) :
    (t.allNames names).getD i "" = name := by
  obtain ⟨given, hnames, hname⟩ := Option.bind_eq_some_iff.1 hgiven
  have hlt : i < t.length := Nat.lt_succ_of_le hi
  have hname : t.givenNames[i]? = some name := by
    rw [givenNames, hnames, Option.getD_some, List.getElem?_take_of_lt hlt, hname]
  rw [allNames, List.getD_eq_getElem?_getD,
    List.getElem?_append_left (List.getElem?_eq_some_iff.1 hname).1, hname, Option.getD_some]

namespace PartitionGraph

variable {g : PartitionGraph} {b s u : ObservationId} {es : List Event}

/-! ### Reading the arena -/

/-- The observations at which traces begin, in the order of the arena. -/
def starts (g : PartitionGraph) : List ObservationId :=
  (List.range g.observations.length).filter g.startsTrace

/-- The links that are followed from the observation `b` on, until there is none, tell
the trace. An observation that is met on the way belongs to the process of the trace,
and bears the name that the trace gives at that position, if it gives one. -/
structure Tells (g : PartitionGraph) (b : ObservationId) (t : ProcessTrace) : Prop where
  leads_to_end : ∃ u, g.Leads b (t.events.map (·.event)) u ∧ g.next? u = none
  observation_of_leads : ∀ es s, g.Leads b es s → ∃ o, g.observation? s = some o ∧
    o.pid = t.pid ∧ ∀ name, t.givenName? es.length = some name → o.name = name

/-- Read from where traces begin, the arena of the graph tells the traces, each of them
once and in their order, and leaves out no observation. -/
structure Retells (g : PartitionGraph) (traces : List ProcessTrace) : Prop
    extends Linked g where
  tells : List.Forall₂ g.Tells g.starts traces
  /-- The links cannot be followed for ever. -/
  exists_end : ∀ s < g.observations.length, ∃ es u, g.Leads s es u ∧ g.next? u = none
  /-- An observation belongs to one trace, and to one position of it. -/
  existsUnique_place : ∀ s < g.observations.length,
    ∃! place : ObservationId × List Event, place.1 ∈ g.starts ∧ g.Leads place.1 place.2 s

theorem mem_starts : b ∈ g.starts ↔ b < g.observations.length ∧ g.startsTrace b = true := by
  rw [starts, List.mem_filter, List.mem_range]

/-! ### Along the links and back -/

theorem leads_concat {e : Event} :
    g.Leads b (es ++ [e]) u ↔ ∃ s, g.Leads b es s ∧ g.next? s = some (e, u) := by
  induction es generalizing b with
  | nil =>
      constructor
      · rintro (_ | ⟨hnext, _ | _⟩)
        exact ⟨b, .stay b, hnext⟩
      · rintro ⟨s, _ | _, hnext⟩
        exact .step hnext (.stay u)
  | cons e' es ih =>
      constructor
      · rintro (_ | ⟨hnext, hrest⟩)
        obtain ⟨s, hleads, hlast⟩ := ih.1 hrest
        exact ⟨s, .step hnext hleads, hlast⟩
      · rintro ⟨s, _ | ⟨hnext, hrest⟩, hlast⟩
        exact .step hnext (ih.2 ⟨s, hrest, hlast⟩)

/-- An observation is met from one beginning only, and behind one sequence of
events. -/
theorem Linked.unique_of_leads (hl : g.Linked) {b' : ObservationId} {es' : List Event}
    (hb : g.prev? b = none) (hb' : g.prev? b' = none) (h : g.Leads b es s)
    (h' : g.Leads b' es' s) : b = b' ∧ es = es' := by
  -- Backwards from `s`, since the links back are those forth.
  induction es using List.reverseRecOn generalizing s es' with
  | nil =>
      cases h
      rcases List.eq_nil_or_concat' es' with rfl | ⟨es', e, rfl⟩
      · cases h'
        exact ⟨rfl, rfl⟩
      · obtain ⟨r, -, hnext⟩ := leads_concat.1 h'
        rw [(hl.next_iff_prev _ _ _).1 hnext] at hb
        cases hb
  | append_singleton es e ih =>
      obtain ⟨r, h, hnext⟩ := leads_concat.1 h
      have hprev := (hl.next_iff_prev _ _ _).1 hnext
      rcases List.eq_nil_or_concat' es' with rfl | ⟨es', e', rfl⟩
      · cases h'
        rw [hprev] at hb'
        cases hb'
      · obtain ⟨r', h', hnext'⟩ := leads_concat.1 h'
        have heq := hprev.symm.trans ((hl.next_iff_prev _ _ _).1 hnext')
        obtain ⟨rfl, rfl⟩ := Prod.mk.inj (Option.some.inj heq)
        obtain ⟨rfl, rfl⟩ := ih h h'
        exact ⟨rfl, rfl⟩

/-! ### One trace -/

section Records

variable {t : ProcessTrace} {here : ObservationId}

theorem next?_end_of_records (h : Records g.observations t here) :
    g.next? (here + t.events.length) = none := by
  rw [next?_of_records h (Nat.le_refl _), List.getElem?_eq_none (Nat.le_refl _), Option.map_none]

theorem leads_take_of_records (h : Records g.observations t here) {i : Nat}
    (hi : i ≤ t.events.length) : g.Leads here ((t.events.take i).map (·.event)) (here + i) := by
  have hleads := leads_between_of_records h (i := 0) (k := i) (by rwa [Nat.zero_add])
  rwa [List.drop_zero, Nat.zero_add] at hleads

/-- Whatever the links lead to is as far behind the beginning as there are events in
between. -/
theorem eq_of_leads_of_records (h : Records g.observations t here) (hleads : g.Leads here es s) :
    es.length ≤ t.events.length ∧ s = here + es.length := by
  induction es using List.reverseRecOn generalizing s with
  | nil =>
      cases hleads
      exact ⟨Nat.zero_le _, rfl⟩
  | append_singleton es e ih =>
      obtain ⟨r, hleads, hnext⟩ := leads_concat.1 hleads
      obtain ⟨hle, rfl⟩ := ih hleads
      rw [next?_of_records h hle, Option.map_eq_some_iff] at hnext
      obtain ⟨ev, hev, heq⟩ := hnext
      rw [List.length_append]
      exact ⟨(List.getElem?_eq_some_iff.1 hev).1, (Prod.mk.inj heq).2.symm⟩

theorem tells_of_records (h : Records g.observations t here) : g.Tells here t where
  leads_to_end := ⟨_, leads_of_records h (Nat.zero_le _), next?_end_of_records h⟩
  observation_of_leads es s hleads := by
    obtain ⟨hle, rfl⟩ := eq_of_leads_of_records h hleads
    obtain ⟨names, h⟩ := h
    exact ⟨_, h _ hle, rfl, fun name hgiven => ProcessTrace.getD_allNames hgiven hle names⟩

theorem filter_startsTrace_of_records (h : Records g.observations t here) :
    (List.range' here t.length).filter g.startsTrace = [here] := by
  have hfirst : g.startsTrace here = true :=
    (startsTrace_of_records h (Nat.zero_le _)).trans (decide_eq_true rfl)
  rw [ProcessTrace.length, List.range'_succ, List.filter_cons_of_pos hfirst, List.cons_inj_right,
    List.filter_eq_nil_iff]
  intro s hs
  obtain ⟨i, rfl⟩ := Nat.exists_eq_add_of_le (List.mem_range'_1.1 hs).1
  have hi : 1 + i ≤ t.events.length := by
    have hlt := (List.mem_range'_1.1 hs).2
    omega
  rw [Nat.add_assoc, startsTrace_of_records h hi, decide_eq_true_eq]
  omega

end Records

/-! ### All traces -/

/-- Where the traces begin that fill the arena from position `here` on. -/
def firsts (here : ObservationId) : List ProcessTrace → List ObservationId
  | [] => []
  | t :: traces => here :: firsts (here + t.length) traces

/-- How many positions the traces fill. -/
def extent : List ProcessTrace → Nat
  | [] => 0
  | t :: traces => t.length + extent traces

theorem records_observeAll_firsts (traces : List ProcessTrace) (names : StateNames)
    (arena : List Observation) :
    List.Forall₂ (fun here t => Records (observeAll traces names arena).1 t here)
      (firsts arena.length traces) traces := by
  induction traces generalizing names arena with
  | nil => exact .nil
  | cons t traces ih =>
      refine .cons (records_observeAll_head t traces names arena) ?_
      have hrest := ih (names.advance (t.length - t.givenNames.length))
        (arena ++ t.observe arena.length names)
      rwa [List.length_append, t.length_observe] at hrest

theorem length_observeAll (traces : List ProcessTrace) (names : StateNames)
    (arena : List Observation) :
    (observeAll traces names arena).1.length = arena.length + extent traces := by
  induction traces generalizing names arena with
  | nil => rfl
  | cons t traces ih =>
      rw [observeAll, ih, List.length_append, t.length_observe, extent, ProcessTrace.length,
        Nat.add_assoc]

theorem filter_startsTrace_eq_firsts {traces : List ProcessTrace} {here : ObservationId}
    (h : List.Forall₂ (fun here t => Records g.observations t here) (firsts here traces) traces) :
    (List.range' here (extent traces)).filter g.startsTrace = firsts here traces := by
  induction traces generalizing here with
  | nil => rfl
  | cons t traces ih =>
      obtain ⟨hhead, hrest⟩ := List.forall₂_cons.1 h
      rw [extent, ← List.range'_append_1, List.filter_append, filter_startsTrace_of_records hhead,
        ih hrest]
      rfl

section Observed

variable {traces : List ProcessTrace} {names : StateNames}

theorem starts_eq_firsts (h : g.observations = (observeAll traces names []).1) :
    g.starts = firsts 0 traces := by
  have hrecords := records_observeAll_firsts traces names []
  have hlength := length_observeAll traces names []
  rw [← h] at hrecords hlength
  rw [starts, hlength, List.length_nil, Nat.zero_add, List.range_eq_range']
  exact filter_startsTrace_eq_firsts hrecords

/-- An arena that observes traces, one behind the other, retells them. -/
theorem Observes.retells (hobserves : g.Observes traces)
    (h : g.observations = (observeAll traces names []).1) : g.Retells traces := by
  have hl := hobserves.linked
  have hprev {b : ObservationId} (hb : b ∈ g.starts) : g.prev? b = none :=
    (hl.startsTrace_iff b (mem_starts.1 hb).1).1 (mem_starts.1 hb).2
  refine ⟨hl, ?tells, fun s hs => ?ends, fun s hs => ?place⟩
  case tells =>
    have hrecords := records_observeAll_firsts traces names []
    rw [← h] at hrecords
    rw [starts_eq_firsts h]
    exact hrecords.imp fun _ _ => tells_of_records
  case ends =>
    obtain ⟨t, -, here, hrec, i, hi, rfl⟩ := hobserves.covered s hs
    exact ⟨_, _, leads_of_records hrec hi, next?_end_of_records hrec⟩
  case place =>
    obtain ⟨t, -, here, hrec, i, hi, rfl⟩ := hobserves.covered s hs
    have hleads := leads_take_of_records hrec hi
    have hhere : here ∈ g.starts := mem_starts.2
      ⟨Nat.lt_of_le_of_lt (Nat.le_add_right here i) hs,
        (startsTrace_of_records hrec (Nat.zero_le _)).trans (decide_eq_true rfl)⟩
    refine ⟨(here, _), ⟨hhere, hleads⟩, ?_⟩
    rintro ⟨b, es⟩ ⟨hb, hleads'⟩
    obtain ⟨rfl, rfl⟩ := hl.unique_of_leads (hprev hb) (hprev hhere) hleads' hleads
    rfl

end Observed

section First

variable {executions : List Execution} {processes : Nat} {channels : List Channel}
variable {how : InitialPartitioning} {names names' : StateNames}

theorem observations_ofExecutions
    (h : ofExecutions executions processes channels how names = .ok (g, names')) :
    g.observations = (observeAll (executions.flatMap (·.processes)) names []).1 := by
  obtain ⟨-, rfl, -⟩ := ofExecutions_eq_ok.1 h
  rfl

/-- **The arena is a faithful copy of the traces, for good.** Whatever calls are made on
a first graph, and whatever their answers are, the arena is the one that was built, and
it retells the traces of the executions. -/
theorem arena_retells_traces
    (h : ofExecutions executions processes channels how names = .ok (g, names'))
    (calls : List Call) :
    (g.afterCalls calls).observations = g.observations ∧
      (g.afterCalls calls).Retells (executions.flatMap (·.processes)) := by
  obtain ⟨harises, hkept⟩ := (Arises.built h).afterCalls calls
  exact ⟨hkept, harises.observes.retells (hkept.trans (observations_ofExecutions h))⟩

end First

/-- Some calls on the graph of the borrowed name: a merge with a partition that is not
there, a coarsening, and a split of the partition in which both traces begin. -/
def borrowingCalls : List Call :=
  [.merge 0 7, .coarsenByName, .split 0 (.ofList [0]) (.ofList [2])]

/-- The first call fails, the second takes a partition away and the third adds one. The
second trace is still told from the third observation on. -/
theorem borrowing_is_retold :
    ofExecutions borrowingExecutions 1 [] .byIncomingEvent .standard =
        .ok (borrowingGraph .byIncomingEvent, StateNames.standard.advance 2) ∧
      (borrowingGraph .byIncomingEvent).partitions.map (·.members.toList) = [[0, 2], [1], [3]] ∧
      ((borrowingGraph .byIncomingEvent).afterCalls borrowingCalls).partitions.map
        (·.members.toList) = [[1, 3], [0], [2]] ∧
      ((borrowingGraph .byIncomingEvent).afterCalls borrowingCalls).observations =
        (borrowingGraph .byIncomingEvent).observations ∧
      ((borrowingGraph .byIncomingEvent).afterCalls borrowingCalls).starts = [0, 2] ∧
      ((borrowingGraph .byIncomingEvent).afterCalls borrowingCalls).Tells 2
        ⟨0, some ["z", "a1"], [⟨.internal 0 "f", 0⟩]⟩ := by
  have hbuilt := ofExecutions_borrowing .byIncomingEvent
  obtain ⟨hkept, hretells⟩ := arena_retells_traces hbuilt borrowingCalls
  have hstarts := starts_eq_firsts (hkept.trans (observations_ofExecutions hbuilt))
  have htells := hretells.tells
  rw [hstarts] at htells
  obtain ⟨-, hrest⟩ := List.forall₂_cons.1 htells
  exact ⟨hbuilt, rfl, rfl, hkept, hstarts, (List.forall₂_cons.1 hrest).1⟩

end PartitionGraph

end ProtocolInference
