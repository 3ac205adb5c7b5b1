import ProtocolInference.Proofs.Partition.Behaviour

/-!
A path without a stitch.

If no observation that follows a path leaves it, the path ought to be the
path of some trace. What stands in the way is that the observations which
follow the path need not be ones at which a trace begins: the first
partition of the path holds *some* such observation, but perhaps another
one. So the path is that of a trace if a trace begins as the path does
(`beginsTrace`). Where partitions do not mix the beginnings of traces with
other observations (`StartsApart`) this is always so. The first graph has
this property if it is built by incoming events, and a graph that refines
it has it as well, so it holds throughout a refinement.
-/

namespace ProtocolInference

namespace PartitionGraph

variable {g g' : PartitionGraph}

/-! ### Beginnings of traces -/

/-- Observations of one partition agree on whether a trace begins there. -/
def StartsApart (g : PartitionGraph) : Prop :=
  ∀ s t, g.owner? s = g.owner? t → g.startsTrace s = g.startsTrace t

theorem Refines.startsApart (h : Refines g' g) (hg : g.StartsApart) : g'.StartsApart := by
  intro s t hst
  rw [h.startsTrace_eq, h.startsTrace_eq]
  exact hg s t (h.owner?_eq s t hst)

theorem startsApart_ofArena {processes : Nat} {channels : List Channel}
    {arena : List Observation}
    (hl : (ofArena processes channels .byIncomingEvent arena).Linked) :
    (ofArena processes channels .byIncomingEvent arena).StartsApart := by
  intro s t hst
  cases hs : (ofArena processes channels .byIncomingEvent arena).owner? s with
  | none =>
      have hout {u : Nat}
          (hu : (ofArena processes channels .byIncomingEvent arena).owner? u = none) :
          (ofArena processes channels .byIncomingEvent arena).startsTrace u = false := by
        rw [owner?_ofArena, Option.map_eq_none_iff] at hu
        rw [startsTrace, observation?]
        exact congrArg (Option.any _) hu
      rw [hout hs, hout (hst ▸ hs)]
  | some i =>
      obtain ⟨o, ho, hkey⟩ := owner?_ofArena_eq_some.1 hs
      obtain ⟨o', ho', hkey'⟩ := owner?_ofArena_eq_some.1 (hst ▸ hs)
      have hevents : o.prev.map Prod.fst = o'.prev.map Prod.fst :=
        GroupKey.incoming.inj (Prod.mk.inj (Option.some.inj (hkey.symm.trans hkey'))).2
      have hnone : o.prev = none ↔ o'.prev = none := by
        rw [← Option.map_eq_none_iff (f := Prod.fst), hevents, Option.map_eq_none_iff]
      have hprev {u : Nat} {o : Observation} (ho : arena[u]? = some o) :
          (ofArena processes channels .byIncomingEvent arena).prev? u = o.prev := by
        rw [prev?, observation?]
        exact congrArg (Option.bind · _) ho
      rw [Bool.eq_iff_iff, hl.startsTrace_iff s (List.getElem?_eq_some_iff.1 ho).1,
        hl.startsTrace_iff t (List.getElem?_eq_some_iff.1 ho').1, hprev ho, hprev ho', hnone]

theorem startsApart_ofExecutions {executions : List Execution} {processes : Nat}
    {channels : List Channel} {names names' : StateNames}
    (h : ofExecutions executions processes channels .byIncomingEvent names = .ok (g, names')) :
    g.StartsApart := by
  have hl := (observes_ofExecutions h).linked
  obtain ⟨-, rfl, -⟩ := ofExecutions_eq_ok.1 h
  exact startsApart_ofArena hl

/-! ### Following a path -/

theorem successor?_eq_some {s t : ObservationId} {e : Event} {p : PartitionId} :
    g.successor? s e p = some t ↔ g.next? s = some (e, t) ∧ g.owner? t = some p := by
  rw [successor?]
  cases hnext : g.next? s with
  | none => simp
  | some next =>
      obtain ⟨e', t'⟩ := next
      by_cases h : e' = e ∧ g.owner? t' = some p
      · simp only [h, and_self, if_true, Option.some.injEq, Prod.mk.injEq, true_and]
        constructor
        · rintro rfl
          exact ⟨rfl, h.2⟩
        · exact fun ht => ht.1
      · simp only [h, if_false, reduceCtorEq, Option.some.injEq, Prod.mk.injEq, false_iff]
        rintro ⟨⟨rfl, rfl⟩, ht⟩
        exact h ⟨rfl, ht⟩

theorem Coherent.mem_membersOf (h : g.Coherent) {id : PartitionId} {s : ObservationId} :
    s ∈ g.membersOf id ↔ g.owner? s = some id := by
  cases hp : g.partition? id with
  | none =>
      rw [membersOf, hp]
      refine iff_of_false List.not_mem_nil fun hs => ?_
      obtain ⟨p, hp', -⟩ := h.partition?_isSome hs
      rw [hp] at hp'
      cases hp'
  | some p =>
      rw [membersOf, hp]
      exact h.mem_members hp s

theorem leads_of_follow {s t : ObservationId} {steps : List (Event × PartitionId)} {n : Nat}
    (h : g.follow s steps = (n, some t)) : g.Leads s (steps.map Prod.fst) t := by
  induction steps generalizing s n with
  | nil =>
      obtain ⟨-, ht⟩ := Prod.mk.inj h
      rw [Option.some.inj ht]
      exact .stay _
  | cons step steps ih =>
      obtain ⟨e, p⟩ := step
      rw [follow] at h
      cases hsucc : g.successor? s e p with
      | none =>
          rw [hsucc] at h
          cases h
      | some u =>
          rw [hsucc] at h
          obtain ⟨-, hfinal⟩ := Prod.mk.inj h
          exact .step (successor?_eq_some.1 hsucc).1 (ih (Prod.ext rfl hfinal))

end PartitionGraph

namespace PartitionPath

open PartitionGraph

variable {g : PartitionGraph} {path : PartitionPath}

theorem leavesAt?_eq_none {s : ObservationId} (h : path.leavesAt? g s = none) :
    ∃ t, g.Leads s path.events t ∧ g.endsTraceOf path.pid t = true := by
  rw [leavesAt?] at h
  split at h
  · next n t hfollow =>
    split at h
    · next hend => exact ⟨t, leads_of_follow hfollow, hend⟩
    · cases h
  · cases h

/-- If there is no stitch in a path that has steps, some observation goes on
with the first step, and all that do follow the path to its end. -/
theorem stitch?_eq_none {e : Event} {p : PartitionId} {rest : List (Event × PartitionId)}
    (hsteps : path.steps = (e, p) :: rest) (h : path.stitch? g = .ok none) :
    (∃ s, s ∈ g.emitting path.start e) ∧
      ∀ s ∈ g.emitting path.start e, path.leavesAt? g s = none := by
  simp only [stitch?, hsteps, bind_eq_ok, error_bind, check_eq_ok, pure_eq_ok] at h
  obtain ⟨-, -, hsources, hmax⟩ := h
  refine ⟨List.exists_mem_of_ne_nil _ fun hnil => hsources (List.isEmpty_iff.2 hnil), ?_⟩
  intro s hs
  cases hleaves : path.leavesAt? g s with
  | none => rfl
  | some k =>
      have hmem : k ∈ (g.emitting path.start e).filterMap (path.leavesAt? g) :=
        List.mem_filterMap.2 ⟨s, hs, hleaves⟩
      rw [List.max?_eq_none_iff.1 hmax] at hmem
      cases hmem

/-! ### Paths of traces -/

/-- Whether some trace begins in the first partition of the path and takes
its first event; if the path has no events, the trace has to end where it
begins. -/
def beginsTrace (path : PartitionPath) (g : PartitionGraph) : Bool :=
  (g.membersOf path.start).any fun s => g.startsTrace s &&
    match path.steps with
    | [] => g.endsTraceOf path.pid s
    | (e, _) :: _ => (g.next? s).any (·.1 = e)

theorem observed_of_beginsTrace (hbegins : path.beginsTrace g = true)
    (h : path.stitch? g = .ok none) : g.Observed path.pid path.events := by
  obtain ⟨s, hs, hbegins⟩ := List.any_eq_true.1 hbegins
  obtain ⟨hstart, hfirst⟩ := (Bool.and_eq_true _ _).mp hbegins
  cases hsteps : path.steps with
  | nil =>
      rw [hsteps] at hfirst
      refine ⟨s, s, hstart, ?_, hfirst⟩
      rw [events, hsteps]
      exact .stay s
  | cons step rest =>
      obtain ⟨e, p⟩ := step
      rw [hsteps] at hfirst
      have hmem : s ∈ g.emitting path.start e := List.mem_filter.2 ⟨hs, hfirst⟩
      obtain ⟨t, hleads, hend⟩ := leavesAt?_eq_none ((stitch?_eq_none hsteps h).2 s hmem)
      exact ⟨s, t, hstart, hleads, hend⟩

/-- Where no partition mixes the beginnings of traces with other
observations, a path without a stitch from a partition in which traces
begin to one in which traces end begins as a trace does. -/
theorem beginsTrace_of_startsApart (hv : g.Valid) (hapart : g.StartsApart)
    (hpid : g.isPartitionOf path.pid path.start = true) (hstart : g.isInitial path.start = true)
    (hend : g.isTerminal path.last = true) (h : path.stitch? g = .ok none) :
    path.beginsTrace g = true := by
  have hc := hv.coherent
  obtain ⟨s, hs, hbegins⟩ := hc.isInitial_iff.1 hstart
  rw [beginsTrace, List.any_eq_true]
  cases hsteps : path.steps with
  | nil =>
      rw [last, hsteps] at hend
      obtain ⟨t, ht, hends⟩ := hc.isTerminal_iff.1 hend
      obtain ⟨o, ho⟩ := observation?_of_owner? hc ht
      refine ⟨t, hc.mem_membersOf.2 ht, ?_⟩
      rw [← hapart s t (hs.trans ht.symm), hbegins, Bool.true_and]
      exact (endsTraceOf_iff ho).2 ⟨hends, (hc.isPartitionOf_iff ht ho).1 hpid⟩
  | cons step rest =>
      obtain ⟨e, p⟩ := step
      obtain ⟨⟨u, hu⟩, -⟩ := stitch?_eq_none hsteps h
      obtain ⟨hmem, hemits⟩ := List.mem_filter.1 hu
      refine ⟨u, hmem, ?_⟩
      rw [← hapart s u (hs.trans (hc.mem_membersOf.1 hmem).symm), hbegins, Bool.true_and]
      exact hemits

theorem observed_of_stitch?_eq_none (hv : g.Valid) (hapart : g.StartsApart)
    (hpid : g.isPartitionOf path.pid path.start = true) (hstart : g.isInitial path.start = true)
    (hend : g.isTerminal path.last = true) (h : path.stitch? g = .ok none) :
    g.Observed path.pid path.events :=
  observed_of_beginsTrace (beginsTrace_of_startsApart hv hapart hpid hstart hend h) h

end PartitionPath

end ProtocolInference
