import ProtocolInference.Proofs.Partition.Refine

/-!
Where a refinement splits.

A refinement follows the members of the first partition that take the first
event, its *sources*, along the path. A place of the path is left
(`IsLeftAt`) if some source gets to it and does not go on as the path does.
The refinement splits the partition at the last such place, and if there is
none, it leaves the graph alone. Along a path of the graph which ends where
a trace does there is no other outcome (`refine_splits_at_last_stitch`).

All of this is said of the traces themselves, by the observations that
follow one another in them and by the partitions to which these belong.
-/

namespace ProtocolInference.PartitionPath

open PartitionGraph

variable {g g' : PartitionGraph} {path : PartitionPath} {k : Nat} {id : PartitionId}
variable {s : ObservationId}

/-- The observation is in the first partition of the path, and its trace goes
on with the first event. -/
def IsSource (path : PartitionPath) (g : PartitionGraph) (s : ObservationId) : Prop :=
  s ∈ g.membersOf path.start ∧ ∃ e t, path.events.head? = some e ∧ g.next? s = some (e, t)

/-- The trace of the observation goes on as the path does at place `k`, with the
next event and into the next partition. Where the path ends, so does the
trace. -/
def Continues (path : PartitionPath) (g : PartitionGraph) (k : Nat) (s : ObservationId) : Prop :=
  match path.steps[k]? with
  | none => g.endsTrace s = true
  | some (e, q) => ∃ t, g.next? s = some (e, t) ∧ g.owner? t = some q

/-- Some source follows the path as far as place `k`, and does not go on. -/
def IsLeftAt (path : PartitionPath) (g : PartitionGraph) (k : Nat) : Prop :=
  k ≤ path.steps.length ∧
    ∃ s u, path.IsSource g s ∧ g.Follows s (path.steps.take k) u ∧ ¬ path.Continues g k u

/-- Every source follows the path to the end, where its trace ends as well. -/
def IsBorneOut (path : PartitionPath) (g : PartitionGraph) : Prop :=
  ∀ s, path.IsSource g s → ∃ u, g.Follows s path.steps u ∧ g.endsTrace u = true

/-- The graph `g'` comes from `g` by splitting partition `id`, at place `k` of
the path, into `l` and `r`, as a refinement ought to. -/
structure SplitsAt (path : PartitionPath) (opts : RefineOptions) (g g' : PartitionGraph)
    (id : PartitionId) (k : Nat) (l r : PartitionId) : Prop where
  states_eq : path.states[k]? = some id
  isLeftAt : path.IsLeftAt g k
  isLast : ∀ j, path.IsLeftAt g j → j ≤ k
  divides : g.Divides g' id l r
  right : ∀ s ∈ g.membersOf id, path.Continues g k s → s ∈ g'.membersOf r
  left : opts.leftSet = .complement →
    ∀ s ∈ g.membersOf id, ¬ path.Continues g k s → s ∈ g'.membersOf l

/-! ### Sources and where they leave the path -/

theorem isSource_iff {e : Event} {q : PartitionId} {rest : List (Event × PartitionId)}
    (hsteps : path.steps = (e, q) :: rest) :
    path.IsSource g s ↔ s ∈ g.emitting path.start e := by
  rw [IsSource, emitting, List.mem_filter, events, hsteps, Option.any_eq_true]
  constructor
  · rintro ⟨hs, e', t, he, hnext⟩
    exact ⟨hs, (e', t), hnext, decide_eq_true (Option.some.inj he).symm⟩
  · rintro ⟨hs, ⟨e', t⟩, hnext, he⟩
    exact ⟨hs, e', t, congrArg some (of_decide_eq_true he).symm, hnext⟩

section Graph

variable (hv : g.Valid) (hin : path.isIn g = true)

include hv hin

theorem continues_iff (hid : path.states[k]? = some id) (hs : g.owner? s = some id) :
    path.Continues g k s ↔ path.goesOn g k s = true := by
  rw [Continues, goesOn]
  cases path.steps[k]? with
  | none =>
      obtain ⟨o, ho⟩ := observation?_of_owner? hv.coherent hs
      have hpid := (hv.coherent.isPartitionOf_iff hs ho).1 (isPartitionOf_of_isIn hv hin hid)
      exact ⟨fun hends => (endsTraceOf_iff ho).2 ⟨hends, hpid⟩,
        fun hends => ((endsTraceOf_iff ho).1 hends).1⟩
  | some step =>
      show (∃ t, _) ↔ (g.successor? s step.1 step.2).isSome = true
      rw [Option.isSome_iff_exists]
      exact exists_congr fun t => successor?_eq_some.symm

/-- Where a source that follows the first steps is, it goes on if and only if the
search says so. -/
theorem continues_iff_of_follows {u : ObservationId} (hs : path.IsSource g s)
    (hk : k ≤ path.steps.length) (h : g.Follows s (path.steps.take k) u) :
    path.Continues g k u ↔ path.goesOn g k u = true := by
  obtain ⟨id, hid, hu⟩ := h.owner? hk (hv.coherent.mem_membersOf.1 hs.1)
  exact continues_iff hv hin hid hu

theorem isLeftAt_iff :
    path.IsLeftAt g k ↔ ∃ s, path.IsSource g s ∧ path.leavesAt? g s = some k := by
  constructor
  · rintro ⟨hk, s, u, hs, hfollows, hstays⟩
    rw [continues_iff_of_follows hv hin hs hk hfollows, Bool.not_eq_true] at hstays
    exact ⟨s, hs, leavesAt?_of_follows hk hfollows hstays⟩
  · rintro ⟨s, hs, hleaves⟩
    obtain ⟨hnone, -⟩ | ⟨k', u, hk', hle, hfollows, hstays⟩ := leavesAt?_cases path g s
    · rw [hnone] at hleaves
      cases hleaves
    · obtain rfl := Option.some.inj (hk'.symm.trans hleaves)
      refine ⟨hle, s, u, hs, hfollows, ?_⟩
      rw [continues_iff_of_follows hv hin hs hle hfollows, hstays]
      exact Bool.false_ne_true

theorem isBorneOut_iff :
    path.IsBorneOut g ↔ ∀ s, path.IsSource g s → path.leavesAt? g s = none := by
  have hlength : path.steps[path.steps.length]? = none :=
    List.getElem?_eq_none (Nat.le_refl _)
  refine forall₂_congr fun s hs => ?_
  obtain ⟨hnone, u, hfollows, hends⟩ | ⟨k, u, hk, hle, hfollows, hstays⟩ := leavesAt?_cases path g s
  · refine iff_of_true ⟨u, hfollows, ?_⟩ hnone
    have hgoes := (continues_iff_of_follows hv hin hs (Nat.le_refl _)
      (by rwa [List.take_length])).2 (by rwa [goesOn, hlength])
    rwa [Continues, hlength] at hgoes
  · refine iff_of_false ?_ (by rw [hk]; exact Option.some_ne_none k)
    rintro ⟨v, hall, hends⟩
    have hgoes : path.goesOn g path.steps.length v = true :=
      (continues_iff_of_follows hv hin hs (Nat.le_refl _) (by rwa [List.take_length])).1
        (by rwa [Continues, hlength])
    have hfollow := hall.follow_append []
    rw [List.append_nil] at hfollow
    rw [goesOn, hlength] at hgoes
    rw [leavesAt?, hfollow] at hk
    dsimp only [follow] at hk
    rw [if_pos hgoes] at hk
    cases hk

theorem isLast_of_stitch? {e : Event} {q : PartitionId} {rest : List (Event × PartitionId)}
    (hsteps : path.steps = (e, q) :: rest) (h : path.stitch? g = .ok (some k)) :
    path.IsLeftAt g k ∧ ∀ j, path.IsLeftAt g j → j ≤ k := by
  have hplaces {j : Nat} : path.IsLeftAt g j ↔
      j ∈ (g.emitting path.start e).filterMap (path.leavesAt? g) := by
    rw [isLeftAt_iff hv hin, List.mem_filterMap]
    exact exists_congr fun s => and_congr_left' (isSource_iff hsteps)
  obtain ⟨hmem, hle⟩ := List.max?_eq_some_iff.1 (stitch?_eq_ok hsteps h).symm
  exact ⟨hplaces.2 hmem, fun j hj => hle j (hplaces.1 hj)⟩

theorem splitsAt_of_stitch? (hend : g.isTerminal path.last = true) (opts : RefineOptions)
    (hsteps : path.steps ≠ []) (h : path.stitch? g = .ok (some k)) :
    ∃ g' id l r, path.refine g opts = .ok (g', .refined id k l r) ∧
      path.SplitsAt opts g g' id k l r := by
  obtain ⟨id, p, left, right, hid, hsplittable, hright, hleft, hrefine⟩ :=
    refine_of_stitch hv hin hend opts h
  obtain ⟨⟨e, q⟩, rest, hcons⟩ := List.exists_cons_of_ne_nil hsteps
  obtain ⟨hplace, hlast⟩ := isLast_of_stitch? hv hin hcons h
  have hc := hv.coherent
  have hmember {t : ObservationId} (ht : t ∈ g.membersOf id) :
      t ∈ p.members ∧ (path.Continues g k t ↔ path.goesOn g k t = true) := by
    rw [hc.mem_membersOf] at ht
    exact ⟨(hc.mem_members hsplittable.partition_eq t).2 ht, continues_iff hv hin hid ht⟩
  refine ⟨_, id, _, _, hrefine, hid, hplace, hlast, hv.divides_splitInto hsplittable,
    fun t ht hcontinues => ?_, fun hcomplement t ht hstays => ?_⟩
  · rw [membersOf_splitInto_right hv hsplittable]
    exact hright t (hmember ht).1 ((hmember ht).2.1 hcontinues)
  · rw [(hmember ht).2, Bool.not_eq_true] at hstays
    rw [membersOf_splitInto_left hv hsplittable]
    exact hleft hcomplement t (hmember ht).1 hstays

end Graph

/-! ### The outcome of a refinement -/

/-- **A refinement splits at the last stitch and never fails** along a path of
the graph with at least one step, whose last partition holds the end of a
trace. It leaves the graph alone if and only if the path is borne out by its
sources. -/
theorem refine_splits_at_last_stitch {executions : List Execution} {processes : Nat}
    {channels : List Channel} (hg : Arises executions processes channels g)
    (hin : path.isIn g = true) (hsteps : path.steps ≠ []) (hend : g.isTerminal path.last = true)
    (opts : RefineOptions) :
    ∃ g' outcome, path.refine g opts = .ok (g', outcome) ∧
      (outcome = .noStitch ↔ path.IsBorneOut g) ∧
      (outcome = .noStitch → g' = g) ∧
      ∀ id k l r, outcome = .refined id k l r → path.SplitsAt opts g g' id k l r := by
  have hv := hg.valid
  obtain ⟨found, hfound⟩ := exists_stitch? hv hin
  cases found with
  | none =>
      have hborne : path.IsBorneOut g := by
        obtain ⟨⟨e, q⟩, rest, hcons⟩ := List.exists_cons_of_ne_nil hsteps
        refine (isBorneOut_iff hv hin).2 fun s hs => ?_
        exact (stitch?_eq_none hcons hfound).2 s ((isSource_iff hcons).1 hs)
      have hrefine : path.refine g opts = .ok (g, .noStitch) := by
        rw [refine, hfound]
        rfl
      exact ⟨g, .noStitch, hrefine, iff_of_true rfl hborne, fun _ => rfl, fun _ _ _ _ h => by cases h⟩
  | some k =>
      obtain ⟨g', id, l, r, hrefine, hsplits⟩ :=
        splitsAt_of_stitch? hv hin hend opts hsteps hfound
      have hleft : ¬ path.IsBorneOut g := by
        obtain ⟨s, hs, hleaves⟩ := (isLeftAt_iff hv hin).1 hsplits.isLeftAt
        intro hborne
        rw [(isBorneOut_iff hv hin).1 hborne s hs] at hleaves
        cases hleaves
      refine ⟨g', .refined id k l r, hrefine, iff_of_false (fun h => ?_) hleft, fun h => ?_,
        fun id' k' l' r' h => ?_⟩
      · cases h
      · cases h
      · obtain ⟨rfl, rfl, rfl, rfl⟩ := RefineOutcome.refined.inj h
        exact hsplits

/-- The traces are `x x y` and `x`. The first one follows the path `x x x y`
through the circle twice and then takes `y`, so the path is left last at its
third partition, which is that of the circle. -/
theorem loopGraph_splits_at_last_stitch :
    ∃ path : PartitionPath, path.states = [0, 1, 1, 1, 2] ∧ path.isIn loopGraph = true ∧
      ∃ g', path.SplitsAt ⟨.complement, .seeded 7⟩ loopGraph g' 1 2 3 4 ∧
        g'.membersOf 3 = [2, 5] ∧ g'.membersOf 4 = [1] := by
  have harises : Arises loopExecutions 1 [] loopGraph :=
    .built (rfl : ofExecutions loopExecutions 1 [] .byIncomingEvent .standard =
      .ok (loopGraph, ⟨"a", 6⟩))
  have hin : isIn ⟨0, 0, [(.internal 0 "x", 1), (.internal 0 "x", 1), (.internal 0 "x", 1),
      (.internal 0 "y", 2)]⟩ loopGraph = true := rfl
  have hrefine : (refine ⟨0, 0, [(.internal 0 "x", 1), (.internal 0 "x", 1),
      (.internal 0 "x", 1), (.internal 0 "y", 2)]⟩ loopGraph ⟨.complement, .seeded 7⟩).map
        (fun x => (x.2, x.1.membersOf 3, x.1.membersOf 4)) =
      .ok (.refined 1 2 3 4, [2, 5], [1]) := rfl
  obtain ⟨g', outcome, hok, -, -, hsplits⟩ := refine_splits_at_last_stitch harises hin
    (List.cons_ne_nil _ _) rfl ⟨.complement, .seeded 7⟩
  rw [hok] at hrefine
  obtain ⟨rfl, hmembers⟩ := Prod.mk.inj (Except.ok.inj hrefine)
  obtain ⟨hl, hr⟩ := Prod.mk.inj hmembers
  exact ⟨_, rfl, hin, g', hsplits 1 2 3 4 rfl, hl, hr⟩

end ProtocolInference.PartitionPath
