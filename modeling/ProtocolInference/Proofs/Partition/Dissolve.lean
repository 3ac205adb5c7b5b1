import ProtocolInference.Proofs.Partition.Ownership
import ProtocolInference.Proofs.Partition.Stitch
import ProtocolInference.Proofs.Partition.Words

/-!
What splitting can take away.

Partitions can be split until no two observations share one; the graph is
then *dissolved*. A walk of a dissolved graph has a single observation in
each of its partitions and is therefore a trace. So of the words of a
graph, splits can take away all that were not observed and none that were
(`Valid.observed_iff_forall_splits`).

A path that has no stitch is left alone by refinement. If it begins as a
trace does it is the path of a trace, and there is nothing to be taken
away. If not, some other split may still take its word away: a path
without events is never looked at, and the search for a stitch sets out
from all observations that take the first event of the path, whether or
not a trace begins there.
-/

namespace ProtocolInference

namespace PartitionGraph

variable {g g' : PartitionGraph} {pid : ProcessId} {es : List Event}

/-! ### Splitting to the end -/

/-- No two observations share a partition. -/
def IsDissolved (g : PartitionGraph) : Prop :=
  ∀ s t id, g.owner? s = some id → g.owner? t = some id → s = t

theorem Coherent.exists_splittable (h : g.Coherent) {s t : ObservationId} {id : PartitionId}
    (hs : g.owner? s = some id) (ht : g.owner? t = some id) (hne : s ≠ t) :
    ∃ p left right, g.Splittable id p left right := by
  obtain ⟨p, hp, hsp⟩ := h.partition?_isSome hs
  have htp : t ∈ p.members := (h.mem_members hp t).2 ht
  refine ⟨p, p.members.filter (· = s), p.members.filter (· ≠ s), hp, ?_, ?_, ?_, ?_⟩
  · exact List.ne_nil_of_mem (OrderedSet.mem_filter.2 ⟨hsp, decide_eq_true rfl⟩)
  · exact List.ne_nil_of_mem (OrderedSet.mem_filter.2 ⟨htp, decide_eq_true hne.symm⟩)
  · intro u hleft hright
    have heq := of_decide_eq_true (OrderedSet.mem_filter.1 hleft).2
    exact of_decide_eq_true (OrderedSet.mem_filter.1 hright).2 heq
  · intro u
    simp only [OrderedSet.mem_filter, decide_eq_true_eq, ← and_or_left, em, and_true]

theorem Valid.exists_isDissolved (h : g.Valid) : ∃ g', g.Splits g' ∧ g'.IsDissolved := by
  -- Every split brings the number of partitions closer to that of the observations.
  induction hn : g.observations.length - g.partitions.length using Nat.strongRecOn
    generalizing g with
  | ind n ih =>
      by_cases hd : g.IsDissolved
      · exact ⟨g, .none g, hd⟩
      · simp only [IsDissolved, not_forall] at hd
        obtain ⟨s, t, id, hs, ht, hne⟩ := hd
        obtain ⟨p, left, right, hsplittable⟩ := h.coherent.exists_splittable hs ht hne
        have hsplit := hsplittable.split_eq
        have h' := h.split hsplit
        have hlength := h.coherent.length_partitions_split hsplit
        have hle := h'.coherent.length_partitions_le
        have hobs : (g.splitInto p left right).observations = g.observations := rfl
        rw [hobs, hlength] at hle
        obtain ⟨g', hsplits, hd'⟩ := ih _ (by rw [← hn, hobs, hlength]; omega) h' rfl
        exact ⟨g', .split hsplit hsplits, hd'⟩

theorem IsDissolved.leads_of_walk (hd : g.IsDissolved) (h : g.Valid) {p q : PartitionId}
    (hwalk : g.Walk p es q) {s : ObservationId} (hs : g.owner? s = some p) :
    ∃ t, g.owner? t = some q ∧ g.Leads s es t := by
  induction hwalk generalizing s with
  | stay p => exact ⟨s, hs, .stay s⟩
  | step hedge _ ih =>
      obtain ⟨s', t', hnext, hs', ht'⟩ := h.hasEdge_iff.1 hedge
      obtain rfl := hd s s' _ hs hs'
      obtain ⟨t, ht, hleads⟩ := ih ht'
      exact ⟨t, ht, .step hnext hleads⟩

theorem IsDissolved.observed_of_admits (hd : g.IsDissolved) (h : g.Valid)
    (hadmits : g.Admits pid es) : g.Observed pid es := by
  have hc := h.coherent
  obtain ⟨p, q, hp, hinitial, hwalk, hterminal⟩ := hadmits
  obtain ⟨s, hs, hstart⟩ := hc.isInitial_iff.1 hinitial
  obtain ⟨u, hu, hend⟩ := hc.isTerminal_iff.1 hterminal
  obtain ⟨t, ht, hleads⟩ := hd.leads_of_walk h hwalk hs
  obtain rfl := hd t u q ht hu
  obtain ⟨o, ho⟩ := observation?_of_owner? hc hs
  obtain ⟨o', ho'⟩ := observation?_of_owner? hc ht
  refine ⟨s, t, hstart, hleads, (endsTraceOf_iff ho').2 ⟨hend, ?_⟩⟩
  rw [← h.linked.pid_of_leads hleads ho ho']
  exact (hc.isPartitionOf_iff hs ho).1 hp

/-- The words that no splits take away are those that were observed. -/
theorem Valid.observed_iff_forall_splits (h : g.Valid) :
    g.Observed pid es ↔ ∀ g', g.Splits g' → g'.Admits pid es := by
  constructor
  · intro hobs g' hsplits
    obtain ⟨h', hrefines⟩ := h.splits hsplits
    exact h'.admits_of_observed (observed_congr hrefines.observations_eq hobs)
  · intro hall
    obtain ⟨g', hsplits, hd⟩ := h.exists_isDissolved
    obtain ⟨h', hrefines⟩ := h.splits hsplits
    exact observed_congr hrefines.observations_eq.symm
      (hd.observed_of_admits h' (hall g' hsplits))

end PartitionGraph

namespace PartitionPath

open PartitionGraph

/-! ### Paths that are not split -/

/-- **A path that begins as a trace does and is not split is real**: no
further splits take its word away, as some trace of its process spells
it. In general, the words that cannot be split away are those of the
traces. And if no partition mixes the beginnings of traces with other
observations, a path between a beginning and an end that is not split
always begins as a trace does. -/
theorem unstitched_path_is_real {executions : List Execution} {processes : Nat}
    {channels : List Channel} {g g' : PartitionGraph} {path : PartitionPath}
    {opts : RefineOptions} (h : Arises executions processes channels g)
    (hrefine : path.refine g opts = .ok (g', .noStitch)) :
    (path.beginsTrace g = true →
      (∀ g'', g.Splits g'' → g''.Admits path.pid path.events) ∧
      ∃ t ∈ executions.flatMap (·.processes), t.pid = path.pid ∧
        t.events.map (·.event) = path.events) ∧
    (∀ pid es, (∀ g'', g.Splits g'' → g''.Admits pid es) ↔
      ∃ t ∈ executions.flatMap (·.processes), t.pid = pid ∧ t.events.map (·.event) = es) ∧
    (g.StartsApart → g.isPartitionOf path.pid path.start = true →
      g.isInitial path.start = true → g.isTerminal path.last = true →
      path.beginsTrace g = true) := by
  have hv := h.valid
  have hstitch : path.stitch? g = .ok none := by
    obtain ⟨-, -, hstitch⟩ | ⟨_, _, _, _, _, _, habsurd, -⟩ := refine_eq_ok hrefine
    · exact hstitch
    · cases habsurd
  refine ⟨fun hbegins => ?_, fun pid es => ?_, fun hapart hpid hstart hend => ?_⟩
  · have hobs := observed_of_beginsTrace hbegins hstitch
    exact ⟨hv.observed_iff_forall_splits.1 hobs, (h.observes.observed_iff _ _).1 hobs⟩
  · rw [← hv.observed_iff_forall_splits]
    exact h.observes.observed_iff pid es
  · exact beginsTrace_of_startsApart hv hapart hpid hstart hend hstitch

/-! ### A partition that mixes beginnings

One trace begins in a state `x` and leaves it with `e`; another one comes
through `x` twice. The partition of `x` holds the beginning of the first
and the end of the second trace, and so it admits the empty word and the
word `f`, of which neither was observed. -/

def mixedExecutions : List Execution :=
  [⟨[⟨0, some ["x", "y"], [⟨.internal 0 "e", 0⟩]⟩]⟩,
    ⟨[⟨0, some ["w", "x", "x"], [⟨.internal 0 "b", 0⟩, ⟨.internal 0 "f", 0⟩]⟩]⟩]

/-- Their first graph by names, in which `x` is partition 0. -/
def mixedGraph : PartitionGraph :=
  .ofArena 1 [] .byStateName
    (observeAll (mixedExecutions.flatMap (·.processes)) .standard []).1

theorem arises_mixedGraph : Arises mixedExecutions 1 [] mixedGraph :=
  .built (rfl : ofExecutions mixedExecutions 1 [] .byStateName .standard =
    .ok (mixedGraph, ⟨"a", 0⟩))

theorem mixedGraph_trace_is_real : Arises mixedExecutions 1 [] mixedGraph ∧
    ∃ path : PartitionPath, path.refine mixedGraph ⟨.complement, .left⟩ =
        .ok (mixedGraph, .noStitch) ∧ path.events = [.internal 0 "e"] ∧
      path.beginsTrace mixedGraph = true ∧
      ∀ g', mixedGraph.Splits g' → g'.Admits 0 [.internal 0 "e"] := by
  have hrefine : PartitionPath.refine ⟨0, 0, [(.internal 0 "e", 1)]⟩ mixedGraph
      ⟨.complement, .left⟩ = .ok (mixedGraph, .noStitch) := rfl
  have hreal := unstitched_path_is_real arises_mixedGraph hrefine
  exact ⟨arises_mixedGraph, _, hrefine, rfl, rfl, (hreal.1 rfl).1⟩

/-- The graph after the beginning of the first trace has been split off. -/
def unmixedGraph : PartitionGraph :=
  mixedGraph.splitInto ⟨0, 0, ⟨[0, 3, 4], by decide⟩⟩ ⟨[0], by decide⟩ ⟨[3, 4], by decide⟩

/-- Refinement finds no stitch in two paths from a partition in which a trace
begins to one in which a trace ends. But their words were not observed, and
there is a split after which no path has them. -/
theorem unstitched_words_split_away : Arises mixedExecutions 1 [] mixedGraph ∧
    mixedGraph.Splits unmixedGraph ∧
    ∀ path ∈ [(⟨0, 0, []⟩ : PartitionPath), ⟨0, 0, [(.internal 0 "f", 0)]⟩],
      path.isIn mixedGraph = true ∧ mixedGraph.isInitial path.start = true ∧
      mixedGraph.isTerminal path.last = true ∧
      path.refine mixedGraph ⟨.complement, .left⟩ = .ok (mixedGraph, .noStitch) ∧
      ¬ unmixedGraph.Admits path.pid path.events ∧
      ∀ t ∈ mixedExecutions.flatMap (·.processes), t.events.map (·.event) ≠ path.events := by
  have hsplit : mixedGraph.split 0 ⟨[0], by decide⟩ ⟨[3, 4], by decide⟩ =
      .ok (unmixedGraph, 3, 4) := rfl
  refine ⟨arises_mixedGraph, .split hsplit (.none _), ?_⟩
  simp only [List.forall_mem_cons, List.not_mem_nil, false_imp_iff, implies_true, and_true]
  exact ⟨⟨rfl, rfl, rfl, rfl, by decide, by decide⟩, rfl, rfl, rfl, rfl, by decide, by decide⟩

end PartitionPath

end ProtocolInference
