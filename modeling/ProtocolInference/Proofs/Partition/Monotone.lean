import ProtocolInference.Proofs.Partition.Behaviour
import ProtocolInference.Proofs.Partition.Words

/-!
What each operation does to the words of a graph.

A split takes words away or leaves them as they are, and a merge adds
words or leaves them (`Narrows`). Both concern the process of the
partition that is split or merged; two graphs that divide the
observations of a process alike (`AgreesOn`) admit the same words for it,
whatever they do to the others. A refinement is a split and a coarsening
is made of merges, so this settles every operation.
-/

namespace ProtocolInference.PartitionGraph

variable {g g' g'' : PartitionGraph} {pid : ProcessId} {es : List Event} {id : PartitionId}

/-! ### Processes that are left alone -/

/-- The two graphs have the same arena, and the observations of the process
are in partitions of the same numbers. -/
structure AgreesOn (pid : ProcessId) (g g' : PartitionGraph) : Prop where
  observations_eq : g'.observations = g.observations
  owner?_eq : ∀ s o, g.observation? s = some o → o.pid = pid → g'.owner? s = g.owner? s

namespace AgreesOn

theorem symm (h : AgreesOn pid g g') : AgreesOn pid g' g where
  observations_eq := h.observations_eq.symm
  owner?_eq s o ho hpid := by
    rw [observation?_congr h.observations_eq] at ho
    exact (h.owner?_eq s o ho hpid).symm

/-- An observation of a partition of the process is in the partition of the
same number in the other graph. -/
theorem owner?_of_isPartitionOf (h : AgreesOn pid g g') (hv : g.Valid)
    (hid : g.isPartitionOf pid id = true) {s : ObservationId} (hs : g.owner? s = some id) :
    g'.owner? s = some id := by
  obtain ⟨o, ho⟩ := observation?_of_owner? hv.coherent hs
  rw [h.owner?_eq s o ho ((hv.coherent.isPartitionOf_iff hs ho).1 hid), hs]

theorem hasEdge (h : AgreesOn pid g g') (hv : g.Valid) (hv' : g'.Valid) {p q : PartitionId}
    {e : Event} (hp : g.isPartitionOf pid p = true) (hedge : g.hasEdge p e q = true) :
    g'.hasEdge p e q = true ∧ g.isPartitionOf pid q = true := by
  obtain ⟨s, t, hnext, hs, ht⟩ := hv.hasEdge_iff.1 hedge
  obtain ⟨o, ho⟩ := observation?_of_owner? hv.coherent hs
  obtain ⟨o', ho'⟩ := observation?_of_owner? hv.coherent ht
  have hq : g.isPartitionOf pid q = true := by
    rw [hv.coherent.isPartitionOf_iff ht ho', ← hv.linked.pid_eq _ _ _ _ _ hnext ho ho']
    exact (hv.coherent.isPartitionOf_iff hs ho).1 hp
  refine ⟨hv'.hasEdge_iff.2 ⟨s, t, ?_, ?_, ?_⟩, hq⟩
  · rwa [next?_congr h.observations_eq]
  · exact h.owner?_of_isPartitionOf hv hp hs
  · exact h.owner?_of_isPartitionOf hv hq ht

theorem walk (h : AgreesOn pid g g') (hv : g.Valid) (hv' : g'.Valid) {p q : PartitionId}
    (hp : g.isPartitionOf pid p = true) (hwalk : g.Walk p es q) :
    g'.Walk p es q ∧ g.isPartitionOf pid q = true := by
  induction hwalk with
  | stay p => exact ⟨.stay p, hp⟩
  | step hedge _ ih =>
      obtain ⟨hedge', hmid⟩ := h.hasEdge hv hv' hp hedge
      obtain ⟨hwalk', hq⟩ := ih hmid
      exact ⟨.step hedge' hwalk', hq⟩

theorem admits (h : AgreesOn pid g g') (hv : g.Valid) (hv' : g'.Valid)
    (hadmits : g.Admits pid es) : g'.Admits pid es := by
  obtain ⟨p, q, hp, hinitial, hwalk, hterminal⟩ := hadmits
  obtain ⟨hwalk', hq⟩ := h.walk hv hv' hp hwalk
  obtain ⟨s, hs, hstart⟩ := hv.coherent.isInitial_iff.1 hinitial
  obtain ⟨t, ht, hend⟩ := hv.coherent.isTerminal_iff.1 hterminal
  obtain ⟨o, ho⟩ := observation?_of_owner? hv.coherent hs
  have hs' := h.owner?_of_isPartitionOf hv hp hs
  have ho' : g'.observation? s = some o := by rwa [observation?_congr h.observations_eq]
  refine ⟨p, q, ?_, ?_, hwalk', ?_⟩
  · rw [hv'.coherent.isPartitionOf_iff hs' ho']
    exact (hv.coherent.isPartitionOf_iff hs ho).1 hp
  · refine hv'.coherent.isInitial_iff.2 ⟨s, hs', ?_⟩
    rwa [startsTrace_congr h.observations_eq]
  · refine hv'.coherent.isTerminal_iff.2 ⟨t, h.owner?_of_isPartitionOf hv hq ht, ?_⟩
    rwa [endsTrace_congr h.observations_eq]

theorem admits_iff (h : AgreesOn pid g g') (hv : g.Valid) (hv' : g'.Valid) :
    g'.Admits pid es ↔ g.Admits pid es := ⟨h.symm.admits hv' hv, h.admits hv hv'⟩

end AgreesOn

theorem Valid.agreesOn_merged (h : g.Valid) {retain remove : PartitionId} {kept gone : Partition}
    (hm : g.Mergeable retain remove kept gone) (hpid : ¬ g.isPartitionOf pid retain = true) :
    AgreesOn pid g (g.merged retain gone) where
  observations_eq := rfl
  owner?_eq s o ho hs := by
    rw [owner?_merged h.coherent hm, if_neg]
    intro hmem
    rw [isPartitionOf, hm.kept_eq, Option.any_some, decide_eq_true_eq, hm.pid_eq,
      ← h.coherent.pid_of_mem hm.gone_eq hmem ho] at hpid
    exact hpid hs

theorem Valid.agreesOn_splitInto (h : g.Valid) {p : Partition}
    {left right : OrderedSet ObservationId} (hs : g.Splittable id p left right)
    (hpid : ¬ g.isPartitionOf pid id = true) : AgreesOn pid g (g.splitInto p left right) where
  observations_eq := rfl
  owner?_eq s o ho hso := by
    have hout : s ∉ p.members := by
      intro hmem
      rw [isPartitionOf, hs.partition_eq, Option.any_some, decide_eq_true_eq,
        ← h.coherent.pid_of_mem hs.partition_eq hmem ho] at hpid
      exact hpid hso
    rw [hs.mem_iff, not_or] at hout
    rw [owner?_splitInto h.coherent hs, if_neg hout.1, if_neg hout.2]

/-- Two graphs that list the same partitions of a process agree on it. -/
theorem Valid.agreesOn_of_partitionsOf_eq (h : g.Valid) (h' : g'.Valid)
    (hobs : g'.observations = g.observations) (hsame : g'.partitionsOf pid = g.partitionsOf pid) :
    AgreesOn pid g g' where
  observations_eq := hobs
  owner?_eq s o ho hpid := by
    obtain ⟨p, hp, hmem⟩ := h.coherent.exists_partition (observation?_lt ho)
    have hpart : p ∈ g.partitionsOf pid := by
      refine List.mem_filter.2 ⟨(partition?_eq_some hp).1, decide_eq_true ?_⟩
      exact (h.coherent.pid_of_mem hp hmem ho).symm.trans hpid
    rw [← hsame] at hpart
    rw [(h'.coherent.mem_iff_owner p (List.mem_of_mem_filter hpart) s).1 hmem,
      (h.coherent.mem_iff_owner p (partition?_eq_some hp).1 s).1 hmem]

/-! ### Less behaviour -/

/-- The second graph admits no word that the first one does not, and for a
process that is not affected the two admit the same words. -/
structure Narrows (g g' : PartitionGraph) (affected : ProcessId → Prop) : Prop where
  admits : ∀ {pid es}, g'.Admits pid es → g.Admits pid es
  admits_iff : ∀ {pid es}, ¬ affected pid → (g'.Admits pid es ↔ g.Admits pid es)

theorem Valid.narrows_split (h : g.Valid) {l r : PartitionId}
    {left right : OrderedSet ObservationId} (hsplit : g.split id left right = .ok (g', l, r)) :
    g.Narrows g' (g.isPartitionOf · id) := by
  have h' := h.split hsplit
  have hrefines := h.refines_split hsplit
  obtain ⟨p, hs, rfl, -, -⟩ := split_eq_ok hsplit
  exact ⟨hrefines.admits h h', fun hpid => (h.agreesOn_splitInto hs hpid).admits_iff h h'⟩

theorem Valid.narrows_merge (h : g.Valid) {retain remove : PartitionId}
    (hmerge : g.merge retain remove = .ok g') : g'.Narrows g (g.isPartitionOf · retain) := by
  have h' := h.merge hmerge
  obtain ⟨kept, gone, hm, rfl⟩ := merge_eq_ok hmerge
  refine ⟨(h.refines_merged hm).admits h' h, fun hpid => ?_⟩
  exact ((h.agreesOn_merged hm hpid).admits_iff h h').symm

theorem Valid.refines_coarsenByName (h : g.Valid) {merges : Nat}
    (hcoarsen : g.coarsenByName = .ok (g', merges)) : g'.Valid ∧ Refines g g' := by
  refine coarsenByName_induction (P := fun g' => g'.Valid ∧ Refines g g') ?_ hcoarsen
    ⟨h, .refl g⟩
  rintro g₁ g₂ retain remove hmerge ⟨hv, hrefines⟩
  obtain ⟨kept, gone, hm, rfl⟩ := merge_eq_ok hmerge
  exact ⟨hv.merged hm, hrefines.trans (hv.refines_merged hm)⟩

/-- A coarsening affects the processes some of whose partitions it merges. -/
theorem Valid.narrows_coarsenByName (h : g.Valid) {merges : Nat}
    (hcoarsen : g.coarsenByName = .ok (g', merges)) :
    g'.Narrows g fun pid => g'.partitionsOf pid ≠ g.partitionsOf pid := by
  obtain ⟨h', hrefines⟩ := h.refines_coarsenByName hcoarsen
  refine ⟨hrefines.admits h' h, fun hsame => ?_⟩
  have hagrees := h.agreesOn_of_partitionsOf_eq h' hrefines.observations_eq.symm (not_not.1 hsame)
  exact (hagrees.admits_iff h h').symm

/-- **Splits only take behaviour away, and merges only add it.** Every
operation that splits a partition leaves a graph that admits no new word,
and every operation that merges partitions one that has lost none. Words
change for the process of the partitions concerned and for no other. -/
theorem behaviour_is_monotone {executions : List Execution} {processes : Nat}
    {channels : List Channel} (h : Arises executions processes channels g) :
    (∀ id left right g' l r, g.split id left right = .ok (g', l, r) →
      g.Narrows g' (g.isPartitionOf · id)) ∧
    (∀ id left right policy g' l r,
      g.splitWithRemainder id left right policy = .ok (g', l, r) →
      g.Narrows g' (g.isPartitionOf · id)) ∧
    (∀ (path : PartitionPath) opts g' id k l r,
      path.refine g opts = .ok (g', .refined id k l r) → g.Narrows g' (g.isPartitionOf · id)) ∧
    (∀ (path : PartitionPath) opts g', path.refine g opts = .ok (g', .noStitch) → g' = g) ∧
    (∀ retain remove g', g.merge retain remove = .ok g' →
      g'.Narrows g (g.isPartitionOf · retain)) ∧
    ∀ g' merges, g.coarsenByName = .ok (g', merges) →
      g'.Narrows g fun pid => g'.partitionsOf pid ≠ g.partitionsOf pid := by
  have hv := h.valid
  refine ⟨?_, ?_, ?_, ?_, ?_, ?_⟩
  · exact fun id left right g' l r hsplit => hv.narrows_split hsplit
  · intro id left right policy g' l r hsplit
    obtain ⟨more, more', hsplit⟩ := splitWithRemainder_eq_ok hsplit
    exact hv.narrows_split hsplit
  · intro path opts g' id k l r hrefine
    obtain ⟨habsurd, -⟩ | ⟨_, _, _, _, _, _, heq, hsplit⟩ := PartitionPath.refine_eq_ok hrefine
    · cases habsurd
    · obtain ⟨rfl, rfl, rfl, rfl⟩ := RefineOutcome.refined.inj heq
      exact hv.narrows_split hsplit
  · intro path opts g' hrefine
    obtain ⟨-, rfl, -⟩ | ⟨_, _, _, _, _, _, habsurd, -⟩ := PartitionPath.refine_eq_ok hrefine
    · rfl
    · cases habsurd
  · exact fun retain remove g' hmerge => hv.narrows_merge hmerge
  · exact fun g' merges hcoarsen => hv.narrows_coarsenByName hcoarsen

/-- The traces `x x y` and `x` share a partition behind `x`, in which `x` may
be repeated. The split takes the third repetition away, and merging the
halves again brings it back. -/
theorem loopGraph_is_monotone :
    ∃ merged, loopGraph.split 1 ⟨[1], by decide⟩ ⟨[2, 5], by decide⟩ = .ok (loopSplit, 3, 4) ∧
      loopSplit.merge 3 4 = .ok merged ∧
      loopGraph.Narrows loopSplit (loopGraph.isPartitionOf · 1) ∧
      merged.Narrows loopSplit (loopSplit.isPartitionOf · 3) ∧
      merged.Admits 0 [.internal 0 "x", .internal 0 "x", .internal 0 "x", .internal 0 "y"] ∧
      ¬ loopSplit.Admits 0
        [.internal 0 "x", .internal 0 "x", .internal 0 "x", .internal 0 "y"] := by
  have hbuilt : ofExecutions loopExecutions 1 [] .byIncomingEvent .standard =
      .ok (loopGraph, ⟨"a", 6⟩) := rfl
  have hsplit : loopGraph.split 1 ⟨[1], by decide⟩ ⟨[2, 5], by decide⟩ =
      .ok (loopSplit, 3, 4) := rfl
  have hmerge : loopSplit.merge 3 4 = .ok (loopSplit.merged 3 ⟨4, 0, ⟨[2, 5], by decide⟩⟩) := rfl
  obtain ⟨hnarrows, -⟩ := behaviour_is_monotone (.built hbuilt)
  obtain ⟨-, -, -, -, hwidens, -⟩ := behaviour_is_monotone arises_loopSplit
  exact ⟨_, hsplit, hmerge, hnarrows _ _ _ _ _ _ hsplit, hwidens _ _ _ hmerge, by decide,
    by decide⟩

end ProtocolInference.PartitionGraph
