import ProtocolInference.Proofs.Partition.Atomic
import ProtocolInference.Proofs.Partition.Coarsen
import ProtocolInference.Proofs.Partition.Recount

/-!
Calls, whatever their answers.

A call that fails may still have changed the graph, and the next call is made
on what it has left behind. Of the operations only a coarsening could do so,
since it takes several steps that may fail, but on a valid graph it never
fails (`Valid.runOn_coarsenByName`). So a call leaves behind either the old
graph or the one that the function of its name returns
(`Valid.afterCall_eq_or_changes`), and what is known of the graphs that arise
by operations that succeed is known of the graphs that calls leave behind
(`Arises.afterCalls`). Two things are said of them here: the partitions divide
the observations, and the table of edges is a recount.
-/

namespace ProtocolInference.PartitionGraph

variable {ε α : Type} {g g' : PartitionGraph}

/-! ### Coarsening in place -/

namespace InPlace

theorem runOn_merge_of_ok {retain remove : PartitionId} (h : g.merge retain remove = .ok g') :
    (merge retain remove).runOn g = (.ok (), g') := by
  rw [runOn_merge, h]
  rfl

theorem runOn_forM_merge {retain : PartitionId} {rest : List PartitionId}
    (h : g.mergeAll retain rest = .ok g') :
    (rest.forM (merge retain)).runOn g = (.ok (), g') := by
  induction rest generalizing g with
  | nil =>
      obtain rfl := Except.ok.inj h
      rfl
  | cons remove rest ih =>
      rw [mergeAll, List.foldlM_cons, bind_eq_ok] at h
      obtain ⟨g₁, hmerge, hrest⟩ := h
      exact (runOn_bind_of_ok (runOn_merge_of_ok hmerge) _).trans (ih hrest)

theorem runOn_mergeGroup {merges merges' : Nat} {ids : List PartitionId}
    (h : PartitionGraph.mergeGroup (g, merges) ids = .ok (g', merges')) :
    (mergeGroup merges ids).runOn g = (.ok merges', g') := by
  cases ids with
  | nil =>
      obtain ⟨rfl, rfl⟩ := Prod.mk.inj (Except.ok.inj h)
      rfl
  | cons retain rest =>
      obtain ⟨g₁, hall, hpure⟩ := bind_eq_ok.1 h
      obtain ⟨rfl, rfl⟩ := Prod.mk.inj (pure_eq_ok.1 hpure)
      exact runOn_bind_of_ok (runOn_forM_merge hall) _

theorem runOn_foldlM_mergeGroup {merges merges' : Nat} {groups : List (List PartitionId)}
    (h : groups.foldlM PartitionGraph.mergeGroup (g, merges) = .ok (g', merges')) :
    (groups.foldlM mergeGroup merges).runOn g = (.ok merges', g') := by
  induction groups generalizing g merges with
  | nil =>
      obtain ⟨rfl, rfl⟩ := Prod.mk.inj (Except.ok.inj h)
      rfl
  | cons ids groups ih =>
      rw [List.foldlM_cons, bind_eq_ok] at h
      obtain ⟨⟨g₁, merges₁⟩, hgroup, hrest⟩ := h
      rw [List.foldlM_cons, runOn_bind_of_ok (runOn_mergeGroup hgroup)]
      exact ih hrest

end InPlace

theorem Valid.runOn_coarsenByName (hv : g.Valid) :
    InPlace.coarsenByName.runOn g = commit g g.coarsenByName := by
  obtain ⟨g', merges, h⟩ := hv.exists_coarsenByName
  rw [h]
  rw [coarsenByName_eq] at h
  have hget : (get : InPlace GraphError PartitionGraph).runOn g = (.ok g, g) := rfl
  rw [InPlace.coarsenByName, InPlace.runOn_bind_of_ok hget]
  exact InPlace.runOn_foldlM_mergeGroup h

/-! ### What a call leaves behind -/

theorem commit_eq_or (g : PartitionGraph) (f : Except ε (PartitionGraph × α)) :
    (commit g f).2 = g ∨ ∃ a, f = .ok ((commit g f).2, a) := by
  cases f with
  | ok y => exact .inr ⟨y.2, rfl⟩
  | error e => exact .inl rfl

/-- A call changes a valid graph by its operation or not at all. -/
theorem Valid.afterCall_eq_or_changes (hv : g.Valid) (call : Call) :
    g.afterCall call = g ∨ g.Changes (g.afterCall call) := by
  have hagrees := hv.coherent.agrees
  cases call with
  | merge retain remove =>
      rw [afterCall, hagrees.merge_eq]
      refine (commit_eq_or g _).imp_right fun ⟨_, h⟩ => ?_
      obtain ⟨g', hmerge, heq⟩ := map_eq_ok.1 h
      exact .merge ((Prod.mk.inj heq).1 ▸ hmerge)
  | split id left right =>
      rw [afterCall, hagrees.split_eq]
      exact (commit_eq_or g _).imp_right fun ⟨_, h⟩ => .split h
  | splitWithRemainder id left right policy =>
      rw [afterCall, hagrees.splitWithRemainder_eq]
      exact (commit_eq_or g _).imp_right fun ⟨_, h⟩ => .splitWithRemainder h
  | coarsenByName =>
      rw [afterCall, hv.runOn_coarsenByName]
      exact (commit_eq_or g _).imp_right fun ⟨_, h⟩ => .coarsen h
  | refine path opts =>
      rw [afterCall, hagrees.refine_eq]
      exact (commit_eq_or g _).imp_right fun ⟨_, h⟩ => .refine h

section Arises

variable {executions : List Execution} {processes : Nat} {channels : List Channel}

theorem Arises.afterCall (h : Arises executions processes channels g) (call : Call) :
    Arises executions processes channels (g.afterCall call) ∧
      Relation.ReflTransGen Changes g (g.afterCall call) := by
  rcases h.valid.afterCall_eq_or_changes call with heq | hchange
  · rw [heq]
    exact ⟨h, .refl⟩
  · exact ⟨.changed h hchange, .single hchange⟩

/-- The graphs that calls leave behind arise by operations that succeed. -/
theorem Arises.changes_afterCalls (h : Arises executions processes channels g)
    (calls : List Call) :
    Arises executions processes channels (g.afterCalls calls) ∧
      Relation.ReflTransGen Changes g (g.afterCalls calls) := by
  induction calls generalizing g with
  | nil => exact ⟨h, .refl⟩
  | cons call calls ih =>
      obtain ⟨harises, hchanges⟩ := h.afterCall call
      obtain ⟨harises', hchanges'⟩ := ih harises
      exact ⟨harises', hchanges.trans hchanges'⟩

theorem observations_of_changes (h : Relation.ReflTransGen Changes g g') :
    g'.observations = g.observations := by
  induction h with
  | refl => rfl
  | tail _ hchange ih => exact hchange.frame.1.trans ih

theorem Arises.afterCalls (h : Arises executions processes channels g) (calls : List Call) :
    Arises executions processes channels (g.afterCalls calls) ∧
      (g.afterCalls calls).observations = g.observations :=
  (h.changes_afterCalls calls).imp_right observations_of_changes

/-! ### What calls cannot spoil -/

/-- **The partitions divide the observations**, whatever calls have been made and
whatever their answers were, and further calls do not give a number again. -/
theorem ownership_divides_observations (h : Arises executions processes channels g)
    (calls : List Call) :
    (g.afterCalls calls).IsDivided ∧
      ∀ more, ∀ p' ∈ ((g.afterCalls calls).afterCalls more).partitions,
        p'.id < (g.afterCalls calls).nextId →
          ∃ p ∈ (g.afterCalls calls).partitions, p.id = p'.id := by
  have harises := (h.afterCalls calls).1
  have hdivided := harises.valid.isDivided
  exact ⟨hdivided, fun more => hdivided.not_reused _ (harises.changes_afterCalls more).2⟩

/-- **The edge table is a recount**, whatever calls have been made and whatever
their answers were. -/
theorem edges_are_recounted (h : Arises executions processes channels g) (calls : List Call) :
    (g.afterCalls calls).IsRecounted :=
  (h.afterCalls calls).1.valid.isRecounted

end Arises

/-! ### Calls on the graph with a loop -/

theorem arises_loopGraph : Arises loopExecutions 1 [] loopGraph :=
  .built (rfl : ofExecutions loopExecutions 1 [] .byIncomingEvent .standard =
    .ok (loopGraph, ⟨"a", 6⟩))

/-- A split of the partition with the loop, between two merges that fail: one with a
partition that is not there yet, the other with the one that has been split. -/
def loopCalls : List Call :=
  [.merge 1 3, .split 1 (.ofList [1]) (.ofList [2, 5]), .merge 1 3]

theorem loopSplit_divided : Arises loopExecutions 1 [] loopGraph ∧
    loopGraph.afterCalls loopCalls = loopSplit ∧
    (∀ s < 6, ∃ p ∈ loopSplit.partitions, s ∈ p.members ∧ loopSplit.owner? s = some p.id ∧
      ∀ q ∈ loopSplit.partitions, s ∈ q.members → q = p) ∧
    (loopSplit.partitions.map (·.members.size)).foldr (· + ·) 0 = 6 := by
  have hcalls : loopGraph.afterCalls loopCalls = loopSplit := rfl
  obtain ⟨hdivided, -⟩ := ownership_divides_observations arises_loopGraph loopCalls
  rw [hcalls] at hdivided
  exact ⟨arises_loopGraph, hcalls, hdivided.owner, hdivided.sum_eq⟩

/-- The loop of event `x` has become an edge between the halves, with one
transition behind it. -/
theorem loopSplit_recounted : Arises loopExecutions 1 [] loopGraph ∧
    loopGraph.afterCalls loopCalls = loopSplit ∧
    loopSplit.edges.count ⟨3, .internal 0 "x", 4⟩ = 1 ∧
    loopSplit.edges.count ⟨3, .internal 0 "x", 4⟩ =
      (List.range loopSplit.observations.length).countP fun s =>
        (loopSplit.next? s).any fun (e', t) =>
          e' = .internal 0 "x" ∧ loopSplit.owner s = 3 ∧ loopSplit.owner t = 4 := by
  have hcalls : loopGraph.afterCalls loopCalls = loopSplit := rfl
  have hrecounted := edges_are_recounted arises_loopGraph loopCalls
  rw [hcalls] at hrecounted
  exact ⟨arises_loopGraph, hcalls, rfl, hrecounted.count_eq 3 (.internal 0 "x") 4⟩

end ProtocolInference.PartitionGraph
