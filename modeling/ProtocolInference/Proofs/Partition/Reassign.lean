import Mathlib.Data.List.Count
import Mathlib.Data.List.Nodup
import ProtocolInference.Proofs.Partition.Arena
import ProtocolInference.Proofs.Partition.EdgeCount

/-!
Moving observations keeps the counts exact.

`reassign` takes back every transition that begins or ends at a moved
observation, changes the owners, and counts the same transitions again.
All other transitions keep their edges because both of their ends keep
their owners. So the transitions fall into two lists, those concerned and
the rest, and the count of an edge is followed through the three stages
on each list by itself.

That no transition is taken back which was not counted before is the
reason why the subtraction is exact (`count_pos_of_incident`).
-/

namespace ProtocolInference.PartitionGraph

/-! ### The transitions of the arena -/

theorem mem_transitions {g : PartitionGraph} {t : Transition} :
    t ∈ g.transitions ↔ g.next? t.source = some (t.event, t.target) := by
  rw [transitions, List.mem_filterMap]
  constructor
  · rintro ⟨s, -, hs⟩
    obtain ⟨⟨e, u⟩, hnext, rfl⟩ := Option.map_eq_some_iff.1 hs
    exact hnext
  · intro hnext
    exact ⟨t.source, List.mem_range.2 (lt_of_next? hnext), by rw [hnext]; rfl⟩

theorem nodup_transitions (g : PartitionGraph) : g.transitions.Nodup := by
  refine List.nodup_range.filterMap ?_
  intro s s' t ht ht'
  obtain ⟨_, -, rfl⟩ := Option.map_eq_some_iff.1 ht
  obtain ⟨_, -, heq⟩ := Option.map_eq_some_iff.1 ht'
  exact (Transition.mk.inj heq).1.symm

theorem mem_incident {g : PartitionGraph} (hl : g.Linked) {states : List ObservationId}
    {t : Transition} : t ∈ g.incident states ↔
      t ∈ g.transitions ∧ (t.source ∈ states ∨ t.target ∈ states) := by
  rw [incident, OrderedSet.mem_ofList, List.mem_flatMap, mem_transitions]
  constructor
  · rintro ⟨s, hs, ht⟩
    rcases List.mem_append.1 ht with ht | ht
    · obtain ⟨⟨e, p⟩, hprev, rfl⟩ := Option.map_eq_some_iff.1 (Option.mem_toList.1 ht)
      exact ⟨(hl.next_iff_prev p e s).2 hprev, .inr hs⟩
    · obtain ⟨⟨e, u⟩, hnext, rfl⟩ := Option.map_eq_some_iff.1 (Option.mem_toList.1 ht)
      exact ⟨hnext, .inl hs⟩
  · rintro ⟨hnext, hs | hs⟩
    · refine ⟨t.source, hs, List.mem_append_right _ (Option.mem_toList.2 ?_)⟩
      rw [hnext]
      rfl
    · refine ⟨t.target, hs, List.mem_append_left _ (Option.mem_toList.2 ?_)⟩
      rw [(hl.next_iff_prev _ _ _).1 hnext]
      rfl

/-- The transitions that begin or end at certain observations, and the
others, are all transitions. -/
theorem countP_transitions {g : PartitionGraph} (hl : g.Linked) (states : List ObservationId)
    (p : Transition → Bool) :
    g.transitions.countP p =
      (g.incident states).toList.countP p +
        (g.transitions.filter (· ∉ g.incident states)).countP p := by
  have hperm : (g.transitions.filter (· ∈ g.incident states)).Perm
      (g.incident states).toList := by
    refine (List.perm_ext_iff_of_nodup (g.nodup_transitions.filter _)
      (g.incident states).nodup).2 fun t => ?_
    rw [List.mem_filter, decide_eq_true_eq]
    exact ⟨fun h => h.2, fun h => ⟨((mem_incident hl).1 h).1, h⟩⟩
  rw [← hperm.countP_eq]
  simpa using (List.countP_eq_countP_filter_add g.transitions p (· ∈ g.incident states))

/-! ### Exact counts -/

/-- The table holds the counts of the graph's transitions, and holds them
without waste. -/
structure Counted (g : PartitionGraph) : Prop where
  tight : g.edges.Tight
  count_eq : ∀ e, g.edges.count e = g.transitions.countP (g.edgeOf · = e)

/-- While the transitions at moved observations are taken back one after
the other, each of them is still counted when its turn comes. -/
theorem count_pos_of_incident {g : PartitionGraph} (hl : g.Linked) (hc : g.Counted)
    {states : List ObservationId} {done : List Transition} {t : Transition}
    {rest : List Transition} (h : (g.incident states).toList = done ++ t :: rest) :
    0 < (done.foldl (fun table t => table.decrement (g.edgeOf t)) g.edges).count (g.edgeOf t) := by
  have htotal := countP_transitions hl states (g.edgeOf · = g.edgeOf t)
  have hself : (t :: rest).countP (g.edgeOf · = g.edgeOf t) =
      rest.countP (g.edgeOf · = g.edgeOf t) + 1 := List.countP_cons_of_pos (decide_eq_true rfl)
  rw [h, List.countP_append, hself] at htotal
  rw [EdgeTable.count_foldl_decrement, hc.count_eq]
  omega

theorem mem_edges_iff {g : PartitionGraph} (hc : g.Counted) {e : Edge} :
    e ∈ g.edges.edges ↔ e ∈ g.transitions.map g.edgeOf := by
  rw [EdgeTable.mem_edges_iff, hc.tight.contains_iff, hc.count_eq, List.countP_pos_iff,
    List.mem_map]
  simp only [decide_eq_true_eq]

/-- There is an edge exactly where there is a transition. -/
theorem hasEdge_iff {g : PartitionGraph} (hc : g.Counted) {p q : PartitionId} {e : Event} :
    g.hasEdge p e q = true ↔ ∃ s t, g.next? s = some (e, t) ∧ g.owner s = p ∧ g.owner t = q := by
  rw [hasEdge, ← EdgeTable.mem_edges_iff, mem_edges_iff hc, List.mem_map]
  constructor
  · rintro ⟨t, ht, heq⟩
    obtain ⟨rfl, rfl, rfl⟩ := Edge.mk.inj heq
    exact ⟨t.source, t.target, mem_transitions.1 ht, rfl, rfl⟩
  · rintro ⟨s, t, hnext, rfl, rfl⟩
    exact ⟨⟨s, e, t⟩, mem_transitions.2 hnext, rfl⟩

/-! ### Owners after a move -/

section Moves

variable {owners : List PartitionId} {moves : List (ObservationId × PartitionId)}

theorem length_foldl_set :
    (moves.foldl (fun owners (s, p) => owners.set s p) owners).length = owners.length := by
  induction moves generalizing owners with
  | nil => rfl
  | cons m moves ih => rw [List.foldl_cons, ih, List.length_set]

theorem getElem?_foldl_set_of_not_mem {s : Nat} (hs : s ∉ moves.map Prod.fst) :
    (moves.foldl (fun owners (s, p) => owners.set s p) owners)[s]? = owners[s]? := by
  induction moves generalizing owners with
  | nil => rfl
  | cons m moves ih =>
      rw [List.map_cons, List.mem_cons, not_or] at hs
      rw [List.foldl_cons, ih hs.2, List.getElem?_set_ne (Ne.symm hs.1)]

theorem getElem?_foldl_set_of_mem (hnd : (moves.map Prod.fst).Nodup) {s : Nat} {p : PartitionId}
    (hs : s < owners.length) (hm : (s, p) ∈ moves) :
    (moves.foldl (fun owners (s, p) => owners.set s p) owners)[s]? = some p := by
  induction moves generalizing owners with
  | nil => cases hm
  | cons m moves ih =>
      rw [List.map_cons, List.nodup_cons] at hnd
      rw [List.foldl_cons]
      rcases List.mem_cons.1 hm with rfl | hm
      · rw [getElem?_foldl_set_of_not_mem hnd.1, List.getElem?_set_self hs]
      · exact ih hnd.2 (by rwa [List.length_set]) hm

end Moves

variable (g : PartitionGraph) (moves : List (ObservationId × PartitionId))

@[simp] theorem observations_reassign : (g.reassign moves).observations = g.observations := rfl

@[simp] theorem partitions_reassign : (g.reassign moves).partitions = g.partitions := rfl

@[simp] theorem nextId_reassign : (g.reassign moves).nextId = g.nextId := rfl

@[simp] theorem length_owners_reassign :
    (g.reassign moves).owners.length = g.owners.length := length_foldl_set

variable {g moves}

theorem owner?_reassign_of_not_mem {s : ObservationId} (hs : s ∉ moves.map Prod.fst) :
    (g.reassign moves).owner? s = g.owner? s := getElem?_foldl_set_of_not_mem hs

theorem owner?_reassign_of_mem (hnd : (moves.map Prod.fst).Nodup) {s : ObservationId}
    {p : PartitionId} (hs : s < g.owners.length) (hm : (s, p) ∈ moves) :
    (g.reassign moves).owner? s = some p := getElem?_foldl_set_of_mem hnd hs hm

theorem Counted.reassign (hl : g.Linked) (hc : g.Counted)
    (moves : List (ObservationId × PartitionId)) : (g.reassign moves).Counted where
  tight := EdgeTable.tight_foldl_increment _ (EdgeTable.tight_foldl_decrement _ hc.tight _) _
  count_eq e := by
    let states := moves.map Prod.fst
    let others := g.transitions.filter (· ∉ g.incident states)
    have hothers : others.countP (g.edgeOf · = e) =
        others.countP ((g.reassign moves).edgeOf · = e) := by
      refine List.countP_congr fun t ht => ?_
      obtain ⟨ht, hout⟩ := List.mem_filter.1 ht
      have hends : t.source ∉ states ∧ t.target ∉ states := by
        rw [← not_or]
        exact fun h => of_decide_eq_true hout ((mem_incident hl).2 ⟨ht, h⟩)
      have hedge : (g.reassign moves).edgeOf t = g.edgeOf t := by
        rw [edgeOf, owner, owner, owner?_reassign_of_not_mem hends.1,
          owner?_reassign_of_not_mem hends.2]
        rfl
      rw [hedge]
    calc (g.reassign moves).edges.count e
        = g.transitions.countP (g.edgeOf · = e) -
              (g.incident states).toList.countP (g.edgeOf · = e) +
            (g.incident states).toList.countP ((g.reassign moves).edgeOf · = e) := by
          rw [← hc.count_eq, ← EdgeTable.count_foldl_decrement]
          exact EdgeTable.count_foldl_increment (g.reassign moves).edgeOf _ _ e
      _ = others.countP ((g.reassign moves).edgeOf · = e) +
            (g.incident states).toList.countP ((g.reassign moves).edgeOf · = e) := by
          rw [countP_transitions hl states, Nat.add_sub_cancel_left, hothers]
      _ = g.transitions.countP ((g.reassign moves).edgeOf · = e) := by
          rw [countP_transitions hl states, Nat.add_comm]

end ProtocolInference.PartitionGraph
