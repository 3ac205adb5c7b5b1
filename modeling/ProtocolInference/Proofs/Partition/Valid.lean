import Mathlib.Data.List.Perm.Basic
import ProtocolInference.Partition.Coherence
import ProtocolInference.Proofs.Partition.Operations
import ProtocolInference.Proofs.Partition.Reassign

/-!
Every graph that arises is coherent.

A graph is *valid* if its arena is linked as traces are, the three views
of the division into partitions agree, and the edge table holds nothing
in vain. The first graph of an arena is valid, and merges and splits keep
a graph valid; everything else follows by the induction over operations.

A merge and a split change the ownership in the same way, and
`owner?_merged` and `owner?_splitInto` say how. The rest of the argument
is about these two equations alone: numbers of new partitions have not
been given before, so a new owner is never mistaken for an old one.
-/

namespace ProtocolInference.PartitionGraph

/-- What holds of every partition graph that arises. -/
structure Valid (g : PartitionGraph) : Prop where
  linked : g.Linked
  coherent : g.Coherent
  tight : g.edges.Tight

variable {g g' : PartitionGraph}

theorem Valid.counted (h : g.Valid) : g.Counted where
  tight := h.tight
  count_eq e := by rw [h.coherent.count_eq, List.countP_eq_length_filter]

/-! ### Looking up partitions and owners -/

section Lookup

theorem Coherent.partition?_of_mem (h : g.Coherent) {p : Partition} (hp : p ∈ g.partitions) :
    g.partition? p.id = some p := by
  have hsome : (g.partition? p.id).isSome := by
    rw [partition?, List.find?_isSome]
    exact ⟨p, hp, decide_eq_true rfl⟩
  obtain ⟨q, hq⟩ := Option.isSome_iff_exists.1 hsome
  obtain ⟨hmem, hid⟩ := partition?_eq_some hq
  rw [hq, List.inj_on_of_nodup_map h.ids_nodup hmem hp hid]

theorem Coherent.partition?_eq_some_iff (h : g.Coherent) {id : PartitionId} {p : Partition} :
    g.partition? id = some p ↔ p ∈ g.partitions ∧ p.id = id := by
  constructor
  · exact partition?_eq_some
  · rintro ⟨hp, rfl⟩
    exact h.partition?_of_mem hp

/-- The members of a partition are the observations that it owns. -/
theorem Coherent.mem_members (h : g.Coherent) {id : PartitionId} {p : Partition}
    (hp : g.partition? id = some p) (s : ObservationId) :
    s ∈ p.members ↔ g.owner? s = some id := by
  obtain ⟨hmem, rfl⟩ := partition?_eq_some hp
  exact h.mem_iff_owner p hmem s

theorem Coherent.owner?_isSome (h : g.Coherent) {s : ObservationId} :
    (g.owner? s).isSome ↔ s < g.observations.length := by
  rw [owner?, isSome_getElem?, ← h.owners_length]

theorem Coherent.owner?_eq (h : g.Coherent) {s : ObservationId}
    (hs : s < g.observations.length) : g.owner? s = some (g.owner s) := by
  obtain ⟨p, hp⟩ := Option.isSome_iff_exists.1 (h.owner?_isSome.2 hs)
  rw [owner, hp]
  rfl

theorem Coherent.owner?_lt (h : g.Coherent) {s : ObservationId} {id : PartitionId}
    (hs : g.owner? s = some id) : id < g.nextId := by
  obtain ⟨p, hp, rfl⟩ := h.owner_exists s id hs
  exact h.id_lt p hp

/-- The partition of an observation of the arena. -/
theorem Coherent.exists_partition (h : g.Coherent) {s : ObservationId}
    (hs : s < g.observations.length) :
    ∃ p, g.partition? (g.owner s) = some p ∧ s ∈ p.members := by
  obtain ⟨p, hp, hid⟩ := h.owner_exists s (g.owner s) (h.owner?_eq hs)
  refine ⟨p, hid ▸ h.partition?_of_mem hp, ?_⟩
  rw [h.mem_iff_owner p hp, hid, h.owner?_eq hs]

theorem Coherent.lt_of_mem (h : g.Coherent) {p : Partition} (hp : p ∈ g.partitions)
    {s : ObservationId} (hs : s ∈ p.members) : s < g.observations.length := by
  rw [← h.owner?_isSome, (h.mem_iff_owner p hp s).1 hs]
  rfl

theorem Linked.lt_of_next? (h : g.Linked) {s t : ObservationId} {e : Event}
    (hnext : g.next? s = some (e, t)) : t < g.observations.length :=
  lt_of_prev? ((h.next_iff_prev s e t).1 hnext)

/-- There is an edge exactly where there is a transition between members. -/
theorem Valid.hasEdge_iff (h : g.Valid) {p q : PartitionId} {e : Event} :
    g.hasEdge p e q = true ↔
      ∃ s t, g.next? s = some (e, t) ∧ g.owner? s = some p ∧ g.owner? t = some q := by
  rw [PartitionGraph.hasEdge_iff h.counted]
  refine exists_congr fun s => exists_congr fun t => and_congr_right fun hnext => ?_
  rw [h.coherent.owner?_eq (PartitionGraph.lt_of_next? hnext),
    h.coherent.owner?_eq (h.linked.lt_of_next? hnext), Option.some.injEq, Option.some.injEq]

end Lookup

/-! ### The first graph -/

section First

variable {processes : Nat} {channels : List Channel} {how : InitialPartitioning}
  {arena : List Observation}

theorem mem_positionsOf {key : ProcessId × GroupKey} {s : ObservationId} :
    s ∈ positionsOf how arena key ↔ ∃ o, arena[s]? = some o ∧ how.key o = key := by
  rw [OrderedSet.mem_def, positionsOf, List.mem_map]
  constructor
  · rintro ⟨⟨o, s'⟩, ho, rfl⟩
    obtain ⟨hmem, hkey⟩ := List.mem_filter.1 ho
    exact ⟨o, List.mem_zipIdx_iff_getElem?.1 hmem, of_decide_eq_true hkey⟩
  · rintro ⟨o, ho, hkey⟩
    exact ⟨(o, s), List.mem_filter.2 ⟨List.mem_zipIdx_iff_getElem?.2 ho, decide_eq_true hkey⟩, rfl⟩

theorem key_fst (how : InitialPartitioning) (o : Observation) : (how.key o).1 = o.pid := by
  cases how <;> rfl

/-- The keys of an arena, one for each of its first partitions. -/
def keysOf (how : InitialPartitioning) (arena : List Observation) : List (ProcessId × GroupKey) :=
  (OrderedSet.ofList (arena.map how.key)).toList

theorem nodup_keysOf : (keysOf how arena).Nodup := OrderedSet.nodup _

theorem mem_keysOf {key : ProcessId × GroupKey} :
    key ∈ keysOf how arena ↔ ∃ o ∈ arena, how.key o = key := by
  rw [keysOf, ← OrderedSet.mem_def, OrderedSet.mem_ofList, List.mem_map]

theorem mem_partitions_ofArena {p : Partition} :
    p ∈ (ofArena processes channels how arena).partitions ↔
      ∃ i key, (keysOf how arena)[i]? = some key ∧ p = ⟨i, key.1, positionsOf how arena key⟩ := by
  constructor
  · intro hp
    obtain ⟨i, hi, rfl⟩ := List.mem_mapIdx.1 hp
    exact ⟨i, _, List.getElem?_eq_getElem hi, rfl⟩
  · rintro ⟨i, key, hkey, rfl⟩
    obtain ⟨hi, rfl⟩ := List.getElem?_eq_some_iff.1 hkey
    exact List.mem_mapIdx.2 ⟨i, hi, rfl⟩

theorem owner?_ofArena (s : ObservationId) :
    (ofArena processes channels how arena).owner? s =
      (arena[s]?).map fun o => (keysOf how arena).idxOf (how.key o) := List.getElem?_map ..

theorem owner?_ofArena_eq_some {s i : Nat} :
    (ofArena processes channels how arena).owner? s = some i ↔
      ∃ o, arena[s]? = some o ∧ (keysOf how arena)[i]? = some (how.key o) := by
  rw [owner?_ofArena, Option.map_eq_some_iff]
  refine exists_congr fun o => and_congr_right fun ho => ?_
  have hmem : how.key o ∈ keysOf how arena := mem_keysOf.2 ⟨o, List.mem_of_getElem? ho, rfl⟩
  constructor
  · rintro rfl
    rw [List.getElem?_eq_getElem (List.idxOf_lt_length_of_mem hmem), List.getElem_idxOf]
  · intro hi
    obtain ⟨hlt, heq⟩ := List.getElem?_eq_some_iff.1 hi
    rw [← heq, nodup_keysOf.idxOf_getElem]

theorem valid_ofArena (hl : (ofArena processes channels how arena).Linked) :
    (ofArena processes channels how arena).Valid := by
  have htight : (ofArena processes channels how arena).edges.Tight :=
    EdgeTable.tight_foldl_increment _ EdgeTable.tight_empty _
  refine ⟨hl, ?_, htight⟩
  refine
    { owners_length := List.length_map _
      ids_nodup := ?ids_nodup
      id_lt := ?id_lt
      members_nonempty := ?members_nonempty
      mem_iff_owner := ?mem_iff_owner
      owner_exists := ?owner_exists
      pid_eq := ?pid_eq
      count_eq := fun e => ?count_eq
      contains_iff := fun e => htight.contains_iff e }
  case ids_nodup =>
    have hids : (ofArena processes channels how arena).partitions.map (·.id) =
        List.range (keysOf how arena).length := by
      refine List.ext_getElem (by simp [ofArena, keysOf]) fun i _ _ => ?_
      simp [ofArena]
    rw [hids]
    exact List.nodup_range
  case id_lt =>
    intro p hp
    obtain ⟨i, key, hkey, rfl⟩ := mem_partitions_ofArena.1 hp
    exact (List.getElem?_eq_some_iff.1 hkey).1
  case members_nonempty =>
    intro p hp hnil
    obtain ⟨i, key, hkey, rfl⟩ := mem_partitions_ofArena.1 hp
    obtain ⟨o, ho, rfl⟩ := mem_keysOf.1 (List.mem_of_getElem? hkey)
    obtain ⟨s, hs⟩ := List.mem_iff_getElem?.1 ho
    exact List.ne_nil_of_mem (mem_positionsOf.2 ⟨o, hs, rfl⟩) hnil
  case mem_iff_owner =>
    intro p hp s
    obtain ⟨i, key, hkey, rfl⟩ := mem_partitions_ofArena.1 hp
    rw [mem_positionsOf, owner?_ofArena_eq_some, hkey]
    simp only [Option.some.injEq, eq_comm]
  case owner_exists =>
    intro s i hs
    obtain ⟨o, -, hkey⟩ := owner?_ofArena_eq_some.1 hs
    exact ⟨_, mem_partitions_ofArena.2 ⟨i, _, hkey, rfl⟩, rfl⟩
  case pid_eq =>
    intro p hp s hs o ho
    obtain ⟨i, key, hkey, rfl⟩ := mem_partitions_ofArena.1 hp
    obtain ⟨o', ho', rfl⟩ := mem_positionsOf.1 hs
    rw [← Option.some.inj (ho'.symm.trans ho)]
    exact (key_fst how o').symm
  case count_eq =>
    rw [← List.countP_eq_length_filter]
    exact (EdgeTable.count_foldl_increment _ _ _ e).trans (Nat.zero_add _)

end First

/-! ### Merges -/

section Merge

variable {retain remove : PartitionId} {kept gone : Partition}

/-- The moved observations belong to the partition that stays, all others
to the same partition as before. -/
theorem owner?_merged (h : g.Coherent) (hm : g.Mergeable retain remove kept gone)
    (s : ObservationId) :
    (g.merged retain gone).owner? s = if s ∈ gone.members then some retain else g.owner? s := by
  have hkeys : (gone.members.toList.map fun s => (s, retain)).map Prod.fst =
      gone.members.toList := by simp [Function.comp_def]
  split
  · next hs =>
    refine owner?_reassign_of_mem (by rw [hkeys]; exact gone.members.nodup) ?_
      (List.mem_map.2 ⟨s, hs, rfl⟩)
    rw [h.owners_length]
    exact h.lt_of_mem (partition?_eq_some hm.gone_eq).1 hs
  · next hs => exact owner?_reassign_of_not_mem (by rwa [hkeys])

theorem mem_partitions_merged {q : Partition} :
    q ∈ (g.merged retain gone).partitions ↔ ∃ p ∈ g.partitions, p.id ≠ gone.id ∧
      q = if p.id = retain then { p with members := p.members.insertAll gone.members.toList }
        else p := by
  simp only [merged, List.mem_map, List.mem_filter, decide_eq_true_eq, and_assoc, @eq_comm _ q]

theorem mem_iff_owner_merged (h : g.Coherent) (hm : g.Mergeable retain remove kept gone)
    {q : Partition} (hq : q ∈ (g.merged retain gone).partitions) (s : ObservationId) :
    s ∈ q.members ↔ (g.merged retain gone).owner? s = some q.id := by
  obtain ⟨hgone, -⟩ := partition?_eq_some hm.gone_eq
  obtain ⟨p, hp, hne, rfl⟩ := mem_partitions_merged.1 hq
  rw [owner?_merged h hm]
  by_cases hid : p.id = retain
  · rw [if_pos hid, OrderedSet.mem_insertAll, h.mem_iff_owner p hp, hid, ← OrderedSet.mem_def]
    by_cases hs : s ∈ gone.members <;> simp [hs]
  · rw [if_neg hid, h.mem_iff_owner p hp]
    split
    · next hs => simp [(h.mem_iff_owner gone hgone s).1 hs, Ne.symm hid, Ne.symm hne]
    · rfl

theorem Valid.merged (h : g.Valid) (hm : g.Mergeable retain remove kept gone) :
    (g.merged retain gone).Valid := by
  have hc := h.coherent
  have hcounted := h.counted.reassign h.linked (gone.members.toList.map fun s => (s, retain))
  obtain ⟨hgone, rfl⟩ := partition?_eq_some hm.gone_eq
  obtain ⟨hkept, rfl⟩ := partition?_eq_some hm.kept_eq
  refine ⟨⟨h.linked.1, h.linked.2, h.linked.3, h.linked.4⟩, ?_, hcounted.tight⟩
  refine
    { owners_length := (length_owners_reassign g _).trans hc.owners_length
      ids_nodup := ?ids_nodup
      id_lt := ?id_lt
      members_nonempty := ?members_nonempty
      mem_iff_owner := ?mem_iff_owner
      owner_exists := ?owner_exists
      pid_eq := ?pid_eq
      count_eq := fun e => (hcounted.count_eq e).trans List.countP_eq_length_filter
      contains_iff := hcounted.tight.contains_iff }
  case ids_nodup =>
    have hids : (g.merged kept.id gone).partitions.map (·.id) =
        (g.partitions.filter (·.id ≠ gone.id)).map (·.id) := by
      rw [PartitionGraph.merged, List.map_map]
      refine List.map_congr_left fun p _ => ?_
      dsimp only [Function.comp]
      split <;> rfl
    rw [hids]
    exact (List.filter_sublist.map _).nodup hc.ids_nodup
  case id_lt =>
    intro q hq
    obtain ⟨p, hp, -, rfl⟩ := mem_partitions_merged.1 hq
    split <;> exact hc.id_lt p hp
  case members_nonempty =>
    intro q hq
    obtain ⟨p, hp, -, rfl⟩ := mem_partitions_merged.1 hq
    split
    · obtain ⟨s, hs⟩ := List.exists_mem_of_ne_nil _ (hc.members_nonempty p hp)
      exact List.ne_nil_of_mem (OrderedSet.mem_insertAll.2 (.inl hs))
    · exact hc.members_nonempty p hp
  case mem_iff_owner => exact fun q hq s => mem_iff_owner_merged hc hm hq s
  case owner_exists =>
    intro s id hs
    rw [owner?_merged hc hm] at hs
    split at hs
    · obtain rfl := Option.some.inj hs
      exact ⟨_, mem_partitions_merged.2 ⟨kept, hkept, hm.ne, rfl⟩, by rw [if_pos rfl]⟩
    · next hout =>
      obtain ⟨p, hp, rfl⟩ := hc.owner_exists s id hs
      have hne : p.id ≠ gone.id := fun heq =>
        hout ((hc.mem_iff_owner gone hgone s).2 (heq ▸ hs))
      refine ⟨_, mem_partitions_merged.2 ⟨p, hp, hne, rfl⟩, ?_⟩
      split <;> rfl
  case pid_eq =>
    intro q hq s hs o ho
    obtain ⟨p, hp, -, rfl⟩ := mem_partitions_merged.1 hq
    by_cases hid : p.id = kept.id
    · obtain rfl := List.inj_on_of_nodup_map hc.ids_nodup hp hkept hid
      rw [if_pos rfl] at hs ⊢
      rcases OrderedSet.mem_insertAll.1 hs with hs | hs
      · exact hc.pid_eq p hp s hs o ho
      · exact (hc.pid_eq gone hgone s hs o ho).trans hm.pid_eq.symm
    · rw [if_neg hid] at hs ⊢
      exact hc.pid_eq p hp s hs o ho

end Merge

/-! ### Splits -/

section Split

variable {id : PartitionId} {p : Partition} {left right : OrderedSet ObservationId}

/-- The observations on the two sides belong to the two new partitions, all
others to the same partition as before. -/
theorem owner?_splitInto (h : g.Coherent) (hs : g.Splittable id p left right)
    (s : ObservationId) :
    (g.splitInto p left right).owner? s =
      if s ∈ left then some g.nextId else if s ∈ right then some (g.nextId + 1)
        else g.owner? s := by
  have hkeys : (left.toList.map (fun s => (s, g.nextId)) ++
      right.toList.map fun s => (s, g.nextId + 1)).map Prod.fst = left.toList ++ right.toList := by
    simp [Function.comp_def]
  have hnodup : (left.toList ++ right.toList).Nodup :=
    left.nodup.append right.nodup fun s hl hr => hs.disjoint s hl hr
  have hlt {s : ObservationId} (hside : s ∈ left ∨ s ∈ right) : s < g.owners.length := by
    rw [h.owners_length]
    exact h.lt_of_mem (partition?_eq_some hs.partition_eq).1 ((hs.mem_iff s).2 hside)
  split
  · next hl =>
    exact owner?_reassign_of_mem (by rwa [hkeys]) (hlt (.inl hl))
      (List.mem_append_left _ (List.mem_map.2 ⟨s, hl, rfl⟩))
  · next hl =>
    split
    · next hr =>
      exact owner?_reassign_of_mem (by rwa [hkeys]) (hlt (.inr hr))
        (List.mem_append_right _ (List.mem_map.2 ⟨s, hr, rfl⟩))
    · next hr =>
      refine owner?_reassign_of_not_mem ?_
      rw [hkeys, List.mem_append]
      exact not_or.2 ⟨hl, hr⟩

theorem mem_partitions_splitInto (h : g.Coherent) (hs : g.Splittable id p left right)
    {q : Partition} : q ∈ (g.splitInto p left right).partitions ↔
      (q ∈ g.partitions ∧ q.id ≠ p.id) ∨ q = ⟨g.nextId, p.pid, left⟩ ∨
        q = ⟨g.nextId + 1, p.pid, right⟩ := by
  have hlt := h.id_lt p (partition?_eq_some hs.partition_eq).1
  rw [splitInto, List.mem_filter, List.mem_append, decide_eq_true_eq, halves, List.mem_cons,
    List.mem_singleton]
  constructor
  · rintro ⟨hq | hq, hne⟩
    · exact .inl ⟨hq, hne⟩
    · exact .inr hq
  · rintro (hq | rfl | rfl)
    · exact ⟨.inl hq.1, hq.2⟩
    · exact ⟨.inr (.inl rfl), Nat.ne_of_gt hlt⟩
    · exact ⟨.inr (.inr rfl), Nat.ne_of_gt (Nat.lt_succ_of_lt hlt)⟩

theorem mem_iff_owner_splitInto (h : g.Coherent) (hs : g.Splittable id p left right)
    {q : Partition} (hq : q ∈ (g.splitInto p left right).partitions) (s : ObservationId) :
    s ∈ q.members ↔ (g.splitInto p left right).owner? s = some q.id := by
  obtain ⟨-, hid⟩ := partition?_eq_some hs.partition_eq
  rw [owner?_splitInto h hs]
  rcases (mem_partitions_splitInto h hs).1 hq with ⟨hq, hne⟩ | rfl | rfl
  · have hlt := h.id_lt q hq
    have hother : s ∈ left ∨ s ∈ right → g.owner? s ≠ some q.id := by
      intro hside heq
      have hmem := (h.mem_members hs.partition_eq s).1 ((hs.mem_iff s).2 hside)
      rw [heq] at hmem
      exact hne ((Option.some.inj hmem).trans hid.symm)
    rw [h.mem_iff_owner q hq]
    split
    · next hl => simp [hother (.inl hl), Nat.ne_of_gt hlt]
    · split
      · next hr => simp [hother (.inr hr), Nat.ne_of_gt (Nat.lt_succ_of_lt hlt)]
      · rfl
  · -- The left half: its number is new, so no other observation can have it.
    split
    · next hl => simp [hl]
    · next hl =>
      refine iff_of_false hl fun heq => ?_
      split at heq
      · exact Nat.succ_ne_self _ (Option.some.inj heq)
      · exact Nat.lt_irrefl _ (h.owner?_lt heq)
  · split
    · next hl =>
      refine iff_of_false (hs.disjoint s hl) fun heq => ?_
      exact Nat.succ_ne_self _ (Option.some.inj heq).symm
    · split
      · next hr => simp [hr]
      · next hr =>
        refine iff_of_false hr fun heq => ?_
        exact Nat.not_succ_lt_self (h.owner?_lt heq)

theorem Valid.splitInto (h : g.Valid) (hs : g.Splittable id p left right) :
    (g.splitInto p left right).Valid := by
  have hc := h.coherent
  have hcounted := h.counted.reassign h.linked (left.toList.map (fun s => (s, g.nextId)) ++
    right.toList.map fun s => (s, g.nextId + 1))
  obtain ⟨hp, hid⟩ := partition?_eq_some hs.partition_eq
  refine ⟨⟨h.linked.1, h.linked.2, h.linked.3, h.linked.4⟩, ?_, hcounted.tight⟩
  refine
    { owners_length := (length_owners_reassign g _).trans hc.owners_length
      ids_nodup := ?ids_nodup
      id_lt := ?id_lt
      members_nonempty := ?members_nonempty
      mem_iff_owner := ?mem_iff_owner
      owner_exists := ?owner_exists
      pid_eq := ?pid_eq
      count_eq := fun e => (hcounted.count_eq e).trans List.countP_eq_length_filter
      contains_iff := hcounted.tight.contains_iff }
  case ids_nodup =>
    refine (List.filter_sublist.map _).nodup ?_
    rw [List.map_append, List.nodup_append]
    refine ⟨hc.ids_nodup, by simp [halves], ?_⟩
    intro i hi j hj
    obtain ⟨q, hq, rfl⟩ := List.mem_map.1 hi
    have hlt := hc.id_lt q hq
    simp only [halves, List.map_cons, List.map_nil, List.mem_cons, List.not_mem_nil, or_false] at hj
    rcases hj with rfl | rfl
    · exact Nat.ne_of_lt hlt
    · exact Nat.ne_of_lt (Nat.lt_succ_of_lt hlt)
  case id_lt =>
    intro q hq
    rcases (mem_partitions_splitInto hc hs).1 hq with ⟨hq, -⟩ | rfl | rfl
    · exact Nat.lt_add_right 2 (hc.id_lt q hq)
    · exact Nat.lt_add_of_pos_right Nat.two_pos
    · exact Nat.lt_succ_self _
  case members_nonempty =>
    intro q hq
    rcases (mem_partitions_splitInto hc hs).1 hq with ⟨hq, -⟩ | rfl | rfl
    · exact hc.members_nonempty q hq
    · exact hs.left_nonempty
    · exact hs.right_nonempty
  case mem_iff_owner => exact fun q hq s => mem_iff_owner_splitInto hc hs hq s
  case owner_exists =>
    intro s i hi
    rw [owner?_splitInto hc hs] at hi
    split at hi
    · exact ⟨_, (mem_partitions_splitInto hc hs).2 (.inr (.inl rfl)), Option.some.inj hi⟩
    · next hl =>
      split at hi
      · exact ⟨_, (mem_partitions_splitInto hc hs).2 (.inr (.inr rfl)), Option.some.inj hi⟩
      · next hr =>
        obtain ⟨q, hq, rfl⟩ := hc.owner_exists s i hi
        refine ⟨q, (mem_partitions_splitInto hc hs).2 (.inl ⟨hq, fun heq => ?_⟩), rfl⟩
        have hmem := (hc.mem_iff_owner p hp s).2 (heq ▸ hi)
        exact ((hs.mem_iff s).1 hmem).elim hl hr
  case pid_eq =>
    intro q hq s hmem o ho
    rcases (mem_partitions_splitInto hc hs).1 hq with ⟨hq, -⟩ | rfl | rfl
    · exact hc.pid_eq q hq s hmem o ho
    · exact hc.pid_eq p hp s ((hs.mem_iff s).2 (.inl hmem)) o ho
    · exact hc.pid_eq p hp s ((hs.mem_iff s).2 (.inr hmem)) o ho

end Split

/-! ### All graphs -/

theorem Valid.merge (h : g.Valid) {retain remove : PartitionId}
    (hmerge : g.merge retain remove = .ok g') : g'.Valid := by
  obtain ⟨kept, gone, hm, rfl⟩ := merge_eq_ok hmerge
  exact h.merged hm

theorem Valid.split (h : g.Valid) {id l r : PartitionId} {left right : OrderedSet ObservationId}
    (hsplit : g.split id left right = .ok (g', l, r)) : g'.Valid := by
  obtain ⟨p, hs, rfl, -, -⟩ := split_eq_ok hsplit
  exact h.splitInto hs

theorem Valid.changes (h : g.Valid) (hg : g.Changes g') : g'.Valid :=
  hg.induction (fun _ _ _ _ hm h => h.merge hm) (fun _ _ _ _ _ _ _ hs h => h.split hs) h

section Arises

variable {executions : List Execution} {processes : Nat} {channels : List Channel}

theorem valid_ofExecutions {how : InitialPartitioning} {names names' : StateNames}
    (h : ofExecutions executions processes channels how names = .ok (g, names')) : g.Valid := by
  have hl := (observes_ofExecutions h).linked
  obtain ⟨-, rfl, -⟩ := ofExecutions_eq_ok.1 h
  exact valid_ofArena hl

/-- Every graph that arises is valid. -/
theorem Arises.valid (h : Arises executions processes channels g) : g.Valid := by
  induction h with
  | built h => exact valid_ofExecutions h
  | changed _ hchange ih => exact ih.changes hchange

end Arises

/-! ### A graph with a loop

One process repeats an event and then does another; a second trace stops
after the first event. The split separates the observation from which the
event is repeated, so an edge that was a loop now joins the two halves. -/

/-- The traces `x x y` and `x`. -/
def loopExecutions : List Execution :=
  let x : TimedEvent := ⟨.internal 0 "x", 0⟩
  let y : TimedEvent := ⟨.internal 0 "y", 0⟩
  [⟨[⟨0, none, [x, x, y]⟩]⟩, ⟨[⟨0, none, [x]⟩]⟩]

/-- Their first graph, in which event `x` leads from partition 1 to itself. -/
def loopGraph : PartitionGraph :=
  ofArena 1 [] .byIncomingEvent
    (observeAll (loopExecutions.flatMap (·.processes)) .standard []).1

/-- The graph after partition 1 has been split. -/
def loopSplit : PartitionGraph :=
  loopGraph.splitInto ⟨1, 0, ⟨[1, 2, 5], by decide⟩⟩ ⟨[1], by decide⟩ ⟨[2, 5], by decide⟩

theorem arises_loopSplit : Arises loopExecutions 1 [] loopSplit := by
  have hbuilt : ofExecutions loopExecutions 1 [] .byIncomingEvent .standard =
      .ok (loopGraph, ⟨"a", 6⟩) := rfl
  have hsplit : loopGraph.split 1 ⟨[1], by decide⟩ ⟨[2, 5], by decide⟩ =
      .ok (loopSplit, 3, 4) := rfl
  exact .changed (.built hbuilt) (.split hsplit)

end ProtocolInference.PartitionGraph
