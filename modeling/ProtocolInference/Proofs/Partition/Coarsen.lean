import ProtocolInference.Proofs.Partition.Behaviour
import ProtocolInference.Proofs.Partition.Ownership

/-!
Coarsening by name never fails.

The groups of a coarsening are made once, before the first merge, and
every merge changes the graph on which the next one has to succeed. What
makes this work is that the groups share no partition: a merge takes one
number out of the graph, leaves every other number with its process, and
the number that is gone is not asked for again.
-/

namespace ProtocolInference.PartitionGraph

variable {g g' : PartitionGraph} {pid : ProcessId} {id retain remove : PartitionId}
variable {key key' : ProcessId × String}

/-! ### The groups -/

/-- The partitions of a process that bear a name, in the order of the
graph. -/
def groupOf (g : PartitionGraph) (key : ProcessId × String) : List PartitionId :=
  (g.partitions.filter fun p => p.pid = key.1 ∧ g.commonName? p = some key.2).map (·.id)

theorem mem_groupOf :
    id ∈ g.groupOf key ↔
      ∃ p ∈ g.partitions, (p.pid = key.1 ∧ g.commonName? p = some key.2) ∧ p.id = id := by
  simp only [groupOf, List.mem_map, List.mem_filter, decide_eq_true_eq, and_assoc]

/-- Add a partition to its group, if it has one. -/
def addToGroup (g : PartitionGraph) (groups : OrderedMap (ProcessId × String) (List PartitionId))
    (p : Partition) : OrderedMap (ProcessId × String) (List PartitionId) :=
  match g.commonName? p with
  | some name => groups.alter (p.pid, name) fun ids => some (ids.getD [] ++ [p.id])
  | none => groups

theorem byName_eq (g : PartitionGraph) : g.byName = g.partitions.foldl g.addToGroup ∅ := rfl

theorem getD_addToGroup (groups : OrderedMap (ProcessId × String) (List PartitionId))
    (p : Partition) :
    ((g.addToGroup groups p).get? key).getD [] = (groups.get? key).getD [] ++
      if p.pid = key.1 ∧ g.commonName? p = some key.2 then [p.id] else [] := by
  rw [addToGroup]
  cases hname : g.commonName? p with
  | none => simp
  | some name =>
      dsimp only
      rw [OrderedMap.get?_alter]
      by_cases hkey : key = (p.pid, name)
      · simp [hkey]
      · have hother : ¬ (p.pid = key.1 ∧ some name = some key.2) := fun h =>
          hkey (Prod.ext h.1.symm (Option.some.inj h.2).symm)
        rw [if_neg hkey, if_neg hother, List.append_nil]

theorem getD_foldl_addToGroup (groups : OrderedMap (ProcessId × String) (List PartitionId))
    (ps : List Partition) :
    ((ps.foldl g.addToGroup groups).get? key).getD [] = (groups.get? key).getD [] ++
      (ps.filter fun p => p.pid = key.1 ∧ g.commonName? p = some key.2).map (·.id) := by
  induction ps generalizing groups with
  | nil => simp
  | cons p ps ih =>
      rw [List.foldl_cons, ih, getD_addToGroup, List.append_assoc]
      by_cases hin : p.pid = key.1 ∧ g.commonName? p = some key.2
      · rw [if_pos hin, List.filter_cons_of_pos (by rwa [decide_eq_true_eq])]
        rfl
      · rw [if_neg hin, List.filter_cons_of_neg (by rwa [decide_eq_true_eq])]
        rfl

theorem eq_groupOf_of_byName {ids : List PartitionId} (h : g.byName.get? key = some ids) :
    ids = g.groupOf key := by
  have hids := @getD_foldl_addToGroup g key ∅ g.partitions
  rw [← byName_eq, h] at hids
  simpa [groupOf] using hids

theorem Coherent.disjoint_groupOf (h : g.Coherent) (hne : key ≠ key') :
    (g.groupOf key).Disjoint (g.groupOf key') := by
  intro id hid hid'
  obtain ⟨p, hp, ⟨hpid, hname⟩, rfl⟩ := mem_groupOf.1 hid
  obtain ⟨q, hq, ⟨hpid', hname'⟩, heq⟩ := mem_groupOf.1 hid'
  obtain rfl := List.inj_on_of_nodup_map h.ids_nodup hp hq heq.symm
  rw [hname] at hname'
  exact hne (Prod.ext (hpid.symm.trans hpid') (Option.some.inj hname'))

/-- The partitions of a list are different, and all of one process. -/
structure IsGroup (g : PartitionGraph) (ids : List PartitionId) : Prop where
  nodup : ids.Nodup
  exists_pid : ∃ pid, ∀ id ∈ ids, g.isPartitionOf pid id = true

theorem Coherent.isGroup_groupOf (h : g.Coherent) (key : ProcessId × String) :
    g.IsGroup (g.groupOf key) := by
  refine ⟨(List.filter_sublist.map _).nodup h.ids_nodup, key.1, fun id hid => ?_⟩
  obtain ⟨p, hp, ⟨hpid, -⟩, rfl⟩ := mem_groupOf.1 hid
  rw [isPartitionOf, h.partition?_of_mem hp]
  exact decide_eq_true hpid

/-- The groups of a coarsening. -/
theorem Coherent.byName_values (h : g.Coherent) :
    (∀ ids ∈ g.byName.values, g.IsGroup ids) ∧ g.byName.values.Pairwise List.Disjoint := by
  have heq : ∀ entry ∈ g.byName.entries, entry.2 = g.groupOf entry.1 := fun entry hentry =>
    eq_groupOf_of_byName (OrderedMap.get?_eq_some_iff.2 hentry)
  constructor
  · intro ids hids
    obtain ⟨entry, hentry, rfl⟩ := List.mem_map.1 hids
    rw [heq entry hentry]
    exact h.isGroup_groupOf entry.1
  · have hkeys := List.pairwise_map.1 g.byName.nodup_keys
    refine List.pairwise_map.2 (hkeys.imp_of_mem fun {entry entry'} hentry hentry' hne => ?_)
    rw [heq entry hentry, heq entry' hentry']
    exact h.disjoint_groupOf hne

/-! ### Merging a group -/

/-- A merge leaves all other partitions with their processes. -/
theorem Valid.isPartitionOf_merged (h : g.Valid) {kept gone : Partition}
    (hm : g.Mergeable retain remove kept gone) (hne : id ≠ remove)
    (hid : g.isPartitionOf pid id = true) :
    (g.merged retain gone).isPartitionOf pid id = true := by
  obtain ⟨p, hp, hpid⟩ := (Option.any_eq_true _ _).1 hid
  obtain ⟨hmem, rfl⟩ := partition?_eq_some hp
  rw [← (partition?_eq_some hm.gone_eq).2] at hne
  obtain ⟨q, hq, hqid, hqpid⟩ : ∃ q ∈ (g.merged retain gone).partitions,
      q.id = p.id ∧ q.pid = p.pid := by
    refine ⟨_, mem_partitions_merged.2 ⟨p, hmem, hne, rfl⟩, ?_, ?_⟩
    · split <;> rfl
    · split <;> rfl
  rw [isPartitionOf, ← hqid, (h.merged hm).coherent.partition?_of_mem hq, Option.any_some, hqpid]
  exact hpid

theorem Valid.exists_mergeAll (h : g.Valid) {rest : List PartitionId}
    (hgroup : g.IsGroup (retain :: rest)) :
    ∃ g', g.mergeAll retain rest = .ok g' ∧ g'.Valid ∧
      ∀ pid id, id ∉ rest → g.isPartitionOf pid id = true → g'.isPartitionOf pid id = true := by
  induction rest generalizing g with
  | nil => exact ⟨g, rfl, h, fun _ _ _ hid => hid⟩
  | cons remove rest ih =>
      obtain ⟨hnodup, pid, hpids⟩ := hgroup
      obtain ⟨hretain, hremove⟩ := List.forall_mem_cons.1 hpids
      obtain ⟨hremove, hrest⟩ := List.forall_mem_cons.1 hremove
      obtain ⟨hnot, hnodup⟩ := List.nodup_cons.1 hnodup
      obtain ⟨kept, hkept, hkeptPid⟩ := (Option.any_eq_true _ _).1 hretain
      obtain ⟨gone, hgone, hgonePid⟩ := (Option.any_eq_true _ _).1 hremove
      have hm : g.Mergeable retain remove kept gone :=
        ⟨fun heq => hnot (heq ▸ List.mem_cons_self), hkept, hgone,
          (of_decide_eq_true hkeptPid).trans (of_decide_eq_true hgonePid).symm⟩
      have hkeep {pid : ProcessId} {id : PartitionId} (hid : g.isPartitionOf pid id = true)
          (hne : id ≠ remove) : (g.merged retain gone).isPartitionOf pid id = true :=
        h.isPartitionOf_merged hm hne hid
      have hgroup' : (g.merged retain gone).IsGroup (retain :: rest) := by
        refine ⟨List.nodup_cons.2 ⟨fun hmem => hnot (List.mem_cons_of_mem _ hmem),
          (List.nodup_cons.1 hnodup).2⟩, pid, List.forall_mem_cons.2 ⟨?_, fun id hid => ?_⟩⟩
        · exact hkeep hretain hm.ne
        · exact hkeep (hrest id hid) fun heq => (List.nodup_cons.1 hnodup).1 (heq ▸ hid)
      obtain ⟨g', hg', hv', hkept'⟩ := ih (h.merged hm) hgroup'
      refine ⟨g', ?_, hv', fun pid id hid hpid => ?_⟩
      · rw [mergeAll, List.foldlM_cons, h.coherent.merge_of_mergeable hm]
        exact hg'
      · rw [List.mem_cons, not_or] at hid
        exact hkept' pid id hid.2 (hkeep hpid hid.1)

/-! ### Merging all groups -/

/-- Merge the partitions of one group, and count the merges. -/
def mergeGroup : PartitionGraph × Nat → List PartitionId →
    Except GraphError (PartitionGraph × Nat)
  | (g, merges), [] => .ok (g, merges)
  | (g, merges), retain :: rest => do
    return (← g.mergeAll retain rest, merges + rest.length)

theorem coarsenByName_eq (g : PartitionGraph) :
    g.coarsenByName = g.byName.values.foldlM mergeGroup (g, 0) := by
  rw [coarsenByName]
  congr 1
  funext ⟨g, merges⟩ ids
  cases ids <;> rfl

theorem Valid.exists_mergeGroups (h : g.Valid) {groups : List (List PartitionId)} {merges : Nat}
    (hgroups : ∀ ids ∈ groups, g.IsGroup ids) (hdisjoint : groups.Pairwise List.Disjoint) :
    ∃ g' merges', groups.foldlM mergeGroup (g, merges) = .ok (g', merges') := by
  induction groups generalizing g merges with
  | nil => exact ⟨g, merges, rfl⟩
  | cons ids groups ih =>
      obtain ⟨hids, hlater⟩ := List.forall_mem_cons.1 hgroups
      obtain ⟨hapart, hdisjoint'⟩ := List.pairwise_cons.1 hdisjoint
      cases ids with
      | nil => exact ih h hlater hdisjoint'
      | cons retain rest =>
          obtain ⟨g', hg', hv', hkept⟩ := h.exists_mergeAll hids
          have hlater' : ∀ ids ∈ groups, g'.IsGroup ids := by
            intro ids hmem
            obtain ⟨hnodup, pid, hpids⟩ := hlater ids hmem
            refine ⟨hnodup, pid, fun id hid => hkept pid id (fun hrest => ?_) (hpids id hid)⟩
            exact hapart ids hmem (List.mem_cons_of_mem _ hrest) hid
          obtain ⟨g'', merges', hg''⟩ := ih hv' hlater' hdisjoint'
          refine ⟨g'', merges', ?_⟩
          rw [List.foldlM_cons, mergeGroup, hg']
          exact hg''

theorem Valid.exists_coarsenByName (h : g.Valid) :
    ∃ g' merges, g.coarsenByName = .ok (g', merges) := by
  obtain ⟨hgroups, hdisjoint⟩ := h.coherent.byName_values
  rw [coarsenByName_eq]
  exact h.exists_mergeGroups hgroups hdisjoint

end ProtocolInference.PartitionGraph
