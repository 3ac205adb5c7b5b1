import ProtocolInference.Partition.Path
import ProtocolInference.Partition.Language
import ProtocolInference.Proofs.Partition.Valid

/-!
What takes the place of a partition.

A split puts two partitions in the place of one, and a merge puts one in the
place of two. Either way the members stay together but for this, and all
other partitions are what they were. `Divides` and `Joins` say so by looking
partitions up, with no regard to where they stand in the list.
-/

namespace ProtocolInference.PartitionGraph

variable {g g' : PartitionGraph} {id : PartitionId} {p : Partition}
variable {left right : OrderedSet ObservationId}

/-! ### Splits -/

/-- In `g'` the partitions `l` and `r` have taken the place of `id`, and share
its members out between them. -/
structure Divides (g g' : PartitionGraph) (id l r : PartitionId) : Prop where
  fresh : g.partition? l = none ∧ g.partition? r = none
  gone : g'.partition? id = none
  left_nonempty : g'.membersOf l ≠ []
  right_nonempty : g'.membersOf r ≠ []
  disjoint : ∀ s ∈ g'.membersOf l, s ∉ g'.membersOf r
  mem_iff : ∀ s, s ∈ g.membersOf id ↔ s ∈ g'.membersOf l ∨ s ∈ g'.membersOf r
  isPartitionOf_eq : ∀ pid, g'.isPartitionOf pid l = g.isPartitionOf pid id ∧
    g'.isPartitionOf pid r = g.isPartitionOf pid id
  others : ∀ i, i ≠ id → i ≠ l → i ≠ r → g'.partition? i = g.partition? i

theorem Coherent.partition?_eq_none (h : g.Coherent) (hid : g.nextId ≤ id) :
    g.partition? id = none := by
  rw [Option.eq_none_iff_forall_ne_some]
  intro q hq
  obtain ⟨hmem, rfl⟩ := partition?_eq_some hq
  exact Nat.not_lt.2 hid (h.id_lt q hmem)

section SplitInto

variable (hv : g.Valid) (hs : g.Splittable id p left right)

include hv hs

theorem partition?_splitInto_left :
    (g.splitInto p left right).partition? g.nextId = some ⟨g.nextId, p.pid, left⟩ :=
  (hv.splitInto hs).coherent.partition?_of_mem
    ((mem_partitions_splitInto hv.coherent hs).2 (.inr (.inl rfl)))

theorem partition?_splitInto_right :
    (g.splitInto p left right).partition? (g.nextId + 1) = some ⟨g.nextId + 1, p.pid, right⟩ :=
  (hv.splitInto hs).coherent.partition?_of_mem
    ((mem_partitions_splitInto hv.coherent hs).2 (.inr (.inr rfl)))

theorem membersOf_splitInto_left :
    (g.splitInto p left right).membersOf g.nextId = left.toList := by
  rw [membersOf, partition?_splitInto_left hv hs, Option.map_some, Option.getD_some]

theorem membersOf_splitInto_right :
    (g.splitInto p left right).membersOf (g.nextId + 1) = right.toList := by
  rw [membersOf, partition?_splitInto_right hv hs, Option.map_some, Option.getD_some]

/-- A partition that is none of those concerned stays. -/
theorem partition?_splitInto_of_ne {i : PartitionId} (hid : i ≠ id) (hl : i ≠ g.nextId)
    (hr : i ≠ g.nextId + 1) : (g.splitInto p left right).partition? i = g.partition? i := by
  have hc := hv.coherent
  have hpid := (partition?_eq_some hs.partition_eq).2
  ext q
  rw [(hv.splitInto hs).coherent.partition?_eq_some_iff, hc.partition?_eq_some_iff,
    mem_partitions_splitInto hc hs]
  constructor
  · rintro ⟨⟨hq, -⟩ | rfl | rfl, rfl⟩
    · exact ⟨hq, rfl⟩
    · exact absurd rfl hl
    · exact absurd rfl hr
  · rintro ⟨hq, rfl⟩
    exact ⟨.inl ⟨hq, fun heq => hid (heq.trans hpid)⟩, rfl⟩

theorem Valid.divides_splitInto :
    g.Divides (g.splitInto p left right) id g.nextId (g.nextId + 1) := by
  have hc := hv.coherent
  have hpid := (partition?_eq_some hs.partition_eq).2
  have hl := membersOf_splitInto_left hv hs
  have hr := membersOf_splitInto_right hv hs
  constructor
  case fresh =>
    exact ⟨hc.partition?_eq_none (Nat.le_refl _), hc.partition?_eq_none (Nat.le_succ _)⟩
  case gone =>
    rw [Option.eq_none_iff_forall_ne_some]
    intro q hq
    have hlt := hc.id_lt p (partition?_eq_some hs.partition_eq).1
    obtain ⟨hq, hid⟩ := partition?_eq_some hq
    rcases (mem_partitions_splitInto hc hs).1 hq with ⟨-, hne⟩ | rfl | rfl
    · exact hne (hid.trans hpid.symm)
    · exact absurd (hpid.trans hid.symm) (Nat.ne_of_lt hlt)
    · exact absurd (hpid.trans hid.symm) (Nat.ne_of_lt (Nat.lt_succ_of_lt hlt))
  case left_nonempty => exact hl ▸ hs.left_nonempty
  case right_nonempty => exact hr ▸ hs.right_nonempty
  case disjoint =>
    rw [hl, hr]
    exact hs.disjoint
  case mem_iff =>
    intro s
    rw [hl, hr, membersOf, hs.partition_eq]
    exact hs.mem_iff s
  case isPartitionOf_eq =>
    intro pid
    rw [isPartitionOf, isPartitionOf, isPartitionOf, partition?_splitInto_left hv hs,
      partition?_splitInto_right hv hs, hs.partition_eq]
    exact ⟨rfl, rfl⟩
  case others => exact fun i => partition?_splitInto_of_ne hv hs

end SplitInto

/-! ### Merges -/

/-- In `g'` the members of partition `remove` of `g` have joined those of
`retain`. -/
structure Joins (g g' : PartitionGraph) (retain remove : PartitionId) : Prop where
  gone : g'.partition? remove = none
  disjoint : ∀ s ∈ g.membersOf retain, s ∉ g.membersOf remove
  mem_iff : ∀ s, s ∈ g'.membersOf retain ↔ s ∈ g.membersOf retain ∨ s ∈ g.membersOf remove
  isPartitionOf_eq : ∀ pid, g'.isPartitionOf pid retain = g.isPartitionOf pid retain
  others : ∀ i, i ≠ retain → i ≠ remove → g'.partition? i = g.partition? i

theorem find?_filter_ne {ps : List Partition} {other : PartitionId} (hne : id ≠ other) :
    (ps.filter (·.id ≠ other)).find? (·.id = id) = ps.find? (·.id = id) := by
  rw [List.find?_filter]
  congr 1
  funext p
  by_cases hp : p.id = id
  · simp [hp, hne]
  · simp [hp]

section Merged

variable {retain remove : PartitionId} {kept gone : Partition}

theorem partition?_merged_of_ne (hid : id ≠ gone.id) :
    (g.merged retain gone).partition? id = (g.partition? id).map fun p =>
      if p.id = retain then { p with members := p.members.insertAll gone.members.toList }
      else p := by
  rw [partition?, merged, List.find?_map, partition?, ← find?_filter_ne hid]
  congr 2
  funext p
  dsimp only [Function.comp]
  split <;> rfl

theorem Coherent.joins_merged (h : g.Coherent) (hm : g.Mergeable retain remove kept gone) :
    g.Joins (g.merged retain gone) retain remove := by
  obtain ⟨hgone, hremove⟩ := partition?_eq_some hm.gone_eq
  obtain ⟨hkept, hretain⟩ := partition?_eq_some hm.kept_eq
  have hfound : (g.merged retain gone).partition? retain =
      some { kept with members := kept.members.insertAll gone.members.toList } := by
    rw [partition?_merged_of_ne (hremove ▸ hm.ne), hm.kept_eq, Option.map_some, if_pos hretain]
  constructor
  case gone =>
    rw [Option.eq_none_iff_forall_ne_some]
    intro q hq
    obtain ⟨hq, hid⟩ := partition?_eq_some hq
    obtain ⟨p, -, hne, rfl⟩ := mem_partitions_merged.1 hq
    rw [apply_ite Partition.id, ite_self] at hid
    exact hne (hid.trans hremove.symm)
  case disjoint =>
    intro s hs hs'
    rw [membersOf, hm.kept_eq] at hs
    rw [membersOf, hm.gone_eq] at hs'
    have hs := (h.mem_members hm.kept_eq s).1 hs
    have hs' := (h.mem_members hm.gone_eq s).1 hs'
    exact hm.ne (Option.some.inj (hs.symm.trans hs'))
  case mem_iff =>
    intro s
    rw [membersOf, membersOf, membersOf, hfound, hm.kept_eq, hm.gone_eq]
    exact OrderedSet.mem_insertAll
  case isPartitionOf_eq =>
    intro pid
    rw [isPartitionOf, isPartitionOf, hfound, hm.kept_eq, Option.any_some, Option.any_some]
  case others =>
    intro i hi hi'
    rw [partition?_merged_of_ne (hremove ▸ hi')]
    cases hp : g.partition? i with
    | none => rfl
    | some p =>
        have hid : p.id ≠ retain := (partition?_eq_some hp).2 ▸ hi
        rw [Option.map_some, if_neg hid]

end Merged

end ProtocolInference.PartitionGraph
