import Mathlib.Data.List.Flatten
import Mathlib.Logic.Relation
import ProtocolInference.Proofs.Partition.Valid

/-!
Ownership is a true partition of the observations.

In a valid graph the members of all partitions, one partition after the
other, are the observations of the arena, each of them once
(`Valid.perm_members`). Two complaints that a merge knows of can therefore
never be made: no partition is empty, and no observation is in both
(`Valid.checkMerge_eq`).

That numbers are never given twice is a property of operations rather
than of graphs. A change makes partitions from the next number on and
takes others out, so a number that is gone stays gone (`Renumbers`).
-/

namespace ProtocolInference.PartitionGraph

variable {g g' g'' : PartitionGraph}

/-! ### Members and observations -/

theorem Coherent.eq_of_mem (h : g.Coherent) {p q : Partition} (hp : p ∈ g.partitions)
    (hq : q ∈ g.partitions) {s : ObservationId} (hsp : s ∈ p.members) (hsq : s ∈ q.members) :
    p = q := by
  rw [h.mem_iff_owner p hp] at hsp
  rw [h.mem_iff_owner q hq, hsp] at hsq
  exact List.inj_on_of_nodup_map h.ids_nodup hp hq (Option.some.inj hsq)

theorem Coherent.perm_members (h : g.Coherent) :
    (g.partitions.flatMap (·.members.toList)).Perm (List.range g.observations.length) := by
  have hnodup : (g.partitions.flatMap (·.members.toList)).Nodup := by
    rw [List.nodup_flatMap]
    refine ⟨fun p _ => p.members.nodup, ?_⟩
    refine (List.pairwise_map.1 h.ids_nodup).imp_of_mem fun {p q} hp hq hne s hsp hsq => ?_
    exact hne (congrArg Partition.id (h.eq_of_mem hp hq hsp hsq))
  refine (List.perm_ext_iff_of_nodup hnodup List.nodup_range).2 fun s => ?_
  rw [List.mem_flatMap, List.mem_range]
  constructor
  · rintro ⟨p, hp, hs⟩
    exact h.lt_of_mem hp hs
  · intro hs
    obtain ⟨p, hp, hmem⟩ := h.exists_partition hs
    exact ⟨p, (partition?_eq_some hp).1, hmem⟩

theorem sum_size_eq_length (l : List Partition) :
    (l.map (·.members.size)).foldr (· + ·) 0 = (l.flatMap (·.members.toList)).length := by
  induction l with
  | nil => rfl
  | cons p l ih =>
      rw [List.map_cons, List.foldr_cons, ih, List.flatMap_cons, List.length_append]
      rfl

/-- The sizes of the partitions add up to the number of observations. -/
theorem Coherent.sum_size (h : g.Coherent) :
    (g.partitions.map (·.members.size)).foldr (· + ·) 0 = g.observations.length := by
  rw [sum_size_eq_length, h.perm_members.length_eq, List.length_range]

theorem Coherent.length_partitions_le (h : g.Coherent) :
    g.partitions.length ≤ g.observations.length := by
  have hle : ∀ l : List Partition, (∀ p ∈ l, p.members.toList ≠ []) →
      l.length ≤ (l.flatMap (·.members.toList)).length := by
    intro l hl
    induction l with
    | nil => exact Nat.le_refl _
    | cons p l ih =>
        have hp := List.length_pos_iff.2 (hl p List.mem_cons_self)
        have hrest := ih fun q hq => hl q (List.mem_cons_of_mem _ hq)
        rw [List.length_cons, List.flatMap_cons, List.length_append]
        omega
  calc g.partitions.length
      ≤ (g.partitions.flatMap (·.members.toList)).length := hle _ h.members_nonempty
    _ = g.observations.length := by rw [h.perm_members.length_eq, List.length_range]

/-! ### The checks of a merge -/

/-- In a coherent graph a merge can fail for three reasons only. -/
theorem Coherent.checkMerge_eq (h : g.Coherent) (retain remove : PartitionId) :
    g.checkMerge retain remove =
      if retain = remove then .error (.selfMerge retain)
      else do
        let kept ← g.require retain
        let gone ← g.require remove
        if kept.pid ≠ gone.pid then .error (.processMismatch retain remove)
        return (kept, gone) := by
  rw [checkMerge]
  by_cases hne : retain = remove
  · rw [if_pos hne, if_pos hne, error_bind]
  · rw [if_neg hne, if_neg hne]
    cases hk : g.require retain with
    | error e => rfl
    | ok kept =>
        cases hr : g.require remove with
        | error e => rfl
        | ok gone =>
            obtain ⟨hkept, rfl⟩ := partition?_eq_some (require_eq_ok.1 hk)
            obtain ⟨hgone, rfl⟩ := partition?_eq_some (require_eq_ok.1 hr)
            have hk0 : kept.members.isEmpty = false := by
              simpa [OrderedSet.isEmpty] using h.members_nonempty kept hkept
            have hg0 : gone.members.isEmpty = false := by
              simpa [OrderedSet.isEmpty] using h.members_nonempty gone hgone
            have hsize : (kept.members.insertAll gone.members.toList).size =
                kept.members.size + gone.members.size := by
              rw [OrderedSet.size, OrderedSet.toList_insertAll_of_disjoint gone.members.nodup,
                List.length_append, OrderedSet.size, OrderedSet.size]
              exact fun s hg hk => hne (congrArg Partition.id (h.eq_of_mem hkept hgone hk hg))
            simp only [ok_bind, error_bind, hk0, hg0, hsize, Bool.false_eq_true, if_false, ne_eq,
              not_true_eq_false]

theorem Coherent.merge_of_mergeable (h : g.Coherent) {retain remove : PartitionId}
    {kept gone : Partition} (hm : g.Mergeable retain remove kept gone) :
    g.merge retain remove = .ok (g.merged retain gone) := by
  have hcheck : g.checkMerge retain remove = .ok (kept, gone) := by
    rw [h.checkMerge_eq, if_neg hm.ne, require_eq_ok.2 hm.kept_eq, require_eq_ok.2 hm.gone_eq]
    simp [hm.pid_eq]
  rw [merge, hcheck, merged, (partition?_eq_some hm.gone_eq).2]
  rfl

/-- A merge never finds a partition empty or an observation lost. -/
theorem Coherent.merge_error (h : g.Coherent) {retain remove : PartitionId} {e : GraphError}
    (he : g.merge retain remove = .error e) :
    e = .selfMerge retain ∨ e = .unknownPartition retain ∨ e = .unknownPartition remove ∨
      e = .processMismatch retain remove := by
  have hok {kept gone : Partition} (hm : g.Mergeable retain remove kept gone) : False := by
    rw [h.merge_of_mergeable hm] at he
    cases he
  rw [merge, h.checkMerge_eq] at he
  by_cases hne : retain = remove
  · rw [if_pos hne, error_bind] at he
    exact .inl (Except.error.inj he).symm
  · rw [if_neg hne, require, require] at he
    cases hk : g.partition? retain with
    | none =>
        rw [hk] at he
        exact .inr (.inl (Except.error.inj he).symm)
    | some kept =>
        cases hr : g.partition? remove with
        | none =>
            rw [hk, hr] at he
            exact .inr (.inr (.inl (Except.error.inj he).symm))
        | some gone =>
            rw [hk, hr] at he
            by_cases hpid : kept.pid = gone.pid
            · exact (hok ⟨hne, hk, hr, hpid⟩).elim
            · simp only [ok_bind, ne_eq, hpid, not_false_eq_true, if_true, error_bind] at he
              exact .inr (.inr (.inr (Except.error.inj he).symm))

/-! ### Numbers -/

/-- Partitions of the second graph either were there before under their
numbers, or bear numbers that had not been given. -/
structure Renumbers (g g' : PartitionGraph) : Prop where
  nextId_le : g.nextId ≤ g'.nextId
  old_or_new : ∀ p' ∈ g'.partitions, (∃ p ∈ g.partitions, p.id = p'.id) ∨ g.nextId ≤ p'.id

theorem Renumbers.refl (g : PartitionGraph) : Renumbers g g :=
  ⟨Nat.le_refl _, fun p hp => .inl ⟨p, hp, rfl⟩⟩

theorem Renumbers.trans (h : Renumbers g g') (h' : Renumbers g' g'') : Renumbers g g'' where
  nextId_le := Nat.le_trans h.nextId_le h'.nextId_le
  old_or_new p'' hp'' := by
    rcases h'.old_or_new p'' hp'' with ⟨p', hp', hid⟩ | hnew
    · rw [← hid]
      exact h.old_or_new p' hp'
    · exact .inr (Nat.le_trans h.nextId_le hnew)

theorem renumbers_merge {retain remove : PartitionId} (h : g.merge retain remove = .ok g') :
    Renumbers g g' := by
  obtain ⟨kept, gone, -, rfl⟩ := merge_eq_ok h
  refine ⟨Nat.le_refl _, fun q hq => .inl ?_⟩
  obtain ⟨p, hp, -, rfl⟩ := mem_partitions_merged.1 hq
  refine ⟨p, hp, ?_⟩
  split <;> rfl

theorem renumbers_split {id l r : PartitionId} {left right : OrderedSet ObservationId}
    (h : g.split id left right = .ok (g', l, r)) : Renumbers g g' := by
  obtain ⟨p, -, rfl, -, -⟩ := split_eq_ok h
  refine ⟨Nat.le_add_right _ 2, fun q hq => ?_⟩
  rcases List.mem_append.1 (List.mem_of_mem_filter hq) with hq | hq
  · exact .inl ⟨q, hq, rfl⟩
  · right
    rcases List.mem_cons.1 hq with rfl | hq
    · exact Nat.le_refl _
    · rw [List.mem_singleton.1 hq]
      exact Nat.le_succ _

/-- Changes never give a number again. -/
theorem renumbers_of_changes (h : Relation.ReflTransGen Changes g g') : Renumbers g g' := by
  induction h with
  | refl => exact .refl g
  | tail _ hchange ih =>
      exact hchange.induction (P := Renumbers g)
        (fun _ _ _ _ hm hg => hg.trans (renumbers_merge hm))
        (fun _ _ _ _ _ _ _ hs hg => hg.trans (renumbers_split hs)) ih

theorem Coherent.length_filter_ne (h : g.Coherent) {p : Partition} (hp : p ∈ g.partitions) :
    (g.partitions.filter (·.id ≠ p.id)).length + 1 = g.partitions.length := by
  have hone : g.partitions.countP (·.id = p.id) = 1 := by
    rw [← List.count_eq_one_of_mem h.ids_nodup (List.mem_map_of_mem hp), List.count,
      List.countP_map]
    exact List.countP_congr fun q _ => by simp
  have hsum := List.length_eq_countP_add_countP (l := g.partitions) (·.id = p.id)
  rw [← List.countP_eq_length_filter]
  simp only [ne_eq, decide_not, Bool.not_eq_true, decide_eq_false_iff_not, hone] at hsum ⊢
  omega

theorem Coherent.length_partitions_split (h : g.Coherent) {id l r : PartitionId}
    {left right : OrderedSet ObservationId} (hsplit : g.split id left right = .ok (g', l, r)) :
    g'.partitions.length = g.partitions.length + 1 := by
  obtain ⟨p, hs, rfl, -, -⟩ := split_eq_ok hsplit
  obtain ⟨hmem, -⟩ := partition?_eq_some hs.partition_eq
  have hlt := h.id_lt p hmem
  have hhalves : (g.halves p left right).filter (·.id ≠ p.id) = g.halves p left right := by
    rw [List.filter_eq_self]
    intro q hq
    have hge : g.nextId ≤ q.id := by
      simp only [halves, List.mem_cons, List.not_mem_nil, or_false] at hq
      rcases hq with rfl | rfl
      · exact Nat.le_refl _
      · exact Nat.le_succ _
    exact decide_eq_true (Nat.ne_of_gt (Nat.lt_of_lt_of_le hlt hge))
  have hfewer := h.length_filter_ne hmem
  change ((g.partitions ++ g.halves p left right).filter (·.id ≠ p.id)).length = _
  rw [List.filter_append, hhalves, List.length_append, ← hfewer]
  rfl

/-! ### The whole picture -/

/-- The partitions divide the observations: each partition stands under its own
number, has members, all of its process and of the arena, and each observation is
a member of its owner and of no other partition. Numbers that have been given are
not given again, and a merge cannot fail for want of members. -/
structure IsDivided (g : PartitionGraph) : Prop where
  partition : ∀ p ∈ g.partitions,
    g.partition? p.id = some p ∧ p.members.toList ≠ [] ∧ p.id < g.nextId
  member : ∀ p ∈ g.partitions, ∀ s ∈ p.members, ∃ o, g.observation? s = some o ∧ o.pid = p.pid
  owner : ∀ s < g.observations.length, ∃ p ∈ g.partitions, s ∈ p.members ∧
    g.owner? s = some p.id ∧ ∀ q ∈ g.partitions, s ∈ q.members → q = p
  sum_eq : (g.partitions.map (·.members.size)).foldr (· + ·) 0 = g.observations.length
  not_reused : ∀ g', Relation.ReflTransGen Changes g g' → ∀ p' ∈ g'.partitions,
    p'.id < g.nextId → ∃ p ∈ g.partitions, p.id = p'.id
  merge_error : ∀ retain remove e, g.merge retain remove = .error e →
    (∀ id, e ≠ .emptyPartition id) ∧ ∀ expected actual, e ≠ .lostStates expected actual

theorem Valid.isDivided (hv : g.Valid) : g.IsDivided := by
  have hc := hv.coherent
  constructor
  case partition =>
    intro p hp
    exact ⟨hc.partition?_of_mem hp, hc.members_nonempty p hp, hc.id_lt p hp⟩
  case member =>
    intro p hp s hs
    have ho : g.observation? s = some _ := List.getElem?_eq_getElem (hc.lt_of_mem hp hs)
    exact ⟨_, ho, hc.pid_eq p hp s hs _ ho⟩
  case owner =>
    intro s hs
    obtain ⟨p, hp, hmem⟩ := hc.exists_partition hs
    have hp' := (partition?_eq_some hp).1
    exact ⟨p, hp', hmem, (hc.mem_iff_owner p hp' s).1 hmem,
      fun q hq hsq => hc.eq_of_mem hq hp' hsq hmem⟩
  case sum_eq => exact hc.sum_size
  case not_reused =>
    intro g' hchanges p' hp' hlt
    rcases (renumbers_of_changes hchanges).old_or_new p' hp' with hold | hnew
    · exact hold
    · exact absurd hlt (Nat.not_lt.2 hnew)
  case merge_error =>
    intro retain remove e he
    rcases hc.merge_error he with rfl | rfl | rfl | rfl <;> exact ⟨fun _ => nofun, fun _ _ => nofun⟩

end ProtocolInference.PartitionGraph
