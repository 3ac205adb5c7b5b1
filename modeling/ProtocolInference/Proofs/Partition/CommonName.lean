import ProtocolInference.Proofs.Partition.Coarsen

/-!
Coarsening by name is done in one pass.

A coarsening gives every observation to the *heir* of its partition: the
first partition of the group that its partition is in, or the partition
itself if it is in none (`Gathers.owner?_eq`). The groups are made from the
graph as it was, and the equation speaks of that graph alone, so what
follows does not depend on the order in which the merges were made.

Two partitions are *kindred* if they are the same, or of one process and
their members all bear one name. Kindred partitions have the same heir and
others do not, and an heir is kindred to what it inherits. So a partition
of the new graph is the union of the partitions that were kindred to it,
and two partitions that are kindred now have been so before, and are one
already. This is why a second pass finds groups of one partition each, and
has nothing to merge.
-/

namespace ProtocolInference.PartitionGraph

variable {g g' g'' : PartitionGraph} {p q r : Partition} {s t : ObservationId}
variable {id retain remove : PartitionId} {ids rest : List PartitionId}
variable {groups : List (List PartitionId)} {merges merges' : Nat} {name : String}

/-! ### Names that all members bear -/

/-- All members of the partition bear the name. -/
def Bears (g : PartitionGraph) (p : Partition) (name : String) : Prop :=
  ∀ s ∈ p.members, ∃ o, g.observation? s = some o ∧ o.name = name

/-- The partitions are the same, or of one process and their members all bear
one name. -/
def Kindred (g : PartitionGraph) (p q : Partition) : Prop :=
  p = q ∨ p.pid = q.pid ∧ ∃ name, g.Bears p name ∧ g.Bears q name

theorem Kindred.refl (p : Partition) : g.Kindred p p := .inl rfl

theorem Kindred.symm (h : g.Kindred p q) : g.Kindred q p := by
  rcases h with rfl | ⟨hpid, name, hp, hq⟩
  · exact .inl rfl
  · exact .inr ⟨hpid.symm, name, hq, hp⟩

theorem Kindred.pid_eq (h : g.Kindred p q) : p.pid = q.pid := by
  rcases h with rfl | ⟨hpid, -⟩
  · rfl
  · exact hpid

/-- A partition has a member, so it bears one name at most. -/
theorem Coherent.eq_of_bears (h : g.Coherent) (hp : p ∈ g.partitions) {name' : String}
    (hname : g.Bears p name) (hname' : g.Bears p name') : name = name' := by
  obtain ⟨s, hs⟩ := List.exists_mem_of_ne_nil _ (h.members_nonempty p hp)
  obtain ⟨o, ho, rfl⟩ := hname s hs
  obtain ⟨o', ho', rfl⟩ := hname' s hs
  rw [Option.some.inj (ho.symm.trans ho')]

theorem Coherent.kindred_trans (h : g.Coherent) (hq : q ∈ g.partitions) (hpq : g.Kindred p q)
    (hqr : g.Kindred q r) : g.Kindred p r := by
  rcases hpq with rfl | ⟨hpid, name, hp, hname⟩
  · exact hqr
  · rcases hqr with rfl | ⟨hpid', name', hname', hr⟩
    · exact .inr ⟨hpid, name, hp, hname⟩
    · obtain rfl := h.eq_of_bears hq hname hname'
      exact .inr ⟨hpid.trans hpid', name, hp, hr⟩

/-- What a coarsening takes for the name of a partition. -/
theorem Coherent.commonName?_eq_some (h : g.Coherent) (hp : p ∈ g.partitions) :
    g.commonName? p = some name ↔ g.Bears p name := by
  have hobs : ∀ s ∈ p.members, ∃ o, g.observation? s = some o := fun s hs =>
    ⟨_, List.getElem?_eq_getElem (h.lt_of_mem hp hs)⟩
  have hnames : ∀ n, n ∈ (p.members.toList.filterMap fun s => (g.observation? s).map (·.name)) ↔
      ∃ s ∈ p.members, ∃ o, g.observation? s = some o ∧ o.name = n := fun n => by
    simp only [List.mem_filterMap, Option.map_eq_some_iff, OrderedSet.mem_def]
  have hbears : g.Bears p name ↔
      ∀ n ∈ (p.members.toList.filterMap fun s => (g.observation? s).map (·.name)), n = name := by
    constructor
    · intro hb n hn
      obtain ⟨s, hs, o, ho, rfl⟩ := (hnames n).1 hn
      obtain ⟨o', ho', rfl⟩ := hb s hs
      rw [Option.some.inj (ho.symm.trans ho')]
    · intro hall s hs
      obtain ⟨o, ho⟩ := hobs s hs
      exact ⟨o, ho, hall _ ((hnames _).2 ⟨s, hs, o, ho, rfl⟩)⟩
  rw [hbears, commonName?]
  cases hlist : p.members.toList.filterMap fun s => (g.observation? s).map (·.name) with
  | nil =>
      obtain ⟨s, hs⟩ := List.exists_mem_of_ne_nil _ (h.members_nonempty p hp)
      obtain ⟨o, ho⟩ := hobs s hs
      have hmem := (hnames o.name).2 ⟨s, hs, o, ho, rfl⟩
      rw [hlist] at hmem
      exact absurd hmem List.not_mem_nil
  | cons n ns =>
      by_cases hall : ∀ m ∈ ns, m = n
      · have hsame : ns.all (· = n) = true := by simpa using hall
        dsimp only
        rw [if_pos hsame, Option.some.injEq]
        constructor
        · rintro rfl
          simpa using hall
        · exact fun hmem => hmem n List.mem_cons_self
      · have hother : ¬ ns.all (· = n) = true := by simpa using hall
        dsimp only
        rw [if_neg hother]
        refine iff_of_false nofun fun hmem => hall fun m hm => ?_
        rw [hmem m (List.mem_cons_of_mem _ hm), hmem n List.mem_cons_self]

/-! ### Heirs -/

/-- Where a coarsening with the given groups puts the members of a
partition. -/
def heir : List (List PartitionId) → PartitionId → PartitionId
  | [], id => id
  | ids :: groups, id => if id ∈ ids then ids.headD id else heir groups id

theorem heir_of_not_mem (h : ∀ ids ∈ groups, id ∉ ids) : heir groups id = id := by
  induction groups with
  | nil => rfl
  | cons ids groups ih =>
      obtain ⟨hhead, htail⟩ := List.forall_mem_cons.1 h
      rw [heir, if_neg hhead, ih htail]

theorem heir_of_mem (hdisjoint : groups.Pairwise List.Disjoint) (hids : ids ∈ groups)
    (hid : id ∈ ids) : heir groups id = ids.headD id := by
  induction groups with
  | nil => exact absurd hids List.not_mem_nil
  | cons ids' groups ih =>
      obtain ⟨hapart, hdisjoint⟩ := List.pairwise_cons.1 hdisjoint
      rcases List.mem_cons.1 hids with rfl | hids
      · rw [heir, if_pos hid]
      · rw [heir, if_neg fun hmem => hapart ids hids hmem hid, ih hdisjoint hids]

/-- A group is listed under its process and name as soon as a partition is in
it. -/
theorem groupOf_mem_values {key : ProcessId × String} (hid : id ∈ g.groupOf key) :
    g.groupOf key ∈ g.byName.values := by
  have hgroup := @getD_foldl_addToGroup g key ∅ g.partitions
  rw [← byName_eq, OrderedMap.get?_empty, Option.getD_none, List.nil_append] at hgroup
  cases hget : g.byName.get? key with
  | none =>
      rw [hget] at hgroup
      have hnil : g.groupOf key = [] := hgroup.symm
      exact absurd (hnil ▸ hid) List.not_mem_nil
  | some ids =>
      rw [← eq_groupOf_of_byName hget]
      exact List.mem_map.2 ⟨(key, ids), OrderedMap.get?_eq_some_iff.1 hget, rfl⟩

theorem Coherent.mem_groupOf_of_bears (h : g.Coherent) (hp : p ∈ g.partitions)
    (hname : g.Bears p name) : p.id ∈ g.groupOf (p.pid, name) :=
  mem_groupOf.2 ⟨p, hp, ⟨rfl, (h.commonName?_eq_some hp).2 hname⟩, rfl⟩

theorem Coherent.heir_of_bears (h : g.Coherent) (hp : p ∈ g.partitions) (hname : g.Bears p name) :
    heir g.byName.values p.id = (g.groupOf (p.pid, name)).headD p.id :=
  have hmem := h.mem_groupOf_of_bears hp hname
  heir_of_mem h.byName_values.2 (groupOf_mem_values hmem) hmem

theorem Coherent.exists_bears_of_mem_group (h : g.Coherent) (hp : p ∈ g.partitions)
    (hids : ids ∈ g.byName.values) (hid : p.id ∈ ids) : ∃ name, g.Bears p name := by
  obtain ⟨⟨key, _⟩, hentry, rfl⟩ := List.mem_map.1 hids
  rw [eq_groupOf_of_byName (OrderedMap.get?_eq_some_iff.2 hentry)] at hid
  obtain ⟨q, hq, ⟨-, hname⟩, heq⟩ := mem_groupOf.1 hid
  obtain rfl := List.inj_on_of_nodup_map h.ids_nodup hq hp heq
  exact ⟨key.2, (h.commonName?_eq_some hq).1 hname⟩

/-- The heir is a partition that is kindred to what it inherits. -/
theorem Coherent.exists_heir (h : g.Coherent) (hp : p ∈ g.partitions) :
    ∃ r ∈ g.partitions, r.id = heir g.byName.values p.id ∧ g.Kindred p r := by
  by_cases hname : ∃ name, g.Bears p name
  · obtain ⟨name, hname⟩ := hname
    have hmem := h.mem_groupOf_of_bears hp hname
    rw [h.heir_of_bears hp hname]
    cases hgroup : g.groupOf (p.pid, name) with
    | nil => exact absurd (hgroup ▸ hmem) List.not_mem_nil
    | cons first rest =>
        obtain ⟨r, hr, ⟨hpid, hbears⟩, rfl⟩ := mem_groupOf.1 (hgroup ▸ List.mem_cons_self)
        exact ⟨r, hr, rfl, .inr ⟨hpid.symm, name, hname, (h.commonName?_eq_some hr).1 hbears⟩⟩
  · refine ⟨p, hp, ?_, .refl p⟩
    exact (heir_of_not_mem fun ids hids hid =>
      hname (h.exists_bears_of_mem_group hp hids hid)).symm

theorem Coherent.heir_eq_of_kindred (h : g.Coherent) (hp : p ∈ g.partitions)
    (hq : q ∈ g.partitions) (hpq : g.Kindred p q) :
    heir g.byName.values p.id = heir g.byName.values q.id := by
  rcases hpq with rfl | ⟨hpid, name, hpname, hqname⟩
  · rfl
  · have hmem := h.mem_groupOf_of_bears hp hpname
    rw [h.heir_of_bears hp hpname, h.heir_of_bears hq hqname, ← hpid]
    cases hgroup : g.groupOf (p.pid, name) with
    | nil => exact absurd (hgroup ▸ hmem) List.not_mem_nil
    | cons first rest => rfl

/-! ### What the merges do -/

/-- The graph `g'` comes from `g` by giving the observations of each group to
its first partition. -/
structure Gathers (g g' : PartitionGraph) (groups : List (List PartitionId)) : Prop where
  valid : g'.Valid
  observations_eq : g'.observations = g.observations
  owner?_eq : ∀ s, g'.owner? s = (g.owner? s).map (heir groups)
  /-- Partitions that are in no group stay as they are. -/
  mem_partitions : ∀ p ∈ g.partitions, (∀ ids ∈ groups, p.id ∉ ids) → p ∈ g'.partitions

theorem Gathers.refl (h : g.Valid) : g.Gathers g [] :=
  ⟨h, rfl, fun s => by cases g.owner? s <;> rfl, fun _ hp _ => hp⟩

theorem Gathers.cons (h : g.Gathers g' [ids]) (h' : g'.Gathers g'' groups)
    (hapart : ∀ ids' ∈ groups, ids.Disjoint ids') : g.Gathers g'' (ids :: groups) where
  valid := h'.valid
  observations_eq := h'.observations_eq.trans h.observations_eq
  owner?_eq s := by
    rw [h'.owner?_eq, h.owner?_eq, Option.map_map]
    cases g.owner? s with
    | none => rfl
    | some id =>
        refine congrArg some ?_
        show heir groups (if id ∈ ids then ids.headD id else id) = _
        by_cases hid : id ∈ ids
        · have hhead : ids.headD id ∈ ids := by
            cases ids with
            | nil => exact hid
            | cons first rest => exact List.mem_cons_self
          rw [heir, if_pos hid, if_pos hid]
          exact heir_of_not_mem fun ids' hids' hmem => hapart ids' hids' hhead hmem
        · rw [heir, if_neg hid, if_neg hid]
  mem_partitions p hp hout := by
    obtain ⟨hids, hgroups⟩ := List.forall_mem_cons.1 hout
    exact h'.mem_partitions p (h.mem_partitions p hp (by simpa using hids)) hgroups

/-- A merge gives what was removed to what is retained, and leaves other
partitions alone. -/
theorem Valid.gathers_merge (h : g.Valid) (hmerge : g.merge retain remove = .ok g') :
    g.Gathers g' [[retain, remove]] := by
  obtain ⟨kept, gone, hm, rfl⟩ := merge_eq_ok hmerge
  refine ⟨h.merged hm, rfl, fun s => ?_, fun p hp hout => ?_⟩
  · rw [owner?_merged h.coherent hm]
    simp only [h.coherent.mem_members hm.gone_eq]
    cases g.owner? s with
    | none => simp
    | some id =>
        simp only [Option.some.injEq, Option.map_some, heir, List.mem_cons, List.not_mem_nil,
          or_false, List.headD_cons]
        grind
  · have hid : p.id ≠ retain ∧ p.id ≠ remove := by simpa using hout
    refine mem_partitions_merged.2 ⟨p, hp, ?_, (if_neg hid.1).symm⟩
    rw [(partition?_eq_some hm.gone_eq).2]
    exact hid.2

theorem Valid.gathers_mergeAll (h : g.Valid) (hmerge : g.mergeAll retain rest = .ok g') :
    g.Gathers g' [retain :: rest] := by
  induction rest generalizing g with
  | nil =>
      obtain rfl := Except.ok.inj hmerge
      refine ⟨h, rfl, fun s => ?_, fun _ hp _ => hp⟩
      cases g.owner? s with
      | none => rfl
      | some id => simp [heir, eq_comm]
  | cons remove rest ih =>
      rw [mergeAll, List.foldlM_cons, bind_eq_ok] at hmerge
      obtain ⟨g₁, hfirst, hrest⟩ := hmerge
      have h₁ := h.gathers_merge hfirst
      have h₂ := ih h₁.valid hrest
      refine ⟨h₂.valid, h₂.observations_eq.trans h₁.observations_eq, fun s => ?_,
        fun p hp hout => ?_⟩
      · rw [h₂.owner?_eq, h₁.owner?_eq, Option.map_map]
        cases g.owner? s with
        | none => rfl
        | some id =>
            simp only [Option.map_some, Function.comp_apply, heir, List.mem_cons, List.not_mem_nil,
              or_false, List.headD_cons, Option.some.injEq]
            grind
      · have hid : p.id ≠ retain ∧ p.id ≠ remove ∧ p.id ∉ rest := by simpa using hout
        refine h₂.mem_partitions p (h₁.mem_partitions p hp ?_) ?_
        · simpa using ⟨hid.1, hid.2.1⟩
        · simpa using ⟨hid.1, hid.2.2⟩

theorem Valid.length_merge (h : g.Valid) (hmerge : g.merge retain remove = .ok g') :
    g'.partitions.length + 1 = g.partitions.length := by
  obtain ⟨kept, gone, hm, rfl⟩ := merge_eq_ok hmerge
  rw [PartitionGraph.merged, List.length_map]
  exact h.coherent.length_filter_ne (partition?_eq_some hm.gone_eq).1

theorem Valid.length_mergeAll (h : g.Valid) (hmerge : g.mergeAll retain rest = .ok g') :
    g'.partitions.length + rest.length = g.partitions.length := by
  induction rest generalizing g with
  | nil =>
      obtain rfl := Except.ok.inj hmerge
      rfl
  | cons remove rest ih =>
      rw [mergeAll, List.foldlM_cons, bind_eq_ok] at hmerge
      obtain ⟨g₁, hfirst, hrest⟩ := hmerge
      have hlength := h.length_merge hfirst
      have hlength' := ih (h.merge hfirst) hrest
      rw [List.length_cons]
      omega

theorem Valid.gathers_mergeGroup (h : g.Valid)
    (hmerge : mergeGroup (g, merges) ids = .ok (g', merges')) :
    g.Gathers g' [ids] ∧ merges' + g'.partitions.length = merges + g.partitions.length := by
  cases ids with
  | nil =>
      obtain ⟨rfl, rfl⟩ := Prod.mk.inj (Except.ok.inj hmerge)
      exact ⟨⟨h, rfl, fun s => by cases g.owner? s <;> simp [heir], fun _ hp _ => hp⟩, rfl⟩
  | cons retain rest =>
      obtain ⟨g₁, hall, hpure⟩ := bind_eq_ok.1 hmerge
      obtain ⟨rfl, rfl⟩ := Prod.mk.inj (pure_eq_ok.1 hpure)
      have hlength := h.length_mergeAll hall
      exact ⟨h.gathers_mergeAll hall, by omega⟩

theorem Valid.gathers_mergeGroups (h : g.Valid) (hdisjoint : groups.Pairwise List.Disjoint)
    (hmerge : groups.foldlM mergeGroup (g, merges) = .ok (g', merges')) :
    g.Gathers g' groups ∧ merges' + g'.partitions.length = merges + g.partitions.length := by
  induction groups generalizing g merges with
  | nil =>
      obtain ⟨rfl, rfl⟩ := Prod.mk.inj (Except.ok.inj hmerge)
      exact ⟨.refl h, rfl⟩
  | cons ids groups ih =>
      obtain ⟨hapart, hdisjoint⟩ := List.pairwise_cons.1 hdisjoint
      rw [List.foldlM_cons, bind_eq_ok] at hmerge
      obtain ⟨⟨g₁, merges₁⟩, hfirst, hrest⟩ := hmerge
      obtain ⟨hgathers, hcount⟩ := h.gathers_mergeGroup hfirst
      obtain ⟨hgathers', hcount'⟩ := ih hgathers.valid hdisjoint hrest
      exact ⟨hgathers.cons hgathers' hapart, hcount'.trans hcount⟩

theorem Valid.gathers_coarsenByName (h : g.Valid)
    (hcoarsen : g.coarsenByName = .ok (g', merges)) :
    g.Gathers g' g.byName.values ∧ merges + g'.partitions.length = g.partitions.length := by
  rw [coarsenByName_eq] at hcoarsen
  simpa using h.gathers_mergeGroups h.coherent.byName_values.2 hcoarsen

/-! ### The new partitions -/

namespace Gathers

theorem mem_members_iff (h : g.Gathers g' g.byName.values) (hg : g.Coherent)
    (hp : p ∈ g'.partitions) :
    s ∈ p.members ↔ ∃ q ∈ g.partitions, s ∈ q.members ∧ heir g.byName.values q.id = p.id := by
  rw [h.valid.coherent.mem_iff_owner p hp, h.owner?_eq, Option.map_eq_some_iff]
  constructor
  · rintro ⟨id, hs, hid⟩
    obtain ⟨q, hq, rfl⟩ := hg.owner_exists s id hs
    exact ⟨q, hq, (hg.mem_iff_owner q hq s).2 hs, hid⟩
  · rintro ⟨q, hq, hs, hid⟩
    exact ⟨q.id, (hg.mem_iff_owner q hq s).1 hs, hid⟩

/-- A partition is the union of the partitions that were kindred to the one
of its number. -/
theorem exists_union (h : g.Gathers g' g.byName.values) (hg : g.Coherent)
    (hp : p ∈ g'.partitions) :
    ∃ r ∈ g.partitions, r.id = p.id ∧ r.pid = p.pid ∧
      ∀ s, s ∈ p.members ↔ ∃ q ∈ g.partitions, g.Kindred r q ∧ s ∈ q.members := by
  obtain ⟨s, hs⟩ := List.exists_mem_of_ne_nil _ (h.valid.coherent.members_nonempty p hp)
  obtain ⟨q, hq, hsq, hheir⟩ := (h.mem_members_iff hg hp).1 hs
  obtain ⟨r, hr, hid, hqr⟩ := hg.exists_heir hq
  have hself : heir g.byName.values r.id = p.id := by
    rw [← hg.heir_eq_of_kindred hq hr hqr, hheir]
  refine ⟨r, hr, hid.trans hheir, ?_, fun u => ?_⟩
  · have ho : g.observation? s = some _ := List.getElem?_eq_getElem (hg.lt_of_mem hq hsq)
    have ho' : g'.observation? s = some _ := (observation?_congr h.observations_eq s).trans ho
    rw [← hqr.pid_eq, ← hg.pid_eq q hq s hsq _ ho]
    exact h.valid.coherent.pid_eq p hp s hs _ ho'
  · rw [h.mem_members_iff hg hp]
    constructor
    · rintro ⟨q', hq', hu, hheir'⟩
      obtain ⟨r', hr', hid', hqr'⟩ := hg.exists_heir hq'
      obtain rfl := List.inj_on_of_nodup_map hg.ids_nodup hr' hr
        (hid'.trans (hheir'.trans (hheir.symm.trans hid.symm)))
      exact ⟨q', hq', hqr'.symm, hu⟩
    · rintro ⟨q', hq', hkindred, hu⟩
      exact ⟨q', hq', hu, by rw [← hg.heir_eq_of_kindred hr hq' hkindred, hself]⟩

/-- Kindred partitions are not left over. -/
theorem eq_of_kindred (h : g.Gathers g' g.byName.values) (hg : g.Coherent)
    (hp : p ∈ g'.partitions) (hq : q ∈ g'.partitions) (hpq : g'.Kindred p q) : p = q := by
  rcases hpq with rfl | ⟨hpid, name, hpname, hqname⟩
  · rfl
  · obtain ⟨r, hr, -, hrpid, hrmem⟩ := h.exists_union hg hp
    obtain ⟨r', hr', -, hrpid', hrmem'⟩ := h.exists_union hg hq
    have hbears : g.Bears r name := fun s hs => by
      rw [← observation?_congr h.observations_eq]
      exact hpname s ((hrmem s).2 ⟨r, hr, .refl r, hs⟩)
    have hbears' : g.Bears r' name := fun s hs => by
      rw [← observation?_congr h.observations_eq]
      exact hqname s ((hrmem' s).2 ⟨r', hr', .refl r', hs⟩)
    have hkindred : g.Kindred r' r :=
      .inr ⟨hrpid'.trans (hpid.symm.trans hrpid.symm), name, hbears', hbears⟩
    obtain ⟨s, hs⟩ := List.exists_mem_of_ne_nil _ (hg.members_nonempty r hr)
    exact h.valid.coherent.eq_of_mem hp hq ((hrmem s).2 ⟨r, hr, .refl r, hs⟩)
      ((hrmem' s).2 ⟨r, hr, hkindred, hs⟩)

end Gathers

/-! ### A second pass -/

theorem foldlM_mergeGroup_of_length_le_one (h : ∀ ids ∈ groups, ids.length ≤ 1) :
    groups.foldlM mergeGroup (g, merges) = .ok (g, merges) := by
  induction groups with
  | nil => rfl
  | cons ids groups ih =>
      obtain ⟨hids, hgroups⟩ := List.forall_mem_cons.1 h
      match ids, hids with
      | [], _ => exact ih hgroups
      | [_], _ => exact ih hgroups

theorem Coherent.length_groupOf_le_one (h : g.Coherent)
    (hapart : ∀ p ∈ g.partitions, ∀ q ∈ g.partitions, g.Kindred p q → p = q)
    (key : ProcessId × String) : (g.groupOf key).length ≤ 1 := by
  have hnodup := (h.isGroup_groupOf key).nodup
  match hgroup : g.groupOf key with
  | [] => exact Nat.zero_le 1
  | [_] => exact Nat.le_refl 1
  | a :: b :: rest =>
      exfalso
      obtain ⟨p, hp, ⟨hpid, hname⟩, rfl⟩ := mem_groupOf.1 (hgroup ▸ List.mem_cons_self)
      obtain ⟨q, hq, ⟨hpid', hname'⟩, rfl⟩ :=
        mem_groupOf.1 (hgroup ▸ List.mem_cons_of_mem _ List.mem_cons_self)
      have hsame := hapart p hp q hq (.inr ⟨hpid.trans hpid'.symm, key.2,
        (h.commonName?_eq_some hp).1 hname, (h.commonName?_eq_some hq).1 hname'⟩)
      rw [hgroup, hsame] at hnodup
      exact (List.nodup_cons.1 hnodup).1 List.mem_cons_self

theorem Coherent.coarsenByName_eq_self (h : g.Coherent)
    (hapart : ∀ p ∈ g.partitions, ∀ q ∈ g.partitions, g.Kindred p q → p = q) :
    g.coarsenByName = .ok (g, 0) := by
  rw [coarsenByName_eq]
  refine foldlM_mergeGroup_of_length_le_one fun ids hids => ?_
  obtain ⟨⟨key, _⟩, hentry, rfl⟩ := List.mem_map.1 hids
  rw [eq_groupOf_of_byName (OrderedMap.get?_eq_some_iff.2 hentry)]
  exact h.length_groupOf_le_one hapart key

/-! ### The result -/

/-- The graph `g'` is `g` with partitions that bear the same name put
together. -/
structure CoarsensTo (g g' : PartitionGraph) : Prop where
  observations_eq : g'.observations = g.observations
  /-- Partitions of one process do not bear the same name. -/
  eq_of_bears : ∀ p ∈ g'.partitions, ∀ q ∈ g'.partitions, ∀ name, p.pid = q.pid →
    g'.Bears p name → g'.Bears q name → p = q
  /-- Partitions whose members do not agree on a name are as they were. -/
  mem_of_not_bears : ∀ p ∈ g.partitions, (∀ name, ¬ g.Bears p name) → p ∈ g'.partitions
  /-- Every partition is a union of old ones, which bear one name if there
  are several. -/
  exists_union : ∀ p ∈ g'.partitions, ∃ r ∈ g.partitions, r.id = p.id ∧ r.pid = p.pid ∧
    ∀ s, s ∈ p.members ↔ ∃ q ∈ g.partitions, g.Kindred r q ∧ s ∈ q.members
  /-- Observations that come together are of one process and bear one name. -/
  together : ∀ s t id, g'.owner? s = some id → g'.owner? t = some id →
    g.owner? s = g.owner? t ∨ ∃ o o', g.observation? s = some o ∧ g.observation? t = some o' ∧
      o.pid = o'.pid ∧ o.name = o'.name

theorem Gathers.coarsensTo (h : g.Gathers g' g.byName.values) (hg : g.Coherent) :
    g.CoarsensTo g' where
  observations_eq := h.observations_eq
  eq_of_bears p hp q hq name hpid hpname hqname :=
    h.eq_of_kindred hg hp hq (.inr ⟨hpid, name, hpname, hqname⟩)
  mem_of_not_bears p hp hname := h.mem_partitions p hp fun _ hids hid =>
    have ⟨name, hbears⟩ := hg.exists_bears_of_mem_group hp hids hid
    hname name hbears
  exists_union p hp := h.exists_union hg hp
  together s t id hs ht := by
    obtain ⟨p, hp, rfl⟩ := h.valid.coherent.owner_exists s id hs
    obtain ⟨r, hr, -, -, hmem⟩ := h.exists_union hg hp
    obtain ⟨q, hq, hrq, hsq⟩ := (hmem s).1 ((h.valid.coherent.mem_iff_owner p hp s).2 hs)
    obtain ⟨q', hq', hrq', htq'⟩ := (hmem t).1 ((h.valid.coherent.mem_iff_owner p hp t).2 ht)
    rcases hg.kindred_trans hr hrq.symm hrq' with rfl | ⟨hpid, name, hname, hname'⟩
    · left
      rw [(hg.mem_iff_owner q hq s).1 hsq, (hg.mem_iff_owner q hq t).1 htq']
    · right
      obtain ⟨o, ho, hoName⟩ := hname s hsq
      obtain ⟨o', ho', hoName'⟩ := hname' t htq'
      refine ⟨o, o', ho, ho', ?_, hoName.trans hoName'.symm⟩
      rw [hg.pid_eq q hq s hsq o ho, hg.pid_eq q' hq' t htq' o' ho', hpid]

/-- **A coarsening by name leaves nothing to coarsen.** It succeeds, counts the
partitions that it has taken out, and a second one changes nothing. -/
theorem coarsening_is_done_in_one_pass {executions : List Execution} {processes : Nat}
    {channels : List Channel} (h : Arises executions processes channels g) :
    ∃ g' merges, g.coarsenByName = .ok (g', merges) ∧
      merges + g'.partitions.length = g.partitions.length ∧ g.CoarsensTo g' ∧
      g'.coarsenByName = .ok (g', 0) := by
  have hv := h.valid
  obtain ⟨g', merges, hcoarsen⟩ := hv.exists_coarsenByName
  obtain ⟨hgathers, hcount⟩ := hv.gathers_coarsenByName hcoarsen
  refine ⟨g', merges, hcoarsen, hcount, hgathers.coarsensTo hv.coherent, ?_⟩
  exact hgathers.valid.coherent.coarsenByName_eq_self fun p hp q hq =>
    hgathers.eq_of_kindred hv.coherent hp hq

/-- A process that comes back to the state `x`, and a trace of it that leaves
`x` for a state of another name. -/
def returningExecutions : List Execution :=
  let a : TimedEvent := ⟨.internal 0 "a", 0⟩
  let b : TimedEvent := ⟨.internal 0 "b", 0⟩
  [⟨[⟨0, some ["x", "y", "x"], [a, b]⟩]⟩, ⟨[⟨0, some ["x", "z"], [a]⟩]⟩]

def returningGraph : PartitionGraph :=
  ofArena 1 [] .byIncomingEvent
    (observeAll (returningExecutions.flatMap (·.processes)) .standard []).1

/-- The beginnings of the traces and what follows `b` are both called `x` and
become one partition. What follows `a` has two names and stays. -/
theorem returningGraph_is_coarsened :
    Arises returningExecutions 1 [] returningGraph ∧ ∃ g',
      returningGraph.coarsenByName = .ok (g', 1) ∧ returningGraph.CoarsensTo g' ∧
      g'.coarsenByName = .ok (g', 0) ∧
      g'.partitions.map (fun p => (p.id, p.members.toList)) = [(0, [0, 3, 2]), (1, [1, 4])] := by
  have harises : Arises returningExecutions 1 [] returningGraph :=
    .built (rfl : ofExecutions returningExecutions 1 [] .byIncomingEvent .standard =
      .ok (returningGraph, .standard))
  have hmembers : returningGraph.coarsenByName.map
      (fun r => (r.2, r.1.partitions.map fun p => (p.id, p.members.toList))) =
        .ok (1, [(0, [0, 3, 2]), (1, [1, 4])]) := rfl
  obtain ⟨g', merges, hcoarsen, -, hcoarsensTo, hagain⟩ := coarsening_is_done_in_one_pass harises
  rw [hcoarsen] at hmembers
  obtain ⟨rfl, hpartitions⟩ := Prod.mk.inj (Except.ok.inj hmembers)
  exact ⟨harises, g', hcoarsen, hcoarsensTo, hagain, hpartitions⟩

end ProtocolInference.PartitionGraph
