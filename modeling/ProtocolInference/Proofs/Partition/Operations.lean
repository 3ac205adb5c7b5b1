import ProtocolInference.Partition.History
import ProtocolInference.Proofs.Except

/-!
What the operations on a partition graph do when they succeed.

For each operation there is one lemma that says under which conditions it
succeeds and what the graph is afterwards. Later modules cite these and
do not unfold an operation again.

All operations come down to two. A refinement and a split with a
remainder are splits whose sides have been chosen, and a coarsening is a
sequence of merges. `Changes.induction` makes this a principle: what
every merge and every split keep is kept by every change.
-/

namespace ProtocolInference

namespace PartitionGraph

variable {g g' : PartitionGraph}

theorem require_eq_ok {id : PartitionId} {p : Partition} :
    g.require id = .ok p ↔ g.partition? id = some p := by
  rw [require]
  cases g.partition? id with
  | none => simp
  | some q => simp

theorem partition?_eq_some {id : PartitionId} {p : Partition} (h : g.partition? id = some p) :
    p ∈ g.partitions ∧ p.id = id :=
  ⟨List.mem_of_find?_eq_some h, by simpa using List.find?_some h⟩

/-! ### Merging -/

/-- What is known of two partitions that may be merged. -/
structure Mergeable (g : PartitionGraph) (retain remove : PartitionId) (kept gone : Partition) :
    Prop where
  ne : retain ≠ remove
  kept_eq : g.partition? retain = some kept
  gone_eq : g.partition? remove = some gone
  pid_eq : kept.pid = gone.pid

theorem Mergeable.of_checkMerge {retain remove : PartitionId} {kept gone : Partition}
    (h : g.checkMerge retain remove = .ok (kept, gone)) : g.Mergeable retain remove kept gone := by
  simp only [checkMerge, error_bind, check_eq_ok, bind_eq_ok, require_eq_ok, pure_eq_ok,
    Prod.mk.injEq] at h
  obtain ⟨hne, kept', hkept, gone', hgone, -, -, hpid, -, rfl, rfl⟩ := h
  exact ⟨hne, hkept, hgone, not_not.1 hpid⟩

/-- The graph after the members of `gone` have moved into `retain`. -/
def merged (g : PartitionGraph) (retain : PartitionId) (gone : Partition) : PartitionGraph :=
  { g.reassign (gone.members.toList.map fun s => (s, retain)) with
    partitions := (g.partitions.filter (·.id ≠ gone.id)).map fun p =>
      if p.id = retain then { p with members := p.members.insertAll gone.members.toList } else p }

theorem merge_eq_ok {retain remove : PartitionId} (h : g.merge retain remove = .ok g') :
    ∃ kept gone, g.Mergeable retain remove kept gone ∧ g' = g.merged retain gone := by
  simp only [merge, bind_eq_ok, pure_eq_ok] at h
  obtain ⟨⟨kept, gone⟩, hcheck, rfl⟩ := h
  have hm := Mergeable.of_checkMerge hcheck
  refine ⟨kept, gone, hm, ?_⟩
  rw [merged, (partition?_eq_some hm.gone_eq).2]

theorem mergeAll_induction {P : PartitionGraph → Prop}
    (hmerge : ∀ g g' retain remove, g.merge retain remove = .ok g' → P g → P g')
    {retain : PartitionId} {remove : List PartitionId} (h : g.mergeAll retain remove = .ok g')
    (hg : P g) : P g' :=
  foldlM_induction (fun r _ g g' => hmerge g g' retain r) h hg

theorem coarsenByName_induction {P : PartitionGraph → Prop}
    (hmerge : ∀ g g' retain remove, g.merge retain remove = .ok g' → P g → P g') {merges : Nat}
    (h : g.coarsenByName = .ok (g', merges)) (hg : P g) : P g' := by
  refine foldlM_induction (P := fun s => P s.1) ?_ h hg
  rintro ids - ⟨g, n⟩ ⟨g', n'⟩ hstep hg
  cases ids with
  | nil =>
      obtain ⟨rfl, -⟩ := Prod.mk.inj (Except.ok.inj hstep)
      exact hg
  | cons retain rest =>
      obtain ⟨g'', hall, hpure⟩ := bind_eq_ok.1 hstep
      obtain ⟨rfl, -⟩ := Prod.mk.inj (pure_eq_ok.1 hpure)
      exact mergeAll_induction hmerge hall hg

/-! ### Splitting -/

/-- The two sides divide the members of the partition. -/
structure Splittable (g : PartitionGraph) (id : PartitionId) (p : Partition)
    (left right : OrderedSet ObservationId) : Prop where
  partition_eq : g.partition? id = some p
  left_nonempty : left.toList ≠ []
  right_nonempty : right.toList ≠ []
  disjoint : ∀ s ∈ left, s ∉ right
  mem_iff : ∀ s, s ∈ p.members ↔ s ∈ left ∨ s ∈ right

theorem Splittable.of_checkSplit {id : PartitionId} {p : Partition}
    {left right : OrderedSet ObservationId} (h : g.checkSplit id left right = .ok p) :
    g.Splittable id p left right := by
  simp only [checkSplit, error_bind, check_eq_ok, bind_eq_ok, require_eq_ok] at h
  obtain ⟨p', hp, hempty, h⟩ := h
  rw [Bool.or_eq_true, not_or] at hempty
  split at h
  · cases h
  · next hdisjoint =>
    split at h
    · cases h
    · next hforeign =>
      split at h
      · cases h
      · next huncovered =>
        obtain rfl := pure_eq_ok.1 h
        have hdisjoint := List.find?_eq_none.1 (Option.eq_none_iff_forall_ne_some.2 hdisjoint)
        have hforeign := List.find?_eq_none.1 (Option.eq_none_iff_forall_ne_some.2 hforeign)
        have huncovered := List.find?_eq_none.1 (Option.eq_none_iff_forall_ne_some.2 huncovered)
        refine ⟨hp, ?_, ?_, ?_, ?_⟩
        · exact fun hnil => hempty.1 (List.isEmpty_iff.2 hnil)
        · exact fun hnil => hempty.2 (List.isEmpty_iff.2 hnil)
        · intro s hl hr
          exact hdisjoint s hl (decide_eq_true hr)
        · intro s
          constructor
          · intro hs
            have hside := huncovered s hs
            rw [decide_eq_true_eq] at hside
            by_contra hneither
            exact hside (not_or.1 hneither)
          · intro hs
            have hin := hforeign s (List.mem_append.2 hs)
            rw [decide_eq_true_eq, not_not] at hin
            exact hin

theorem Splittable.checkSplit_eq {id : PartitionId} {p : Partition}
    {left right : OrderedSet ObservationId} (h : g.Splittable id p left right) :
    g.checkSplit id left right = .ok p := by
  have hleft : left.isEmpty = false :=
    Bool.eq_false_iff.2 fun hnil => h.left_nonempty (List.isEmpty_iff.1 hnil)
  have hright : right.isEmpty = false :=
    Bool.eq_false_iff.2 fun hnil => h.right_nonempty (List.isEmpty_iff.1 hnil)
  have hdisjoint : left.toList.find? (· ∈ right) = none :=
    List.find?_eq_none.2 fun s hs => by simpa using h.disjoint s hs
  have hforeign : (left.toList ++ right.toList).find? (· ∉ p.members) = none :=
    List.find?_eq_none.2 fun s hs => by simpa using (h.mem_iff s).2 (List.mem_append.1 hs)
  have huncovered : (p.members.toList.find? fun s => s ∉ left ∧ s ∉ right) = none := by
    refine List.find?_eq_none.2 fun s hs => ?_
    rw [decide_eq_true_eq, ← not_or, not_not]
    exact (h.mem_iff s).1 hs
  rw [checkSplit, require_eq_ok.2 h.partition_eq, ok_bind, hleft, hright, hdisjoint, hforeign,
    huncovered]
  rfl

/-- The two partitions that take the place of `p`. -/
def halves (g : PartitionGraph) (p : Partition) (left right : OrderedSet ObservationId) :
    List Partition := [⟨g.nextId, p.pid, left⟩, ⟨g.nextId + 1, p.pid, right⟩]

/-- The graph after `p` has been replaced by the two sides. -/
def splitInto (g : PartitionGraph) (p : Partition) (left right : OrderedSet ObservationId) :
    PartitionGraph :=
  { g.reassign (left.toList.map (fun s => (s, g.nextId)) ++
      right.toList.map fun s => (s, g.nextId + 1)) with
    partitions := (g.partitions ++ g.halves p left right).filter (·.id ≠ p.id)
    nextId := g.nextId + 2 }

theorem split_eq_ok {id l r : PartitionId} {left right : OrderedSet ObservationId}
    (h : g.split id left right = .ok (g', l, r)) :
    ∃ p, g.Splittable id p left right ∧ g' = g.splitInto p left right ∧
      l = g.nextId ∧ r = g.nextId + 1 := by
  simp only [split, bind_eq_ok, pure_eq_ok, Prod.mk.injEq] at h
  obtain ⟨p, hcheck, rfl, rfl, rfl⟩ := h
  have hs := Splittable.of_checkSplit hcheck
  refine ⟨p, hs, ?_, rfl, rfl⟩
  rw [splitInto, (partition?_eq_some hs.partition_eq).2]
  rfl

theorem Splittable.split_eq {id : PartitionId} {p : Partition}
    {left right : OrderedSet ObservationId} (h : g.Splittable id p left right) :
    g.split id left right = .ok (g.splitInto p left right, g.nextId, g.nextId + 1) := by
  rw [split, h.checkSplit_eq, splitInto, (partition?_eq_some h.partition_eq).2]
  rfl

theorem splitWithRemainder_eq_ok {id l r : PartitionId} {left right : OrderedSet ObservationId}
    {policy : RemainderPolicy}
    (h : g.splitWithRemainder id left right policy = .ok (g', l, r)) :
    ∃ more more', g.split id (left.insertAll more) (right.insertAll more') = .ok (g', l, r) := by
  simp only [splitWithRemainder, bind_eq_ok] at h
  obtain ⟨p, -, h⟩ := h
  exact ⟨_, _, h⟩

end PartitionGraph

/-! ### Refining -/

/-- A refinement leaves the graph alone if there is no stitch, and splits
it otherwise. -/
theorem PartitionPath.refine_eq_ok {path : PartitionPath} {g g' : PartitionGraph}
    {opts : RefineOptions} {outcome : RefineOutcome}
    (h : path.refine g opts = .ok (g', outcome)) :
    (outcome = .noStitch ∧ g' = g ∧ path.stitch? g = .ok none) ∨
      ∃ id k left right l r, outcome = .refined id k l r ∧
        g.split id left right = .ok (g', l, r) := by
  simp only [refine, bind_eq_ok] at h
  obtain ⟨found, hstitch, h⟩ := h
  cases found with
  | none =>
      obtain ⟨rfl, rfl⟩ := Prod.mk.inj (pure_eq_ok.1 h)
      exact .inl ⟨rfl, rfl, hstitch⟩
  | some k =>
      simp only [bind_eq_ok, error_bind, check_eq_ok, mapError_eq_ok, pure_eq_ok,
        Prod.mk.injEq] at h
      obtain ⟨p, -, right, -, -, ⟨g'', l, r⟩, hsplit, rfl, rfl⟩ := h
      obtain ⟨more, more', hsplit⟩ := PartitionGraph.splitWithRemainder_eq_ok hsplit
      exact .inr ⟨_, _, _, _, _, _, rfl, hsplit⟩

namespace PartitionGraph

/-- What every merge and every split keep is kept by every change. -/
theorem Changes.induction {P : PartitionGraph → Prop}
    (hmerge : ∀ g g' retain remove, g.merge retain remove = .ok g' → P g → P g')
    (hsplit : ∀ g g' id left right l r, g.split id left right = .ok (g', l, r) → P g → P g')
    {g g' : PartitionGraph} (h : g.Changes g') (hg : P g) : P g' := by
  cases h with
  | merge h => exact hmerge _ _ _ _ h hg
  | split h => exact hsplit _ _ _ _ _ _ _ h hg
  | splitWithRemainder h =>
      obtain ⟨more, more', h⟩ := splitWithRemainder_eq_ok h
      exact hsplit _ _ _ _ _ _ _ h hg
  | coarsen h => exact coarsenByName_induction hmerge h hg
  | refine h =>
      obtain ⟨-, rfl, -⟩ | ⟨_, _, _, _, _, _, -, h⟩ := PartitionPath.refine_eq_ok h
      · exact hg
      · exact hsplit _ _ _ _ _ _ _ h hg

/-- Changes concern the division into partitions and nothing else. -/
theorem Changes.frame {g g' : PartitionGraph} (h : g.Changes g') :
    g'.observations = g.observations ∧ g'.channels = g.channels ∧
      g'.processes = g.processes := by
  refine h.induction (P := fun g' => g'.observations = g.observations ∧
    g'.channels = g.channels ∧ g'.processes = g.processes) ?_ ?_ ⟨rfl, rfl, rfl⟩
  · intro g₁ g₂ retain remove hmerge heq
    obtain ⟨_, _, -, rfl⟩ := merge_eq_ok hmerge
    exact heq
  · intro g₁ g₂ id left right l r hsplit heq
    obtain ⟨_, -, rfl, -, -⟩ := split_eq_ok hsplit
    exact heq

end PartitionGraph

end ProtocolInference
