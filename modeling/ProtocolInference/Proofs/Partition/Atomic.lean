import ProtocolInference.Partition.InPlace
import ProtocolInference.Proofs.Partition.Ownership
import ProtocolInference.Proofs.Partition.Refine

/-!
Operations in place, all or nothing.

The operations on a partition graph, carried out on the graph itself, check
their arguments before they change anything, and the steps that they take
then cannot fail. So each of them does to the graph what the function of its
name computes from it: there is the new graph if it succeeds, and the old one
if it fails (`commit`). What follows for callers is collected in
`operations_validate_and_are_atomic`.

Two of the steps could go wrong in another graph. A merge looks up both
partitions when it has moved the observations, and a split puts partitions
in under the next two numbers, which must not be taken.
-/

namespace ProtocolInference.PartitionGraph

variable {ε ε' α β : Type} {g g' : PartitionGraph}

/-- A change of the graph as a program in place ought to carry it out: the graph
is the new one, or still the old one if the change has failed. -/
def commit (g : PartitionGraph) : Except ε (PartitionGraph × α) → Except ε α × PartitionGraph
  | .ok (g', a) => (.ok a, g')
  | .error e => (.error e, g)

namespace InPlace

/-! ### Running a program -/

theorem runOn_bind_of_ok {x : InPlace ε α} {a : α} (h : x.runOn g = (.ok a, g'))
    (f : α → InPlace ε β) : (x >>= f).runOn g = (f a).runOn g' := run_bind_of_ok h f

theorem runOn_bind_of_error {x : InPlace ε α} {e : ε} (h : x.runOn g = (.error e, g'))
    (f : α → InPlace ε β) : (x >>= f).runOn g = (.error e, g') := run_bind_of_error h f

theorem runOn_inspect (f : PartitionGraph → Except ε α) (g : PartitionGraph) :
    (inspect f).runOn g = (f g, g) := by
  have hget : (get : InPlace ε PartitionGraph).runOn g = (.ok g, g) := rfl
  rw [inspect, runOn_bind_of_ok hget]
  cases f g <;> rfl

theorem runOn_inspect_bind {f : PartitionGraph → Except ε α} {k : α → InPlace ε β}
    {body : α → Except ε (PartitionGraph × β)}
    (h : ∀ a, f g = .ok a → (k a).runOn g = commit g (body a)) :
    (inspect f >>= k).runOn g = commit g (f g >>= body) := by
  have hf := runOn_inspect f g
  cases hfg : f g with
  | ok a =>
      rw [hfg] at hf
      rw [runOn_bind_of_ok hf, h a hfg]
      rfl
  | error e =>
      rw [hfg] at hf
      rw [runOn_bind_of_error hf]
      rfl

theorem runOn_put {p : Partition} (h : ∀ q ∈ g.partitions, q.id ≠ p.id) :
    (put p : InPlace ε Unit).runOn g = (.ok (), { g with partitions := g.partitions ++ [p] }) := by
  have hnew : g.partitions.any (·.id = p.id) = false := by simpa using h
  show ((.ok (), if g.partitions.any (·.id = p.id) then _ else _) :
    Except ε Unit × PartitionGraph) = _
  rw [hnew]
  rfl

theorem runOn_extend {id : PartitionId} {p : Partition} (hp : g.partition? id = some p)
    (more : OrderedSet ObservationId) :
    (extend id more).runOn g = (.ok (), { g with
      partitions := g.partitions.map fun p =>
        if p.id = id then { p with members := p.members.insertAll more.toList } else p }) := by
  have hrequire := runOn_inspect (·.require id) g
  rw [require_eq_ok.2 hp] at hrequire
  rw [extend, runOn_bind_of_ok hrequire]
  rfl

theorem runOn_adapt (x : InPlace ε α) (f : ε → ε') (g : PartitionGraph) :
    runOn (ExceptT.adapt f x) g = ((x.runOn g).1.mapError f, (x.runOn g).2) := by
  rfl

/-! ### The operations -/

/-- A merge looks both partitions up again when their observations have moved,
and finds them. -/
theorem runOn_merge (retain remove : PartitionId) :
    (merge retain remove).runOn g =
      commit g ((g.merge retain remove).map fun g' => (g', ())) := by
  have hmerge : (g.merge retain remove).map (fun g' => (g', ())) =
      g.checkMerge retain remove >>= fun pair =>
        .ok ({ g.reassign (pair.2.members.toList.map fun s => (s, retain)) with
          partitions := (g.partitions.filter (·.id ≠ remove)).map fun p =>
            if p.id = retain then { p with members := p.members.insertAll pair.2.members.toList }
            else p }, ()) := by
    rw [PartitionGraph.merge]
    cases g.checkMerge retain remove <;> rfl
  rw [hmerge, merge]
  apply runOn_inspect_bind
  rintro ⟨kept, gone⟩ hcheck
  have hm := Mergeable.of_checkMerge hcheck
  have hlookup := runOn_inspect (·.require remove)
    (g.reassign (gone.members.toList.map fun s => (s, retain)))
  have hgone : (g.reassign (gone.members.toList.map fun s => (s, retain))).require remove =
      .ok gone := require_eq_ok.2 hm.gone_eq
  rw [hgone] at hlookup
  have hkept : PartitionGraph.partition?
      { g.reassign (gone.members.toList.map fun s => (s, retain)) with
        partitions := g.partitions.filter (·.id ≠ remove) } retain = some kept :=
    (find?_filter_ne hm.ne).trans hm.kept_eq
  refine (runOn_bind_of_ok (a := ()) rfl _).trans ?_
  refine (runOn_bind_of_ok hlookup _).trans ?_
  refine (runOn_bind_of_ok (a := ()) rfl _).trans ?_
  exact runOn_extend hkept gone.members

theorem runOn_split (hc : g.Coherent) (id : PartitionId) (left right : OrderedSet ObservationId) :
    (split id left right).runOn g = commit g (g.split id left right) := by
  refine runOn_inspect_bind fun p hcheck => ?_
  have hs := Splittable.of_checkSplit hcheck
  have hid := (partition?_eq_some hs.partition_eq).2
  have hnew : ∀ q ∈ g.partitions, q.id ≠ g.nextId := fun q hq => Nat.ne_of_lt (hc.id_lt q hq)
  have hnew' : ∀ q ∈ g.partitions ++ [⟨g.nextId, p.pid, left⟩], q.id ≠ g.nextId + 1 := by
    intro q hq
    rcases List.mem_append.1 hq with hq | hq
    · exact Nat.ne_of_lt (Nat.lt_succ_of_lt (hc.id_lt q hq))
    · rw [List.mem_singleton.1 hq]
      exact Nat.ne_of_lt (Nat.lt_succ_self _)
  refine (runOn_bind_of_ok (a := g.nextId) rfl _).trans ?_
  refine (runOn_bind_of_ok (a := g.nextId + 1) rfl _).trans ?_
  refine (runOn_bind_of_ok (runOn_put hnew) _).trans ?_
  refine (runOn_bind_of_ok (runOn_put hnew') _).trans ?_
  show (Except.ok _, _) = (Except.ok _, _)
  rw [List.append_assoc]
  rfl

theorem runOn_splitWithRemainder (hc : g.Coherent) (id : PartitionId)
    (left right : OrderedSet ObservationId) (policy : RemainderPolicy) :
    (splitWithRemainder id left right policy).runOn g =
      commit g (g.splitWithRemainder id left right policy) :=
  runOn_inspect_bind fun _ _ => runOn_split hc _ _ _

theorem runOn_refine (hc : g.Coherent) (path : PartitionPath) (opts : RefineOptions) :
    (refine path opts).runOn g = commit g (path.refine g opts) := by
  rw [refine, PartitionPath.refine]
  apply runOn_inspect_bind
  rintro (_ | k) -
  · rfl
  · dsimp only
    apply runOn_inspect_bind
    intro p _
    apply runOn_inspect_bind
    intro right _
    have hget : (get : InPlace RefineError PartitionGraph).runOn g = (.ok g, g) := rfl
    rw [runOn_bind_of_ok hget]
    split
    · rfl
    · have hadapt := runOn_adapt (splitWithRemainder (path.states.getD k path.start)
        (path.leftSet g opts.leftSet k p.members right) right opts.remainder) RefineError.graph g
      rw [runOn_splitWithRemainder hc] at hadapt
      cases hsplit : g.splitWithRemainder (path.states.getD k path.start)
          (path.leftSet g opts.leftSet k p.members right) right opts.remainder with
      | ok halves =>
          rw [hsplit] at hadapt
          rw [runOn_bind_of_ok hadapt]
          rfl
      | error e =>
          rw [hsplit] at hadapt
          rw [runOn_bind_of_error hadapt]
          rfl

/-! ### Success and failure -/

/-- The program succeeds on the graph. -/
def SucceedsOn (x : InPlace ε α) (g : PartitionGraph) : Prop := ∃ a g', x.runOn g = (.ok a, g')

/-- If the program does not succeed, it leaves the graph exactly as it was. -/
def IsAtomicOn (x : InPlace ε α) (g : PartitionGraph) : Prop :=
  ∀ e g', x.runOn g = (.error e, g') → g' = g

section Commit

variable {x : InPlace ε α} {f : Except ε (PartitionGraph × α)}

theorem eq_ok_of_commit (h : x.runOn g = commit g f) {a : α} (hx : x.runOn g = (.ok a, g')) :
    f = .ok (g', a) := by
  rw [h] at hx
  cases f with
  | ok y =>
      obtain ⟨ha, hg'⟩ := Prod.mk.inj hx
      exact congrArg Except.ok (Prod.ext hg' (Except.ok.inj ha))
  | error e => cases hx

theorem eq_error_of_commit (h : x.runOn g = commit g f) {e : ε}
    (hx : x.runOn g = (.error e, g')) : f = .error e ∧ g' = g := by
  rw [h] at hx
  cases f with
  | ok y => cases hx
  | error e' =>
      obtain ⟨he, hg'⟩ := Prod.mk.inj hx
      exact ⟨congrArg Except.error (Except.error.inj he), hg'.symm⟩

theorem succeedsOn_iff (h : x.runOn g = commit g f) : x.SucceedsOn g ↔ ∃ y, f = .ok y := by
  constructor
  · rintro ⟨a, g', hx⟩
    exact ⟨_, eq_ok_of_commit h hx⟩
  · rintro ⟨y, rfl⟩
    exact ⟨y.2, y.1, h⟩

theorem isAtomicOn_of_commit (h : x.runOn g = commit g f) : x.IsAtomicOn g :=
  fun _ _ hx => (eq_error_of_commit h hx).2

end Commit

end InPlace

/-! ### What is checked -/

section Checks

variable {id : PartitionId} {p : Partition} {left right : OrderedSet ObservationId}
variable {policy : RemainderPolicy} {s : ObservationId}

theorem exists_split_iff :
    (∃ y, g.split id left right = .ok y) ↔ ∃ p, g.Splittable id p left right := by
  constructor
  · rintro ⟨⟨g', l, r⟩, h⟩
    obtain ⟨p, hs, -⟩ := split_eq_ok h
    exact ⟨p, hs⟩
  · rintro ⟨p, hs⟩
    exact ⟨_, hs.split_eq⟩

/-- The sides can be made into sides that divide the members of the partition:
they hold members only and share none, and each of them has a member, either
from the beginning or because the policy puts one there. -/
structure Completable (g : PartitionGraph) (policy : RemainderPolicy) (id : PartitionId)
    (p : Partition) (left right : OrderedSet ObservationId) : Prop where
  partition_eq : g.partition? id = some p
  disjoint : ∀ s ∈ left, s ∉ right
  left_subset : ∀ s ∈ left, s ∈ p.members
  right_subset : ∀ s ∈ right, s ∈ p.members
  left_nonempty : (∃ s, s ∈ left) ∨
    ∃ i s, (remainder p left right)[i]? = some s ∧ policy.goesLeft id i = true
  right_nonempty : (∃ s, s ∈ right) ∨
    ∃ i s, (remainder p left right)[i]? = some s ∧ policy.goesLeft id i = false

theorem Completable.splittable (h : g.Completable policy id p left right) :
    g.Splittable id p (placedLeft policy p left right) (placedRight policy p left right) := by
  obtain ⟨-, rfl⟩ := partition?_eq_some h.partition_eq
  refine splittable_placed policy h.partition_eq h.disjoint h.left_subset h.right_subset ?_ ?_
  · obtain ⟨s, hs⟩ | ⟨i, s, hi, hgoes⟩ := h.left_nonempty
    · exact List.ne_nil_of_mem (mem_placedLeft.2 (.inl hs))
    · exact List.ne_nil_of_mem (mem_placedLeft.2 (.inr ⟨i, hi, hgoes⟩))
  · obtain ⟨s, hs⟩ | ⟨i, s, hi, hgoes⟩ := h.right_nonempty
    · exact List.ne_nil_of_mem (mem_placedRight.2 (.inl hs))
    · exact List.ne_nil_of_mem (mem_placedRight.2 (.inr ⟨i, hi, hgoes⟩))

/-- Sides that the policy has completed divide the members only if they could
be completed. -/
theorem Completable.of_splittable
    (h : g.Splittable id p (placedLeft policy p left right) (placedRight policy p left right)) :
    g.Completable policy id p left right := by
  obtain ⟨-, hid⟩ := partition?_eq_some h.partition_eq
  have hleft {s : ObservationId} (hs : s ∈ left) : s ∈ placedLeft policy p left right :=
    mem_placedLeft.2 (.inl hs)
  have hright {s : ObservationId} (hs : s ∈ right) : s ∈ placedRight policy p left right :=
    mem_placedRight.2 (.inl hs)
  refine ⟨h.partition_eq, fun s hs hs' => h.disjoint s (hleft hs) (hright hs'),
    fun s hs => (h.mem_iff s).2 (.inl (hleft hs)), fun s hs => (h.mem_iff s).2 (.inr (hright hs)),
    ?_, ?_⟩
  · obtain ⟨s, hs⟩ := List.exists_mem_of_ne_nil _ h.left_nonempty
    exact (mem_placedLeft.1 hs).imp (fun hs => ⟨s, hs⟩) fun ⟨i, hi⟩ => ⟨i, s, hid ▸ hi⟩
  · obtain ⟨s, hs⟩ := List.exists_mem_of_ne_nil _ h.right_nonempty
    exact (mem_placedRight.1 hs).imp (fun hs => ⟨s, hs⟩) fun ⟨i, hi⟩ => ⟨i, s, hid ▸ hi⟩

theorem exists_splitWithRemainder_iff :
    (∃ y, g.splitWithRemainder id left right policy = .ok y) ↔
      ∃ p, g.Completable policy id p left right := by
  constructor
  · rintro ⟨y, h⟩
    obtain ⟨p, hp, -⟩ := bind_eq_ok.1 h
    rw [require_eq_ok] at hp
    rw [splitWithRemainder_eq hp] at h
    obtain ⟨p', hs⟩ := exists_split_iff.1 ⟨y, h⟩
    obtain rfl := Option.some.inj (hp.symm.trans hs.partition_eq)
    exact ⟨p, .of_splittable hs⟩
  · rintro ⟨p, h⟩
    rw [splitWithRemainder_eq h.partition_eq]
    exact ⟨_, h.splittable.split_eq⟩

theorem checkSplit_eq_uncoveredMember {i : PartitionId}
    (h : g.checkSplit id left right = .error (.uncoveredMember i s)) :
    ∃ p, g.partition? id = some p ∧ s ∈ p.members ∧ s ∉ left ∧ s ∉ right := by
  rw [checkSplit, require] at h
  cases hp : g.partition? id with
  | none =>
      rw [hp] at h
      cases h
  | some p =>
      rw [hp] at h
      simp only [ok_bind, error_bind] at h
      split at h
      · cases h
      · split at h
        · cases h
        · split at h
          · cases h
          · split at h
            · next hfind =>
              obtain ⟨-, rfl⟩ := GraphError.uncoveredMember.inj (Except.error.inj h)
              have hside := List.find?_some hfind
              rw [decide_eq_true_eq] at hside
              exact ⟨p, rfl, List.mem_of_find?_eq_some hfind, hside⟩
            · cases h

/-- The policy covers all members, so a split with a remainder never finds one
uncovered. -/
theorem splitWithRemainder_ne_uncoveredMember (i : PartitionId) (s : ObservationId) :
    g.splitWithRemainder id left right policy ≠ .error (.uncoveredMember i s) := by
  intro h
  cases hp : g.partition? id with
  | none =>
      rw [splitWithRemainder, require, hp] at h
      cases h
  | some p =>
      rw [splitWithRemainder_eq hp, split] at h
      cases hcheck : g.checkSplit id (placedLeft policy p left right)
          (placedRight policy p left right) with
      | ok q =>
          rw [hcheck] at h
          cases h
      | error e =>
          rw [hcheck] at h
          obtain rfl := Except.error.inj h
          obtain ⟨p', hp', hmem, hl, hr⟩ := checkSplit_eq_uncoveredMember hcheck
          obtain rfl := Option.some.inj (hp.symm.trans hp')
          exact (mem_placed_of_mem policy hmem).elim hl hr

/-- After a split with a remainder, the new partitions divide the members of
the old one, and each holds its side. -/
theorem Valid.divides_of_splitWithRemainder (hv : g.Valid) {l r : PartitionId}
    (h : g.splitWithRemainder id left right policy = .ok (g', l, r)) :
    g.Divides g' id l r ∧ (∀ s ∈ left, s ∈ g'.membersOf l) ∧ ∀ s ∈ right, s ∈ g'.membersOf r := by
  obtain ⟨p, hcompletable⟩ := exists_splitWithRemainder_iff.1 ⟨_, h⟩
  have hs := hcompletable.splittable
  rw [splitWithRemainder_eq hcompletable.partition_eq, hs.split_eq] at h
  obtain ⟨rfl, hnumbers⟩ := Prod.mk.inj (Except.ok.inj h)
  obtain ⟨rfl, rfl⟩ := Prod.mk.inj hnumbers
  refine ⟨hv.divides_splitInto hs, fun s hs' => ?_, fun s hs' => ?_⟩
  · rw [membersOf_splitInto_left hv hs]
    exact mem_placedLeft.2 (.inl hs')
  · rw [membersOf_splitInto_right hv hs]
    exact mem_placedRight.2 (.inl hs')

theorem Coherent.exists_merge_iff (h : g.Coherent) {retain remove : PartitionId} :
    (∃ g', g.merge retain remove = .ok g') ↔
      ∃ kept gone, g.Mergeable retain remove kept gone := by
  constructor
  · rintro ⟨g', hmerge⟩
    obtain ⟨kept, gone, hm, -⟩ := merge_eq_ok hmerge
    exact ⟨kept, gone, hm⟩
  · rintro ⟨kept, gone, hm⟩
    exact ⟨_, h.merge_of_mergeable hm⟩

end Checks

/-! ### The operations on a graph that arises -/

/-- The programs in place do to the graph what the functions compute from it. -/
structure InPlace.Agrees (g : PartitionGraph) : Prop where
  merge_eq : ∀ retain remove, (InPlace.merge retain remove).runOn g =
    commit g ((g.merge retain remove).map fun g' => (g', ()))
  split_eq : ∀ id left right,
    (InPlace.split id left right).runOn g = commit g (g.split id left right)
  splitWithRemainder_eq : ∀ id left right policy,
    (InPlace.splitWithRemainder id left right policy).runOn g =
      commit g (g.splitWithRemainder id left right policy)
  refine_eq : ∀ path opts, (InPlace.refine path opts).runOn g = commit g (path.refine g opts)

theorem Coherent.agrees (h : g.Coherent) : InPlace.Agrees g where
  merge_eq := InPlace.runOn_merge
  split_eq := InPlace.runOn_split h
  splitWithRemainder_eq := InPlace.runOn_splitWithRemainder h
  refine_eq := InPlace.runOn_refine h

/-- **Splits and merges validate exactly and are atomic**, on every graph that
arises and for all arguments, and so are refinements. The programs agree with
the functions, and whenever one of them does not succeed, the graph with all
its parts is what it was. -/
theorem operations_validate_and_are_atomic {executions : List Execution} {processes : Nat}
    {channels : List Channel} (hg : Arises executions processes channels g) :
    InPlace.Agrees g ∧
    (∀ id left right,
      ((InPlace.split id left right).SucceedsOn g ↔ ∃ p, g.Splittable id p left right) ∧
      (InPlace.split id left right).IsAtomicOn g) ∧
    (∀ id left right policy,
      ((InPlace.splitWithRemainder id left right policy).SucceedsOn g ↔
        ∃ p, g.Completable policy id p left right) ∧
      (∀ i s g', (InPlace.splitWithRemainder id left right policy).runOn g ≠
        (.error (.uncoveredMember i s), g')) ∧
      (∀ l r g', (InPlace.splitWithRemainder id left right policy).runOn g = (.ok (l, r), g') →
        g.Divides g' id l r ∧ (∀ s ∈ left, s ∈ g'.membersOf l) ∧
          ∀ s ∈ right, s ∈ g'.membersOf r) ∧
      (InPlace.splitWithRemainder id left right policy).IsAtomicOn g) ∧
    (∀ retain remove,
      ((InPlace.merge retain remove).SucceedsOn g ↔
        ∃ kept gone, g.Mergeable retain remove kept gone) ∧
      (∀ g', (InPlace.merge retain remove).runOn g = (.ok (), g') → g.Joins g' retain remove) ∧
      (InPlace.merge retain remove).IsAtomicOn g) ∧
    ∀ path opts,
      (InPlace.refine path opts).IsAtomicOn g ∧
      ∀ g', (InPlace.refine path opts).runOn g = (.ok .noStitch, g') → g' = g := by
  have hv := hg.valid
  have hc := hv.coherent
  have hagrees := hc.agrees
  refine ⟨hagrees, fun id left right => ?split, fun id left right policy => ?remainder,
    fun retain remove => ?merge, fun path opts => ?refine⟩
  case split =>
    have hrun := hagrees.split_eq id left right
    exact ⟨(InPlace.succeedsOn_iff hrun).trans exists_split_iff, InPlace.isAtomicOn_of_commit hrun⟩
  case remainder =>
    have hrun := hagrees.splitWithRemainder_eq id left right policy
    refine ⟨(InPlace.succeedsOn_iff hrun).trans exists_splitWithRemainder_iff, fun i s g' h => ?_,
      fun l r g' h => ?_, InPlace.isAtomicOn_of_commit hrun⟩
    · exact splitWithRemainder_ne_uncoveredMember i s (InPlace.eq_error_of_commit hrun h).1
    · exact hv.divides_of_splitWithRemainder (InPlace.eq_ok_of_commit hrun h)
  case merge =>
    have hrun := hagrees.merge_eq retain remove
    refine ⟨(InPlace.succeedsOn_iff hrun).trans ?_, fun g' h => ?_,
      InPlace.isAtomicOn_of_commit hrun⟩
    · rw [← hc.exists_merge_iff]
      constructor
      · rintro ⟨y, hy⟩
        obtain ⟨g', hmerge, -⟩ := map_eq_ok.1 hy
        exact ⟨g', hmerge⟩
      · rintro ⟨g', hmerge⟩
        exact ⟨(g', ()), map_eq_ok.2 ⟨g', hmerge, rfl⟩⟩
    · obtain ⟨g'', hmerge, heq⟩ := map_eq_ok.1 (InPlace.eq_ok_of_commit hrun h)
      obtain rfl := (Prod.mk.inj heq).1
      obtain ⟨kept, gone, hm, rfl⟩ := merge_eq_ok hmerge
      exact hc.joins_merged hm
  case refine =>
    have hrun := hagrees.refine_eq path opts
    refine ⟨InPlace.isAtomicOn_of_commit hrun, fun g' h => ?_⟩
    obtain ⟨-, rfl, -⟩ | ⟨_, _, _, _, _, _, habsurd, -⟩ :=
      PartitionPath.refine_eq_ok (InPlace.eq_ok_of_commit hrun h)
    · rfl
    · cases habsurd

/-- The circle of the traces `x x y` and `x` can be split and can be merged into
the beginning. A split that leaves out a member is refused, and a merge with a
partition that is not there, and both leave no trace. -/
theorem loopGraph_operations_are_atomic :
    (InPlace.split 1 ⟨[1], by decide⟩ ⟨[2, 5], by decide⟩).SucceedsOn loopGraph ∧
    (InPlace.split 1 ⟨[1], by decide⟩ ⟨[2], by decide⟩).runOn loopGraph =
      (.error (.uncoveredMember 1 5), loopGraph) ∧
    (∃ g', (InPlace.merge 0 1).runOn loopGraph = (.ok (), g') ∧ loopGraph.Joins g' 0 1) ∧
    (InPlace.merge 0 7).runOn loopGraph = (.error (.unknownPartition 7), loopGraph) := by
  have hbuilt : ofExecutions loopExecutions 1 [] .byIncomingEvent .standard =
      .ok (loopGraph, ⟨"a", 6⟩) := rfl
  obtain ⟨hagrees, hsplit, -, hmerge, -⟩ := operations_validate_and_are_atomic (.built hbuilt)
  refine ⟨(hsplit 1 _ _).1.2 ⟨⟨1, 0, ⟨[1, 2, 5], by decide⟩⟩, ?_⟩, hagrees.split_eq _ _ _, ?_,
    hagrees.merge_eq _ _⟩
  · exact ⟨rfl, List.cons_ne_nil _ _, List.cons_ne_nil _ _, by decide,
      fun s => by simp [OrderedSet.mem_def]⟩
  · obtain ⟨u, g', hrun⟩ := (hmerge 0 1).1.2
      ⟨⟨0, 0, ⟨[0, 4], by decide⟩⟩, ⟨1, 0, ⟨[1, 2, 5], by decide⟩⟩, by decide, rfl, rfl, rfl⟩
    exact ⟨g', hrun, (hmerge 0 1).2.1 g' hrun⟩

end ProtocolInference.PartitionGraph
