import ProtocolInference.Proofs.Partition.Replace
import ProtocolInference.Proofs.Partition.Stitch

/-!
Refining along a path of the graph.

Nothing stands in the way of a refinement along a path whose steps are
edges and whose last partition holds the end of a trace. Its partitions
are there, and some observation of the first one goes on with the first
event, so the search for a stitch has an answer. At a stitch `k` the
members of the partition fall into those that *go on* as the path does
and those that do not. There is one of the first kind, because the next
step is an edge, or because a trace ends in the last partition; and there
is one of the second kind, the observation that left the path at `k`. So
both sides of the split have members, whichever way the left side is
chosen, and it does not matter where the policy puts the rest.
-/

namespace ProtocolInference

namespace PartitionGraph

variable {g : PartitionGraph} {id : PartitionId} {p : Partition}
variable {left right : OrderedSet ObservationId} {policy : RemainderPolicy} {s : ObservationId}

/-! ### Sides and remainders -/

/-- The left side after the policy has placed the members on neither side. -/
def placedLeft (policy : RemainderPolicy) (p : Partition) (left right : OrderedSet ObservationId) :
    OrderedSet ObservationId :=
  left.insertAll <|
    ((remainder p left right).zipIdx.filter fun x => policy.goesLeft p.id x.2).map Prod.fst

/-- The right side after the policy has placed the members on neither side. -/
def placedRight (policy : RemainderPolicy) (p : Partition)
    (left right : OrderedSet ObservationId) : OrderedSet ObservationId :=
  right.insertAll <|
    ((remainder p left right).zipIdx.filter fun x => !policy.goesLeft p.id x.2).map Prod.fst

theorem splitWithRemainder_eq (hp : g.partition? id = some p) :
    g.splitWithRemainder id left right policy =
      g.split id (placedLeft policy p left right) (placedRight policy p left right) := by
  rw [splitWithRemainder, require_eq_ok.2 hp, ok_bind, List.partition_eq_filter_filter,
    placedLeft, placedRight, (partition?_eq_some hp).2]
  rfl

theorem mem_remainder :
    s ∈ remainder p left right ↔ s ∈ p.members ∧ s ∉ left ∧ s ∉ right := by
  rw [remainder, List.mem_filter, decide_eq_true_eq]
  rfl

theorem nodup_remainder : (remainder p left right).Nodup := p.members.nodup.filter _

theorem mem_placedLeft :
    s ∈ placedLeft policy p left right ↔ s ∈ left ∨
      ∃ i, (remainder p left right)[i]? = some s ∧ policy.goesLeft p.id i = true := by
  rw [placedLeft, OrderedSet.mem_insertAll]
  simp [List.mem_zipIdx_iff_getElem?]

theorem mem_placedRight :
    s ∈ placedRight policy p left right ↔ s ∈ right ∨
      ∃ i, (remainder p left right)[i]? = some s ∧ policy.goesLeft p.id i = false := by
  rw [placedRight, OrderedSet.mem_insertAll]
  simp [List.mem_zipIdx_iff_getElem?]

theorem mem_placed_of_mem (policy : RemainderPolicy) (hs : s ∈ p.members) :
    s ∈ placedLeft policy p left right ∨ s ∈ placedRight policy p left right := by
  rw [mem_placedLeft, mem_placedRight]
  by_cases hneither : s ∉ left ∧ s ∉ right
  · obtain ⟨i, hi⟩ := List.getElem?_of_mem (mem_remainder.2 ⟨hs, hneither⟩)
    cases hgoes : policy.goesLeft p.id i with
    | true => exact .inl (.inr ⟨i, hi, hgoes⟩)
    | false => exact .inr (.inr ⟨i, hi, hgoes⟩)
  · rw [not_and_or, not_not, not_not] at hneither
    exact hneither.imp .inl .inl

/-- Whatever the policy, sides that share nothing and hold members only are
made into sides that divide the members. -/
theorem splittable_placed (policy : RemainderPolicy) (hp : g.partition? id = some p)
    (hdisjoint : ∀ s ∈ left, s ∉ right) (hleft : ∀ s ∈ left, s ∈ p.members)
    (hright : ∀ s ∈ right, s ∈ p.members) (hl : (placedLeft policy p left right).toList ≠ [])
    (hr : (placedRight policy p left right).toList ≠ []) :
    g.Splittable id p (placedLeft policy p left right) (placedRight policy p left right) := by
  have hrest {s : ObservationId} {i : Nat} (hi : (remainder p left right)[i]? = some s) :
      s ∈ p.members ∧ s ∉ left ∧ s ∉ right := mem_remainder.1 (List.mem_of_getElem? hi)
  refine ⟨hp, hl, hr, fun s hsl hsr => ?_, fun s => ⟨mem_placed_of_mem policy, fun hs => ?_⟩⟩
  · rcases mem_placedLeft.1 hsl with hsl | ⟨i, hi, hgoes⟩
    · rcases mem_placedRight.1 hsr with hsr | ⟨j, hj, -⟩
      · exact hdisjoint s hsl hsr
      · exact (hrest hj).2.1 hsl
    · rcases mem_placedRight.1 hsr with hsr | ⟨j, hj, hstays⟩
      · exact (hrest hi).2.2 hsr
      · -- A member of the rest stands at one position only.
        obtain ⟨hlt, -⟩ := List.getElem?_eq_some_iff.1 hi
        obtain rfl := (List.getElem?_inj hlt nodup_remainder).1 (hi.trans hj.symm)
        rw [hgoes] at hstays
        cases hstays
  · rw [mem_placedLeft, mem_placedRight] at hs
    rcases hs with (hs | ⟨i, hi, -⟩) | (hs | ⟨i, hi, -⟩)
    · exact hleft s hs
    · exact (hrest hi).1
    · exact hright s hs
    · exact (hrest hi).1

/-- A split with a remainder is the split into the sides that the policy has
completed, if both sides have members, all of them of the partition, and
share none. -/
theorem splitWithRemainder_of_sides (policy : RemainderPolicy) (hp : g.partition? id = some p)
    (hl : left.toList ≠ []) (hr : right.toList ≠ []) (hdisjoint : ∀ s ∈ left, s ∉ right)
    (hleft : ∀ s ∈ left, s ∈ p.members) (hright : ∀ s ∈ right, s ∈ p.members) :
    g.Splittable id p (placedLeft policy p left right) (placedRight policy p left right) ∧
      g.splitWithRemainder id left right policy =
        .ok (g.splitInto p (placedLeft policy p left right) (placedRight policy p left right),
          g.nextId, g.nextId + 1) := by
  obtain ⟨s, hs⟩ := List.exists_mem_of_ne_nil _ hl
  obtain ⟨t, ht⟩ := List.exists_mem_of_ne_nil _ hr
  have hsplittable := splittable_placed policy hp hdisjoint hleft hright
    (List.ne_nil_of_mem (mem_placedLeft.2 (.inl hs)))
    (List.ne_nil_of_mem (mem_placedRight.2 (.inl ht)))
  exact ⟨hsplittable, (splitWithRemainder_eq hp).trans hsplittable.split_eq⟩

/-! ### Leaving a path -/

/-- The trace of an observation takes the steps, each with its event and into
its partition, and so gets to another observation. -/
inductive Follows (g : PartitionGraph) :
    ObservationId → List (Event × PartitionId) → ObservationId → Prop
  | stay (s : ObservationId) : Follows g s [] s
  | step {s t u : ObservationId} {e : Event} {q : PartitionId}
      {rest : List (Event × PartitionId)} :
      g.next? s = some (e, t) → g.owner? t = some q → Follows g t rest u →
      Follows g s ((e, q) :: rest) u

theorem Follows.follow_append {u : ObservationId} {steps : List (Event × PartitionId)}
    (h : g.Follows s steps u) (rest : List (Event × PartitionId)) :
    g.follow s (steps ++ rest) =
      (steps.length + (g.follow u rest).1, (g.follow u rest).2) := by
  induction h with
  | stay s => rw [List.nil_append, List.length_nil, Nat.zero_add]
  | step hnext howner _ ih =>
      rw [List.cons_append, follow, successor?_eq_some.2 ⟨hnext, howner⟩, List.length_cons]
      dsimp only
      rw [ih, Nat.add_right_comm]

theorem Follows.owner? {u : ObservationId} {steps : List (Event × PartitionId)} {k : Nat}
    (h : g.Follows s (steps.take k) u) (hk : k ≤ steps.length) (hs : g.owner? s = some id) :
    ∃ q, (id :: steps.map Prod.snd)[k]? = some q ∧ g.owner? u = some q := by
  induction steps generalizing s id k with
  | nil =>
      obtain rfl := Nat.le_zero.1 hk
      cases h
      exact ⟨id, rfl, hs⟩
  | cons step steps ih =>
      cases k with
      | zero =>
          cases h
          exact ⟨id, rfl, hs⟩
      | succ k =>
          cases h with
          | step _ howner hrest => exact ih hrest (Nat.le_of_succ_le_succ hk) howner

/-- Somewhere an observation stops following the steps: at their end, or
where its trace does not take the next one. -/
theorem exists_departure (g : PartitionGraph) (s : ObservationId)
    (steps : List (Event × PartitionId)) :
    ∃ k u, k ≤ steps.length ∧ g.Follows s (steps.take k) u ∧
      ∀ e q, steps[k]? = some (e, q) → g.successor? u e q = none := by
  induction steps generalizing s with
  | nil => exact ⟨0, s, Nat.le_refl 0, .stay s, fun _ _ h => by cases h⟩
  | cons step steps ih =>
      obtain ⟨e, q⟩ := step
      cases hsucc : g.successor? s e q with
      | none =>
          refine ⟨0, s, Nat.zero_le _, .stay s, fun e' q' h => ?_⟩
          obtain ⟨rfl, rfl⟩ := Prod.mk.inj (Option.some.inj h)
          exact hsucc
      | some t =>
          obtain ⟨hnext, howner⟩ := successor?_eq_some.1 hsucc
          obtain ⟨k, u, hk, hfollows, hstops⟩ := ih t
          exact ⟨k + 1, u, Nat.succ_le_succ hk, .step hnext howner hfollows, hstops⟩

/-! ### Steps along edges -/

theorem hasEdge_of_stepsAlongEdges {steps : List (Event × PartitionId)}
    (h : stepsAlongEdges g id steps = true) {k : Nat} {r q : PartitionId} {e : Event}
    (hr : (id :: steps.map Prod.snd)[k]? = some r) (hstep : steps[k]? = some (e, q)) :
    g.hasEdge r e q = true := by
  induction steps generalizing id k with
  | nil => cases hstep
  | cons step steps ih =>
      rw [stepsAlongEdges, Bool.and_eq_true] at h
      cases k with
      | zero =>
          obtain rfl := Option.some.inj hr
          obtain rfl := Option.some.inj hstep
          exact h.1
      | succ k => exact ih h.2 hr hstep

theorem Valid.isPartitionOf_of_stepsAlongEdges (hv : g.Valid) {pid : ProcessId}
    {steps : List (Event × PartitionId)} (h : stepsAlongEdges g id steps = true)
    (hid : g.isPartitionOf pid id = true) :
    ∀ q ∈ id :: steps.map Prod.snd, g.isPartitionOf pid q = true := by
  induction steps generalizing id with
  | nil => simpa using hid
  | cons step steps ih =>
      rw [stepsAlongEdges, Bool.and_eq_true] at h
      exact List.forall_mem_cons.2 ⟨hid, ih h.2 (hv.isPartitionOf_of_hasEdge hid h.1)⟩

end PartitionGraph

namespace PartitionPath

open PartitionGraph

variable {g : PartitionGraph} {path : PartitionPath} {k : Nat} {id : PartitionId}
variable {s : ObservationId} {p : Partition}

/-- Whether an observation at place `k` goes on as the path does: with its
next step, or by being the end of a trace where the path ends. -/
def goesOn (path : PartitionPath) (g : PartitionGraph) (k : Nat) (s : ObservationId) : Bool :=
  match path.steps[k]? with
  | none => g.endsTraceOf path.pid s
  | some (e, q) => (g.successor? s e q).isSome

theorem leavesAt?_of_follows {u : ObservationId} (hk : k ≤ path.steps.length)
    (h : g.Follows s (path.steps.take k) u) (hleaves : path.goesOn g k u = false) :
    path.leavesAt? g s = some k := by
  have hfollow := h.follow_append (path.steps.drop k)
  rw [List.take_append_drop, List.length_take, Nat.min_eq_left hk] at hfollow
  rw [leavesAt?, hfollow]
  cases hstep : path.steps[k]? with
  | none =>
      rw [goesOn, hstep] at hleaves
      rw [List.drop_eq_nil_of_le (List.getElem?_eq_none_iff.1 hstep), follow]
      exact if_neg (Bool.eq_false_iff.1 hleaves)
  | some step =>
      rw [goesOn, hstep] at hleaves
      have hsucc : g.successor? u step.1 step.2 = none :=
        Option.isNone_iff_eq_none.1 (Option.isSome_eq_false_iff.1 hleaves)
      obtain ⟨hlt, hget⟩ := List.getElem?_eq_some_iff.1 hstep
      rw [List.drop_eq_getElem_cons hlt, hget, follow, hsucc]
      rfl

/-- An observation follows the path to the end of a trace, or leaves it. -/
theorem leavesAt?_cases (path : PartitionPath) (g : PartitionGraph) (s : ObservationId) :
    (path.leavesAt? g s = none ∧
      ∃ u, g.Follows s path.steps u ∧ g.endsTraceOf path.pid u = true) ∨
    ∃ k u, path.leavesAt? g s = some k ∧ k ≤ path.steps.length ∧
      g.Follows s (path.steps.take k) u ∧ path.goesOn g k u = false := by
  obtain ⟨k, u, hk, hfollows, hstops⟩ := exists_departure g s path.steps
  cases hgoes : path.goesOn g k u with
  | false => exact .inr ⟨k, u, leavesAt?_of_follows hk hfollows hgoes, hk, hfollows, hgoes⟩
  | true =>
      rw [goesOn] at hgoes
      split at hgoes
      · next hstep =>
        rw [List.take_of_length_le (List.getElem?_eq_none_iff.1 hstep)] at hfollows
        have hfollow := hfollows.follow_append []
        rw [List.append_nil] at hfollow
        refine .inl ⟨?_, u, hfollows, hgoes⟩
        rw [leavesAt?, hfollow]
        exact if_pos hgoes
      · next e q hstep =>
        rw [hstops e q hstep] at hgoes
        cases hgoes

theorem stitch?_eq_ok {e : Event} {q : PartitionId} {rest : List (Event × PartitionId)}
    {found : Option Nat} (hsteps : path.steps = (e, q) :: rest) (h : path.stitch? g = .ok found) :
    found = ((g.emitting path.start e).filterMap (path.leavesAt? g)).max? := by
  simp only [stitch?, hsteps, bind_eq_ok, error_bind, check_eq_ok, pure_eq_ok] at h
  obtain ⟨-, -, -, hmax⟩ := h
  exact hmax.symm

theorem exists_of_stitch?_eq_some (hc : g.Coherent) (h : path.stitch? g = .ok (some k)) :
    ∃ u id, path.states[k]? = some id ∧ g.owner? u = some id ∧ path.goesOn g k u = false := by
  cases hsteps : path.steps with
  | nil =>
      rw [stitch?, hsteps] at h
      cases h
  | cons step rest =>
      have hmax := stitch?_eq_ok (e := step.1) (q := step.2) hsteps h
      obtain ⟨s, hs, hleaves⟩ := List.mem_filterMap.1 (List.max?_mem hmax.symm)
      obtain ⟨hnone, -⟩ | ⟨k', u, hk', hle, hfollows, hgoes⟩ := leavesAt?_cases path g s
      · rw [hnone] at hleaves
        cases hleaves
      · obtain rfl := Option.some.inj (hk'.symm.trans hleaves)
        obtain ⟨id, hid, hu⟩ :=
          hfollows.owner? hle (hc.mem_membersOf.1 (List.mem_filter.1 hs).1)
        exact ⟨u, id, hid, hu, hgoes⟩

/-! ### Paths of the graph -/

theorem getElem?_states_length (path : PartitionPath) :
    path.states[path.steps.length]? = some path.last := by
  have hlast : path.states.getLast? = some path.last := by
    rw [states, List.getLast?_cons, List.getLast?_map, last]
    cases path.steps.getLast? <;> rfl
  rw [List.getLast?_eq_getElem?, states, List.length_cons, List.length_map] at hlast
  exact hlast

section Graph

variable (hv : g.Valid) (hin : path.isIn g = true)

include hv hin

theorem isPartitionOf_of_isIn (hid : path.states[k]? = some id) :
    g.isPartitionOf path.pid id = true := by
  obtain ⟨hstart, hsteps⟩ := (Bool.and_eq_true _ _).mp hin
  exact hv.isPartitionOf_of_stepsAlongEdges hsteps hstart id (List.mem_of_getElem? hid)

/-- Some observation goes on wherever one is on the path, if a trace ends in
its last partition. -/
theorem exists_goesOn (hend : g.isTerminal path.last = true)
    (hid : path.states[k]? = some id) :
    ∃ s, g.owner? s = some id ∧ path.goesOn g k s = true := by
  have hc := hv.coherent
  cases hstep : path.steps[k]? with
  | none =>
      have hle : path.steps.length ≤ k := List.getElem?_eq_none_iff.1 hstep
      have hlt : k < path.states.length := (List.getElem?_eq_some_iff.1 hid).1
      rw [states, List.length_cons, List.length_map] at hlt
      obtain rfl : k = path.steps.length := by omega
      obtain rfl : path.last = id :=
        Option.some.inj (path.getElem?_states_length.symm.trans hid)
      obtain ⟨s, hs, hends⟩ := hc.isTerminal_iff.1 hend
      obtain ⟨o, ho⟩ := observation?_of_owner? hc hs
      refine ⟨s, hs, ?_⟩
      rw [goesOn, hstep]
      exact (endsTraceOf_iff ho).2
        ⟨hends, (hc.isPartitionOf_iff hs ho).1 (isPartitionOf_of_isIn hv hin hid)⟩
  | some step =>
      have hsteps := ((Bool.and_eq_true _ _).mp hin).2
      obtain ⟨s, t, hnext, hs, ht⟩ :=
        hv.hasEdge_iff.1 (hasEdge_of_stepsAlongEdges hsteps hid hstep)
      refine ⟨s, hs, ?_⟩
      rw [goesOn, hstep]
      exact Option.isSome_iff_exists.2 ⟨t, successor?_eq_some.2 ⟨hnext, ht⟩⟩

theorem exists_stitch? : ∃ found, path.stitch? g = .ok found := by
  rw [stitch?]
  split
  · next e q rest hsteps =>
    have hstates : path.states.forM (fun p => do
        let _ ← (g.require p).mapError RefineError.graph) = .ok () := by
      refine forM_eq_ok.2 fun p hp => ?_
      obtain ⟨k, hk⟩ := List.mem_iff_getElem?.1 hp
      obtain ⟨part, hpart, -⟩ := (Option.any_eq_true _ _).1 (isPartitionOf_of_isIn hv hin hk)
      rw [require_eq_ok.2 hpart]
      rfl
    have hedges := ((Bool.and_eq_true _ _).mp hin).2
    rw [hsteps, stepsAlongEdges, Bool.and_eq_true] at hedges
    obtain ⟨s, t, hnext, hs, -⟩ := hv.hasEdge_iff.1 hedges.1
    have hsources : s ∈ g.emitting path.start e := by
      refine List.mem_filter.2 ⟨hv.coherent.mem_membersOf.2 hs, ?_⟩
      rw [hnext]
      exact decide_eq_true rfl
    have hne : (g.emitting path.start e).isEmpty = false :=
      List.isEmpty_eq_false_iff.2 (List.ne_nil_of_mem hsources)
    rw [hstates, ok_bind]
    exact ⟨_, if_neg (Bool.eq_false_iff.1 hne)⟩
  · exact ⟨none, rfl⟩

end Graph

/-! ### The two sides -/

/-- If some member does not go on, the right side is made of those that do. -/
theorem rightSet_eq {members : OrderedSet ObservationId} (hs : s ∈ members)
    (hleaves : path.goesOn g k s = false) :
    path.rightSet g k id members = .ok (members.filter (path.goesOn g k)) := by
  rw [rightSet]
  cases hstep : path.steps[k]? with
  | none =>
      have hgoes : path.goesOn g k = g.endsTraceOf path.pid := by
        funext t
        rw [goesOn, hstep]
      rw [hgoes]
  | some step =>
      have hgoes : path.goesOn g k = fun t => (g.successor? t step.1 step.2).isSome := by
        funext t
        rw [goesOn, hstep]
      have hlt : (members.filter (path.goesOn g k)).size < members.size :=
        List.length_filter_lt_length_iff_exists.2 ⟨s, hs, by simp [hleaves]⟩
      rw [hgoes] at hlt ⊢
      exact if_pos hlt

theorem mem_of_mem_entered {members : OrderedSet ObservationId}
    (h : s ∈ path.entered g k members) : s ∈ members := by
  cases k with
  | zero => exact (OrderedSet.mem_filter.1 h).1
  | succ k => exact (OrderedSet.mem_filter.1 h).1

theorem mem_leftSet {how : LeftSet} {members right : OrderedSet ObservationId}
    (h : s ∈ path.leftSet g how k members right) : s ∈ members ∧ s ∉ right := by
  have hcomplement (h : s ∈ members.filter (· ∉ right)) : s ∈ members ∧ s ∉ right := by
    simpa using h
  cases how with
  | complement => exact hcomplement h
  | predecessor =>
      rw [leftSet] at h
      split at h
      · exact hcomplement h
      · obtain ⟨hentered, hnot⟩ := OrderedSet.mem_filter.1 h
        exact ⟨mem_of_mem_entered hentered, of_decide_eq_true hnot⟩

/-- Whichever way the left side is chosen, it has members if not all are on
the right. -/
theorem leftSet_ne_nil {how : LeftSet} {members right : OrderedSet ObservationId}
    (hs : s ∈ members) (hright : s ∉ right) :
    (path.leftSet g how k members right).toList ≠ [] := by
  have hmem : s ∈ (members.filter (· ∉ right)).toList :=
    List.mem_filter.2 ⟨hs, decide_eq_true hright⟩
  cases how with
  | complement => exact List.ne_nil_of_mem hmem
  | predecessor =>
      rw [leftSet]
      split
      · exact List.ne_nil_of_mem hmem
      · next hne => exact fun hnil => hne (List.isEmpty_iff.2 hnil)

theorem refine_eq {opts : RefineOptions} {right : OrderedSet ObservationId} {g' : PartitionGraph}
    {l r : PartitionId} (hfound : path.stitch? g = .ok (some k)) (hid : path.states[k]? = some id)
    (hp : g.partition? id = some p) (hright : path.rightSet g k id p.members = .ok right)
    (hl : (path.leftSet g opts.leftSet k p.members right).toList ≠ []) (hr : right.toList ≠ [])
    (hsplit : g.splitWithRemainder id (path.leftSet g opts.leftSet k p.members right) right
      opts.remainder = .ok (g', l, r)) :
    path.refine g opts = .ok (g', .refined id k l r) := by
  have hgetD : path.states.getD k path.start = id := by
    rw [List.getD_eq_getElem?_getD, hid, Option.getD_some]
  have husable : ¬ ((path.leftSet g opts.leftSet k p.members right).isEmpty || right.isEmpty ||
      (path.leftSet g opts.leftSet k p.members right).toList.any (· ∈ right)) = true := by
    simp only [OrderedSet.isEmpty, Bool.or_eq_true, List.isEmpty_iff, List.any_eq_true,
      decide_eq_true_eq]
    rintro ((hnil | hnil) | ⟨s, hs, hsr⟩)
    · exact hl hnil
    · exact hr hnil
    · exact (mem_leftSet hs).2 hsr
  rw [refine, hfound, ok_bind]
  simp only [hgetD, bind_eq_ok, error_bind, check_eq_ok, mapError_eq_ok, pure_eq_ok, require_eq_ok]
  exact ⟨p, hp, right, hright, husable, (g', l, r), hsplit, rfl⟩

section Graph

variable (hv : g.Valid) (hin : path.isIn g = true) (hend : g.isTerminal path.last = true)

include hv hin hend

/-- At a stitch of a path of the graph that ends where a trace does, the
partition is split, with all that go on on the right, and all others on the
left if the left side is the complement. -/
theorem refine_of_stitch (opts : RefineOptions) (hfound : path.stitch? g = .ok (some k)) :
    ∃ id p left right, path.states[k]? = some id ∧ g.Splittable id p left right ∧
      (∀ s ∈ p.members, path.goesOn g k s = true → s ∈ right) ∧
      (opts.leftSet = .complement → ∀ s ∈ p.members, path.goesOn g k s = false → s ∈ left) ∧
      path.refine g opts =
        .ok (g.splitInto p left right, .refined id k g.nextId (g.nextId + 1)) := by
  have hc := hv.coherent
  obtain ⟨u, id, hid, hu, hleaves⟩ := exists_of_stitch?_eq_some hc hfound
  obtain ⟨t, ht, hgoes⟩ := exists_goesOn hv hin hend hid
  obtain ⟨p, hp, hup⟩ := hc.partition?_isSome hu
  have hr : (p.members.filter (path.goesOn g k)).toList ≠ [] :=
    List.ne_nil_of_mem (OrderedSet.mem_filter.2 ⟨(hc.mem_members hp t).2 ht, hgoes⟩)
  have hnot : u ∉ p.members.filter (path.goesOn g k) := fun hmem => by
    rw [(OrderedSet.mem_filter.1 hmem).2] at hleaves
    cases hleaves
  have hl : (path.leftSet g opts.leftSet k p.members
      (p.members.filter (path.goesOn g k))).toList ≠ [] := leftSet_ne_nil hup hnot
  obtain ⟨hsplittable, hsplit⟩ := splitWithRemainder_of_sides opts.remainder hp hl hr
    (fun s hs => (mem_leftSet hs).2) (fun s hs => (mem_leftSet hs).1)
    (fun s hs => (OrderedSet.mem_filter.1 hs).1)
  refine ⟨id, p, _, _, hid, hsplittable, fun s hs hgoes => ?_, fun hcomplement s hs hstays => ?_,
    refine_eq hfound hid hp (rightSet_eq hup hleaves) hl hr hsplit⟩
  · exact mem_placedRight.2 (.inl (OrderedSet.mem_filter.2 ⟨hs, hgoes⟩))
  · refine mem_placedLeft.2 (.inl ?_)
    rw [hcomplement]
    refine OrderedSet.mem_filter.2 ⟨hs, decide_eq_true fun hmem => ?_⟩
    rw [(OrderedSet.mem_filter.1 hmem).2] at hstays
    cases hstays

theorem exists_refine (opts : RefineOptions) :
    ∃ g' outcome, path.refine g opts = .ok (g', outcome) := by
  obtain ⟨found, hfound⟩ := exists_stitch? hv hin
  cases found with
  | none => exact ⟨g, .noStitch, by rw [refine, hfound]; rfl⟩
  | some k =>
      obtain ⟨_, _, _, _, -, -, -, -, hrefine⟩ := refine_of_stitch hv hin hend opts hfound
      exact ⟨_, _, hrefine⟩

end Graph

end PartitionPath

end ProtocolInference
