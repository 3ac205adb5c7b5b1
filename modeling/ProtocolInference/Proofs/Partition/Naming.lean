import ProtocolInference.Proofs.Event.Label
import ProtocolInference.Proofs.Partition.CommonName

/-!
Whose name an observation bears.

A state bears the name that its trace gives it, and a generated one if the trace
gives none. Read in the order of the arena, the given names are a list with
gaps, and the gaps are filled with the stem and a number that runs on from one
gap to the next (`StateNames.fill`, `map_name_observeAll`). So two generated
names are never the same. The numbers take no notice of the names between the
gaps, though, and a trace may give a name that is generated as well. This is
the only way in which an anonymous observation can share its name
(`generated_name_is_shared_only_if_given`): where it does, the two are
taken for one state by whatever goes by names, the first grouping and the
coarsening (`given_name_is_generated`).
-/

namespace ProtocolInference

/-! ### Given names -/

/-- The name that the trace gives to its state at position `i`. -/
def ProcessTrace.givenName? (t : ProcessTrace) (i : Nat) : Option String :=
  t.stateNames.bind (·[i]?)

/-- The names that the trace gives to its states, with a gap for each anonymous
state. -/
def ProcessTrace.gappedNames (t : ProcessTrace) : List (Option String) :=
  (List.range t.length).map t.givenName?

/-- The given names of all states of the traces, in the order of the arena. -/
def gappedNames (traces : List ProcessTrace) : List (Option String) :=
  traces.flatMap (·.gappedNames)

/-- The list with its gaps filled by generated names. -/
def StateNames.fill (names : StateNames) : List (Option String) → List String
  | [] => []
  | some name :: given => name :: names.fill given
  | none :: given => names.name names.next :: (names.advance 1).fill given

namespace StateNames

variable {names : StateNames} {given given' : List (Option String)}

theorem name_inj {m n : Nat} (h : names.name m = names.name n) : m = n := by
  have hnumber : (toString m).toList = (toString n).toList := by
    simpa [name, String.toList_inj] using congrArg String.toList h
  exact toString_nat_injective (String.toList_inj.1 hnumber)

theorem advance_advance (m n : Nat) : (names.advance m).advance n = names.advance (m + n) := by
  simp [advance, Nat.add_assoc]

theorem fill_append (names : StateNames) (given given' : List (Option String)) :
    names.fill (given ++ given') =
      names.fill given ++ (names.advance (given.countP (·.isNone))).fill given' := by
  induction given generalizing names with
  | nil => rfl
  | cons o given ih =>
      cases o with
      | some name => simp [fill, ih]
      | none => simp [fill, ih, advance_advance, Nat.add_comm]

theorem fill_map_some (names : StateNames) (l : List String) : names.fill (l.map some) = l := by
  induction l with
  | nil => rfl
  | cons name l ih => rw [List.map_cons, fill, ih]

theorem fill_replicate_none (names : StateNames) (n : Nat) :
    names.fill (List.replicate n none) = names.upcoming n := by
  induction n generalizing names with
  | zero => rfl
  | succ n ih =>
      rw [List.replicate_succ, fill, ih, upcoming, upcoming, List.range_succ_eq_map, List.map_cons,
        List.map_map]
      simp [advance, name, Nat.add_comm, Nat.add_left_comm, Function.comp_def]

/-- A gap is filled with the number of gaps before it. -/
theorem getElem?_fill (names : StateNames) (given : List (Option String)) (s : Nat) :
    (names.fill given)[s]? = (given[s]?).map fun o =>
      o.getD (names.name (names.next + (given.take s).countP (·.isNone))) := by
  induction given generalizing names s with
  | nil => rfl
  | cons o given ih =>
      cases o with
      | some name =>
          cases s with
          | zero => rfl
          | succ s => simp [fill, ih]
      | none =>
          cases s with
          | zero => rfl
          | succ s => simp [fill, ih, advance, StateNames.name, Nat.add_assoc, Nat.add_comm 1]

theorem countP_take_lt {s t : Nat} (hs : given[s]? = some none) (hst : s < t) :
    (given.take s).countP (·.isNone) < (given.take t).countP (·.isNone) := by
  have hlast : (given.take (s + 1)).countP (·.isNone) = (given.take s).countP (·.isNone) + 1 := by
    rw [List.take_add_one, hs, List.countP_append]
    rfl
  have hmono : (given.take (s + 1)).countP (·.isNone) ≤ (given.take t).countP (·.isNone) :=
    (List.take_sublist_take_left hst).countP_le
  omega

theorem eq_of_fill_eq {s t : Nat} (hs : given[s]? = some none) (ht : given[t]? = some none)
    (h : (names.fill given)[s]? = (names.fill given)[t]?) : s = t := by
  rw [getElem?_fill, getElem?_fill, hs, ht] at h
  have hnumber := Nat.add_left_cancel (name_inj (Option.some.inj h))
  rcases Nat.lt_trichotomy s t with hst | heq | hts
  · exact absurd hnumber (Nat.ne_of_lt (countP_take_lt hs hst))
  · exact heq
  · exact absurd hnumber (Nat.ne_of_gt (countP_take_lt ht hts))

end StateNames

/-! ### Names in the arena -/

theorem map_name_observeFrom {pid : ProcessId} {here : ObservationId}
    {prev : Option (Event × ObservationId)} {names : List String} {events : List Event}
    (h : names.length = events.length + 1) :
    (observeFrom pid here prev names events).map (·.name) = names := by
  induction events generalizing here prev names with
  | nil =>
      obtain ⟨name, rfl⟩ := List.length_eq_one_iff.1 h
      rfl
  | cons e events ih =>
      cases names with
      | nil => cases h
      | cons name names => rw [observeFrom, List.map_cons, ih (Nat.succ.inj h)]

theorem map_getElem?_range {α : Type} (l : List α) (n : Nat) :
    (List.range n).map (l[·]?) =
      (l.take n).map some ++ List.replicate (n - (l.take n).length) none := by
  induction n generalizing l with
  | zero => rfl
  | succ n ih =>
      rw [List.range_succ_eq_map, List.map_cons, List.map_map]
      cases l with
      | nil => simp [List.replicate_succ, Function.comp_def]
      | cons x l => simpa [Function.comp_def] using ih l

namespace ProcessTrace

theorem gappedNames_eq (t : ProcessTrace) :
    t.gappedNames =
      t.givenNames.map some ++ List.replicate (t.length - t.givenNames.length) none := by
  have hname : t.givenName? = ((t.stateNames.getD [])[·]?) := by
    funext i
    rw [givenName?]
    cases t.stateNames <;> rfl
  rw [gappedNames, hname, givenNames, map_getElem?_range]

theorem countP_gappedNames (t : ProcessTrace) :
    t.gappedNames.countP (·.isNone) = t.length - t.givenNames.length := by
  rw [t.gappedNames_eq, List.countP_append, List.countP_replicate, List.countP_map]
  simp [Function.comp_def]

theorem map_name_observe (t : ProcessTrace) (here : ObservationId) (names : StateNames) :
    (t.observe here names).map (·.name) = names.fill t.gappedNames := by
  have hgiven : (t.givenNames.map some).countP (·.isNone) = 0 := by
    rw [List.countP_map]
    simp [Function.comp_def]
  rw [observe, map_name_observeFrom (by rw [length_allNames, List.length_map]), gappedNames_eq,
    StateNames.fill_append, StateNames.fill_map_some, hgiven, StateNames.fill_replicate_none]
  rfl

end ProcessTrace

/-- The arena bears the given names, with the gaps filled. -/
theorem map_name_observeAll (traces : List ProcessTrace) (names : StateNames)
    (arena : List Observation) :
    (observeAll traces names arena).1.map (·.name) =
        arena.map (·.name) ++ names.fill (gappedNames traces) ∧
      (observeAll traces names arena).2 =
        names.advance ((gappedNames traces).countP (·.isNone)) := by
  induction traces generalizing names arena with
  | nil => exact ⟨(List.append_nil _).symm, rfl⟩
  | cons t traces ih =>
      obtain ⟨hnames, hnext⟩ := ih (names.advance (t.length - t.givenNames.length))
        (arena ++ t.observe arena.length names)
      have hsplit : gappedNames (t :: traces) = t.gappedNames ++ gappedNames traces :=
        List.flatMap_cons
      rw [observeAll, hnames, hnext, hsplit, StateNames.fill_append, List.countP_append,
        t.countP_gappedNames, List.map_append, t.map_name_observe, List.append_assoc,
        StateNames.advance_advance]
      exact ⟨rfl, rfl⟩

namespace PartitionGraph

/-- The trace behind the observation gives it the name. -/
def IsGiven (executions : List Execution) (s : ObservationId) (name : String) : Prop :=
  (gappedNames (executions.flatMap (·.processes)))[s]? = some (some name)

/-- The trace behind the observation gives it no name. -/
def IsAnonymous (executions : List Execution) (s : ObservationId) : Prop :=
  (gappedNames (executions.flatMap (·.processes)))[s]? = some none

section First

variable {executions : List Execution} {processes : Nat} {channels : List Channel}
variable {how : InitialPartitioning} {names names' : StateNames} {g : PartitionGraph}
variable {s t : ObservationId} {o o' : Observation}

theorem names_ofExecutions
    (h : ofExecutions executions processes channels how names = .ok (g, names')) :
    g.observations.map (·.name) = names.fill (gappedNames (executions.flatMap (·.processes))) ∧
      names' = names.advance
        ((gappedNames (executions.flatMap (·.processes))).countP (·.isNone)) := by
  obtain ⟨-, rfl, rfl⟩ := ofExecutions_eq_ok.1 h
  exact map_name_observeAll _ names []

theorem getElem?_fill_of_observation?
    (h : ofExecutions executions processes channels how names = .ok (g, names'))
    (ho : g.observation? s = some o) :
    (names.fill (gappedNames (executions.flatMap (·.processes))))[s]? = some o.name := by
  have ho : g.observations[s]? = some o := ho
  rw [← (names_ofExecutions h).1, List.getElem?_map, ho, Option.map_some]

theorem isGiven_or_isAnonymous
    (h : ofExecutions executions processes channels how names = .ok (g, names'))
    (ho : g.observation? s = some o) :
    IsGiven executions s o.name ∨ IsAnonymous executions s ∧
      ∃ number, names.next ≤ number ∧ number < names'.next ∧ o.name = names.name number := by
  have hname := getElem?_fill_of_observation? h ho
  rw [StateNames.getElem?_fill, Option.map_eq_some_iff] at hname
  obtain ⟨given, hgiven, heq⟩ := hname
  cases given with
  | some name =>
      obtain rfl : name = o.name := heq
      exact .inl hgiven
  | none =>
      refine .inr ⟨hgiven, _, Nat.le_add_right _ _, ?_, heq.symm⟩
      rw [(names_ofExecutions h).2]
      have hlt : s < (gappedNames (executions.flatMap (·.processes))).length :=
        (List.getElem?_eq_some_iff.1 hgiven).1
      have hgaps := StateNames.countP_take_lt hgiven hlt
      rw [List.take_length] at hgaps
      exact Nat.add_lt_add_left hgaps _

/-- Who bears the name of an anonymous observation has been given it. -/
theorem eq_or_isGiven_of_name_eq
    (h : ofExecutions executions processes channels how names = .ok (g, names'))
    (hs : IsAnonymous executions s) (ho : g.observation? s = some o)
    (ho' : g.observation? t = some o') (hname : o'.name = o.name) :
    t = s ∨ IsGiven executions t o.name := by
  rcases isGiven_or_isAnonymous h ho' with ht | ⟨ht, -⟩
  · exact .inr (hname ▸ ht)
  · have hfill := (getElem?_fill_of_observation? h ho').trans
      ((congrArg some hname).trans (getElem?_fill_of_observation? h ho).symm)
    exact .inl (StateNames.eq_of_fill_eq ht hs hfill)

theorem name_eq_of_isGiven
    (h : ofExecutions executions processes channels how names = .ok (g, names'))
    (ho : g.observation? s = some o) {name : String} (hgiven : IsGiven executions s name) :
    o.name = name := by
  have hname := getElem?_fill_of_observation? h ho
  rw [StateNames.getElem?_fill, hgiven] at hname
  exact (Option.some.inj hname).symm

end First

/-- At first, observations share a partition if and only if they have the same key. -/
theorem owner?_ofArena_eq_iff {processes : Nat} {channels : List Channel}
    {how : InitialPartitioning} {arena : List Observation} {s t : ObservationId}
    {o o' : Observation} (ho : arena[s]? = some o) (ho' : arena[t]? = some o') :
    (ofArena processes channels how arena).owner? t =
        (ofArena processes channels how arena).owner? s ↔ how.key o' = how.key o := by
  have hmem : how.key o' ∈ keysOf how arena := mem_keysOf.2 ⟨o', List.mem_of_getElem? ho', rfl⟩
  rw [owner?_ofArena, owner?_ofArena, ho, ho', Option.map_some, Option.map_some,
    Option.some.injEq, List.idxOf_inj hmem]

/-! ### Who shares a name -/

/-- The anonymous observation `s` has its name to itself, but for observations to
which their traces give that name. -/
structure SharesNameOnlyIfGiven (executions : List Execution) (how : InitialPartitioning)
    (g : PartitionGraph) (s : ObservationId) (o : Observation) : Prop where
  given_of_name_eq : ∀ t o', t ≠ s → g.observation? t = some o' → o'.name = o.name →
    IsGiven executions t o.name
  /-- Where names decide, such observations of the process are in its partition, and
  no others. -/
  owner_eq_iff : how = .byStateName → ∀ t o', t ≠ s → g.observation? t = some o' →
    (g.owner? t = g.owner? s ↔ o'.pid = o.pid ∧ IsGiven executions t o.name)
  /-- A coarsening brings it together with such observations, and with no others. -/
  coarsened : ∃ g' merges, g.coarsenByName = .ok (g', merges) ∧
    ∀ t, g'.owner? t = g'.owner? s → g.owner? t ≠ g.owner? s → IsGiven executions t o.name

section First

variable {executions : List Execution} {processes : Nat} {channels : List Channel}
variable {how : InitialPartitioning} {names names' : StateNames} {g : PartitionGraph}
variable {s t : ObservationId} {o o' : Observation}

theorem owner?_eq_iff_of_byStateName
    (h : ofExecutions executions processes channels .byStateName names = .ok (g, names'))
    (ho : g.observation? s = some o) (ho' : g.observation? t = some o') :
    g.owner? t = g.owner? s ↔ o'.pid = o.pid ∧ o'.name = o.name := by
  obtain ⟨-, rfl, -⟩ := ofExecutions_eq_ok.1 h
  refine (owner?_ofArena_eq_iff ho ho').trans ?_
  rw [InitialPartitioning.key, InitialPartitioning.key, Prod.mk.injEq, GroupKey.named.injEq]

theorem sharesNameOnlyIfGiven
    (h : ofExecutions executions processes channels how names = .ok (g, names'))
    (hs : IsAnonymous executions s) (ho : g.observation? s = some o) :
    g.SharesNameOnlyIfGiven executions how s o where
  given_of_name_eq t o' hne ho' hname :=
    (eq_or_isGiven_of_name_eq h hs ho ho' hname).resolve_left hne
  owner_eq_iff hhow t o' hne ho' := by
    subst hhow
    rw [owner?_eq_iff_of_byStateName h ho ho']
    refine and_congr_right fun _ => ⟨fun hname => ?_, name_eq_of_isGiven h ho'⟩
    exact (eq_or_isGiven_of_name_eq h hs ho ho' hname).resolve_left hne
  coarsened := by
    have hv := valid_ofExecutions h
    obtain ⟨g', merges, hcoarsen⟩ := hv.exists_coarsenByName
    obtain ⟨hgathers, -⟩ := hv.gathers_coarsenByName hcoarsen
    have hcoarsensTo := hgathers.coarsensTo hv.coherent
    refine ⟨g', merges, hcoarsen, fun t howner hapart => ?_⟩
    have hlt : s < g'.observations.length := hcoarsensTo.observations_eq ▸ observation?_lt ho
    have hsome := hgathers.valid.coherent.owner?_eq hlt
    rcases hcoarsensTo.together t s _ (howner.trans hsome) hsome with
      heq | ⟨o', o'', ho', ho'', -, hname⟩
    · exact absurd heq hapart
    · obtain rfl := Option.some.inj (ho.symm.trans ho'')
      have hne : t ≠ s := fun heq => hapart (congrArg g.owner? heq)
      exact (eq_or_isGiven_of_name_eq h hs ho ho' hname).resolve_left hne

/-- **A generated name is shared only with observations to which it is given.** Every
observation of a first graph bears the name that its trace gives it, or else a
generated one. -/
theorem generated_name_is_shared_only_if_given
    (h : ofExecutions executions processes channels how names = .ok (g, names')) :
    ∀ s o, g.observation? s = some o →
      IsGiven executions s o.name ∨
        IsAnonymous executions s ∧
          (∃ number, names.next ≤ number ∧ number < names'.next ∧ o.name = names.name number) ∧
          g.SharesNameOnlyIfGiven executions how s o := by
  intro s o ho
  rcases isGiven_or_isAnonymous h ho with hgiven | ⟨hs, hnumber⟩
  · exact .inl hgiven
  · exact .inr ⟨hs, hnumber, sharesNameOnlyIfGiven h hs ho⟩

end First

/-- A trace without names, and one that calls its second state `a1`. -/
def borrowingExecutions : List Execution :=
  [⟨[⟨0, none, [⟨.internal 0 "e", 0⟩]⟩]⟩,
    ⟨[⟨0, some ["z", "a1"], [⟨.internal 0 "f", 0⟩]⟩]⟩]

def borrowingGraph (how : InitialPartitioning) : PartitionGraph :=
  ofArena 1 [] how (observeAll (borrowingExecutions.flatMap (·.processes)) .standard []).1

theorem ofExecutions_borrowing (how : InitialPartitioning) :
    ofExecutions borrowingExecutions 1 [] how .standard =
      .ok (borrowingGraph how, StateNames.standard.advance 2) := rfl

/-- The first state of the first trace shares its name with none, and the second
state only with the one that is given the name. -/
theorem borrowing_shares_only_if_given :
    ∃ o, (borrowingGraph .byStateName).observation? 1 = some o ∧ o.name = "a1" ∧
      (borrowingGraph .byStateName).SharesNameOnlyIfGiven borrowingExecutions .byStateName 1 o := by
  have hname : ((borrowingGraph .byStateName).observation? 1).map (·.name) = some "a1" := by rfl
  have hanonymous : ∀ name, ¬ IsGiven borrowingExecutions 1 name := by
    intro name h
    cases h
  obtain ⟨o, ho, hname⟩ := Option.map_eq_some_iff.1 hname
  rcases generated_name_is_shared_only_if_given (ofExecutions_borrowing .byStateName) 1 o ho with
    hgiven | ⟨-, -, hshares⟩
  · exact absurd hgiven (hanonymous _)
  · exact ⟨o, ho, hname, hshares⟩

/-- One state is given the name that is generated for another. If names decide, the two
share a partition at once, and if events decide, a coarsening merges theirs. -/
theorem given_name_is_generated :
    (IsAnonymous borrowingExecutions 1 ∧ IsGiven borrowingExecutions 3 "a1" ∧
      ((borrowingGraph .byStateName).observation? 1).map (·.name) = some "a1" ∧
      ((borrowingGraph .byStateName).observation? 3).map (·.name) = some "a1") ∧
    (ofExecutions borrowingExecutions 1 [] .byStateName .standard =
        .ok (borrowingGraph .byStateName, StateNames.standard.advance 2) ∧
      (borrowingGraph .byStateName).owner? 1 = (borrowingGraph .byStateName).owner? 3) ∧
    ofExecutions borrowingExecutions 1 [] .byIncomingEvent .standard =
        .ok (borrowingGraph .byIncomingEvent, StateNames.standard.advance 2) ∧
      (borrowingGraph .byIncomingEvent).owner? 1 ≠ (borrowingGraph .byIncomingEvent).owner? 3 ∧
      ∃ g', (borrowingGraph .byIncomingEvent).coarsenByName = .ok (g', 1) ∧
        g'.owner? 1 = g'.owner? 3 := by
  refine ⟨⟨rfl, rfl, rfl, rfl⟩, ⟨rfl, rfl⟩, rfl, by decide, ?_⟩
  exact ⟨_, rfl, rfl⟩

end PartitionGraph

end ProtocolInference
