import ProtocolInference.Proofs.Search
import ProtocolInference.Proofs.System.Progress

/-!
The search comes to an end, and what it finds is shortest.

A search goes in rounds. Each takes one visit from the queue and puts new
ones behind it, as many as it adds nodes to those seen, so the visits that
wait and the nodes that the limit still allows for become one less with
every round (`exists_endsAfter`).

The visits wait in the order of their lengths, and no two lengths differ by
more than one (`Frontier`). On the way to any violation there is always a
visit from which the rest of the way is no longer than it would be if the
search had gone straight there (`IsAhead`): if this visit is the one of the
round, the next node of the way either waits now or has been seen before,
and then the way comes by a visit that waits and is at most one step longer
than that of the round. So the first visit to a violation is as short as
any.
-/

namespace ProtocolInference

variable {a : Automaton} {inv : Invariant} {limit : Nat} {v w : Visit} {pid : ProcessId}
variable {seen seen' : List SearchNode} {queue found : List Visit}
variable {result : Except SearchError (Option Visit)}

/-! ### Rounds -/

/-- The search comes to an end after so many rounds, with the given result. -/
inductive EndsAfter (a : Automaton) (inv : Invariant) (limit : Nat) :
    Nat → List SearchNode → List Visit → Except SearchError (Option Visit) → Prop
  | nothing (seen : List SearchNode) : EndsAfter a inv limit 0 seen [] (.ok none)
  | violation {seen : List SearchNode} {queue : List Visit} {v : Visit} :
      v.node.IsViolation a inv → EndsAfter a inv limit 0 seen (v :: queue) (.ok (some v))
  | refused {seen : List SearchNode} {queue : List Visit} {v : Visit} {e : SearchError} :
      ¬ v.node.IsViolation a inv →
      expand inv limit v seen [] (a.transitions v.node.state) = .error e →
      EndsAfter a inv limit 0 seen (v :: queue) (.error e)
  | round {n : Nat} {seen seen' : List SearchNode} {queue found : List Visit} {v : Visit}
      {result : Except SearchError (Option Visit)} :
      ¬ v.node.IsViolation a inv →
      expand inv limit v seen [] (a.transitions v.node.state) = .ok (seen', found) →
      EndsAfter a inv limit n seen' (queue ++ found) result →
      EndsAfter a inv limit (n + 1) seen (v :: queue) result

theorem EndsAfter.searchFrom_eq {n : Nat} (h : EndsAfter a inv limit n seen queue result) :
    searchFrom a inv limit seen queue = result := by
  induction h with
  | nothing => rw [searchFrom]
  | violation hbad => rw [searchFrom, if_pos (Bool.and_eq_true_iff.2 hbad)]
  | refused hgood hexpand =>
      rw [searchFrom, if_neg fun hbad => hgood (Bool.and_eq_true_iff.1 hbad)]
      split
      · next h => exact congrArg Except.error (Except.error.inj (h.symm.trans hexpand))
      · next h => cases h.symm.trans hexpand
  | round hgood hexpand _ ih =>
      rw [searchFrom, if_neg fun hbad => hgood (Bool.and_eq_true_iff.1 hbad)]
      split
      · next h => cases h.symm.trans hexpand
      · next h =>
        obtain ⟨rfl, rfl⟩ := Prod.mk.inj (Except.ok.inj (h.symm.trans hexpand))
        exact ih

/-- No search has more rounds than there are visits waiting at its beginning
and nodes that the limit allows for. -/
theorem exists_endsAfter (a : Automaton) (inv : Invariant) (limit : Nat)
    (seen : List SearchNode) (queue : List Visit) :
    ∃ n result, n ≤ queue.length + (limit - seen.length) ∧
      EndsAfter a inv limit n seen queue result := by
  induction seen, queue using searchFrom.induct a inv limit with
  | case1 seen => exact ⟨0, _, Nat.zero_le _, .nothing seen⟩
  | case2 seen v queue hbad =>
      exact ⟨0, _, Nat.zero_le _, .violation (Bool.and_eq_true_iff.1 hbad)⟩
  | case3 seen v queue hgood e hexpand =>
      refine ⟨0, _, Nat.zero_le _, .refused (fun hbad => ?_) hexpand⟩
      exact hgood (Bool.and_eq_true_iff.2 hbad)
  | case4 seen v queue hgood seen' found hexpand _ ih =>
      obtain ⟨n, result, hle, hends⟩ := ih
      refine ⟨n + 1, result, ?_, .round (fun hbad => ?_) hexpand hends⟩
      · have hcount := length_of_expand hexpand
        rw [List.length_append] at hle
        simp only [List.length_nil, List.length_cons] at hcount ⊢
        omega
      · exact hgood (Bool.and_eq_true_iff.2 hbad)

/-! ### The order of the queue -/

/-- What every round keeps: the nodes seen wait or are settled, and of two
visits that wait, the later one is as long as the earlier or longer by one. -/
structure Frontier (a : Automaton) (inv : Invariant) (seen : List SearchNode)
    (queue : List Visit) : Prop where
  waitsOrSettled : WaitsOrSettled a inv seen queue
  sorted : queue.Pairwise fun v w =>
    v.trail.length ≤ w.trail.length ∧ w.trail.length ≤ v.trail.length + 1

theorem length_trail_of_expand
    (h : expand inv limit v seen [] (a.transitions v.node.state) = .ok (seen', found)) :
    ∀ w ∈ found, w.trail.length = v.trail.length + 1 := by
  obtain ⟨_, rfl, -, hnew, -⟩ := expand_eq_ok h
  intro w hw
  obtain ⟨x, -, rfl⟩ := hnew w hw
  exact List.length_cons

/-- After the round no visit waits that is longer by more than one step. -/
theorem Frontier.length_trail_le (hfrontier : Frontier a inv seen (v :: queue))
    (h : expand inv limit v seen [] (a.transitions v.node.state) = .ok (seen', found)) :
    ∀ w ∈ queue ++ found, w.trail.length ≤ v.trail.length + 1 := by
  intro w hw
  rcases List.mem_append.1 hw with hw | hw
  · exact ((List.pairwise_cons.1 hfrontier.sorted).1 w hw).2
  · exact Nat.le_of_eq (length_trail_of_expand h w hw)

theorem Frontier.round (hfrontier : Frontier a inv seen (v :: queue))
    (hgood : ¬ v.node.IsViolation a inv)
    (h : expand inv limit v seen [] (a.transitions v.node.state) = .ok (seen', found)) :
    Frontier a inv seen' (queue ++ found) := by
  obtain ⟨hhead, hrest⟩ := List.pairwise_cons.1 hfrontier.sorted
  have hfound := length_trail_of_expand h
  refine ⟨hfrontier.waitsOrSettled.round hgood h, List.pairwise_append.2 ⟨hrest, ?_, ?_⟩⟩
  · apply List.pairwise_of_forall_mem_list
    intro w hw w' hw'
    rw [hfound w hw, hfound w' hw']
    omega
  · intro w hw w' hw'
    have hlength := hfound w' hw'
    have hbounds := hhead w hw
    omega

/-- From one of the visits that wait a violation is reached, by a way that is
`length` steps long in all or shorter. -/
def IsAhead (a : Automaton) (inv : Invariant) (length : Nat) (queue : List Visit) : Prop :=
  ∃ w ∈ queue, ∃ es, w.node.LeadsToViolation a inv es ∧ w.trail.length + es.length ≤ length

/-- A round keeps every violation ahead. -/
theorem IsAhead.round {length : Nat} (hahead : IsAhead a inv.untimed length (v :: queue))
    (hfrontier : Frontier a inv.untimed seen (v :: queue))
    (hgood : ¬ v.node.IsViolation a inv.untimed)
    (h : expand inv.untimed limit v seen [] (a.transitions v.node.state) = .ok (seen', found)) :
    IsAhead a inv.untimed length (queue ++ found) := by
  obtain ⟨w, hw, es, hleads, hle⟩ := hahead
  rcases List.mem_cons.1 hw with rfl | hw
  · obtain ⟨-, hbad⟩ | ⟨e, rest, t, rfl, hstep, hrest⟩ := hleads.cases
    · exact absurd hbad hgood
    · have hnext : (w.extend inv.untimed e t).node ∈ seen' := by
        obtain ⟨_, -, rfl, -, hall⟩ := expand_eq_ok h
        exact (hall (e, t) hstep).resolve_left hrest.not_permSuccess
      obtain ⟨w', hw', es', hsuffix, hleads'⟩ :=
        exists_waiting (hfrontier.waitsOrSettled.round hgood h) hnext hrest
      refine ⟨w', hw', es', hleads', ?_⟩
      have htrail := hfrontier.length_trail_le h w' hw'
      have hlength := hsuffix.length_le
      rw [List.length_cons] at hle
      omega
  · exact ⟨w, List.mem_append_left _ hw, es, hleads, hle⟩

/-- The visit that the search returns is as short as the way to a violation
that was ahead when it began. -/
theorem length_trail_le_of_searchFrom {length : Nat}
    (hfrontier : Frontier a inv.untimed seen queue)
    (hahead : IsAhead a inv.untimed length queue)
    (h : searchFrom a inv.untimed limit seen queue = .ok (some w)) :
    w.trail.length ≤ length := by
  obtain ⟨hnone, -⟩ | ⟨v, seen', queue', hv, ⟨hfrontier', hahead'⟩, -⟩ | ⟨_, _, _, _, herror, -⟩ :=
    searchFrom_induction
      (P := fun seen queue => Frontier a inv.untimed seen queue ∧
        IsAhead a inv.untimed length queue)
      (fun _ _ _ _ _ hP hgood hexpand =>
        ⟨hP.1.round hgood hexpand, hP.2.round hP.1 hgood hexpand⟩) ⟨hfrontier, hahead⟩ h
  · cases hnone
  · obtain rfl := Option.some.inj (Except.ok.inj hv)
    obtain ⟨w', hw', es, -, hle⟩ := hahead'
    rcases List.mem_cons.1 hw' with rfl | hw'
    · omega
    · have hsorted := (List.pairwise_cons.1 hfrontier'.sorted).1 w' hw'
      omega
  · cases herror

/-! ### The beginning -/

theorem frontier_initial (a : Automaton) (inv : Invariant) :
    Frontier a inv ((a.initialStates.map Visit.ofInitial).map (·.node))
      (a.initialStates.map Visit.ofInitial) := by
  refine ⟨fun n hn => .inl hn, ?_⟩
  apply List.pairwise_of_forall_mem_list
  intro v hv w hw
  obtain ⟨s, -, rfl⟩ := List.mem_map.1 hv
  obtain ⟨t, -, rfl⟩ := List.mem_map.1 hw
  exact ⟨Nat.le_refl 0, Nat.zero_le 1⟩

/-- A run of the process, from an initial state to an accepting one, on whose
events the invariant fails. -/
structure ProcessRun.Violates (run : ProcessRun) (a : Automaton) (inv : Invariant) : Prop where
  pid_eq : run.pid = inv.pid
  isInitial : a.isInitial run.start = true
  isIn : run.isIn a = true
  isAccepting : a.isAccepting run.last = true
  fails : inv.FailsOn run.events

theorem ProcessRun.Violates.isAhead {run : ProcessRun} (h : run.Violates a inv) :
    IsAhead a inv.untimed run.steps.length (a.initialStates.map Visit.ofInitial) := by
  have hstart : run.start ∈ a.initialStates := Automaton.mem_initialStates.2 h.isInitial
  refine ⟨Visit.ofInitial run.start, List.mem_map_of_mem hstart, run.events, ?_, ?_⟩
  · exact ⟨run.last, run_of_isIn h.isIn, h.isAccepting, h.fails⟩
  · show 0 + (run.steps.map (·.event)).length ≤ run.steps.length
    rw [List.length_map, Nat.zero_add]

/-! ### The search in a model -/

namespace Model

variable {m : Model}

theorem search_eq_of_endsAfter {n : Nat} (hwithin : inv.isWithinProcess = true)
    (ha : m.system.automaton? inv.pid = some a)
    (h : EndsAfter a inv.untimed limit n ((a.initialStates.map Visit.ofInitial).map (·.node))
      (a.initialStates.map Visit.ofInitial) result) :
    m.search limit inv = result.map fun found => found.map (·.run inv.pid) := by
  rw [search, hwithin, ha]
  dsimp only
  rw [h.searchFrom_eq]
  cases result <;> rfl

theorem violates_of_search {run : ProcessRun} (ha : m.system.automaton? inv.pid = some a)
    (h : m.search limit inv = .ok (some run)) : run.Violates a inv := by
  obtain ⟨b, hb, hpid, hinitial, hin, haccepting, hfails⟩ := search_eq_some h
  obtain rfl := Option.some.inj (ha.symm.trans hb)
  exact ⟨hpid, hinitial, hin, haccepting, hfails⟩

/-- No run to a violation has fewer steps than the one that the search
returns. -/
theorem length_steps_le_of_search {run other : ProcessRun}
    (ha : m.system.automaton? inv.pid = some a) (h : m.search limit inv = .ok (some run))
    (hother : other.Violates a inv) : run.steps.length ≤ other.steps.length := by
  obtain ⟨-, b, hb, found, hfound, hrun⟩ := search_eq_ok h
  obtain rfl := Option.some.inj (ha.symm.trans hb)
  obtain ⟨v, rfl, rfl⟩ := Option.map_eq_some_iff.1 hrun.symm
  calc v.trail.reverse.length
      = v.trail.length := List.length_reverse
    _ ≤ other.steps.length :=
        length_trail_le_of_searchFrom (frontier_initial a inv.untimed) hother.isAhead hfound

theorem not_violates_of_search {run : ProcessRun} (ha : m.system.automaton? inv.pid = some a)
    (h : m.search limit inv = .ok none) : ¬ run.Violates a inv := by
  intro hrun
  obtain ⟨b, hb, hnone⟩ := search_eq_none h
  obtain rfl := Option.some.inj (ha.symm.trans hb)
  have haccepts : a.Accepts run.events :=
    ⟨run.start, run.last, hrun.isInitial, ProcessRun.run_of_isIn hrun.isIn, hrun.isAccepting⟩
  exact hnone run.events haccepts hrun.fails

/-- What is to be expected of the search for violations of an invariant in the
automaton of its process, if it may look at `limit` nodes. -/
structure SearchesExactly (m : Model) (a : Automaton) (limit : Nat) (inv : Invariant) : Prop where
  ends : ∃ n result, n ≤ max limit a.initialStates.length ∧
    EndsAfter a inv.untimed limit n ((a.initialStates.map Visit.ofInitial).map (·.node))
      (a.initialStates.map Visit.ofInitial) result ∧
    m.search limit inv = result.map fun found => found.map (·.run inv.pid)
  sound : ∀ run, m.search limit inv = .ok (some run) → run.Violates a inv
  shortest : ∀ run, m.search limit inv = .ok (some run) →
    ∀ other : ProcessRun, other.Violates a inv → run.steps.length ≤ other.steps.length
  complete : m.search limit inv = .ok none → ∀ run : ProcessRun, ¬ run.Violates a inv
  exhausted : ∀ e, m.search limit inv = .error e →
    e = .exhausted limit ∧ a.Exceeds inv.untimed limit
  succeeds : 3 * a.size ≤ limit → ∃ found, m.search limit inv = .ok found

theorem searchesExactly (limit : Nat) (hwithin : inv.isWithinProcess = true)
    (ha : m.system.automaton? inv.pid = some a) (hclosed : a.IsClosed) :
    m.SearchesExactly a limit inv where
  ends := by
    obtain ⟨n, result, hle, hends⟩ := exists_endsAfter a inv.untimed limit
      ((a.initialStates.map Visit.ofInitial).map (·.node)) (a.initialStates.map Visit.ofInitial)
    refine ⟨n, result, ?_, hends, search_eq_of_endsAfter hwithin ha hends⟩
    simp only [List.length_map] at hle
    omega
  sound := fun _ h => violates_of_search ha h
  shortest := fun _ h _ hother => length_steps_le_of_search ha h hother
  complete := fun h _ => not_violates_of_search ha h
  exhausted := fun _ h => search_eq_error hwithin ha h
  succeeds := exists_search hwithin ha hclosed

end Model

/-- **The search is sound, complete and shortest, and comes to an end** in
every model of a graph, however often the model has been traced. -/
theorem search_is_exact {executions : List Execution} {processes : Nat}
    {channels channels' : List Channel} {g : PartitionGraph} {base m : Model}
    {invs : List Invariant} (hg : PartitionGraph.Arises executions processes channels g)
    (hbase : g.model channels' = .ok base) (htrace : base.traceAll invs = .ok m)
    (hwithin : inv.isWithinProcess = true) (hpid : inv.pid < g.processes) (limit : Nat) :
    ∃ a, m.system.automaton? inv.pid = some a ∧ m.SearchesExactly a limit inv := by
  have hmirrors := hg.valid.mirrors_model hbase
  have hclosed : base.system.IsClosed := by
    intro a ha
    obtain ⟨pid, hpid⟩ := List.mem_iff_getElem?.1 ha
    exact (hmirrors.isUntraced pid a hpid).1
  obtain ⟨hclosed', hprocesses⟩ := Model.isClosed_of_traceAll hclosed htrace
  have hlt : inv.pid < m.system.processes := by
    rw [hprocesses, hmirrors.processes_eq]
    exact hpid
  obtain ⟨a, ha⟩ := System.automaton?_of_lt hlt
  exact ⟨a, ha, Model.searchesExactly limit hwithin ha (hclosed' a (List.mem_of_getElem? ha))⟩

/-- In the model of a single event, traced twice, the shortest violation is the
event with the two sends that follow it. -/
theorem oneGraph_search_is_exact :
    ∃ base m a run, System.oneGraph.model [] = .ok base ∧
      base.traceAll [System.precededB, System.followedA] = .ok m ∧
      m.system.automaton? 0 = some a ∧ m.search 12 System.followedA = .ok (some run) ∧
      run.steps.length = 3 ∧ run.Violates a System.followedA ∧
      ∀ other : ProcessRun, other.Violates a System.followedA → 3 ≤ other.steps.length := by
  have hok : (System.oneGraph.model [] >>= fun base =>
      base.traceAll [System.precededB, System.followedA]).map (fun m =>
        (m.search 12 System.followedA).map fun found => found.map (·.steps.length)) =
      .ok (.ok (some 3)) := by cbv
  obtain ⟨m, hm, hsearch⟩ := map_eq_ok.1 hok
  obtain ⟨found, hfound, hlength⟩ := map_eq_ok.1 hsearch
  obtain ⟨run, rfl, hthree⟩ := Option.map_eq_some_iff.1 hlength
  obtain ⟨base, hbase, htrace⟩ := bind_eq_ok.1 hm
  obtain ⟨a, ha, hexact⟩ := search_is_exact System.arises_oneGraph hbase htrace
    (rfl : System.followedA.isWithinProcess = true) (by decide) 12
  refine ⟨base, m, a, run, hbase, htrace, ha, hfound, hthree, hexact.sound run hfound, ?_⟩
  exact fun other hother => hthree ▸ hexact.shortest run hfound other hother

end ProtocolInference
