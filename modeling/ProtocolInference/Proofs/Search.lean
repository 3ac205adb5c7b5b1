import Mathlib.Data.List.Perm.Subperm
import ProtocolInference.Proofs.Model.Path
import ProtocolInference.Proofs.Monitor
import ProtocolInference.Search

/-!
What the search finds, and what it means that it finds nothing.

A visit in the queue always comes with a run of the automaton that leads
to it (`Visit.IsRun`), so what the search returns is a run that violates
the invariant. For the other direction, the nodes that have been seen are
divided into those that still wait in the queue and those that are
*settled*: they are no violation, and every step out of them leads to a
node that has been seen or cannot fail any more. So a run from a node that
has been seen to a violation comes by a node that waits
(`exists_waiting`), and when the queue is empty there is no such run.

A search fails only if it would have to look at more nodes than it may,
and all nodes at which it looks can be reached (`searchFrom_eq_error`).
There are only so many of them, three at most for each state of the
automaton, so a search that may look at that many succeeds
(`Model.exists_search`).
-/

namespace ProtocolInference

variable {a : Automaton} {inv : Invariant} {limit : Nat} {v w : Visit} {pid : ProcessId}
variable {seen seen' : List SearchNode} {queue found found' : List Visit}

/-! ### Visits are runs -/

/-- A run of the process leads to the node of the visit. -/
structure Visit.IsRun (a : Automaton) (inv : Invariant) (pid : ProcessId) (v : Visit) : Prop where
  isInitial : a.isInitial v.start = true
  isIn : (v.run pid).isIn a = true
  last_eq : (v.run pid).last = v.node.state
  phase_eq : Phase.feed inv .idle (v.run pid).events = v.node.phase

theorem Visit.isRun_ofInitial {s : StateId} (h : a.isInitial s = true) :
    (Visit.ofInitial s).IsRun a inv pid := ⟨h, rfl, rfl, rfl⟩

theorem Visit.IsRun.extend {e : Event} {t : StateId} (h : v.IsRun a inv pid)
    (hstep : a.Step v.node.state e t) : (v.extend inv e t).IsRun a inv pid := by
  have hrun : (v.extend inv e t).run pid = ⟨pid, v.start, v.trail.reverse ++ [⟨e, t⟩]⟩ := by
    rw [run, Visit.extend, List.reverse_cons]
  constructor
  case isInitial => exact h.isInitial
  case isIn =>
    rw [hrun]
    refine (ProcessRun.stepsAlong_append pid).2 ⟨h.isIn, ProcessRun.stepsAlong_cons.2 ⟨?_, rfl⟩⟩
    have hlast : ProcessRun.last ⟨pid, v.start, v.trail.reverse⟩ = v.node.state := h.last_eq
    rw [hlast]
    exact hstep
  case last_eq =>
    rw [hrun, ProcessRun.last_append]
    rfl
  case phase_eq =>
    have hphase : Phase.feed inv .idle ((v.trail.reverse).map (·.event)) = v.node.phase :=
      h.phase_eq
    rw [hrun, ProcessRun.events, List.map_append, Phase.feed, List.foldl_append]
    rw [Phase.feed] at hphase
    rw [hphase]
    rfl

/-! ### One node -/

/-- The visits that expanding a node adds, and what it has seen to
afterwards. -/
theorem expand_eq_ok {ts : List (Event × StateId)}
    (h : expand inv limit v seen found ts = .ok (seen', found')) :
    ∃ new : List Visit, found' = found ++ new ∧ seen' = (new.map (·.node)).reverse ++ seen ∧
      (∀ w ∈ new, ∃ x ∈ ts, w = v.extend inv x.1 x.2) ∧
      ∀ x ∈ ts, (v.extend inv x.1 x.2).node.phase.validity inv = .permSuccess ∨
        (v.extend inv x.1 x.2).node ∈ seen' := by
  induction ts generalizing seen found with
  | nil =>
      obtain ⟨rfl, rfl⟩ := Prod.mk.inj (Except.ok.inj h)
      exact ⟨[], by simp, by simp, by simp, by simp⟩
  | cons x ts ih =>
      obtain ⟨e, t⟩ := x
      have hlater {new : List Visit} (hnew : ∀ w ∈ new, ∃ x ∈ ts, w = v.extend inv x.1 x.2) :
          ∀ w ∈ new, ∃ x ∈ (e, t) :: ts, w = v.extend inv x.1 x.2 := by
        intro w hw
        obtain ⟨x, hx, rfl⟩ := hnew w hw
        exact ⟨x, List.mem_cons_of_mem _ hx, rfl⟩
      rw [expand] at h
      split at h
      · next hperm =>
        obtain ⟨new, rfl, rfl, hnew, hall⟩ := ih h
        exact ⟨new, rfl, rfl, hlater hnew, List.forall_mem_cons.2 ⟨.inl hperm, hall⟩⟩
      · split at h
        · next hseen =>
          obtain ⟨new, rfl, rfl, hnew, hall⟩ := ih h
          refine ⟨new, rfl, rfl, hlater hnew, List.forall_mem_cons.2 ⟨.inr ?_, hall⟩⟩
          exact List.mem_append_right _ hseen
        · split at h
          · cases h
          · obtain ⟨new, rfl, rfl, hnew, hall⟩ := ih h
            refine ⟨v.extend inv e t :: new, by simp, by simp, ?_, ?_⟩
            · exact List.forall_mem_cons.2 ⟨⟨(e, t), List.mem_cons_self, rfl⟩, hlater hnew⟩
            · refine List.forall_mem_cons.2 ⟨.inr ?_, hall⟩
              exact List.mem_append_right _ List.mem_cons_self

/-- The automaton accepts in the node, and the invariant fails. -/
def SearchNode.IsViolation (a : Automaton) (inv : Invariant) (n : SearchNode) : Prop :=
  a.isAccepting n.state = true ∧ (n.phase.validity inv).isFail = true

/-- How a search ends: with an empty queue, with a visit to a violation, or with a
visit whose node cannot be expanded. What every round keeps holds then, of the
queue that has become empty, or of this visit and those behind it. -/
theorem searchFrom_induction {P : List SearchNode → List Visit → Prop}
    {result : Except SearchError (Option Visit)}
    (hround : ∀ seen v queue seen' found, P seen (v :: queue) → ¬ v.node.IsViolation a inv →
      expand inv limit v seen [] (a.transitions v.node.state) = .ok (seen', found) →
      P seen' (queue ++ found))
    (hstart : P seen queue) (h : searchFrom a inv limit seen queue = result) :
    (result = .ok none ∧ ∃ seen', P seen' []) ∨
      (∃ v seen' queue', result = .ok (some v) ∧ P seen' (v :: queue') ∧
        v.node.IsViolation a inv) ∨
      ∃ e v seen' queue', result = .error e ∧ P seen' (v :: queue') ∧
        expand inv limit v seen' [] (a.transitions v.node.state) = .error e := by
  induction seen, queue using searchFrom.induct a inv limit with
  | case1 seen =>
      rw [searchFrom] at h
      exact .inl ⟨h.symm, seen, hstart⟩
  | case2 seen v queue hbad =>
      rw [searchFrom, if_pos hbad] at h
      rw [Bool.and_eq_true] at hbad
      exact .inr (.inl ⟨v, seen, queue, h.symm, hstart, hbad⟩)
  | case3 seen v queue hbad e hexpand =>
      rw [searchFrom, if_neg hbad] at h
      split at h
      · next hexpand' => exact .inr (.inr ⟨_, v, seen, queue, h.symm, hstart, hexpand'⟩)
      · next hexpand' =>
        rw [hexpand] at hexpand'
        cases hexpand'
  | case4 seen v queue hbad seen' found hexpand _ ih =>
      rw [searchFrom, if_neg hbad] at h
      split at h
      · next hexpand' =>
        rw [hexpand] at hexpand'
        cases hexpand'
      · next hexpand' =>
        rw [hexpand] at hexpand'
        obtain ⟨rfl, rfl⟩ := Prod.mk.inj (Except.ok.inj hexpand')
        rw [Bool.and_eq_true] at hbad
        exact ih (hround _ _ _ _ _ hstart hbad hexpand) h

/-! ### What is found -/

theorem isRun_of_round (hqueue : ∀ w ∈ v :: queue, w.IsRun a inv pid)
    (h : expand inv limit v seen [] (a.transitions v.node.state) = .ok (seen', found)) :
    ∀ w ∈ queue ++ found, w.IsRun a inv pid := by
  intro w hw
  obtain ⟨_, rfl, -, hnew, -⟩ := expand_eq_ok h
  rcases List.mem_append.1 hw with hw | hw
  · exact hqueue w (List.mem_cons_of_mem _ hw)
  · obtain ⟨x, hx, rfl⟩ := hnew w hw
    exact (hqueue v List.mem_cons_self).extend hx

theorem isRun_of_searchFrom (hqueue : ∀ v ∈ queue, v.IsRun a inv pid)
    (h : searchFrom a inv limit seen queue = .ok (some w)) :
    w.IsRun a inv pid ∧ w.node.IsViolation a inv := by
  obtain ⟨hnone, -⟩ | ⟨v, _, _, hv, hP, hbad⟩ | ⟨_, _, _, _, herror, -⟩ :=
    searchFrom_induction (P := fun _ queue => ∀ v ∈ queue, v.IsRun a inv pid)
      (fun _ _ _ _ _ hP _ hexpand => isRun_of_round hP hexpand) hqueue h
  · cases hnone
  · obtain rfl := Option.some.inj (Except.ok.inj hv)
    exact ⟨hP w List.mem_cons_self, hbad⟩
  · cases herror

/-! ### What is not found -/

/-- The node is no violation, and every step leads to a node that has been
seen, or to one that cannot fail any more. -/
structure SearchNode.IsSettled (a : Automaton) (inv : Invariant) (seen : List SearchNode)
    (n : SearchNode) : Prop where
  not_violation : ¬ n.IsViolation a inv
  step : ∀ {e t}, a.Step n.state e t →
    (n.phase.next inv e).validity inv = .permSuccess ∨ ⟨t, n.phase.next inv e⟩ ∈ seen

theorem SearchNode.IsSettled.mono {n : SearchNode} (h : n.IsSettled a inv seen)
    (hsub : seen ⊆ seen') : n.IsSettled a inv seen' :=
  ⟨h.not_violation, fun hstep => (h.step hstep).imp_right fun hmem => hsub hmem⟩

/-- What has been seen waits in the queue, or is settled. -/
def WaitsOrSettled (a : Automaton) (inv : Invariant) (seen : List SearchNode)
    (queue : List Visit) : Prop :=
  ∀ n ∈ seen, n ∈ queue.map (·.node) ∨ n.IsSettled a inv seen

/-- A round settles the node at the head of the queue. -/
theorem WaitsOrSettled.round (hseen : WaitsOrSettled a inv seen (v :: queue))
    (hgood : ¬ v.node.IsViolation a inv)
    (h : expand inv limit v seen [] (a.transitions v.node.state) = .ok (seen', found)) :
    WaitsOrSettled a inv seen' (queue ++ found) := by
  obtain ⟨_, rfl, rfl, -, hall⟩ := expand_eq_ok h
  intro n hn
  rw [List.map_append, List.mem_append]
  rcases List.mem_append.1 hn with hn | hn
  · exact .inl (.inr (List.mem_reverse.1 hn))
  · rcases hseen n hn with hwait | hsettled
    · rcases List.mem_cons.1 hwait with rfl | hwait
      · -- The node of this round: all its steps have just been looked at.
        exact .inr ⟨hgood, fun {e t} hstep => hall (e, t) hstep⟩
      · exact .inl (.inl hwait)
    · exact .inr (hsettled.mono (List.subset_append_right _ _))

/-- If the search finds nothing, it has settled all that it has seen. -/
theorem settled_of_searchFrom (hqueue : ∀ n ∈ seen, n ∈ queue.map (·.node))
    (h : searchFrom a inv limit seen queue = .ok none) :
    ∃ seen', seen ⊆ seen' ∧ WaitsOrSettled a inv seen' [] := by
  have key := searchFrom_induction
    (P := fun seen' queue => seen ⊆ seen' ∧ WaitsOrSettled a inv seen' queue)
    (fun seen₁ v queue seen₂ found hP hgood hexpand => ?_)
    ⟨List.Subset.refl _, fun n hn => .inl (hqueue n hn)⟩ h
  · obtain ⟨-, hseen'⟩ | ⟨_, _, _, hnone, -⟩ | ⟨_, _, _, _, herror, -⟩ := key
    · exact hseen'
    · cases hnone
    · cases herror
  · refine ⟨?_, hP.2.round hgood hexpand⟩
    obtain ⟨_, -, rfl, -, -⟩ := expand_eq_ok hexpand
    exact List.Subset.trans hP.1 (List.subset_append_right _ _)

/-- The automaton can do the events from the node, and gets to a violation. -/
def SearchNode.LeadsToViolation (a : Automaton) (inv : Invariant) (n : SearchNode)
    (es : List Event) : Prop :=
  ∃ t, a.Run n.state es t ∧ SearchNode.IsViolation a inv ⟨t, n.phase.feed inv es⟩

theorem SearchNode.LeadsToViolation.cases {n : SearchNode} {es : List Event}
    (h : n.LeadsToViolation a inv es) :
    (es = [] ∧ n.IsViolation a inv) ∨
      ∃ e rest t, es = e :: rest ∧ a.Step n.state e t ∧
        SearchNode.LeadsToViolation a inv ⟨t, n.phase.next inv e⟩ rest := by
  obtain ⟨t, hrun, hbad⟩ := h
  cases hrun with
  | stay => exact .inl ⟨rfl, hbad⟩
  | step hstep hrest => exact .inr ⟨_, _, _, rfl, hstep, t, hrest, hbad⟩

/-- A monitor that is satisfied for good stands in the way of a violation. -/
theorem SearchNode.LeadsToViolation.not_permSuccess {n : SearchNode} {es : List Event}
    (h : n.LeadsToViolation a inv.untimed es) :
    n.phase.validity inv.untimed ≠ .permSuccess := by
  obtain ⟨t, -, -, hfail⟩ := h
  intro hperm
  rw [Phase.feed_of_permSuccess hperm, hperm] at hfail
  cases hfail

/-- On the way from a node that has been seen to a violation there is a node
that waits. -/
theorem exists_waiting (hseen : WaitsOrSettled a inv.untimed seen queue) {n : SearchNode}
    {es : List Event} (hn : n ∈ seen) (h : n.LeadsToViolation a inv.untimed es) :
    ∃ w ∈ queue, ∃ rest, rest <:+ es ∧ w.node.LeadsToViolation a inv.untimed rest := by
  induction es generalizing n with
  | nil =>
      rcases hseen n hn with hwait | hsettled
      · obtain ⟨w, hw, rfl⟩ := List.mem_map.1 hwait
        exact ⟨w, hw, [], List.suffix_refl _, h⟩
      · obtain ⟨-, hbad⟩ | ⟨_, _, _, heq, -⟩ := h.cases
        · exact absurd hbad hsettled.not_violation
        · cases heq
  | cons e es ih =>
      rcases hseen n hn with hwait | hsettled
      · obtain ⟨w, hw, rfl⟩ := List.mem_map.1 hwait
        exact ⟨w, hw, e :: es, List.suffix_refl _, h⟩
      · obtain ⟨heq, -⟩ | ⟨_, _, t, heq, hstep, hrest⟩ := h.cases
        · cases heq
        · obtain ⟨rfl, rfl⟩ := List.cons.inj heq
          have hnext := (hsettled.step hstep).resolve_left hrest.not_permSuccess
          obtain ⟨w, hw, rest, hsuffix, hleads⟩ := ih hnext hrest
          exact ⟨w, hw, rest, hsuffix.trans (List.suffix_cons e es), hleads⟩

/-! ### How far it goes -/

/-- The automaton and the monitor get to the node side by side. -/
def SearchNode.IsReachable (a : Automaton) (inv : Invariant) (n : SearchNode) : Prop :=
  ∃ s es, a.isInitial s = true ∧ a.Run s es n.state ∧ Phase.feed inv .idle es = n.phase

/-- There are more reachable nodes than the limit allows. -/
def Automaton.Exceeds (a : Automaton) (inv : Invariant) (limit : Nat) : Prop :=
  ∃ nodes : List SearchNode, nodes.Nodup ∧ limit < nodes.length ∧
    ∀ n ∈ nodes, n.IsReachable a inv

theorem Visit.IsRun.isReachable (h : v.IsRun a inv pid) : v.node.IsReachable a inv :=
  ⟨v.start, _, h.isInitial, h.last_eq ▸ ProcessRun.run_of_isIn h.isIn, h.phase_eq⟩

theorem nodup_of_expand {ts : List (Event × StateId)} (hnodup : seen.Nodup)
    (h : expand inv limit v seen found ts = .ok (seen', found')) : seen'.Nodup := by
  induction ts generalizing seen found with
  | nil =>
      obtain ⟨rfl, -⟩ := Prod.mk.inj (Except.ok.inj h)
      exact hnodup
  | cons x ts ih =>
      rw [expand] at h
      split at h
      · exact ih hnodup h
      · split at h
        · exact ih hnodup h
        · next hnew =>
          rw [check_eq_ok] at h
          exact ih (List.nodup_cons.2 ⟨hnew, hnodup⟩) h.2

theorem expand_eq_error {ts : List (Event × StateId)} {e : SearchError} (hnodup : seen.Nodup)
    (h : expand inv limit v seen found ts = .error e) :
    e = .exhausted limit ∧ ∃ nodes : List SearchNode, nodes.Nodup ∧ limit < nodes.length ∧
      ∀ n ∈ nodes, n ∈ seen ∨ ∃ x ∈ ts, n = (v.extend inv x.1 x.2).node := by
  induction ts generalizing seen found with
  | nil => cases h
  | cons x ts ih =>
      have hlater {n : SearchNode} (hn : ∃ x ∈ ts, n = (v.extend inv x.1 x.2).node) :
          ∃ y ∈ x :: ts, n = (v.extend inv y.1 y.2).node := by
        obtain ⟨y, hy, rfl⟩ := hn
        exact ⟨y, List.mem_cons_of_mem _ hy, rfl⟩
      rw [expand] at h
      split at h
      · obtain ⟨he, nodes, hnodes, hlt, hall⟩ := ih hnodup h
        exact ⟨he, nodes, hnodes, hlt, fun n hn => (hall n hn).imp_right hlater⟩
      · split at h
        · obtain ⟨he, nodes, hnodes, hlt, hall⟩ := ih hnodup h
          exact ⟨he, nodes, hnodes, hlt, fun n hn => (hall n hn).imp_right hlater⟩
        · next hnew =>
          have hnext : ∃ y ∈ x :: ts, (v.extend inv x.1 x.2).node = (v.extend inv y.1 y.2).node :=
            ⟨x, List.mem_cons_self, rfl⟩
          have hnodup' := List.nodup_cons.2 ⟨hnew, hnodup⟩
          split at h
          · next hfull =>
            refine ⟨(Except.error.inj h).symm, _, hnodup', Nat.lt_succ_of_le hfull, ?_⟩
            exact List.forall_mem_cons.2 ⟨.inr hnext, fun n hn => .inl hn⟩
          · obtain ⟨he, nodes, hnodes, hlt, hall⟩ := ih hnodup' h
            refine ⟨he, nodes, hnodes, hlt, fun n hn => ?_⟩
            rcases hall n hn with hmem | hlast
            · rcases List.mem_cons.1 hmem with rfl | hmem
              · exact .inr hnext
              · exact .inl hmem
            · exact .inr (hlater hlast)

theorem isReachable_of_round (hseen : ∀ n ∈ seen, n.IsReachable a inv)
    (hqueue : ∀ w ∈ v :: queue, w.IsRun a inv pid)
    (h : expand inv limit v seen [] (a.transitions v.node.state) = .ok (seen', found)) :
    ∀ n ∈ seen', n.IsReachable a inv := by
  intro n hn
  have hruns := isRun_of_round hqueue h
  obtain ⟨_, rfl, rfl, -, -⟩ := expand_eq_ok h
  rcases List.mem_append.1 hn with hn | hn
  · obtain ⟨w, hw, rfl⟩ := List.mem_map.1 (List.mem_reverse.1 hn)
    exact (hruns w (List.mem_append_right _ hw)).isReachable
  · exact hseen n hn

/-- The search fails only if there is more to be seen than the limit
allows. -/
theorem searchFrom_eq_error {e : SearchError} (hnodup : seen.Nodup)
    (hseen : ∀ n ∈ seen, n.IsReachable a inv) (hqueue : ∀ v ∈ queue, v.IsRun a inv pid)
    (h : searchFrom a inv limit seen queue = .error e) :
    e = .exhausted limit ∧ a.Exceeds inv limit := by
  have key := searchFrom_induction
    (P := fun seen queue => seen.Nodup ∧ (∀ n ∈ seen, n.IsReachable a inv) ∧
      ∀ v ∈ queue, v.IsRun a inv pid)
    (fun seen v queue seen' found hP _ hexpand => ?_) ⟨hnodup, hseen, hqueue⟩ h
  · obtain ⟨hok, -⟩ | ⟨_, _, _, hok, -⟩ | ⟨_, v, seen', queue', he, hP, hexpand⟩ := key
    · cases hok
    · cases hok
    · obtain ⟨hnodup, hseen, hqueue⟩ := hP
      obtain ⟨rfl, nodes, hnodes, hlt, hall⟩ := expand_eq_error hnodup hexpand
      refine ⟨Except.error.inj he, nodes, hnodes, hlt, fun n hn => ?_⟩
      rcases hall n hn with hmem | ⟨x, hx, rfl⟩
      · exact hseen n hmem
      · exact ((hqueue v List.mem_cons_self).extend hx).isReachable
  · obtain ⟨hnodup, hseen, hqueue⟩ := hP
    exact ⟨nodup_of_expand hnodup hexpand, isReachable_of_round hseen hqueue hexpand,
      isRun_of_round hqueue hexpand⟩

/-- The nodes on the states of the automaton, one for each phase to which the
monitor gets. -/
def nodesOf (a : Automaton) (inv : Invariant) : List SearchNode :=
  (List.range a.size).flatMap fun s => inv.relation.phases.map (⟨s, ·⟩)

theorem SearchNode.IsReachable.mem_nodesOf {n : SearchNode} (hclosed : a.IsClosed)
    (h : n.IsReachable a inv) : n ∈ nodesOf a inv := by
  obtain ⟨s, es, hs, hrun, hphase⟩ := h
  have hlt := hclosed.run_lt (Automaton.isInitial_lt hs) hrun
  refine List.mem_flatMap.2 ⟨n.state, List.mem_range.2 hlt, List.mem_map.2 ⟨n.phase, ?_, rfl⟩⟩
  exact hphase ▸ Phase.feed_mem_phases inv.relation.idle_mem_phases es

theorem Automaton.IsClosed.lt_of_exceeds (hclosed : a.IsClosed) (h : a.Exceeds inv limit) :
    limit < 3 * a.size := by
  obtain ⟨nodes, hnodup, hlt, hall⟩ := h
  have hsub : nodes ⊆ nodesOf a inv := fun n hn => (hall n hn).mem_nodesOf hclosed
  calc limit
      < nodes.length := hlt
    _ ≤ (nodesOf a inv).length := (hnodup.subperm hsub).length_le
    _ = inv.relation.phases.length * a.size := by
        simp [nodesOf, List.length_flatMap, Nat.mul_comm]
    _ ≤ 3 * a.size := Nat.mul_le_mul_right _ inv.relation.length_phases_le

/-! ### The search in a model -/

namespace Model

variable {m : Model}

theorem isRun_of_mem_initial (hv : v ∈ a.initialStates.map Visit.ofInitial) :
    v.IsRun a inv pid := by
  obtain ⟨s, hs, rfl⟩ := List.mem_map.1 hv
  exact Visit.isRun_ofInitial (Automaton.mem_initialStates.1 hs)

theorem search_eq_ok {result : Option ProcessRun} (h : m.search limit inv = .ok result) :
    inv.isWithinProcess = true ∧ ∃ b, m.system.automaton? inv.pid = some b ∧
      ∃ found, searchFrom b inv.untimed limit
          ((b.initialStates.map Visit.ofInitial).map (·.node))
          (b.initialStates.map Visit.ofInitial) = .ok found ∧
        result = found.map (·.run inv.pid) := by
  rw [search, check_eq_ok] at h
  obtain ⟨hwithin, h⟩ := h
  split at h
  · cases h
  · next b hb =>
    obtain ⟨found, hfound, hok⟩ := bind_eq_ok.1 h
    exact ⟨by simpa using hwithin, b, hb, found, hfound, (pure_eq_ok.1 hok).symm⟩

/-- What the search returns is an accepted run that violates the invariant. -/
theorem search_eq_some {run : ProcessRun} (h : m.search limit inv = .ok (some run)) :
    ∃ b, m.system.automaton? inv.pid = some b ∧ run.pid = inv.pid ∧
      b.isInitial run.start = true ∧ run.isIn b = true ∧ b.isAccepting run.last = true ∧
      inv.FailsOn run.events := by
  obtain ⟨-, b, hb, found, hfound, hrun⟩ := search_eq_ok h
  obtain ⟨v, rfl, rfl⟩ := Option.map_eq_some_iff.1 hrun.symm
  obtain ⟨hv, haccepting, hfails⟩ :=
    isRun_of_searchFrom (fun _ hv => isRun_of_mem_initial hv) hfound
  refine ⟨b, hb, rfl, hv.isInitial, hv.isIn, ?_, ?_⟩
  · rw [hv.last_eq]
    exact haccepting
  · rw [Invariant.FailsOn, hv.phase_eq]
    exact hfails

/-- If the search returns nothing, no accepted word violates the
invariant. -/
theorem search_eq_none (h : m.search limit inv = .ok none) :
    ∃ b, m.system.automaton? inv.pid = some b ∧ ∀ es, b.Accepts es → ¬ inv.FailsOn es := by
  obtain ⟨-, b, hb, found, hfound, hrun⟩ := search_eq_ok h
  obtain rfl := Option.map_eq_none_iff.1 hrun.symm
  obtain ⟨seen, hsub, hsettled⟩ := settled_of_searchFrom (fun n hn => hn) hfound
  refine ⟨b, hb, ?_⟩
  rintro es ⟨s, t, hs, hrun, ht⟩ hfails
  have hseen : ⟨s, .idle⟩ ∈ seen := by
    refine hsub (List.mem_map.2 ⟨Visit.ofInitial s, ?_, rfl⟩)
    exact List.mem_map_of_mem (Automaton.mem_initialStates.2 hs)
  obtain ⟨w, hw, -⟩ := exists_waiting hsettled hseen ⟨t, hrun, ht, hfails⟩
  cases hw

theorem search_isSome_iff {found : Option ProcessRun} (h : m.search limit inv = .ok found)
    (ha : m.system.automaton? inv.pid = some a) :
    found.isSome = true ↔ ∃ es, a.Accepts es ∧ inv.FailsOn es := by
  cases found with
  | none =>
      obtain ⟨b, hb, hnone⟩ := search_eq_none h
      obtain rfl := Option.some.inj (ha.symm.trans hb)
      refine ⟨fun hsome => absurd hsome Bool.false_ne_true, ?_⟩
      rintro ⟨es, haccepts, hfails⟩
      exact absurd hfails (hnone es haccepts)
  | some run =>
      obtain ⟨b, hb, -, hinitial, hin, haccepting, hfails⟩ := search_eq_some h
      obtain rfl := Option.some.inj (ha.symm.trans hb)
      exact ⟨fun _ => ⟨run.events, ⟨run.start, run.last, hinitial, ProcessRun.run_of_isIn hin,
        haccepting⟩, hfails⟩, fun _ => rfl⟩

/-- A search in a process of the model fails only if more nodes can be
reached than the limit allows. -/
theorem search_eq_error {e : SearchError} (hwithin : inv.isWithinProcess = true)
    (ha : m.system.automaton? inv.pid = some a) (h : m.search limit inv = .error e) :
    e = .exhausted limit ∧ a.Exceeds inv.untimed limit := by
  rw [search, hwithin, ha] at h
  dsimp only at h
  have hruns : ∀ v ∈ a.initialStates.map Visit.ofInitial, v.IsRun a inv.untimed inv.pid :=
    fun _ hv => isRun_of_mem_initial hv
  have hnodup : ((a.initialStates.map Visit.ofInitial).map (·.node)).Nodup := by
    rw [List.map_map]
    refine List.Nodup.map (fun s t heq => ?_) (List.nodup_range.filter _)
    exact congrArg SearchNode.state heq
  have hseen : ∀ n ∈ (a.initialStates.map Visit.ofInitial).map (·.node),
      n.IsReachable a inv.untimed := by
    intro n hn
    obtain ⟨v, hv, rfl⟩ := List.mem_map.1 hn
    exact (hruns v hv).isReachable
  cases hfound : searchFrom a inv.untimed limit
      ((a.initialStates.map Visit.ofInitial).map (·.node))
      (a.initialStates.map Visit.ofInitial) with
  | error e' =>
      obtain ⟨rfl, hexceeds⟩ := searchFrom_eq_error hnodup hseen hruns hfound
      rw [hfound] at h
      exact ⟨(Except.error.inj h).symm, hexceeds⟩
  | ok found =>
      rw [hfound] at h
      cases h

theorem exists_search (hwithin : inv.isWithinProcess = true)
    (ha : m.system.automaton? inv.pid = some a) (hclosed : a.IsClosed)
    (hlimit : 3 * a.size ≤ limit) : ∃ found, m.search limit inv = .ok found := by
  cases hsearch : m.search limit inv with
  | error e =>
      have hlt := hclosed.lt_of_exceeds (search_eq_error hwithin ha hsearch).2
      exact absurd hlt (Nat.not_lt.2 hlimit)
  | ok found => exact ⟨found, rfl⟩

end Model

end ProtocolInference
