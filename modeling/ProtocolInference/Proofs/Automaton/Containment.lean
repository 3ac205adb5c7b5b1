import ProtocolInference.Proofs.Automaton.Occurrence
import ProtocolInference.System.Rows

/-!
Whether tracing finds the rows that it asks for.

Nothing keeps a transition from leading to a number that is no state of its
automaton. As long as the automaton cannot get there this does no harm, since
tracing asks for no row but those of states to which the automaton can get, and
of the states that it adds. Such an automaton is *contained*. The search for the
reachable states succeeds exactly in a contained automaton
(`exists_reachable_iff`), and otherwise ends at a state to which the automaton can
get and which is not there. A search that has succeeded has asked for every row
that is needed later (`runOn_trace_of_ok`), and what tracing makes of the
automaton is contained again.
-/

namespace ProtocolInference.Automaton

variable {a b : Automaton} {e f record : Event} {s t x y : StateId}
variable {visited stack states : List StateId} {ends : List (StateId × StateId)}

/-- The automaton can get to states of its own only. -/
def IsContained (a : Automaton) : Prop := ∀ s, a.IsReachable s → s < a.size

theorem IsClosed.isContained (h : a.IsClosed) : a.IsContained := by
  rintro s ⟨start, es, hstart, hrun⟩
  exact h.run_lt (isInitial_lt hstart) hrun

/-! ### The search -/

theorem explore_eq_error (hstack : ∀ x ∈ stack, a.IsReachable x)
    (h : a.explore visited stack = .error s) : a.IsReachable s ∧ a.size ≤ s := by
  induction visited, stack using explore.induct a with
  | case1 visited =>
      rw [explore] at h
      cases h
  | case2 visited x stack hmem ih =>
      rw [explore, dif_pos hmem] at h
      exact ih (List.forall_mem_cons.1 hstack).2 h
  | case3 visited x stack hmem hx _ successors ih =>
      rw [explore, dif_neg hmem, dif_pos hx] at h
      obtain ⟨hreach, hstack⟩ := List.forall_mem_cons.1 hstack
      refine ih (List.forall_mem_append.2 ⟨fun y hy => ?_, hstack⟩) h
      have hy := (List.mem_filter.1 (List.mem_reverse.1 hy)).1
      obtain ⟨⟨f, z⟩, hstep, rfl⟩ := List.mem_map.1 hy
      exact hreach.step hstep
  | case4 visited x stack hmem hx =>
      rw [explore, dif_neg hmem, dif_neg hx] at h
      obtain rfl := Except.error.inj h
      exact ⟨hstack x List.mem_cons_self, Nat.not_lt.1 hx⟩

theorem reachable_eq_error (h : a.reachable = .error s) : a.IsReachable s ∧ a.size ≤ s := by
  refine explore_eq_error (fun x hx => ?_) h
  exact ⟨x, [], mem_initialStates.1 (List.mem_reverse.1 hx), .stay x⟩

theorem mem_reachable_iff (h : a.reachable = .ok states) : s ∈ states ↔ a.IsReachable s :=
  ⟨isReachable_of_mem_reachable h s, (explored_of_reachable h).mem_of_isReachable⟩

/-- The search succeeds in contained automata and in no others. -/
theorem exists_reachable_iff : (∃ states, a.reachable = .ok states) ↔ a.IsContained := by
  constructor
  · rintro ⟨states, h⟩ s hs
    exact (explored_of_reachable h).lt_size s ((mem_reachable_iff h).2 hs)
  · intro hcontained
    cases h : a.reachable with
    | ok states => exact ⟨states, rfl⟩
    | error s =>
        obtain ⟨hreach, hge⟩ := reachable_eq_error h
        exact absurd (hcontained s hreach) (Nat.not_lt.2 hge)

/-! ### Tracing -/

theorem exists_trace_iff : (∃ b, a.trace e record = .ok b) ↔ a.IsContained := by
  rw [← exists_reachable_iff]
  constructor
  · rintro ⟨b, h⟩
    obtain ⟨states, hstates, -⟩ := bind_eq_ok.1 h
    exact ⟨states, hstates⟩
  · rintro ⟨states, hstates⟩
    exact ⟨_, bind_eq_ok.2 ⟨states, hstates, rfl⟩⟩

theorem trace_eq_error (h : a.trace e record = .error s) : a.IsReachable s ∧ a.size ≤ s := by
  rcases bind_eq_error.1 h with h | ⟨states, -, h⟩
  · exact reachable_eq_error h
  · exact absurd h pure_ne_error

/-- The steps out of visited states and out of new ones lead to such states again. -/
theorem isContained_of_trace (h : a.trace e record = .ok b) : b.IsContained := by
  obtain ⟨states, hexplored, hsize, hinitial, -, hiff⟩ := trace_eq_ok h
  have hnew {i : Nat} {s t : StateId} (hi : (a.occurrences e states)[i]? = some (s, t)) :
      a.size + i < b.size ∧ s ∈ states ∧ t ∈ states := by
    obtain ⟨hs, hstep⟩ := mem_occurrences.1 (List.mem_of_getElem? hi)
    have hlt := (List.getElem?_eq_some_iff.1 hi).1
    exact ⟨by omega, hs, hexplored.step s hs e t hstep⟩
  have hrun {x y : StateId} {es : List Event} (hrun : b.Run x es y)
      (hx : x ∈ states ∨ a.size ≤ x ∧ x < b.size) : y ∈ states ∨ a.size ≤ y ∧ y < b.size := by
    induction hrun with
    | stay => exact hx
    | @step x y z f es hstep _ ih =>
        refine ih ?_
        rcases (hiff x f y).1 hstep with ⟨hold, -⟩ | ⟨i, s, t, hi, ⟨-, -, rfl⟩ | ⟨-, -, rfl⟩⟩
        · refine .inl (hexplored.step x (hx.resolve_right fun hge => ?_) f y hold)
          exact absurd hold.lt_size (Nat.not_lt.2 hge.1)
        · exact .inr ⟨Nat.le_add_right _ _, (hnew hi).1⟩
        · exact .inl (hnew hi).2.2
  rintro s ⟨start, es, hstart, hs⟩
  rw [hinitial] at hstart
  rcases hrun hs (.inl (hexplored.initial start hstart)) with hold | ⟨-, hlt⟩
  · exact Nat.lt_of_lt_of_le (hexplored.lt_size s hold) (hsize ▸ Nat.le_add_right _ _)
  · exact hlt

/-! ### Row by row -/

namespace InPlace

theorem runOn_get (a : Automaton) : (get : InPlace Automaton).runOn a = (.ok a, a) := rfl

theorem runOn_needRow (hs : s < a.size) : (needRow s).runOn a = (.ok (), a) := by
  show ((if s < a.size then pure () else throw s : InPlace Unit).runOn a) = _
  rw [if_pos hs]
  rfl

theorem runOn_addTransition (hs : s < a.size) :
    (addTransition s e t).runOn a = (.ok (), a.addTransition s e t) :=
  run_bind_of_ok (runOn_needRow hs) _

theorem runOn_removeTransition (hs : s < a.size) :
    (removeTransition s e t).runOn a = (.ok (), a.removeTransition s e t) :=
  run_bind_of_ok (runOn_needRow hs) _

theorem runOn_addState (initial accepting : Bool) :
    (addState initial accepting).runOn a = (.ok a.size, a.addState initial accepting) := rfl

/-- A detour needs no row but that of the state from which it sets out. -/
theorem runOn_detour (hs : s < a.size) :
    (detour e record (s, t)).runOn a = (.ok (), a.detour e record (s, t)) := by
  have hsize : (a.removeTransition s e t).size = a.size := size_removeTransition
  refine (run_bind_of_ok (runOn_removeTransition hs) _).trans ?_
  refine (run_bind_of_ok (runOn_addState false false) _).trans ?_
  refine (run_bind_of_ok (runOn_addTransition ?_) _).trans ?_
  · rw [size_addState, hsize]
    exact Nat.lt_succ_of_lt hs
  · refine (runOn_addTransition ?_).trans ?_
    · rw [size_addTransition, size_addState]
      exact Nat.lt_succ_self _
    · rw [hsize]
      rfl

theorem runOn_forM_detour (hends : ∀ p ∈ ends, p.1 < a.size) :
    (ends.forM (detour e record)).runOn a =
      (.ok (), ends.foldl (Automaton.detour · e record) a) := by
  induction ends generalizing a with
  | nil => rfl
  | cons p ends ih =>
      obtain ⟨s, t⟩ := p
      obtain ⟨hs, hends⟩ := List.forall_mem_cons.1 hends
      refine (run_bind_of_ok (runOn_detour hs) _).trans (ih fun q hq => ?_)
      rw [size_detour]
      exact Nat.lt_succ_of_lt (hends q hq)

/-- Tracing finds all rows, if the search for the reachable states has found its. -/
theorem runOn_trace_of_ok (h : a.reachable = .ok states) :
    (trace e record).runOn a = (.ok (a.occurrences e states).length,
      (a.occurrences e states).foldl (Automaton.detour · e record) a) := by
  have hends : ∀ p ∈ a.occurrences e states, p.1 < a.size := fun p hp =>
    (explored_of_reachable h).lt_size p.1 (mem_occurrences.1 hp).1
  refine (run_bind_of_ok (runOn_get a) _).trans ?_
  rw [h]
  exact run_bind_of_ok (runOn_forM_detour hends) _

theorem runOn_trace_of_error (h : a.reachable = .error s) :
    (trace e record).runOn a = (.error s, a) := by
  refine (run_bind_of_ok (runOn_get a) _).trans ?_
  rw [h]
  rfl

end InPlace

end ProtocolInference.Automaton
