import ProtocolInference.Proofs.Automaton.Rewriting

/-!
Which events tracing finds.

The search meets the states that the automaton can get to and no others, so
an event is found if and only if it occurs in one of them. Only then is there
anything to rewrite: an event that does not occur is traced without a change
(`size_lt_iff_of_trace`). The sends that tracing inserts do not matter for
this, for they lead home sooner or later, and an unfolded automaton has the
same occurring events as the one that it unfolds.
-/

namespace ProtocolInference.Automaton

variable {a b : Automaton} {e f record : Event} {s t x y : StateId} {es : List Event}
variable {visited stack states : List StateId}

theorem IsReachable.step (h : a.IsReachable s) (hstep : a.Step s e t) : a.IsReachable t := by
  obtain ⟨start, es, hstart, hrun⟩ := h
  exact ⟨start, es ++ [e], hstart, hrun.append (.step hstep (.stay t))⟩

/-! ### The search -/

/-- From states that can be got to, the search meets no others. -/
theorem isReachable_of_mem_explore (hvisited : ∀ x ∈ visited, a.IsReachable x)
    (hstack : ∀ x ∈ stack, a.IsReachable x) (h : a.explore visited stack = .ok states) :
    ∀ x ∈ states, a.IsReachable x := by
  induction visited, stack using explore.induct a with
  | case1 visited =>
      rw [explore] at h
      obtain rfl := Except.ok.inj h
      exact hvisited
  | case2 visited s stack hmem ih =>
      rw [explore, dif_pos hmem] at h
      exact ih hvisited (List.forall_mem_cons.1 hstack).2 h
  | case3 visited s stack hmem hs _ successors ih =>
      rw [explore, dif_neg hmem, dif_pos hs] at h
      obtain ⟨hreach, hstack⟩ := List.forall_mem_cons.1 hstack
      refine ih ?_ ?_ h
      · exact List.forall_mem_append.2 ⟨hvisited, List.forall_mem_singleton.2 hreach⟩
      · refine List.forall_mem_append.2 ⟨fun x hx => ?_, hstack⟩
        have hx := (List.mem_filter.1 (List.mem_reverse.1 hx)).1
        obtain ⟨⟨f, y⟩, hstep, rfl⟩ := List.mem_map.1 hx
        exact hreach.step hstep
  | case4 visited s stack hmem hs =>
      rw [explore, dif_neg hmem, dif_neg hs] at h
      cases h

theorem isReachable_of_mem_reachable (h : a.reachable = .ok states) :
    ∀ x ∈ states, a.IsReachable x := by
  refine isReachable_of_mem_explore (List.forall_mem_nil _) (fun x hx => ?_) h
  exact ⟨x, [], mem_initialStates.1 (List.mem_reverse.1 hx), .stay x⟩

theorem Explored.mem_of_run (h : a.Explored states) (hs : s ∈ states) (hrun : a.Run s es t) :
    t ∈ states := by
  induction hrun with
  | stay => exact hs
  | step hstep _ ih => exact ih (h.step _ hs _ _ hstep)

theorem Explored.mem_of_isReachable (h : a.Explored states) (hs : a.IsReachable s) :
    s ∈ states := by
  obtain ⟨start, es, hstart, hrun⟩ := hs
  exact h.mem_of_run (h.initial start hstart) hrun

theorem size_lt_iff_of_trace (h : a.trace e record = .ok b) : a.size < b.size ↔ a.Occurs e := by
  obtain ⟨states, hstates, hok⟩ := bind_eq_ok.1 h
  obtain rfl := pure_eq_ok.1 hok
  have hexplored := explored_of_reachable hstates
  rw [size_foldl_detour, Nat.lt_add_right_iff_pos, List.length_pos_iff_exists_mem]
  constructor
  · rintro ⟨⟨s, t⟩, hmem⟩
    obtain ⟨hs, hstep⟩ := mem_occurrences.1 hmem
    exact ⟨s, t, isReachable_of_mem_reachable hstates s hs, hstep⟩
  · rintro ⟨s, t, hs, hstep⟩
    exact ⟨(s, t), mem_occurrences.2 ⟨hexplored.mem_of_isReachable hs, hstep⟩⟩

/-! ### Unfolded automata -/

theorem Unfolds.occurs_iff {home : StateId → StateId} {tracer : Event → Bool}
    (h : Unfolds tracer a b home) (he : tracer e = false) : b.Occurs e ↔ a.Occurs e := by
  constructor
  · rintro ⟨x, y, ⟨start, es, hstart, hrun⟩, hstep⟩
    obtain ⟨hx, hxy⟩ := h.step_event hstep he
    have hproject := h.project hrun
    rw [h.isInitial_eq] at hstart
    rw [h.home_of_lt start (isInitial_lt hstart), h.home_of_lt x hx] at hproject
    exact ⟨x, home y, ⟨start, _, hstart, hproject⟩, hxy⟩
  · rintro ⟨s, t, ⟨start, es, hstart, hrun⟩, hstep⟩
    obtain ⟨es', hrun', -⟩ := h.lift_run hrun
    obtain ⟨y, hy, -⟩ := h.lift hstep
    exact ⟨s, y, ⟨start, es', (h.isInitial_eq start).trans hstart, hrun'⟩, hy⟩

end ProtocolInference.Automaton
