import Mathlib.Data.List.Induction
import ProtocolInference.Proofs.Automaton.Tracing

/-!
What tracing an event does to the steps of an automaton.

The depth-first search ends with a set of states that contains the initial
ones and that no step leads out of (`Automaton.Explored`). The steps on the
event that set out from these states are the occurrences, and tracing
leads each of them through a state of its own. Since none of the new
states is the end of an occurrence, the detours do not get in each other's
way: the steps afterwards can be described at once for all of them
(`step_foldl_detour`).
-/

namespace ProtocolInference

namespace Automaton

variable {a b : Automaton} {e f record : Event} {s t x y : StateId}
variable {visited stack states : List StateId} {ends : List (StateId × StateId)}

/-! ### The search -/

/-- The states are closed under the steps of the automaton, and the initial
states are among them. -/
structure Explored (a : Automaton) (states : List StateId) : Prop where
  nodup : states.Nodup
  lt_size : ∀ s ∈ states, s < a.size
  initial : ∀ s, a.isInitial s = true → s ∈ states
  step : ∀ s ∈ states, ∀ e t, a.Step s e t → t ∈ states

/-- The search keeps what it has visited, gets to all that is on the stack,
and leaves no way out. -/
theorem explore_eq_ok (hlt : ∀ s ∈ visited, s < a.size)
    (hclosed : ∀ s ∈ visited, ∀ e t, a.Step s e t → t ∈ visited ∨ t ∈ stack)
    (h : a.explore visited stack = .ok states) :
    visited ⊆ states ∧ stack ⊆ states ∧ (∀ s ∈ states, s < a.size) ∧
      ∀ s ∈ states, ∀ e t, a.Step s e t → t ∈ states := by
  induction visited, stack using explore.induct a with
  | case1 visited =>
      rw [explore] at h
      obtain rfl := Except.ok.inj h
      exact ⟨List.Subset.refl _, List.nil_subset _, hlt, fun s hs e t hst =>
        (hclosed s hs e t hst).resolve_right List.not_mem_nil⟩
  | case2 visited s stack hmem ih =>
      rw [explore, dif_pos hmem] at h
      obtain ⟨hvisited, hstack, hrest⟩ := ih hlt
        (fun x hx e t hst => by
          rcases hclosed x hx e t hst with ht | ht
          · exact .inl ht
          · rcases List.mem_cons.1 ht with rfl | ht
            · exact .inl hmem
            · exact .inr ht) h
      exact ⟨hvisited, List.cons_subset.2 ⟨hvisited hmem, hstack⟩, hrest⟩
  | case3 visited s stack hmem hs _ successors ih =>
      rw [explore, dif_neg hmem, dif_pos hs] at h
      obtain ⟨hvisited, hstack, hrest⟩ := ih
        (fun x hx => by
          rcases List.mem_append.1 hx with hx | hx
          · exact hlt x hx
          · exact List.mem_singleton.1 hx ▸ hs)
        (fun x hx e t hst => by
          rcases List.mem_append.1 hx with hx | hx
          · rcases hclosed x hx e t hst with ht | ht
            · exact .inl (List.mem_append_left _ ht)
            · rcases List.mem_cons.1 ht with rfl | ht
              · exact .inl (List.mem_append_right _ List.mem_cons_self)
              · exact .inr (List.mem_append_right _ ht)
          · obtain rfl := List.mem_singleton.1 hx
            by_cases ht : t ∈ visited ++ [x]
            · exact .inl ht
            · refine .inr (List.mem_append_left _ (List.mem_reverse.2 ?_))
              exact List.mem_filter.2 ⟨List.mem_map.2 ⟨(e, t), hst, rfl⟩, by simpa using ht⟩) h
      refine ⟨fun x hx => hvisited (List.mem_append_left _ hx), ?_, hrest⟩
      refine List.cons_subset.2 ⟨hvisited (List.mem_append_right _ List.mem_cons_self), ?_⟩
      exact fun x hx => hstack (List.mem_append_right _ hx)
  | case4 visited s stack hmem hs =>
      rw [explore, dif_neg hmem, dif_neg hs] at h
      cases h

theorem explored_of_reachable (h : a.reachable = .ok states) : a.Explored states := by
  obtain ⟨-, hstack, hlt, hstep⟩ := explore_eq_ok (fun s hs => absurd hs List.not_mem_nil)
    (fun s hs => absurd hs List.not_mem_nil) h
  refine ⟨nodup_explore List.nodup_nil h, hlt, fun s hs => hstack ?_, hstep⟩
  exact List.mem_reverse.2 (mem_initialStates.2 hs)

/-! ### Many detours -/

/-- What a detour does not change, many do not change. -/
theorem foldl_detour_eq {β : Type} (view : Automaton → β)
    (hview : ∀ a p, view (a.detour e record p) = view a) (ends : List (StateId × StateId)) :
    view (ends.foldl (detour · e record) b) = view b := by
  induction ends generalizing b with
  | nil => rfl
  | cons p ends ih => rw [List.foldl_cons, ih, hview]

theorem isInitial_foldl_detour :
    (ends.foldl (detour · e record) b).isInitial x = b.isInitial x :=
  foldl_detour_eq (·.isInitial x) (fun _ _ => isInitial_detour) ends

theorem isAccepting_foldl_detour :
    (ends.foldl (detour · e record) b).isAccepting x = b.isAccepting x :=
  foldl_detour_eq (·.isAccepting x) (fun _ _ => isAccepting_detour) ends

theorem size_foldl_detour :
    (ends.foldl (detour · e record) b).size = b.size + ends.length := by
  induction ends generalizing b with
  | nil => rfl
  | cons p ends ih =>
      obtain ⟨s, t⟩ := p
      rw [List.foldl_cons, ih, size_detour, List.length_cons]
      omega

/-- A step on one of the two halves of a detour: the one at position `i` of
the list leads through the state `n + i`. -/
def IsDetourStep (n : Nat) (e record : Event) (ends : List (StateId × StateId))
    (x : StateId) (f : Event) (y : StateId) : Prop :=
  ∃ i s t, ends[i]? = some (s, t) ∧
    (x = s ∧ f = e ∧ y = n + i ∨ x = n + i ∧ f = record ∧ y = t)

theorem isDetourStep_append {n : Nat} {ends' : List (StateId × StateId)} :
    IsDetourStep n e record (ends ++ ends') x f y ↔
      IsDetourStep n e record ends x f y ∨
        IsDetourStep (n + ends.length) e record ends' x f y := by
  constructor
  · rintro ⟨i, s, t, hi, h⟩
    rcases Nat.lt_or_ge i ends.length with hlt | hge
    · rw [List.getElem?_append_left hlt] at hi
      exact .inl ⟨i, s, t, hi, h⟩
    · rw [List.getElem?_append_right hge] at hi
      refine .inr ⟨i - ends.length, s, t, hi, ?_⟩
      rwa [Nat.add_assoc, Nat.add_sub_cancel' hge]
  · rintro (⟨i, s, t, hi, h⟩ | ⟨i, s, t, hi, h⟩)
    · have hlt : i < ends.length := (List.getElem?_eq_some_iff.1 hi).1
      exact ⟨i, s, t, by rwa [List.getElem?_append_left hlt], h⟩
    · refine ⟨ends.length + i, s, t, ?_, by rwa [← Nat.add_assoc]⟩
      rwa [List.getElem?_append_right (Nat.le_add_right _ _), Nat.add_sub_cancel_left]

/-- After detours through different transitions, the steps are those that
were there before, but for the transitions themselves, and the halves of
the detours. -/
theorem step_foldl_detour (hnodup : ends.Nodup)
    (hends : ∀ p ∈ ends, b.Step p.1 e p.2 ∧ p.2 < b.size) :
    (ends.foldl (detour · e record) b).Step x f y ↔
      (b.Step x f y ∧ ¬ (f = e ∧ (x, y) ∈ ends)) ∨ IsDetourStep b.size e record ends x f y := by
  induction ends using List.reverseRecOn generalizing x f y with
  | nil => simp [IsDetourStep]
  | append_singleton ends p ih =>
      obtain ⟨s, t⟩ := p
      obtain ⟨hnodup, -, hnew⟩ := List.nodup_append.1 hnodup
      have hnot : (s, t) ∉ ends := fun hmem => hnew _ hmem _ List.mem_cons_self rfl
      obtain ⟨hst, ht⟩ := hends (s, t) (List.mem_append_right _ List.mem_cons_self)
      have hs : s < b.size := hst.lt_size
      replace ih {x f y} := @ih x f y hnodup fun p hp => hends p (List.mem_append_left _ hp)
      have hsize := @size_foldl_detour b e record ends
      have hlast : IsDetourStep (b.size + ends.length) e record [(s, t)] x f y ↔
          (x = s ∧ f = e ∧ y = b.size + ends.length) ∨
            (x = b.size + ends.length ∧ f = record ∧ y = t) := by
        constructor
        · rintro ⟨i, s', t', hi, h⟩
          obtain ⟨rfl, rfl, rfl⟩ : i = 0 ∧ s = s' ∧ t = t' := by
            cases i <;> simp_all
          exact h
        · exact fun h => ⟨0, s, t, rfl, h⟩
      have hearlier : IsDetourStep b.size e record ends x f y → ¬ (x = s ∧ f = e ∧ y = t) := by
        rintro ⟨i, s', t', -, ⟨-, -, hy⟩ | ⟨hx, -, -⟩⟩ ⟨hxs, -, hyt⟩
        · exact absurd (hyt.symm.trans hy) (Nat.ne_of_lt (Nat.lt_add_right i ht))
        · exact absurd (hxs.symm.trans hx) (Nat.ne_of_lt (Nat.lt_add_right i hs))
      have hs' : s < (ends.foldl (detour · e record) b).size := by
        rw [hsize]
        exact Nat.lt_add_right _ hs
      rw [List.foldl_append, List.foldl_cons, List.foldl_nil, step_detour hs', ih, hsize,
        isDetourStep_append, hlast, List.mem_append, List.mem_singleton, Prod.mk.injEq]
      grind

/-- All that is known of an automaton in which an event has been traced. -/
theorem trace_eq_ok (h : a.trace e record = .ok b) :
    ∃ states, a.Explored states ∧ b.size = a.size + (a.occurrences e states).length ∧
      (∀ s, b.isInitial s = a.isInitial s) ∧ (∀ s, b.isAccepting s = a.isAccepting s) ∧
      ∀ x f y, b.Step x f y ↔
        (a.Step x f y ∧ ¬ (f = e ∧ x ∈ states)) ∨
          IsDetourStep a.size e record (a.occurrences e states) x f y := by
  obtain ⟨states, hstates, hok⟩ := bind_eq_ok.1 h
  obtain rfl := pure_eq_ok.1 hok
  have hexplored := explored_of_reachable hstates
  refine ⟨states, hexplored, size_foldl_detour, fun _ => isInitial_foldl_detour,
    fun _ => isAccepting_foldl_detour, fun x f y => ?_⟩
  rw [step_foldl_detour (nodup_occurrences hexplored.nodup) fun p hp => ?_]
  · refine or_congr_left (and_congr_right fun hstep => not_congr (and_congr_right ?_))
    rintro rfl
    rw [mem_occurrences, and_iff_left hstep]
  · obtain ⟨hs, hstep⟩ := mem_occurrences.1 hp
    exact ⟨hstep, hexplored.lt_size _ (hexplored.step _ hs _ _ hstep)⟩

theorem exists_step_iff_of_lt (h : a.trace e record = .ok b) (hx : x < a.size) :
    (∃ y, b.Step x f y) ↔ ∃ y, a.Step x f y := by
  obtain ⟨states, -, -, -, -, hiff⟩ := trace_eq_ok h
  constructor
  · rintro ⟨y, hstep⟩
    rcases (hiff x f y).1 hstep with ⟨hold, -⟩ | ⟨i, s, t, hi, ⟨rfl, rfl, -⟩ | ⟨rfl, -, -⟩⟩
    · exact ⟨y, hold⟩
    · exact ⟨t, (mem_occurrences.1 (List.mem_of_getElem? hi)).2⟩
    · exact absurd hx (Nat.not_lt.2 (Nat.le_add_right _ _))
  · rintro ⟨y, hstep⟩
    by_cases hmoved : f = e ∧ x ∈ states
    · obtain ⟨rfl, hmem⟩ := hmoved
      obtain ⟨i, hi⟩ := List.mem_iff_getElem?.1 (mem_occurrences.2 ⟨hmem, hstep⟩)
      exact ⟨_, (hiff x f _).2 (.inr ⟨i, x, y, hi, .inl ⟨rfl, rfl, rfl⟩⟩)⟩
    · exact ⟨y, (hiff x f y).2 (.inl ⟨hstep, hmoved⟩)⟩

/-- From a new state there is a step on the record and on nothing else. -/
theorem exists_step_iff_of_le (h : a.trace e record = .ok b) (hx : a.size ≤ x)
    (hxb : x < b.size) : (∃ y, b.Step x f y) ↔ f = record := by
  obtain ⟨states, hexplored, hsize, -, -, hiff⟩ := trace_eq_ok h
  constructor
  · rintro ⟨y, hstep⟩
    rcases (hiff x f y).1 hstep with ⟨hold, -⟩ | ⟨i, s, t, hi, ⟨rfl, -, -⟩ | ⟨-, rfl, -⟩⟩
    · exact absurd hold.lt_size (Nat.not_lt.2 hx)
    · have hs := (mem_occurrences.1 (List.mem_of_getElem? hi)).1
      exact absurd (hexplored.lt_size _ hs) (Nat.not_lt.2 hx)
    · rfl
  · rintro rfl
    obtain ⟨i, rfl⟩ := Nat.exists_eq_add_of_le hx
    have hi : i < (a.occurrences e states).length := Nat.lt_of_add_lt_add_left (hsize ▸ hxb)
    exact ⟨_, (hiff _ _ _).2 (.inr ⟨i, _, _, List.getElem?_eq_getElem hi, .inr ⟨rfl, rfl, rfl⟩⟩)⟩

theorem size_le_of_trace (h : a.trace e record = .ok b) : a.size ≤ b.size := by
  obtain ⟨states, -, hsize, -⟩ := trace_eq_ok h
  exact hsize ▸ Nat.le_add_right _ _

theorem acceptingStates_of_trace (h : a.trace e record = .ok b) :
    b.acceptingStates = a.acceptingStates := by
  obtain ⟨states, -, -, -, haccepting, -⟩ := trace_eq_ok h
  exact statesWhere_congr (size_le_of_trace h) haccepting

theorem step_or_eq_of_trace (h : a.trace e record = .ok b) (hstep : b.Step x f y) :
    (∃ x' y', a.Step x' f y') ∨ f = record := by
  obtain ⟨states, -, -, -, -, hiff⟩ := trace_eq_ok h
  rcases (hiff x f y).1 hstep with ⟨hold, -⟩ | ⟨i, s, t, hi, ⟨-, rfl, -⟩ | ⟨-, rfl, -⟩⟩
  · exact .inl ⟨x, y, hold⟩
  · exact .inl ⟨s, t, (mem_occurrences.1 (List.mem_of_getElem? hi)).2⟩
  · exact .inr rfl

end Automaton

end ProtocolInference
