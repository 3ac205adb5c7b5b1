import Mathlib.Data.List.Nodup
import ProtocolInference.Automaton

/-!
What building an automaton does to its steps.

An automaton is built by adding states, adding transitions and removing
transitions. Each of these is described here by the steps that there are
afterwards, the number of states, and the marks of the states; the rows
in which an automaton keeps its transitions are not looked at again.
-/

namespace ProtocolInference

namespace AutomatonState

variable {st : AutomatonState} {e f : Event} {t u : StateId}

theorem mem_targets_iff : t ∈ st.targets e ↔ ∃ ts, st.out.get? e = some ts ∧ t ∈ ts := by
  rw [targets]
  cases st.out.get? e with
  | none => simp
  | some ts => simp

theorem mem_transitions_iff : (e, t) ∈ st.transitions ↔ t ∈ st.targets e := by
  rw [transitions, List.mem_flatMap, mem_targets_iff]
  constructor
  · rintro ⟨⟨e', ts⟩, hrow, hmem⟩
    obtain ⟨t', ht', heq⟩ := List.mem_map.1 hmem
    obtain ⟨rfl, rfl⟩ := Prod.mk.inj heq
    exact ⟨ts, OrderedMap.get?_eq_some_iff.2 hrow, ht'⟩
  · rintro ⟨ts, hrow, hmem⟩
    exact ⟨(e, ts), OrderedMap.get?_eq_some_iff.1 hrow, List.mem_map.2 ⟨t, hmem, rfl⟩⟩

theorem nodup_transitions (st : AutomatonState) : st.transitions.Nodup := by
  rw [transitions, List.nodup_flatMap]
  refine ⟨?_, ?_⟩
  · rintro ⟨e, ts⟩ -
    exact ts.nodup.map fun _ _ h => (Prod.mk.inj h).2
  · refine (List.pairwise_map.1 st.out.nodup_keys).imp ?_
    rintro ⟨e, ts⟩ ⟨e', ts'⟩ hne x hx hx'
    obtain ⟨t, -, rfl⟩ := List.mem_map.1 hx
    obtain ⟨t', -, heq⟩ := List.mem_map.1 hx'
    exact hne (Prod.mk.inj heq).1.symm

theorem mem_targets_addTransition :
    u ∈ (st.addTransition e t).targets f ↔ u ∈ st.targets f ∨ f = e ∧ u = t := by
  rw [targets, addTransition, OrderedMap.get?_alter]
  by_cases hf : f = e
  · subst hf
    simp [targets]
  · simp [targets, hf]

theorem mem_targets_removeTransition :
    u ∈ (st.removeTransition e t).targets f ↔ u ∈ st.targets f ∧ ¬ (f = e ∧ u = t) := by
  rw [targets, removeTransition, OrderedMap.get?_alter]
  by_cases hf : f = e
  · subst hf
    rw [if_pos rfl, targets]
    cases st.out.get? f with
    | none => simp
    | some ts =>
        have hrow : (((some (ts.erase t)).filter (!·.isEmpty)).getD ∅ : OrderedSet StateId) =
            ts.erase t := by
          rw [Option.filter_some]
          split
          · rfl
          · next hempty =>
            have hnil : (ts.erase t).toList = [] := by
              simpa [OrderedSet.isEmpty] using hempty
            cases hts : ts.erase t with
            | mk l hl =>
                rw [hts] at hnil
                subst hnil
                rfl
        rw [Option.map_some, hrow]
        simp [and_comm]
  · simp [targets, hf]

end AutomatonState

namespace Automaton

variable {a : Automaton} {s t x y : StateId} {e f : Event}

theorem step_iff : a.Step x f y ↔ ∃ st, a.state? x = some st ∧ y ∈ st.targets f := by
  rw [Step, transitions]
  cases a.state? x with
  | none => simp
  | some st => simp [AutomatonState.mem_transitions_iff]

theorem nodup_transitions (a : Automaton) (s : StateId) : (a.transitions s).Nodup := by
  rw [transitions]
  split
  · exact AutomatonState.nodup_transitions _
  · exact List.nodup_nil

theorem Step.lt_size (h : a.Step x f y) : x < a.size := by
  obtain ⟨st, hst, -⟩ := step_iff.1 h
  exact (List.getElem?_eq_some_iff.1 hst).1

/-- Only states of the automaton are marked. -/
theorem lt_of_any_state? {mark : AutomatonState → Bool} (h : (a.state? s).any mark = true) :
    s < a.size := by
  obtain ⟨st, hst, -⟩ := (Option.any_eq_true _ _).1 h
  exact (List.getElem?_eq_some_iff.1 hst).1

theorem isInitial_lt (h : a.isInitial s = true) : s < a.size := lt_of_any_state? h

theorem isAccepting_lt (h : a.isAccepting s = true) : s < a.size := lt_of_any_state? h

theorem isInitial_size (a : Automaton) : a.isInitial a.size = false :=
  Bool.eq_false_iff.2 fun h => Nat.lt_irrefl _ (isInitial_lt h)

theorem isAccepting_size (a : Automaton) : a.isAccepting a.size = false :=
  Bool.eq_false_iff.2 fun h => Nat.lt_irrefl _ (isAccepting_lt h)

theorem mem_statesWhere {mark : AutomatonState → Bool} :
    s ∈ a.statesWhere mark ↔ (a.state? s).any mark = true := by
  rw [statesWhere, List.mem_filter, List.mem_range]
  exact ⟨fun h => h.2, fun h => ⟨lt_of_any_state? h, h⟩⟩

theorem mem_initialStates : s ∈ a.initialStates ↔ a.isInitial s = true := mem_statesWhere

theorem mem_acceptingStates : s ∈ a.acceptingStates ↔ a.isAccepting s = true := mem_statesWhere

/-- Marks on no new numbers pick the same numbers. -/
theorem filter_range_of_le {mark : Nat → Bool} {n k : Nat} (hle : n ≤ k)
    (hmark : ∀ i, n ≤ i → mark i = false) :
    (List.range k).filter mark = (List.range n).filter mark := by
  obtain ⟨d, rfl⟩ := Nat.exists_eq_add_of_le hle
  have hnone : ((List.range d).map (n + ·)).filter mark = [] := by
    refine List.filter_eq_nil_iff.2 fun i hi => ?_
    obtain ⟨j, -, rfl⟩ := List.mem_map.1 hi
    simp [hmark (n + j) (Nat.le_add_right n j)]
  rw [List.range_add, List.filter_append, hnone, List.append_nil]

/-- States that are added without the mark do not change which are marked. -/
theorem statesWhere_congr {b : Automaton} {mark : AutomatonState → Bool} (hsize : a.size ≤ b.size)
    (hmark : ∀ s, (b.state? s).any mark = (a.state? s).any mark) :
    b.statesWhere mark = a.statesWhere mark := by
  have hnone : ∀ s, a.size ≤ s → (b.state? s).any mark = false := by
    intro s hs
    rw [hmark]
    exact Bool.eq_false_iff.2 fun h => Nat.not_lt.2 hs (lt_of_any_state? h)
  exact (filter_range_of_le hsize hnone).trans (List.filter_congr fun s _ => hmark s)

theorem mem_alphabet : e ∈ a.alphabet ↔ ∃ st ∈ a.states, e ∈ st.out.keys := by
  rw [alphabet, OrderedSet.mem_ofList, List.mem_flatMap]

theorem Step.mem_alphabet (h : a.Step x f y) : f ∈ a.alphabet := by
  obtain ⟨st, hst, hy⟩ := step_iff.1 h
  obtain ⟨ts, hts, -⟩ := AutomatonState.mem_targets_iff.1 hy
  refine Automaton.mem_alphabet.2 ⟨st, List.mem_of_getElem? hst, OrderedMap.mem_keys_iff.2 ?_⟩
  rw [OrderedMap.contains, hts]
  rfl

/-! ### Adding a state -/

theorem state?_addState (a : Automaton) (initial accepting : Bool) (x : StateId) :
    (a.addState initial accepting).state? x =
      if x = a.size then some ⟨initial, accepting, ∅⟩ else a.state? x := by
  rw [state?, addState, state?, size]
  rcases Nat.lt_trichotomy x a.states.length with hlt | heq | hgt
  · rw [List.getElem?_append_left hlt, if_neg (Nat.ne_of_lt hlt)]
  · subst heq
    rw [List.getElem?_append_right (Nat.le_refl _), Nat.sub_self, if_pos rfl]
    rfl
  · rw [List.getElem?_eq_none (by rw [List.length_append]; exact hgt), if_neg (Nat.ne_of_gt hgt),
      List.getElem?_eq_none (Nat.le_of_lt hgt)]

@[simp] theorem size_addState (a : Automaton) (initial accepting : Bool) :
    (a.addState initial accepting).size = a.size + 1 := by
  rw [size, addState, List.length_append]
  rfl

theorem step_addState {initial accepting : Bool} :
    (a.addState initial accepting).Step x f y ↔ a.Step x f y := by
  rw [step_iff, state?_addState]
  by_cases hx : x = a.size
  · rw [if_pos hx]
    constructor
    · rintro ⟨st, hst, hy⟩
      rw [← Option.some.inj hst, AutomatonState.mem_targets_iff] at hy
      obtain ⟨ts, hts, -⟩ := hy
      cases hts
    · intro h
      exact absurd h.lt_size (Nat.not_lt.2 (Nat.le_of_eq hx.symm))
  · rw [if_neg hx, step_iff]

theorem isInitial_addState {initial accepting : Bool} :
    (a.addState initial accepting).isInitial s =
      if s = a.size then initial else a.isInitial s := by
  rw [isInitial, state?_addState]
  split
  · rfl
  · rfl

theorem isAccepting_addState {initial accepting : Bool} :
    (a.addState initial accepting).isAccepting s =
      if s = a.size then accepting else a.isAccepting s := by
  rw [isAccepting, state?_addState]
  split
  · rfl
  · rfl

/-! ### Changing the transitions of one state -/

section Modify

variable (k : AutomatonState → AutomatonState)

/-- The automaton with one state changed. -/
def modifyState (a : Automaton) (s : StateId) : Automaton :=
  { a with states := a.states.modify s k }

theorem state?_modifyState (x : StateId) :
    (a.modifyState k s).state? x = if x = s then (a.state? x).map k else a.state? x := by
  rw [modifyState, state?, state?, List.getElem?_modify]
  by_cases hx : x = s
  · rw [if_pos hx]
    subst hx
    cases a.states[x]? <;> simp
  · rw [if_neg hx]
    cases a.states[x]? <;> simp [Ne.symm hx]

@[simp] theorem size_modifyState : (a.modifyState k s).size = a.size := List.length_modify ..

/-- A mark that the change leaves alone. -/
theorem any_state?_modifyState {mark : AutomatonState → Bool} (hk : ∀ st, mark (k st) = mark st) :
    ((a.modifyState k s).state? x).any mark = (a.state? x).any mark := by
  rw [state?_modifyState]
  split
  · cases a.state? x with
    | none => rfl
    | some st => exact hk st
  · rfl

end Modify

@[simp] theorem size_addTransition : (a.addTransition s e t).size = a.size :=
  size_modifyState _

@[simp] theorem size_removeTransition : (a.removeTransition s e t).size = a.size :=
  size_modifyState _

theorem isInitial_addTransition : (a.addTransition s e t).isInitial x = a.isInitial x :=
  any_state?_modifyState _ fun _ => rfl

theorem isAccepting_addTransition : (a.addTransition s e t).isAccepting x = a.isAccepting x :=
  any_state?_modifyState _ fun _ => rfl

theorem isInitial_removeTransition : (a.removeTransition s e t).isInitial x = a.isInitial x :=
  any_state?_modifyState _ fun _ => rfl

theorem isAccepting_removeTransition :
    (a.removeTransition s e t).isAccepting x = a.isAccepting x :=
  any_state?_modifyState _ fun _ => rfl

theorem step_addTransition : (a.addTransition s e t).Step x f y ↔
    a.Step x f y ∨ x = s ∧ f = e ∧ y = t ∧ s < a.size := by
  rw [step_iff, step_iff]
  change (∃ st, (a.modifyState _ s).state? x = some st ∧ _) ↔ _
  rw [state?_modifyState]
  by_cases hx : x = s
  · subst hx
    rw [if_pos rfl]
    cases hst : a.state? x with
    | none =>
        have hout : ¬ x < a.size := Nat.not_lt.2 (List.getElem?_eq_none_iff.1 hst)
        simp [hout]
    | some st =>
        have hin : x < a.size := (List.getElem?_eq_some_iff.1 hst).1
        simp [AutomatonState.mem_targets_addTransition, hin]
  · rw [if_neg hx]
    simp [hx]

theorem step_removeTransition : (a.removeTransition s e t).Step x f y ↔
    a.Step x f y ∧ ¬ (x = s ∧ f = e ∧ y = t) := by
  rw [step_iff, step_iff]
  change (∃ st, (a.modifyState _ s).state? x = some st ∧ _) ↔ _
  rw [state?_modifyState]
  by_cases hx : x = s
  · subst hx
    rw [if_pos rfl]
    cases a.state? x with
    | none => simp
    | some st => simp [AutomatonState.mem_targets_removeTransition]
  · rw [if_neg hx]
    simp [hx]

/-! ### Many transitions -/

/-- What one transition more does not change, many do not change. -/
theorem foldl_addTransition_eq {β : Type} (view : Automaton → β)
    (hview : ∀ a s e t, view (a.addTransition s e t) = view a)
    (ts : List (StateId × Event × StateId)) :
    view (ts.foldl (fun a (s, e, t) => a.addTransition s e t) a) = view a := by
  induction ts generalizing a with
  | nil => rfl
  | cons _ ts ih => rw [List.foldl_cons, ih, hview]

theorem pid_foldl_addTransition (ts : List (StateId × Event × StateId)) :
    (ts.foldl (fun a (s, e, t) => a.addTransition s e t) a).pid = a.pid :=
  foldl_addTransition_eq (·.pid) (fun _ _ _ _ => rfl) ts

@[simp] theorem size_foldl_addTransition (ts : List (StateId × Event × StateId)) :
    (ts.foldl (fun a (s, e, t) => a.addTransition s e t) a).size = a.size :=
  foldl_addTransition_eq size (fun _ _ _ _ => size_addTransition) ts

theorem isInitial_foldl_addTransition (ts : List (StateId × Event × StateId)) :
    (ts.foldl (fun a (s, e, t) => a.addTransition s e t) a).isInitial x = a.isInitial x :=
  foldl_addTransition_eq (·.isInitial x) (fun _ _ _ _ => isInitial_addTransition) ts

theorem isAccepting_foldl_addTransition (ts : List (StateId × Event × StateId)) :
    (ts.foldl (fun a (s, e, t) => a.addTransition s e t) a).isAccepting x = a.isAccepting x :=
  foldl_addTransition_eq (·.isAccepting x) (fun _ _ _ _ => isAccepting_addTransition) ts

theorem step_foldl_addTransition {ts : List (StateId × Event × StateId)}
    (hts : ∀ p ∈ ts, p.1 < a.size) :
    (ts.foldl (fun a (s, e, t) => a.addTransition s e t) a).Step x f y ↔
      a.Step x f y ∨ (x, f, y) ∈ ts := by
  induction ts generalizing a with
  | nil => simp
  | cons p ts ih =>
      obtain ⟨s, e, t⟩ := p
      have hs : s < a.size := hts _ List.mem_cons_self
      rw [List.foldl_cons, ih fun q hq => by
        rw [size_addTransition]
        exact hts q (List.mem_cons_of_mem _ hq)]
      rw [step_addTransition, List.mem_cons, Prod.mk.injEq, Prod.mk.injEq, or_assoc]
      simp only [hs, and_true]

/-- A transition brings its own event into the alphabet and no other. -/
theorem mem_alphabet_addTransition (h : f ∈ (a.addTransition s e t).alphabet) :
    f ∈ a.alphabet ∨ f = e := by
  obtain ⟨st, hst, hf⟩ := mem_alphabet.1 h
  obtain ⟨x, hx⟩ := List.mem_iff_getElem?.1 hst
  rw [addTransition, List.getElem?_modify, Option.map_eq_map, Option.map_eq_some_iff] at hx
  obtain ⟨st', hst', rfl⟩ := hx
  have hmem : st' ∈ a.states := List.mem_of_getElem? hst'
  split at hf
  · rcases OrderedMap.fst_mem_of_mem_alterList hf with rfl | hf
    · exact .inr rfl
    · exact .inl (mem_alphabet.2 ⟨st', hmem, hf⟩)
  · exact .inl (mem_alphabet.2 ⟨st', hmem, hf⟩)

theorem mem_alphabet_foldl_addTransition {ts : List (StateId × Event × StateId)}
    (h : f ∈ (ts.foldl (fun a (s, e, t) => a.addTransition s e t) a).alphabet) :
    f ∈ a.alphabet ∨ ∃ s t, (s, f, t) ∈ ts := by
  induction ts generalizing a with
  | nil => exact .inl h
  | cons p ts ih =>
      obtain ⟨s, e, t⟩ := p
      rcases ih h with h | ⟨s', t', h⟩
      · rcases mem_alphabet_addTransition h with h | rfl
        · exact .inl h
        · exact .inr ⟨s, t, List.mem_cons_self⟩
      · exact .inr ⟨s', t', List.mem_cons_of_mem _ h⟩

/-! ### Runs -/

theorem Run.append {es es' : List Event} (h : a.Run s es t) (h' : a.Run t es' x) :
    a.Run s (es ++ es') x := by
  induction h with
  | stay => exact h'
  | step hstep _ ih => exact .step hstep (ih h')

/-- A run stays within the states of a closed automaton. -/
theorem IsClosed.run_lt {es : List Event} (h : a.IsClosed) (hs : s < a.size)
    (hrun : a.Run s es t) : t < a.size := by
  induction hrun with
  | stay => exact hs
  | step hstep _ ih => exact ih (h _ _ _ hstep)

end Automaton

end ProtocolInference
