import ProtocolInference.Automaton.History
import ProtocolInference.Proofs.Automaton.Rewriting

/-!
The alphabet of an automaton that has been put together by its operations.

The alphabet is read off the rows, and a row might be empty: then its event
would be in the alphabet without a step on it. The operations leave no empty
row behind, so the alphabet is the set of the events on steps, and this
remains so when events are traced.
-/

namespace ProtocolInference

namespace AutomatonState

variable {st : AutomatonState} {e : Event} {t : StateId}

/-- Every row has a target. -/
def HasTargets (st : AutomatonState) : Prop :=
  ∀ e targets, st.out.get? e = some targets → ∃ t, t ∈ targets

theorem HasTargets.addTransition (h : st.HasTargets) : (st.addTransition e t).HasTargets := by
  intro f targets hf
  rw [AutomatonState.addTransition, OrderedMap.get?_alter] at hf
  split at hf
  · obtain rfl := Option.some.inj hf
    exact ⟨t, OrderedSet.mem_insert.2 (.inr rfl)⟩
  · exact h f targets hf

theorem HasTargets.removeTransition (h : st.HasTargets) : (st.removeTransition e t).HasTargets := by
  intro f targets hf
  rw [AutomatonState.removeTransition, OrderedMap.get?_alter] at hf
  split at hf
  · obtain ⟨-, hsome⟩ := Option.filter_eq_some_iff.1 hf
    rw [OrderedSet.isEmpty, Bool.not_eq_true', List.isEmpty_eq_false_iff_exists_mem] at hsome
    exact hsome
  · exact h f targets hf

end AutomatonState

namespace Automaton

variable {a b : Automaton} {e f record : Event} {s t : StateId}

namespace Arises

/-- No operation leaves an empty row behind. -/
theorem hasTargets (h : a.Arises) {x : StateId} {st : AutomatonState} (hst : a.state? x = some st) :
    st.HasTargets := by
  induction h generalizing x st with
  | empty pid => cases hst
  | @addState a initial accepting _ ih =>
      rw [state?_addState] at hst
      split at hst
      · obtain rfl := Option.some.inj hst
        intro e targets he
        cases he
      · exact ih hst
  | @addTransition a s e t _ ih =>
      change (a.modifyState _ s).state? x = some st at hst
      rw [state?_modifyState] at hst
      split at hst
      · obtain ⟨st', hst', rfl⟩ := Option.map_eq_some_iff.1 hst
        exact (ih hst').addTransition
      · exact ih hst
  | @removeTransition a s e t _ ih =>
      change (a.modifyState _ s).state? x = some st at hst
      rw [state?_modifyState] at hst
      split at hst
      · obtain ⟨st', hst', rfl⟩ := Option.map_eq_some_iff.1 hst
        exact (ih hst').removeTransition
      · exact ih hst

/-- The alphabet holds the events on steps and no others. -/
theorem mem_alphabet_iff (h : a.Arises) : e ∈ a.alphabet ↔ ∃ s t, a.Step s e t := by
  constructor
  · intro he
    obtain ⟨st, hst, he⟩ := mem_alphabet.1 he
    obtain ⟨s, hs⟩ := List.mem_iff_getElem?.1 hst
    obtain ⟨targets, htargets⟩ := Option.isSome_iff_exists.1 (OrderedMap.mem_keys_iff.1 he)
    obtain ⟨t, ht⟩ := h.hasTargets hs e targets htargets
    exact ⟨s, t, step_iff.2 ⟨st, hs, AutomatonState.mem_targets_iff.2 ⟨targets, htargets, ht⟩⟩⟩
  · rintro ⟨s, t, hstep⟩
    exact hstep.mem_alphabet

theorem detour (h : a.Arises) (e record : Event) (ends : StateId × StateId) :
    (a.detour e record ends).Arises :=
  (((h.removeTransition _ _ _).addState _ _).addTransition _ _ _).addTransition _ _ _

theorem foldl_detour {ends : List (StateId × StateId)} (h : a.Arises) :
    (ends.foldl (Automaton.detour · e record) a).Arises := by
  induction ends generalizing a with
  | nil => exact h
  | cons p ends ih => exact ih (h.detour e record p)

theorem trace (h : a.Arises) (htrace : a.trace e record = .ok b) : b.Arises := by
  obtain ⟨states, -, hok⟩ := bind_eq_ok.1 htrace
  obtain rfl := pure_eq_ok.1 hok
  exact h.foldl_detour

end Arises

end Automaton

end ProtocolInference
