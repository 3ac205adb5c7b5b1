import Mathlib.Logic.Function.Basic
import ProtocolInference.Proofs.Automaton.Steps
import ProtocolInference.Proofs.Except
import ProtocolInference.System.Tracing

/-!
What tracing does to the language of an automaton: nothing, up to the
sends that it inserts.

Tracing only ever takes detours. A detour puts a new state in the middle
of a transition, and every later detour treats the automaton with the new
state like any other, so that a transition may end up as a whole chain.
The relation `Automaton.Unfolds` describes where any number of detours
can lead. Every state of the unfolded automaton has a *home*, the state
of the original automaton in which the chain ends that it lies on. An
original state is its own home. The events of the original automaton
lead between homes as they always did, and the inserted sends stay at
home and lead downwards in the order of the numbers; this is why every
chain ends.
-/

namespace ProtocolInference

namespace Automaton

variable {a b : Automaton} {home : StateId → StateId} {tracer : Event → Bool}
variable {e f record : Event} {s t x y : StateId}

/-! ### One detour -/

theorem size_detour : (a.detour e record (s, t)).size = a.size + 1 := by
  rw [detour]
  simp

theorem isInitial_detour : (a.detour e record (s, t)).isInitial x = a.isInitial x := by
  rw [detour, isInitial_addTransition, isInitial_addTransition, isInitial_addState,
    isInitial_removeTransition, size_removeTransition]
  split
  · next hx => rw [hx, isInitial_size]
  · rfl

theorem isAccepting_detour : (a.detour e record (s, t)).isAccepting x = a.isAccepting x := by
  rw [detour, isAccepting_addTransition, isAccepting_addTransition, isAccepting_addState,
    isAccepting_removeTransition, size_removeTransition]
  split
  · next hx => rw [hx, isAccepting_size]
  · rfl

theorem step_detour (hs : s < a.size) :
    (a.detour e record (s, t)).Step x f y ↔
      (a.Step x f y ∧ ¬ (x = s ∧ f = e ∧ y = t)) ∨
      (x = s ∧ f = e ∧ y = a.size) ∨ (x = a.size ∧ f = record ∧ y = t) := by
  have hs' : s < a.size + 1 := Nat.lt_succ_of_lt hs
  rw [detour, step_addTransition, step_addTransition, step_addState, step_removeTransition]
  simp [hs', or_assoc]

theorem step_detour_of_ne (hs : s < a.size) (h : a.Step x f y) (hne : (x, y) ≠ (s, t)) :
    (a.detour e record (s, t)).Step x f y := by
  refine (step_detour hs).2 (.inl ⟨h, ?_⟩)
  rintro ⟨rfl, -, rfl⟩
  exact hne rfl

/-! ### Unfolding -/

/-- The automaton `b` is `a` with some of its transitions led through
chains of inserted states. -/
structure Unfolds (tracer : Event → Bool) (a b : Automaton) (home : StateId → StateId) : Prop where
  pid_eq : b.pid = a.pid
  size_le : a.size ≤ b.size
  /-- Every transition of `b` leads to a state of `b`. -/
  closed : b.IsClosed
  home_of_lt : ∀ s < a.size, home s = s
  home_lt : ∀ s < b.size, home s < a.size
  isInitial_eq : ∀ s, b.isInitial s = a.isInitial s
  isAccepting_eq : ∀ s, b.isAccepting s = a.isAccepting s
  /-- An inserted send stays at home, and comes closer to it. -/
  step_tracer : ∀ {x f y}, b.Step x f y → tracer f = true →
    a.size ≤ x ∧ y < x ∧ home y = home x
  step_event : ∀ {x f y}, b.Step x f y → tracer f = false → x < a.size ∧ a.Step x f (home y)
  lift : ∀ {s f t}, a.Step s f t → ∃ y, b.Step s f y ∧ home y = t
  /-- From an inserted state there is only one way to go. -/
  exit : ∀ {x}, a.size ≤ x → x < b.size → ∃ r y, ∀ f z, b.Step x f z ↔ f = r ∧ z = y

namespace Unfolds

theorem refl (hclosed : a.IsClosed) (htracer : ∀ {x f y}, a.Step x f y → tracer f = false) :
    Unfolds tracer a a id where
  pid_eq := rfl
  size_le := Nat.le_refl _
  closed := hclosed
  home_of_lt _ _ := rfl
  home_lt _ h := h
  isInitial_eq _ := rfl
  isAccepting_eq _ := rfl
  step_tracer hstep htr := by
    rw [htracer hstep] at htr
    exact absurd htr Bool.false_ne_true
  step_event hstep _ := ⟨hstep.lt_size, hstep⟩
  lift hstep := ⟨_, hstep, rfl⟩
  exit hle hlt := absurd hlt (Nat.not_lt.2 hle)

/-- The state that a detour inserts has the target of the transition as
its home. -/
theorem detour (h : Unfolds tracer a b home) (hstep : b.Step s e t) (he : tracer e = false)
    (hrecord : tracer record = true) :
    Unfolds tracer a (b.detour e record (s, t)) (Function.update home b.size (home t)) := by
  obtain ⟨hs, hst⟩ := h.step_event hstep he
  have hsb : s < b.size := hstep.lt_size
  have ht : t < b.size := h.closed _ _ _ hstep
  have hold : ∀ {z}, z < b.size → Function.update home b.size (home t) z = home z := fun hz =>
    Function.update_of_ne (Nat.ne_of_lt hz) _ _
  have hnew : Function.update home b.size (home t) b.size = home t := Function.update_self _ _ _
  constructor
  case pid_eq => exact h.pid_eq
  case size_le =>
    rw [size_detour]
    exact Nat.le_succ_of_le h.size_le
  case closed =>
    intro x f y hxy
    rw [size_detour]
    rcases (step_detour hsb).1 hxy with ⟨hxy, -⟩ | ⟨-, -, rfl⟩ | ⟨-, -, rfl⟩
    · exact Nat.lt_succ_of_lt (h.closed _ _ _ hxy)
    · exact Nat.lt_succ_self _
    · exact Nat.lt_succ_of_lt ht
  case home_of_lt =>
    intro z hz
    rw [hold (Nat.lt_of_lt_of_le hz h.size_le), h.home_of_lt z hz]
  case home_lt =>
    intro z hz
    rw [size_detour] at hz
    rcases Nat.lt_succ_iff_lt_or_eq.1 hz with hz | rfl
    · rw [hold hz]
      exact h.home_lt z hz
    · rw [hnew]
      exact h.home_lt t ht
  case isInitial_eq => exact fun z => isInitial_detour.trans (h.isInitial_eq z)
  case isAccepting_eq => exact fun z => isAccepting_detour.trans (h.isAccepting_eq z)
  case step_tracer =>
    intro x f y hxy hf
    rcases (step_detour hsb).1 hxy with ⟨hxy, -⟩ | ⟨-, rfl, -⟩ | ⟨rfl, -, rfl⟩
    · obtain ⟨hx, hlt, heq⟩ := h.step_tracer hxy hf
      refine ⟨hx, hlt, ?_⟩
      rw [hold (h.closed _ _ _ hxy), hold hxy.lt_size, heq]
    · rw [he] at hf
      exact absurd hf Bool.false_ne_true
    · refine ⟨h.size_le, ht, ?_⟩
      rw [hold ht, hnew]
  case step_event =>
    intro x f y hxy hf
    rcases (step_detour hsb).1 hxy with ⟨hxy, -⟩ | ⟨rfl, rfl, rfl⟩ | ⟨-, rfl, -⟩
    · rw [hold (h.closed _ _ _ hxy)]
      exact h.step_event hxy hf
    · rw [hnew]
      exact ⟨hs, hst⟩
    · rw [hrecord] at hf
      exact absurd hf.symm Bool.false_ne_true
  case lift =>
    intro x f z hxz
    obtain ⟨y, hxy, rfl⟩ := h.lift hxz
    by_cases heq : x = s ∧ f = e ∧ y = t
    · -- This is the transition that goes: its new way is by the new state.
      obtain ⟨rfl, rfl, rfl⟩ := heq
      exact ⟨b.size, (step_detour hsb).2 (.inr (.inl ⟨rfl, rfl, rfl⟩)), hnew⟩
    · exact ⟨y, (step_detour hsb).2 (.inl ⟨hxy, heq⟩), hold (h.closed _ _ _ hxy)⟩
  case exit =>
    intro x hx hxb
    rw [size_detour] at hxb
    rcases Nat.lt_succ_iff_lt_or_eq.1 hxb with hxb | rfl
    · obtain ⟨r, y, hexit⟩ := h.exit hx hxb
      refine ⟨r, y, fun f z => ?_⟩
      have hxs : x ≠ s := Nat.ne_of_gt (Nat.lt_of_lt_of_le hs hx)
      rw [step_detour hsb, ← hexit]
      simp [hxs, Nat.ne_of_lt hxb]
    · refine ⟨record, t, fun f z => ?_⟩
      have hnone : ¬ b.Step b.size f z := fun hstep => absurd hstep.lt_size (Nat.lt_irrefl _)
      rw [step_detour hsb]
      simp [hnone, Nat.ne_of_gt hsb]

theorem foldl_detour {ends : List (StateId × StateId)} (h : Unfolds tracer a b home)
    (he : tracer e = false) (hrecord : tracer record = true)
    (hnodup : ends.Nodup) (hends : ∀ p ∈ ends, b.Step p.1 e p.2) :
    ∃ home', Unfolds tracer a (ends.foldl (Automaton.detour · e record) b) home' := by
  induction ends generalizing b home with
  | nil => exact ⟨home, h⟩
  | cons p ends ih =>
      obtain ⟨s, t⟩ := p
      have hstep : b.Step s e t := hends (s, t) List.mem_cons_self
      obtain ⟨hnot, hnodup⟩ := List.nodup_cons.1 hnodup
      refine ih (h.detour hstep he hrecord) hnodup fun q hq => ?_
      refine step_detour_of_ne hstep.lt_size (hends q (List.mem_cons_of_mem _ hq)) ?_
      intro heq
      obtain rfl : q = (s, t) := heq
      exact hnot hq

end Unfolds

/-! ### All occurrences of an event -/

/-- The search meets no state twice. -/
theorem nodup_explore {visited stack states : List StateId} (hnodup : visited.Nodup)
    (h : a.explore visited stack = .ok states) : states.Nodup := by
  induction visited, stack using explore.induct a with
  | case1 visited =>
      rw [explore] at h
      obtain rfl := Except.ok.inj h
      exact hnodup
  | case2 visited s stack hmem ih =>
      rw [explore, dif_pos hmem] at h
      exact ih hnodup h
  | case3 visited s stack hmem hs _ successors ih =>
      rw [explore, dif_neg hmem, dif_pos hs] at h
      refine ih ?_ h
      rw [List.nodup_append]
      refine ⟨hnodup, List.nodup_singleton s, ?_⟩
      rintro x hx y hy rfl
      exact hmem (List.mem_singleton.1 hy ▸ hx)
  | case4 visited s stack hmem hs =>
      rw [explore, dif_neg hmem, dif_neg hs] at h
      cases h

theorem mem_occurrences {states : List StateId} :
    (s, t) ∈ a.occurrences e states ↔ s ∈ states ∧ a.Step s e t := by
  rw [occurrences, List.mem_flatMap]
  constructor
  · rintro ⟨s', hs', hmem⟩
    obtain ⟨⟨e', t'⟩, ht', heq⟩ := List.mem_map.1 hmem
    obtain ⟨rfl, rfl⟩ := Prod.mk.inj heq
    obtain ⟨hstep, he⟩ := List.mem_filter.1 ht'
    obtain rfl : e' = e := of_decide_eq_true he
    exact ⟨hs', hstep⟩
  · rintro ⟨hs, hstep⟩
    refine ⟨s, hs, List.mem_map.2 ⟨(e, t), ?_, rfl⟩⟩
    exact List.mem_filter.2 ⟨hstep, decide_eq_true rfl⟩

theorem nodup_occurrences {states : List StateId} (h : states.Nodup) :
    (a.occurrences e states).Nodup := by
  rw [occurrences, List.nodup_flatMap]
  refine ⟨fun s _ => ?_, ?_⟩
  · refine List.Nodup.map_on ?_ ((a.nodup_transitions s).filter _)
    rintro ⟨e₁, t₁⟩ h₁ ⟨e₂, t₂⟩ h₂ heq
    obtain rfl : e₁ = e := of_decide_eq_true (List.mem_filter.1 h₁).2
    obtain rfl : e₂ = e₁ := of_decide_eq_true (List.mem_filter.1 h₂).2
    rw [(Prod.mk.inj heq).2]
  · refine h.imp ?_
    intro s s' hne p hp hp'
    obtain ⟨_, -, rfl⟩ := List.mem_map.1 hp
    obtain ⟨_, -, heq⟩ := List.mem_map.1 hp'
    exact hne (Prod.mk.inj heq).1.symm

theorem Unfolds.trace {b' : Automaton} (h : Unfolds tracer a b home) (he : tracer e = false)
    (hrecord : tracer record = true) (htrace : b.trace e record = .ok b') :
    ∃ home', Unfolds tracer a b' home' := by
  obtain ⟨states, hstates, hok⟩ := bind_eq_ok.1 htrace
  obtain rfl := Except.ok.inj hok
  refine h.foldl_detour he hrecord ?_ ?_
  · exact nodup_occurrences (nodup_explore List.nodup_nil hstates)
  · exact fun p hp => (mem_occurrences.1 hp).2

/-! ### The language of an unfolded automaton -/

namespace Unfolds

/-- Every run of the unfolded automaton is one of the original, from home
to home, once the inserted sends are left out. -/
theorem project {es : List Event} (h : Unfolds tracer a b home) (hrun : b.Run x es y) :
    a.Run (home x) (es.filter (!tracer ·)) (home y) := by
  induction hrun with
  | stay => exact .stay _
  | @step s t u e es hstep _ ih =>
      cases htr : tracer e with
      | true =>
          rw [List.filter_cons_of_neg (by simp [htr]), ← (h.step_tracer hstep htr).2.2]
          exact ih
      | false =>
          obtain ⟨hs, hst⟩ := h.step_event hstep htr
          rw [List.filter_cons_of_pos (by simp [htr]), h.home_of_lt s hs]
          exact .step hst ih

theorem exists_send (h : Unfolds tracer a b home) (hx : a.size ≤ x) (hxb : x < b.size) :
    ∃ r y, b.Step x r y ∧ tracer r = true := by
  obtain ⟨r, y, hexit⟩ := h.exit hx hxb
  have hstep : b.Step x r y := (hexit r y).2 ⟨rfl, rfl⟩
  refine ⟨r, y, hstep, ?_⟩
  cases htr : tracer r with
  | true => rfl
  | false => exact absurd (h.step_event hstep htr).1 (Nat.not_lt.2 hx)

theorem run_home (h : Unfolds tracer a b home) (hx : x < b.size) :
    ∃ es, b.Run x es (home x) ∧ ∀ e ∈ es, tracer e = true := by
  induction x using Nat.strongRecOn with
  | ind x ih =>
      rcases Nat.lt_or_ge x a.size with hlt | hge
      · rw [h.home_of_lt x hlt]
        exact ⟨[], .stay x, fun _ he => absurd he List.not_mem_nil⟩
      · obtain ⟨r, y, hstep, hr⟩ := h.exists_send hge hx
        obtain ⟨-, hlt, heq⟩ := h.step_tracer hstep hr
        obtain ⟨es, hrun, hes⟩ := ih y hlt (h.closed _ _ _ hstep)
        refine ⟨r :: es, .step hstep (heq ▸ hrun), ?_⟩
        intro e he
        rcases List.mem_cons.1 he with rfl | he
        · exact hr
        · exact hes e he

/-- Every run of the original automaton can be taken in the unfolded one,
with some sends put in. -/
theorem lift_run {es : List Event} (h : Unfolds tracer a b home) (hrun : a.Run s es t) :
    ∃ es', b.Run s es' t ∧ es'.filter (!tracer ·) = es := by
  induction hrun with
  | stay s => exact ⟨[], .stay s, rfl⟩
  | @step s t u e es hstep _ ih =>
      obtain ⟨y, hy, rfl⟩ := h.lift hstep
      obtain ⟨sends, hsends, htr⟩ := h.run_home (h.closed _ _ _ hy)
      obtain ⟨es', hes', rfl⟩ := ih
      have he : tracer e = false := by
        cases htr : tracer e with
        | false => rfl
        | true =>
            exact absurd hstep.lt_size (Nat.not_lt.2 (h.step_tracer hy htr).1)
      have hnone : sends.filter (!tracer ·) = [] :=
        List.filter_eq_nil_iff.2 fun e he => by simp [htr e he]
      refine ⟨e :: (sends ++ es'), .step hy (hsends.append hes'), ?_⟩
      rw [List.filter_cons_of_pos (by simp [he]), List.filter_append, hnone, List.nil_append]

/-- Between original states there are the same runs as before, up to the
inserted sends. -/
theorem run_iff {es : List Event} (h : Unfolds tracer a b home) (hs : s < a.size)
    (ht : t < a.size) : (∃ es', b.Run s es' t ∧ es'.filter (!tracer ·) = es) ↔ a.Run s es t := by
  constructor
  · rintro ⟨es', hrun, rfl⟩
    have hproj := h.project hrun
    rwa [h.home_of_lt s hs, h.home_of_lt t ht] at hproj
  · exact h.lift_run

/-- The same words are accepted as before, up to the inserted sends. -/
theorem accepts_iff {es : List Event} (h : Unfolds tracer a b home) :
    (∃ es', b.Accepts es' ∧ es'.filter (!tracer ·) = es) ↔ a.Accepts es := by
  constructor
  · rintro ⟨es', ⟨s, t, hs, hrun, ht⟩, hes⟩
    rw [h.isInitial_eq] at hs
    rw [h.isAccepting_eq] at ht
    exact ⟨s, t, hs, (h.run_iff (isInitial_lt hs) (isAccepting_lt ht)).1 ⟨es', hrun, hes⟩, ht⟩
  · rintro ⟨s, t, hs, hrun, ht⟩
    obtain ⟨es', hrun', hes⟩ := h.lift_run hrun
    exact ⟨es', ⟨s, t, (h.isInitial_eq s).trans hs, hrun', (h.isAccepting_eq t).trans ht⟩, hes⟩

end Unfolds

end Automaton

end ProtocolInference
