import Mathlib.Data.List.Permutation
import Mathlib.Data.Set.Card
import ProtocolInference.Proofs.Automaton.Containment

/-!
What tracing rewrites, to the last transition.

A transition on an event *occurs* if the automaton can get to the state from
which it sets out. Tracing leads every transition that occurs through a state of
its own and leaves all others as they are, those on the same event included that
set out from elsewhere (`Automaton.Reroutes`). All occurring transitions are
found before the first of them is changed, and a detour takes out the one
transition that it is for: what the detours put in leads into a new state or out
of one, and no transition that is yet to be taken out does.

To count transitions they are listed one by one, each with the state from which
it sets out. The list has no repetitions, and a detour puts two entries in the
place of one.
-/

namespace ProtocolInference.Automaton

variable {a b : Automaton} {e f record : Event} {s t x y : StateId}
variable {states : List StateId} {ends : List (StateId × StateId)}

/-! ### Counting transitions -/

/-- The transitions, each with the state from which it sets out. -/
def edges (a : Automaton) : List (StateId × Event × StateId) :=
  a.states.zipIdx.flatMap fun (st, s) => st.transitions.map fun p => (s, p)

theorem mem_edges_iff : (s, e, t) ∈ a.edges ↔ a.Step s e t := by
  rw [edges, List.mem_flatMap, step_iff]
  constructor
  · rintro ⟨⟨st, s'⟩, hst, hmem⟩
    obtain ⟨⟨e', t'⟩, ht, heq⟩ := List.mem_map.1 hmem
    obtain ⟨rfl, rfl, rfl⟩ : s' = s ∧ e' = e ∧ t' = t := by simpa using heq
    exact ⟨st, List.mem_zipIdx_iff_getElem?.1 hst, AutomatonState.mem_transitions_iff.1 ht⟩
  · rintro ⟨st, hst, ht⟩
    refine ⟨(st, s), List.mem_zipIdx_iff_getElem?.2 hst, List.mem_map.2 ⟨(e, t), ?_, rfl⟩⟩
    exact AutomatonState.mem_transitions_iff.2 ht

theorem nodup_edges (a : Automaton) : a.edges.Nodup := by
  rw [edges, List.nodup_flatMap]
  refine ⟨?_, ?_⟩
  · rintro ⟨st, s⟩ -
    exact st.nodup_transitions.map fun _ _ h => (Prod.mk.inj h).2
  · have hnumbers : (a.states.zipIdx.map Prod.snd).Nodup := by
      rw [List.zipIdx_map_snd]
      exact List.nodup_range'
    refine (List.pairwise_map.1 hnumbers).imp ?_
    rintro ⟨st, s⟩ ⟨st', s'⟩ hne x hx hx'
    obtain ⟨p, -, rfl⟩ := List.mem_map.1 hx
    obtain ⟨p', -, heq⟩ := List.mem_map.1 hx'
    exact hne (Prod.mk.inj heq).1.symm

theorem length_edges (a : Automaton) : a.edges.length = a.transitionCount := by
  have hrows : a.edges.map Prod.snd = (a.states.zipIdx.map Prod.fst).flatMap (·.transitions) := by
    rw [edges, List.map_flatMap, List.flatMap_map]
    refine List.flatMap_congr fun ⟨st, s⟩ _ => ?_
    rw [List.map_map]
    exact List.map_id _
  rw [transitionCount, ← List.zipIdx_map_fst 0 a.states, ← hrows, List.length_map]

theorem isClosed_iff : a.IsClosed ↔ ∀ p ∈ a.edges, p.2.2 < a.size :=
  ⟨fun h p hp => h p.1 p.2.1 p.2.2 (mem_edges_iff.1 hp),
    fun h s e t hstep => h (s, e, t) (mem_edges_iff.2 hstep)⟩

instance (a : Automaton) : Decidable a.IsClosed := decidable_of_iff _ isClosed_iff.symm

theorem IsClosed.detour (h : a.IsClosed) (hstep : a.Step s e t) :
    (a.detour e record (s, t)).IsClosed := by
  intro x f y hxy
  rw [size_detour]
  rcases (step_detour hstep.lt_size).1 hxy with ⟨hold, -⟩ | ⟨-, -, rfl⟩ | ⟨-, -, rfl⟩
  · exact Nat.lt_succ_of_lt (h x f y hold)
  · exact Nat.lt_succ_self _
  · exact Nat.lt_succ_of_lt (h _ _ _ hstep)

theorem transitionCount_detour (h : a.IsClosed) (hstep : a.Step s e t) :
    (a.detour e record (s, t)).transitionCount = a.transitionCount + 1 := by
  have hin : (s, e, a.size) ∉ a.edges := fun hmem =>
    Nat.lt_irrefl _ (h s e a.size (mem_edges_iff.1 hmem))
  have hout : (a.size, record, t) ∉ a.edges := fun hmem =>
    Nat.lt_irrefl _ (mem_edges_iff.1 hmem).lt_size
  have hne : (s, e, a.size) ≠ (a.size, record, t) := fun heq =>
    Nat.ne_of_lt hstep.lt_size (Prod.mk.inj heq).1
  have hperm : (a.detour e record (s, t)).edges.Perm
      ((s, e, a.size) :: (a.size, record, t) :: a.edges.erase (s, e, t)) := by
    have hrest := a.nodup_edges.erase (s, e, t)
    refine (List.perm_ext_iff_of_nodup (nodup_edges _) ?_).2 ?_
    · refine List.nodup_cons.2 ⟨?_, List.nodup_cons.2 ⟨?_, hrest⟩⟩
      · exact List.not_mem_cons_of_ne_of_not_mem hne fun hmem => hin (List.mem_of_mem_erase hmem)
      · exact fun hmem => hout (List.mem_of_mem_erase hmem)
    · rintro ⟨x, f, y⟩
      rw [mem_edges_iff, step_detour hstep.lt_size, List.mem_cons, List.mem_cons,
        a.nodup_edges.mem_erase_iff, mem_edges_iff]
      simp only [ne_eq, Prod.mk.injEq]
      tauto
  have hlength : (a.edges.erase (s, e, t)).length + 1 = a.edges.length :=
    List.length_erase_add_one (mem_edges_iff.2 hstep)
  rw [← length_edges, hperm.length_eq, List.length_cons, List.length_cons, hlength, length_edges]

theorem transitionCount_foldl_detour (h : a.IsClosed) (hnodup : ends.Nodup)
    (hends : ∀ p ∈ ends, a.Step p.1 e p.2) :
    (ends.foldl (Automaton.detour · e record) a).transitionCount =
      a.transitionCount + ends.length := by
  induction ends generalizing a with
  | nil => rfl
  | cons p ends ih =>
      obtain ⟨s, t⟩ := p
      obtain ⟨hfirst, hends⟩ := List.forall_mem_cons.1 hends
      obtain ⟨hnot, hnodup⟩ := List.nodup_cons.1 hnodup
      have hleft : ∀ q ∈ ends, (a.detour e record (s, t)).Step q.1 e q.2 := fun q hq =>
        step_detour_of_ne hfirst.lt_size (hends q hq) fun heq => hnot (heq ▸ hq)
      rw [List.foldl_cons, ih (h.detour hfirst) hnodup hleft, transitionCount_detour h hfirst,
        List.length_cons]
      omega

/-! ### The states in the middle -/

/-- The ends of the transitions on the event that occur. -/
def occurring (a : Automaton) (e : Event) : Set (StateId × StateId) :=
  {p | a.IsReachable p.1 ∧ a.Step p.1 e p.2}

theorem mem_occurrences_iff (h : a.reachable = .ok states) {p : StateId × StateId} :
    p ∈ a.occurrences e states ↔ p ∈ a.occurring e := by
  rw [mem_occurrences (s := p.1) (t := p.2), mem_reachable_iff h]
  rfl

/-- The steps of the detours, each known by the transition that it leads around. -/
theorem isDetourStep_iff {n : Nat} (hnodup : ends.Nodup) :
    IsDetourStep n e record ends x f y ↔
      ∃ p ∈ ends, x = p.1 ∧ f = e ∧ y = n + ends.idxOf p ∨
        x = n + ends.idxOf p ∧ f = record ∧ y = p.2 := by
  constructor
  · rintro ⟨i, s, t, hi, h⟩
    obtain ⟨hlt, hget⟩ := List.getElem?_eq_some_iff.1 hi
    have hidx : ends.idxOf (s, t) = i := hget ▸ hnodup.idxOf_getElem i hlt
    exact ⟨(s, t), List.mem_of_getElem? hi, hidx.symm ▸ h⟩
  · rintro ⟨⟨s, t⟩, hp, h⟩
    exact ⟨ends.idxOf (s, t), s, t, List.getElem?_idxOf hp, h⟩

theorem bijOn_idxOf (n : Nat) (hnodup : ends.Nodup) :
    Set.BijOn (fun p => n + ends.idxOf p) {p | p ∈ ends} (Set.Ico n (n + ends.length)) := by
  refine ⟨fun p hp => ?_, fun p hp q _ heq => ?_, fun x hx => ?_⟩
  · exact ⟨Nat.le_add_right _ _, Nat.add_lt_add_left (List.idxOf_lt_length_of_mem hp) n⟩
  · exact (List.idxOf_inj hp).1 (Nat.add_left_cancel heq)
  · obtain ⟨i, rfl⟩ := Nat.exists_eq_add_of_le hx.1
    have hi : i < ends.length := Nat.lt_of_add_lt_add_left hx.2
    exact ⟨ends[i], List.getElem_mem hi, congrArg (n + ·) (hnodup.idxOf_getElem i hi)⟩

/-! ### What is rewritten -/

/-- The automaton `b` is `a` with each of the `n` transitions on `e` that occur led
through a new state of its own, `middle` of its ends, from which `record` leads on. -/
structure Reroutes (e record : Event) (a b : Automaton) (n : Nat)
    (middle : StateId × StateId → StateId) : Prop where
  encard_eq : (a.occurring e).encard = n
  pid_eq : b.pid = a.pid
  size_eq : b.size = a.size + n
  transitionCount_eq : b.transitionCount = a.transitionCount + n
  /-- The old states keep their marks. -/
  marks_eq : ∀ s < a.size, b.isInitial s = a.isInitial s ∧ b.isAccepting s = a.isAccepting s
  /-- The new states have none. -/
  unmarked : ∀ s, a.size ≤ s → b.isInitial s = false ∧ b.isAccepting s = false
  /-- Every new state is in the middle of one transition, and they of different ones. -/
  bijOn : Set.BijOn middle (a.occurring e) (Set.Ico a.size b.size)
  into_middle : ∀ p ∈ a.occurring e, ∀ x f, b.Step x f (middle p) ↔ x = p.1 ∧ f = e
  from_middle : ∀ p ∈ a.occurring e, ∀ f y, b.Step (middle p) f y ↔ f = record ∧ y = p.2
  /-- Between the old states all other transitions are left, and none comes in. -/
  old_step_iff : ∀ x < a.size, ∀ y < a.size, ∀ f,
    b.Step x f y ↔ a.Step x f y ∧ ¬ (f = e ∧ (x, y) ∈ a.occurring e)
  isClosed : b.IsClosed

theorem reroutes_of_reachable (hclosed : a.IsClosed) (h : a.reachable = .ok states) :
    Reroutes e record a ((a.occurrences e states).foldl (Automaton.detour · e record) a)
      (a.occurrences e states).length (fun p => a.size + (a.occurrences e states).idxOf p) := by
  have hexplored := explored_of_reachable h
  have hnodup : (a.occurrences e states).Nodup := nodup_occurrences hexplored.nodup
  have hset : {p | p ∈ a.occurrences e states} = a.occurring e :=
    Set.ext fun p => mem_occurrences_iff h
  have hends : ∀ p ∈ a.occurrences e states, a.Step p.1 e p.2 ∧ p.2 < a.size := fun p hp => by
    have hstep := (mem_occurrences.1 hp).2
    exact ⟨hstep, hclosed _ _ _ hstep⟩
  generalize a.occurrences e states = ends at *
  have hlt {p : StateId × StateId} (hp : p ∈ a.occurring e) : p.1 < a.size ∧ p.2 < a.size :=
    ⟨hp.2.lt_size, hclosed _ _ _ hp.2⟩
  have hsize : (ends.foldl (Automaton.detour · e record) a).size = a.size + ends.length :=
    size_foldl_detour
  have hstep (x f y) : (ends.foldl (Automaton.detour · e record) a).Step x f y ↔
      (a.Step x f y ∧ ¬ (f = e ∧ (x, y) ∈ a.occurring e)) ∨
        ∃ p ∈ a.occurring e, x = p.1 ∧ f = e ∧ y = a.size + ends.idxOf p ∨
          x = a.size + ends.idxOf p ∧ f = record ∧ y = p.2 := by
    rw [step_foldl_detour hnodup hends, isDetourStep_iff hnodup, ← hset]
    rfl
  have hbij : Set.BijOn (fun p => a.size + ends.idxOf p) (a.occurring e)
      (Set.Ico a.size (a.size + ends.length)) := hset ▸ bijOn_idxOf a.size hnodup
  exact {
    encard_eq := by
      rw [← hset, ← List.coe_toFinset, Set.encard_coe_eq_coe_finsetCard,
        List.toFinset_card_of_nodup hnodup]
    pid_eq := foldl_detour_eq (·.pid) (fun _ _ => rfl) ends
    size_eq := hsize
    transitionCount_eq := transitionCount_foldl_detour hclosed hnodup fun p hp => (hends p hp).1
    marks_eq := fun s _ => ⟨isInitial_foldl_detour, isAccepting_foldl_detour⟩
    unmarked := fun s hs => by
      rw [isInitial_foldl_detour, isAccepting_foldl_detour]
      exact ⟨Bool.eq_false_iff.2 fun hmark => Nat.not_lt.2 hs (isInitial_lt hmark),
        Bool.eq_false_iff.2 fun hmark => Nat.not_lt.2 hs (isAccepting_lt hmark)⟩
    bijOn := by rw [hsize]; exact hbij
    into_middle := fun p hp x f => by
      rw [hstep]
      constructor
      · rintro (⟨hold, -⟩ | ⟨q, hq, ⟨rfl, rfl, heq⟩ | ⟨-, -, heq⟩⟩)
        · exact absurd (hclosed _ _ _ hold) (Nat.not_lt.2 (Nat.le_add_right _ _))
        · obtain rfl := hbij.injOn hp hq heq
          exact ⟨rfl, rfl⟩
        · exact absurd (hlt hq).2 (Nat.not_lt.2 (heq ▸ Nat.le_add_right _ _))
      · rintro ⟨rfl, rfl⟩
        exact .inr ⟨p, hp, .inl ⟨rfl, rfl, rfl⟩⟩
    from_middle := fun p hp f y => by
      rw [hstep]
      constructor
      · rintro (⟨hold, -⟩ | ⟨q, hq, ⟨heq, -, -⟩ | ⟨heq, rfl, rfl⟩⟩)
        · exact absurd hold.lt_size (Nat.not_lt.2 (Nat.le_add_right _ _))
        · exact absurd (hlt hq).1 (Nat.not_lt.2 (heq ▸ Nat.le_add_right _ _))
        · obtain rfl := hbij.injOn hp hq heq
          exact ⟨rfl, rfl⟩
      · rintro ⟨rfl, rfl⟩
        exact .inr ⟨p, hp, .inr ⟨rfl, rfl, rfl⟩⟩
    old_step_iff := fun x hx y hy f => by
      rw [hstep]
      refine or_iff_left ?_
      rintro ⟨p, -, ⟨-, -, rfl⟩ | ⟨rfl, -, -⟩⟩
      · exact Nat.not_lt.2 (Nat.le_add_right _ _) hy
      · exact Nat.not_lt.2 (Nat.le_add_right _ _) hx
    isClosed := fun x f y hxy => by
      rw [hsize]
      rcases (hstep x f y).1 hxy with ⟨hold, -⟩ | ⟨p, hp, ⟨-, -, rfl⟩ | ⟨-, -, rfl⟩⟩
      · exact Nat.lt_add_right _ (hclosed _ _ _ hold)
      · exact (hbij.mapsTo hp).2
      · exact Nat.lt_add_right _ (hlt hp).2 }

/-- Of a closed automaton, tracing reroutes exactly the transitions on the event that
occur, and it returns how many they are. -/
theorem trace_reroutes_what_occurs (h : a.IsClosed) (e record : Event) :
    ∃ n b middle, (InPlace.trace e record).runOn a = (.ok n, b) ∧
      a.trace e record = .ok b ∧ Reroutes e record a b n middle := by
  obtain ⟨states, hstates⟩ := exists_reachable_iff.2 h.isContained
  exact ⟨_, _, _, InPlace.runOn_trace_of_ok hstates, bind_eq_ok.2 ⟨states, hstates, rfl⟩,
    reroutes_of_reachable h hstates⟩

/-- Two initial states, with a loop, a cycle and a choice between two ways on `a`. To the
last state there is no way, so that the transition on `a` out of it is left alone. -/
def knot : Automaton :=
  [(0, .internal 0 "a", 0), (0, .internal 0 "a", 1), (1, .internal 0 "a", 0),
    (1, .internal 0 "b", 2), (3, .internal 0 "a", 1)].foldl
    (fun a (s, e, t) => a.addTransition s e t)
    ⟨0, [⟨true, false, ∅⟩, ⟨true, true, ∅⟩, ⟨false, true, ∅⟩, ⟨false, false, ∅⟩]⟩

theorem knot_reroutes :
    knot.IsClosed ∧ ∃ b middle,
      (InPlace.trace (.internal 0 "a") (.send ⟨0, 0, 1, some "tracer0"⟩ "a_p0")).runOn knot =
        (.ok 3, b) ∧
      Reroutes (.internal 0 "a") (.send ⟨0, 0, 1, some "tracer0"⟩ "a_p0") knot b 3 middle := by
  have hclosed : knot.IsClosed := by decide
  have hstates : knot.reachable = .ok [1, 2, 0] := by cbv
  have hcount : (knot.occurrences (.internal 0 "a") [1, 2, 0]).length = 3 := by decide
  obtain ⟨n, b, middle, hrun, -, hreroutes⟩ := trace_reroutes_what_occurs hclosed
    (.internal 0 "a") (.send ⟨0, 0, 1, some "tracer0"⟩ "a_p0")
  have hanswer := hrun.symm.trans (InPlace.runOn_trace_of_ok hstates)
  obtain rfl : n = 3 := (Except.ok.inj (Prod.mk.inj hanswer).1).trans hcount
  exact ⟨hclosed, b, middle, hrun, hreroutes⟩

end ProtocolInference.Automaton
