import ProtocolInference.Proofs.Search
import ProtocolInference.Proofs.System.Recording

/-!
Tracing changes nothing but what it inserts.

Every automaton of a traced system unfolds the automaton that it was, so
between original states there are the same runs as before, once the
tracer sends are left out. An inserted state is a place on the way: it
is neither initial nor accepting, and a tracer send is all that leads on
from it. So the initial and the accepting global states stay as well,
and a search with enough room finds a violation in the traced model
exactly if it finds one in the model itself.
-/

namespace ProtocolInference

namespace Automaton.Unfolds

variable {a b : Automaton} {home : StateId → StateId} {tracer : Event → Bool} {x : StateId}

theorem isInitial_of_le (h : Unfolds tracer a b home) (hx : a.size ≤ x) :
    b.isInitial x = false := by
  rw [h.isInitial_eq]
  exact Bool.eq_false_iff.2 fun hinitial => Nat.not_lt.2 hx (isInitial_lt hinitial)

theorem isAccepting_of_le (h : Unfolds tracer a b home) (hx : a.size ≤ x) :
    b.isAccepting x = false := by
  rw [h.isAccepting_eq]
  exact Bool.eq_false_iff.2 fun haccepting => Nat.not_lt.2 hx (isAccepting_lt haccepting)

theorem initialStates_eq (h : Unfolds tracer a b home) : b.initialStates = a.initialStates :=
  statesWhere_congr h.size_le h.isInitial_eq

theorem acceptingStates_eq (h : Unfolds tracer a b home) :
    b.acceptingStates = a.acceptingStates := statesWhere_congr h.size_le h.isAccepting_eq

/-- A single transition leads out of an inserted state, on an inserted send. -/
theorem exists_transitions_eq (h : Unfolds tracer a b home) (hx : a.size ≤ x) (hxb : x < b.size) :
    ∃ r y, tracer r = true ∧ b.Step x r y ∧ b.transitions x = [(r, y)] := by
  obtain ⟨r, y, hstep, hr⟩ := h.exists_send hx hxb
  obtain ⟨r', y', hexit⟩ := h.exit hx hxb
  obtain ⟨rfl, rfl⟩ := (hexit r y).1 hstep
  refine ⟨r, y, hr, hstep, List.perm_singleton.1 ?_⟩
  refine (List.perm_ext_iff_of_nodup (b.nodup_transitions x) (List.nodup_singleton _)).2 ?_
  rintro ⟨f, z⟩
  rw [List.mem_singleton, Prod.mk.injEq]
  exact hexit f z

end Automaton.Unfolds

/-! ### Systems -/

namespace System

variable {sys traced : System} {invs : List Invariant} {inv : Invariant}

/-- All transitions lead to states that there are. -/
def IsClosed (sys : System) : Prop := ∀ a ∈ sys.automata, a.IsClosed

theorem IsFinished.isUntraced (h : sys.IsFinished) (hclosed : sys.IsClosed) : sys.IsUntraced :=
  fun _ a ha => ⟨hclosed a (List.mem_of_getElem? ha), fun _ _ _ => h.isTracerEvent_eq_false ha⟩

theorem Unfolds.traceAll (h : sys.IsUntraced)
    (hinvs : ∀ inv ∈ invs, ∀ e ∈ inv.events, sys.isTracerEvent e = false)
    (htrace : sys.traceAll invs = .ok traced) : Unfolds sys traced :=
  traceAll_induction (fun inv hinv _ _ _ hstep ht => ht.trace (hinvs inv hinv) hstep) htrace
    (.refl h)

/-- The system `traced` differs from `sys` in sends on tracer channels and in
nothing else. -/
structure Transparent (sys traced : System) : Prop where
  processes_eq : traced.processes = sys.processes
  runs_iff : ∀ {pid a b}, sys.automaton? pid = some a → traced.automaton? pid = some b →
    ∀ {s t es}, s < a.size → t < a.size →
      ((∃ es', b.Run s es' t ∧ traced.withoutTracers es' = es) ↔ a.Run s es t)
  inserted : ∀ {pid a b}, sys.automaton? pid = some a → traced.automaton? pid = some b →
    ∀ {x}, a.size ≤ x → x < b.size → b.isInitial x = false ∧ b.isAccepting x = false ∧
      ∃ c label y, traced.isTracer c = true ∧ b.transitions x = [(.send c label, y)]
  initialStates_eq : traced.initialStates = sys.initialStates
  acceptingStates_eq : traced.acceptingStates = sys.acceptingStates

namespace Unfolds

/-- What every automaton keeps, the list of the automata keeps. -/
theorem map_automata_eq {β : Type} {view : Automaton → β} (h : Unfolds sys traced)
    (hview : ∀ {a b home}, Automaton.Unfolds sys.isTracerEvent a b home → view b = view a) :
    traced.automata.map view = sys.automata.map view :=
  map_automata_congr h.processes_eq fun hb =>
    let ⟨a, _, ha, hab⟩ := h.automaton hb
    ⟨a, ha, hview hab⟩

theorem transparent (h : Unfolds sys traced) (hsys : sys.IsUntraced)
    (hsends : AddsSends sys traced) : sys.Transparent traced where
  processes_eq := h.processes_eq
  runs_iff := by
    intro pid a b ha hb s t es hs ht
    obtain ⟨a', home, ha', hab⟩ := h.automaton hb
    obtain rfl := Option.some.inj (ha.symm.trans ha')
    rw [← hab.run_iff hs ht, ← h.isTracerEvent_eq]
    exact Iff.rfl
  inserted := by
    intro pid a b ha hb x hx hxb
    obtain ⟨a', home, ha', hab⟩ := h.automaton hb
    obtain rfl := Option.some.inj (ha.symm.trans ha')
    obtain ⟨r, y, hr, hstep, htransitions⟩ := hab.exists_transitions_eq hx hxb
    refine ⟨hab.isInitial_of_le hx, hab.isAccepting_of_le hx, ?_⟩
    rcases hsends.performs ⟨b, x, y, hb, hstep⟩ with ⟨a', s, t, ha', hst⟩ | ⟨c, label, rfl, -⟩
    · rw [(hsys pid a' ha').2 s r t hst] at hr
      cases hr
    · rw [← h.isTracerEvent_eq] at hr
      exact ⟨c, label, y, hr, htransitions⟩
  initialStates_eq := congrArg choices (h.map_automata_eq fun hab => hab.initialStates_eq)
  acceptingStates_eq := congrArg choices (h.map_automata_eq fun hab => hab.acceptingStates_eq)

end Unfolds

end System

/-! ### The search -/

namespace Model

variable {base m : Model} {invs : List Invariant} {inv : Invariant}

theorem Unfolds.traceAll (hbase : base.system.IsUntraced)
    (hinvs : ∀ inv ∈ invs, ∀ e ∈ inv.events, base.system.isTracerEvent e = false)
    (htrace : base.traceAll invs = .ok m) : base.Unfolds m := by
  refine foldlM_induction (fun inv hinv t t' hstep ht => ?_) htrace ⟨rfl, .refl hbase⟩
  obtain ⟨⟨t'', index⟩, htrace, rfl⟩ := map_eq_ok.1 hstep
  exact ht.trace (hinvs inv hinv) htrace

/-- The search, which may look at that many nodes, finds a violation. -/
def Finds (m : Model) (limit : Nat) (inv : Invariant) : Prop :=
  ∃ run, m.search limit inv = .ok (some run)

/-- If the limit does not stop the searches, they find a violation in both
models or in none. -/
theorem Unfolds.finds_iff (h : base.Unfolds m) (hbase : base.system.IsUntraced)
    (hwithin : inv.isWithinProcess = true)
    (hinv : ∀ e ∈ inv.events, base.system.isTracerEvent e = false) :
    ∃ enough, ∀ limit, enough ≤ limit →
      base.search limit inv ≠ .error (.exhausted limit) ∧
      m.search limit inv ≠ .error (.exhausted limit) ∧
      (m.Finds limit inv ↔ base.Finds limit inv) := by
  cases hb : m.system.automaton? inv.pid with
  | none =>
      have ha : base.system.automaton? inv.pid = none := by
        rw [System.automaton?, List.getElem?_eq_none_iff] at hb ⊢
        exact Nat.le_trans (Nat.le_of_eq h.system.processes_eq.symm) hb
      refine ⟨0, fun limit _ => ?_⟩
      simp [Finds, search, hwithin, ha, hb]
  | some b =>
      obtain ⟨a, home, ha, hab⟩ := h.system.automaton hb
      refine ⟨3 * b.size, fun limit hlimit => ?_⟩
      have hle : 3 * a.size ≤ limit :=
        Nat.le_trans (Nat.mul_le_mul_left 3 hab.size_le) hlimit
      obtain ⟨found, hfound⟩ := exists_search hwithin ha (hbase inv.pid a ha).1 hle
      obtain ⟨found', hfound'⟩ := exists_search hwithin hb hab.closed hlimit
      have hsame : found'.isSome = true ↔ found.isSome = true := by
        rw [search_isSome_iff hfound ha, search_isSome_iff hfound' hb]
        constructor
        · rintro ⟨es', haccepts, hfails⟩
          refine ⟨_, hab.accepts_iff.1 ⟨es', haccepts, rfl⟩, ?_⟩
          exact (Invariant.failsOn_filter es' hinv).2 hfails
        · rintro ⟨es, haccepts, hfails⟩
          obtain ⟨es', haccepts', rfl⟩ := hab.accepts_iff.2 haccepts
          exact ⟨es', haccepts', (Invariant.failsOn_filter es' hinv).1 hfails⟩
      rw [Finds, Finds, hfound, hfound']
      refine ⟨fun h => (by cases h), fun h => (by cases h), ?_⟩
      simpa [Option.isSome_iff_exists] using hsame

end Model

/-- **Tracing is transparent**, for every finished system with all its states,
and the search cannot tell a traced model of a graph from the model
before. -/
theorem tracing_is_transparent :
    (∀ {sys traced : System} {invs : List Invariant}, sys.IsFinished → sys.IsClosed →
      (∀ inv ∈ invs, ∀ e ∈ inv.events, sys.isTracerEvent e = false) →
      sys.traceAll invs = .ok traced → sys.Transparent traced) ∧
    (∀ {executions : List Execution} {processes : Nat} {channels channels' : List Channel}
      {g : PartitionGraph} {base m : Model} {invs : List Invariant},
      PartitionGraph.Arises executions processes channels g → g.model channels' = .ok base →
      (∀ inv ∈ invs, ∀ e ∈ inv.events, base.system.isTracerEvent e = false) →
      base.traceAll invs = .ok m →
      ∀ inv, inv.isWithinProcess = true →
        (∀ e ∈ inv.events, base.system.isTracerEvent e = false) →
        ∃ enough, ∀ limit, enough ≤ limit →
          base.search limit inv ≠ .error (.exhausted limit) ∧
          m.search limit inv ≠ .error (.exhausted limit) ∧
          (m.Finds limit inv ↔ base.Finds limit inv)) := by
  constructor
  · intro sys traced invs hsys hclosed hinvs htrace
    have huntraced := hsys.isUntraced hclosed
    exact (System.Unfolds.traceAll huntraced hinvs htrace).transparent huntraced (.traceAll htrace)
  · intro _ _ _ _ g base m invs harises hbase hinvs htrace inv hwithin hinv
    have huntraced := (harises.valid.mirrors_model hbase).isUntraced
    exact (Model.Unfolds.traceAll huntraced hinvs htrace).finds_iff huntraced hwithin hinv

namespace System

/-- A single observation of `a`, and its graph. -/
def oneObservation : List Execution := [⟨[⟨0, none, [⟨.internal 0 "a", 0⟩]⟩]⟩]

def oneGraph : PartitionGraph :=
  .ofArena 1 [] .byIncomingEvent (observeAll (oneObservation.flatMap (·.processes)) .standard []).1

theorem arises_oneGraph : PartitionGraph.Arises oneObservation 1 [] oneGraph :=
  .built (rfl : PartitionGraph.ofExecutions oneObservation 1 [] .byIncomingEvent .standard =
    .ok (oneGraph, ⟨"a", 2⟩))

theorem oneStep_isClosed : oneStep.IsClosed := by
  intro a ha
  obtain rfl := List.mem_singleton.1 ha
  exact Automaton.isClosed_oneStep

theorem oneStep_is_transparent :
    (∃ traced, oneStep.traceAll [precededB, followedA] = .ok traced ∧
      oneStep.Transparent traced) ∧
    ∃ base m, oneGraph.model [] = .ok base ∧ base.traceAll [precededB, followedA] = .ok m ∧
      ∃ enough, ∀ limit, enough ≤ limit →
        (m.Finds limit followedA ↔ base.Finds limit followedA) := by
  constructor
  · have hok : (oneStep.traceAll [precededB, followedA]).map (fun _ => ()) = .ok () := by cbv
    obtain ⟨traced, htrace, -⟩ := map_eq_ok.1 hok
    exact ⟨traced, htrace,
      tracing_is_transparent.1 oneStep_isFinished oneStep_isClosed (by decide) htrace⟩
  · have harises : PartitionGraph.Arises oneObservation 1 [] oneGraph :=
      .built (rfl : PartitionGraph.ofExecutions oneObservation 1 [] .byIncomingEvent .standard =
        .ok (oneGraph, ⟨"a", 2⟩))
    have hok : (oneGraph.model [] >>= fun base =>
        base.traceAll [precededB, followedA]).map (fun _ => ()) = .ok () := by cbv
    obtain ⟨m, hm, -⟩ := map_eq_ok.1 hok
    obtain ⟨base, hbase, htrace⟩ := bind_eq_ok.1 hm
    have hinternal : ∀ inv ∈ [precededB, followedA], ∀ e ∈ inv.events,
        base.system.isTracerEvent e = false := by
      simp [precededB, followedA, Invariant.events, isTracerEvent, Event.channel?]
    obtain ⟨enough, hall⟩ := tracing_is_transparent.2 harises hbase hinternal htrace followedA rfl
      (hinternal followedA (by simp))
    exact ⟨base, m, hbase, htrace, enough, fun limit hlimit => (hall limit hlimit).2.2⟩

end System

end ProtocolInference
