import Mathlib.Data.List.Forall2
import ProtocolInference.Proofs.System.Progress
import ProtocolInference.System.BadState
import ProtocolInference.System.InPlace

/-!
The bad states cover the system.

What a bad state says of a channel it says by position, so three lists have
to stay in step: the channels, the traced invariants with theirs, and the
constraints. They do so because a call either traces an invariant and puts
one channel behind all others, with the next index, or fails and changes
nothing (`runOn_trace`); between calls the log of the answers tells the
whole table (`Ledger`). The global states are those in which every process
accepts. Tracing makes no state accepting, so they are the ones from before,
listed in the order in which `choices` lists them.
-/

namespace ProtocolInference

/-! ### Choices -/

/-- A choice takes an element of each list. -/
theorem mem_choices_iff {α : Type} {ls : List (List α)} {l : List α} :
    l ∈ choices ls ↔ List.Forall₂ (fun l a => a ∈ l) ls l := by
  induction ls generalizing l with
  | nil => rw [choices, List.mem_singleton, List.forall₂_nil_left_iff]
  | cons head ls ih =>
      rw [choices, List.mem_flatMap, List.forall₂_cons_left_iff]
      constructor
      · rintro ⟨a, ha, hl⟩
        obtain ⟨rest, hrest, rfl⟩ := List.mem_map.1 hl
        exact ⟨a, rest, ha, ih.1 hrest, rfl⟩
      · rintro ⟨a, rest, ha, hrest, rfl⟩
        exact ⟨a, ha, List.mem_map.2 ⟨rest, ih.2 hrest, rfl⟩⟩

/-- The choices from increasing lists increase, in lexicographic order. -/
theorem pairwise_lt_choices {ls : List (List Nat)} (h : ∀ l ∈ ls, l.Pairwise (· < ·)) :
    (choices ls).Pairwise (· < ·) := by
  induction ls with
  | nil => exact List.pairwise_singleton ..
  | cons head ls ih =>
      obtain ⟨hhead, hls⟩ := List.forall_mem_cons.1 h
      rw [choices, List.pairwise_flatMap]
      constructor
      · intro a _
        rw [List.pairwise_map]
        exact (ih hls).imp fun hlt => List.cons_lt_cons_iff.2 (.inr ⟨rfl, hlt⟩)
      · apply hhead.imp
        intro a b hab x hx y hy
        obtain ⟨x', -, rfl⟩ := List.mem_map.1 hx
        obtain ⟨y', -, rfl⟩ := List.mem_map.1 hy
        exact List.cons_lt_cons_iff.2 (.inl hab)

namespace System

variable {sys traced t t' : System} {inv : Invariant} {k index : Nat} {e : Event}

theorem mem_acceptingStates_iff {states : List StateId} :
    states ∈ sys.acceptingStates ↔
      List.Forall₂ (fun a s => a.isAccepting s = true) sys.automata states := by
  rw [acceptingStates, mem_choices_iff, List.forall₂_map_left_iff]
  simp only [Automaton.mem_acceptingStates]

theorem pairwise_lt_acceptingStates (sys : System) : sys.acceptingStates.Pairwise (· < ·) := by
  apply pairwise_lt_choices
  intro l hl
  obtain ⟨a, -, rfl⟩ := List.mem_map.1 hl
  exact List.pairwise_lt_range.filter _

theorem acceptingStates_of_traceEvent (h : t.traceEvent k e = .ok t') :
    t'.acceptingStates = t.acceptingStates := by
  obtain ⟨-, hprocesses, hautomata⟩ := traceEvent_eq_ok h
  refine congrArg choices (map_automata_congr hprocesses fun {pid b} hb => ?_)
  rcases hautomata pid b hb with ⟨-, hold⟩ | ⟨rfl, a, ha, hab⟩
  · exact ⟨b, hold, rfl⟩
  · exact ⟨a, ha, Automaton.acceptingStates_of_trace hab⟩

theorem acceptingStates_of_trace (h : t.trace inv = .ok (t', index)) :
    t'.acceptingStates = t.acceptingStates :=
  trace_induction (P := fun u => u.acceptingStates = t.acceptingStates)
    (fun _ _ _ _ hstep hu => (acceptingStates_of_traceEvent hstep).trans hu)
    (fun _ _ hu => hu) h rfl

/-! ### Tracing in place -/

namespace InPlace

theorem runOn_get (t : System) : (get : InPlace System).runOn t = (.ok t, t) := rfl

theorem runOn_checkNew (t : System) (inv : Invariant) :
    (checkNew inv).runOn t =
      (if t.tracers.contains inv then .error (.alreadyTraced inv) else .ok (), t) := by
  show ((if t.tracers.contains inv then throw _ else pure () : InPlace Unit).runOn t) = _
  split
  · rfl
  · rfl

theorem runOn_checkOwner (t : System) (e : Event) :
    (checkOwner e).runOn t = (ownerCheck t e, t) := by
  show ((if e.pid < t.processes then pure () else throw _ : InPlace Unit).runOn t) = _
  rw [ownerCheck]
  split
  · rfl
  · rfl

theorem runOn_forM_checkOwner (t : System) (events : List Event) :
    (events.forM checkOwner).runOn t = (events.forM (ownerCheck t), t) := by
  induction events with
  | nil => rfl
  | cons e events ih =>
      have hhead := runOn_checkOwner t e
      show (checkOwner e >>= fun _ => events.forM checkOwner).runOn t =
        (ownerCheck t e >>= fun _ => events.forM (ownerCheck t), t)
      cases hcheck : ownerCheck t e with
      | ok u =>
          rw [hcheck] at hhead
          exact (run_bind_of_ok hhead _).trans ih
      | error err =>
          rw [hcheck] at hhead
          exact run_bind_of_error hhead _

theorem runOn_traceEvent (h : t.traceEvent k e = .ok t') :
    (traceEvent k e).runOn t = (.ok (), t') := by
  refine (run_bind_of_ok (runOn_get t) _).trans ?_
  rw [h]
  rfl

theorem runOn_forM_traceEvent {events : List Event}
    (h : events.foldlM (fun t e => t.traceEvent k e) t = .ok t') :
    (events.forM (traceEvent k)).runOn t = (.ok (), t') := by
  induction events generalizing t with
  | nil =>
      obtain rfl := Except.ok.inj h
      rfl
  | cons e events ih =>
      rw [List.foldlM_cons, bind_eq_ok] at h
      obtain ⟨next, hnext, h⟩ := h
      exact (run_bind_of_ok (runOn_traceEvent hnext) _).trans (ih h)

/-- What can be traced is traced in place in the same way. -/
theorem runOn_trace_of_ok (h : t.trace inv = .ok (t', index)) :
    (trace inv).runOn t = (.ok index, t') := by
  obtain ⟨hnew, howned, final, hfinal, rfl, rfl⟩ := trace_eq_ok.1 h
  have hfirst := runOn_checkNew t inv
  have hcheck := runOn_forM_checkOwner t inv.events
  have htracers : final.tracers = t.tracers :=
    foldlM_induction (P := fun u : System => u.tracers = t.tracers)
      (fun _ _ _ _ hstep hu => (tracers_of_traceEvent hstep).trans hu) hfinal rfl
  have hall : inv.events.forM (ownerCheck t) = .ok () := forM_ownerCheck_eq_ok.2 howned
  rw [hnew, if_neg Bool.false_ne_true] at hfirst
  rw [hall] at hcheck
  rw [trace]
  refine (run_bind_of_ok hfirst _).trans ?_
  refine (run_bind_of_ok hcheck _).trans ?_
  refine (run_bind_of_ok (runOn_get t) _).trans ?_
  refine (run_bind_of_ok (runOn_forM_traceEvent hfinal) _).trans ?_
  show (Except.ok (t.firstTracer + t.tracers.size),
    ({ final with tracers := final.tracers.insert inv _ } : System)) = _
  rw [htracers]

theorem runOn_trace_of_check {err : SystemError}
    (h : t.tracers.contains inv = true ∧ err = .alreadyTraced inv ∨
      t.tracers.contains inv = false ∧ inv.events.forM t.ownerCheck = .error err) :
    (trace inv).runOn t = (.error err, t) := by
  have hfirst := runOn_checkNew t inv
  have hcheck := runOn_forM_checkOwner t inv.events
  rcases h with ⟨hold, rfl⟩ | ⟨hnew, herr⟩
  · rw [hold, if_pos rfl] at hfirst
    exact run_bind_of_error hfirst _
  · rw [hnew, if_neg Bool.false_ne_true] at hfirst
    rw [herr] at hcheck
    exact (run_bind_of_ok hfirst _).trans (run_bind_of_error hcheck _)

/-- What cannot be traced leaves the system as it is: a closed system leaves no way to
fail but the checks. -/
theorem runOn_trace_of_error (hclosed : t.IsClosed) {err : SystemError}
    (h : t.trace inv = .error err) : (trace inv).runOn t = (.error err, t) :=
  runOn_trace_of_check (hclosed.check_of_trace_eq_error h)

end InPlace

/-! ### The log of the calls -/

variable {log : List (Invariant × Except SystemError Nat)} {answer : Except SystemError Nat}

/-- What the answers to the calls tell of the system that comes from `sys`. -/
structure Ledger (sys : System) (log : List (Invariant × Except SystemError Nat)) (t : System) :
    Prop where
  closed : t.IsClosed
  channels_eq : t.channels = sys.channels
  acceptingStates_eq : t.acceptingStates = sys.acceptingStates
  /-- The tracer channels are numbered on from the real ones. -/
  indices : t.tracers.values.map (·.index) = List.range' sys.firstTracer t.tracers.size
  mem_log_iff : ∀ inv index,
    (inv, .ok index) ∈ log ↔ ∃ c, t.tracers.get? inv = some c ∧ c.index = index

namespace Ledger

theorem none (hsys : sys.IsFinished) (hclosed : sys.IsClosed) : Ledger sys [] sys where
  closed := hclosed
  channels_eq := rfl
  acceptingStates_eq := rfl
  indices := by
    rw [hsys.tracers_eq]
    rfl
  mem_log_iff inv index := by
    rw [hsys.tracers_eq]
    simp

theorem firstTracer_eq (h : Ledger sys log t) : t.firstTracer = sys.firstTracer :=
  congrArg List.length h.channels_eq

theorem refuse (h : Ledger sys log t) (err : SystemError) :
    Ledger sys (log ++ [(inv, .error err)]) t where
  closed := h.closed
  channels_eq := h.channels_eq
  acceptingStates_eq := h.acceptingStates_eq
  indices := h.indices
  mem_log_iff inv' index := by
    rw [← h.mem_log_iff]
    simp

theorem trace (h : Ledger sys log t) (htrace : t.trace inv = .ok (t', index)) :
    Ledger sys (log ++ [(inv, .ok index)]) t' := by
  have hchannels : t'.channels = t.channels := ((AddsSends.refl t).trace htrace).channels_eq
  have haccepting := acceptingStates_of_trace htrace
  have hclosed := h.closed.trace htrace
  obtain ⟨hnew, -, final, -, rfl, rfl⟩ := trace_eq_ok.1 htrace
  have hnone : t.tracers.get? inv = .none := by simpa [OrderedMap.contains] using hnew
  constructor
  case closed => exact hclosed
  case channels_eq => exact hchannels.trans h.channels_eq
  case acceptingStates_eq => exact haccepting.trans h.acceptingStates_eq
  case indices =>
    show ((t.tracers.insert inv _).values.map (·.index)) =
      List.range' _ (t.tracers.insert inv _).size
    rw [OrderedMap.values_insert hnone, OrderedMap.size_insert hnone, List.map_append, h.indices,
      List.range'_1_concat, ← h.firstTracer_eq]
    rfl
  case mem_log_iff =>
    intro inv' index
    show _ ↔ ∃ c, (t.tracers.insert inv _).get? inv' = some c ∧ _
    rw [List.mem_append, List.mem_singleton, h.mem_log_iff, OrderedMap.get?_insert]
    by_cases heq : inv' = inv
    · subst heq
      simp [hnone, tracerChannel, eq_comm]
    · simp [heq]

theorem call (h : Ledger sys log t) (hrun : (InPlace.trace inv).runOn t = (answer, t')) :
    Ledger sys (log ++ [(inv, answer)]) t' := by
  cases htrace : t.trace inv with
  | error err =>
      rw [InPlace.runOn_trace_of_error h.closed htrace] at hrun
      obtain ⟨rfl, rfl⟩ := Prod.mk.inj hrun
      exact h.refuse err
  | ok result =>
      rw [InPlace.runOn_trace_of_ok htrace] at hrun
      obtain ⟨rfl, rfl⟩ := Prod.mk.inj hrun
      exact h.trace htrace

end Ledger

theorem Calls.ledger (h : sys.Calls log traced) (hsys : sys.IsFinished) (hclosed : sys.IsClosed) :
    Ledger sys log traced := by
  induction h with
  | none => exact .none hsys hclosed
  | call _ hrun ih => exact ih.call hrun

/-! ### Positions -/

/-- All channels are numbered by position. -/
theorem Ledger.map_index_eq (h : Ledger sys log traced) (hsys : sys.IsFinished) :
    traced.allChannels.map (·.index) = List.range traced.allChannels.length := by
  have hreal : sys.channels.map (·.index) = List.range sys.channels.length := by
    apply List.ext_getElem
    · simp
    · intro i hi hi'
      have hlt : i < sys.channels.length := by simpa using hi
      have hindex := hsys.index_eq (List.getElem?_eq_getElem hlt)
      simpa using hindex
  rw [length_allChannels, allChannels, List.map_append, h.channels_eq, hreal, h.indices,
    h.firstTracer_eq, List.range_add, List.range'_eq_map_range]
  rfl

theorem getElem?_queueConstraints (hindex : traced.allChannels.map (·.index) =
    List.range traced.allChannels.length) {i : Nat} (hi : i < traced.allChannels.length) :
    (traced.queueConstraints inv index)[i]? =
      some (if i < traced.channels.length then .empty
        else if i = index then inv.violation else .anything) := by
  have hnumber : traced.allChannels[i].index = i := by
    have hget := congrArg (·[i]?) hindex
    simpa [hi] using hget
  rw [queueConstraints]
  by_cases hlt : i < traced.channels.length
  · rw [List.getElem?_append_left (by simpa using hlt), if_pos hlt]
    simp [hlt]
  · have hge := Nat.not_lt.1 hlt
    have htracer :
        traced.tracers.values[i - traced.channels.length]? = some traced.allChannels[i] := by
      rw [← List.getElem?_append_right hge]
      exact List.getElem?_eq_getElem hi
    rw [List.getElem?_append_right (by simpa using hge), List.length_map, List.getElem?_map,
      htracer, if_neg hlt, Option.map_some, hnumber]

/-- The bad states of the invariant that is traced on the channel of the given
index: one for each choice of accepting states, and each with a constraint
on every channel in its place. -/
structure IsCover (traced : System) (inv : Invariant) (index : Nat) (bad : List BadState) :
    Prop where
  index_mem : traced.channels.length ≤ index ∧ index < traced.allChannels.length
  mem_states_iff : ∀ states, states ∈ bad.map (·.states) ↔
    List.Forall₂ (fun a s => a.isAccepting s = true) traced.automata states
  increasing : (bad.map (·.states)).Pairwise (· < ·)
  length_queues : ∀ b ∈ bad, b.queues.length = traced.allChannels.length
  queue_eq : ∀ b ∈ bad, ∀ i < traced.allChannels.length,
    b.queues[i]? = some (if i < traced.channels.length then .empty
      else if i = index then inv.violation else .anything)

theorem Ledger.index_mem (h : Ledger sys log traced) {c : Channel}
    (hc : traced.tracers.get? inv = some c) :
    traced.channels.length ≤ c.index ∧ c.index < traced.allChannels.length := by
  have hmem : c.index ∈ traced.tracers.values.map (·.index) :=
    List.mem_map.2 ⟨c, List.mem_map.2 ⟨_, OrderedMap.get?_eq_some_iff.1 hc, rfl⟩, rfl⟩
  rw [h.indices, List.mem_range'_1, ← h.firstTracer_eq] at hmem
  rwa [length_allChannels]

theorem map_states_bad (l : List (List StateId)) (queues : List QueueConstraint) :
    (l.map fun states => (⟨states, queues⟩ : BadState)).map (·.states) = l := by
  rw [List.map_map]
  exact List.map_id l

theorem Ledger.isCover (h : Ledger sys log traced) (hsys : sys.IsFinished) {c : Channel}
    (hc : traced.tracers.get? inv = some c) :
    traced.IsCover inv c.index (traced.acceptingStates.map fun states =>
      ⟨states, traced.queueConstraints inv c.index⟩) := by
  constructor
  case index_mem => exact h.index_mem hc
  case mem_states_iff =>
    intro states
    rw [map_states_bad]
    exact mem_acceptingStates_iff
  case increasing =>
    rw [map_states_bad]
    exact pairwise_lt_acceptingStates traced
  case length_queues =>
    intro b hb
    obtain ⟨states, -, rfl⟩ := List.mem_map.1 hb
    show (traced.queueConstraints inv c.index).length = _
    simp [queueConstraints, allChannels]
  case queue_eq =>
    intro b hb i hi
    obtain ⟨states, -, rfl⟩ := List.mem_map.1 hb
    exact getElem?_queueConstraints (h.map_index_eq hsys) hi

/-- **The bad states cover the system exactly**, whatever calls have been made,
and the channels are numbered by position throughout. -/
theorem bad_states_cover_the_system (hsys : sys.IsFinished) (hclosed : sys.IsClosed)
    (hcalls : sys.Calls log traced) :
    (sys.channels <+: traced.allChannels ∧
      traced.allChannels.map (·.index) = List.range traced.allChannels.length) ∧
    (∀ inv err t, (InPlace.trace inv).runOn traced = (.error err, t) → t = traced) ∧
    ∀ inv, ((∃ err, traced.badStates inv = .error err) ↔ ∀ index, (inv, .ok index) ∉ log) ∧
      ∀ index, (inv, .ok index) ∈ log → ∃ bad, traced.badStates inv = .ok bad ∧
        traced.IsCover inv index bad ∧ bad.map (·.states) = sys.acceptingStates := by
  have hledger := hcalls.ledger hsys hclosed
  refine ⟨⟨?_, hledger.map_index_eq hsys⟩, ?_, fun inv => ⟨?_, ?_⟩⟩
  · rw [allChannels, hledger.channels_eq]
    exact List.prefix_append ..
  · intro inv err t hrun
    cases htrace : traced.trace inv with
    | error err' =>
        rw [InPlace.runOn_trace_of_error hledger.closed htrace] at hrun
        exact (Prod.mk.inj hrun).2.symm
    | ok result =>
        rw [InPlace.runOn_trace_of_ok htrace] at hrun
        cases (Prod.mk.inj hrun).1
  · simp only [hledger.mem_log_iff]
    rw [badStates]
    cases traced.tracers.get? inv with
    | none => simp
    | some c => simp
  · intro index hmem
    obtain ⟨c, hc, rfl⟩ := (hledger.mem_log_iff inv index).1 hmem
    refine ⟨_, by rw [badStates, hc], hledger.isCover hsys hc, ?_⟩
    rw [← hledger.acceptingStates_eq]
    exact map_states_bad ..

/-- Two invariants are traced, and in between the first one is tried again. -/
theorem oneStep_calls_cover :
    ∃ log traced bad, oneStep.Calls log traced ∧
      log = [(precededB, .ok 0), (precededB, .error (.alreadyTraced precededB)),
        (followedA, .ok 1)] ∧
      traced.badStates followedA = .ok bad ∧ bad.map (·.states) = [[1]] ∧
      ∀ b ∈ bad, b.queues[0]? = some .anything ∧ b.queues[1]? = some followedA.violation := by
  have hclosed := oneStep_isClosed
  have hok : (oneStep.trace precededB >>= fun first => (first.1.trace followedA).map fun second =>
      ((first.2, first.1.tracers.contains precededB), second.2, second.1.channels.length,
        second.1.allChannels.length)) = .ok ((0, true), 1, 0, 2) := by cbv
  obtain ⟨⟨t, i⟩, hfirst, hok⟩ := bind_eq_ok.1 hok
  obtain ⟨⟨t', j⟩, hsecond, heq⟩ := map_eq_ok.1 hok
  simp only [Prod.mk.injEq] at heq
  obtain ⟨⟨rfl, hcontains⟩, rfl, hreal, hall⟩ := heq
  have hagain : t.trace precededB = .error (.alreadyTraced precededB) := by
    rw [trace, hcontains]
    rfl
  have hcalls := ((Calls.none.call (InPlace.runOn_trace_of_ok hfirst)).call
    (InPlace.runOn_trace_of_error (hclosed.trace hfirst) hagain)).call
      (InPlace.runOn_trace_of_ok hsecond)
  obtain ⟨-, -, hinv⟩ := bad_states_cover_the_system oneStep_isFinished hclosed hcalls
  obtain ⟨bad, hbad, hcover, hstates⟩ := (hinv followedA).2 1 (by simp)
  refine ⟨_, t', bad, hcalls, rfl, hbad, hstates, fun b hb => ?_⟩
  have hqueue := hcover.queue_eq b hb
  simp only [hreal, hall] at hqueue
  exact ⟨hqueue 0 (by decide), hqueue 1 (by decide)⟩

end System

end ProtocolInference
