import ProtocolInference.Proofs.System.Recording
import ProtocolInference.System.Configuration

/-!
What the tracer channels tell of a system whose processes run side by
side.

An event and the send that records it are two moves of the system, and
other processes may move in between. So a tracer channel does not hold
the events in the order in which they happened: it holds *an*
interleaving of what the single processes did, with the right order for
each of them (`tracer_channel_interleaves`). If all the events of the
invariant belong to one process this is the order in which they happened.

The bookkeeping is that of the single processes. A move changes what one
process owes, and what it records is of that process; this is where it
matters that nobody else does the events of the invariant, for another
process would owe them to nobody.
-/

namespace ProtocolInference

theorem getElem?_of_mem_choices {α : Type} {ls : List (List α)} {xs : List α} {i : Nat} {x : α}
    (hxs : xs ∈ choices ls) (hx : xs[i]? = some x) : ∃ l, ls[i]? = some l ∧ x ∈ l := by
  induction ls generalizing xs i with
  | nil =>
      obtain rfl := List.mem_singleton.1 hxs
      cases hx
  | cons l ls ih =>
      obtain ⟨y, hy, hxs⟩ := List.mem_flatMap.1 hxs
      obtain ⟨ys, hys, rfl⟩ := List.mem_map.1 hxs
      cases i with
      | zero =>
          obtain rfl := Option.some.inj hx
          exact ⟨l, rfl, hy⟩
      | succ i => exact ih hys hx

theorem Event.perform?_eq_some {e : Event} {contents contents' : Nat → List String} {index : Nat}
    (h : e.perform? contents = some contents')
    (hreceive : ∀ c payload, e = .receive c payload → c.index ≠ index) :
    contents' index = contents index ++ sentOn index [e] := by
  cases e with
  | internal pid name =>
      obtain rfl := Option.some.inj h
      exact (List.append_nil _).symm
  | send c payload =>
      obtain rfl := Option.some.inj h
      by_cases hc : index = c.index
      · simp [sentOn, sentOn?, hc]
      · simp [sentOn, sentOn?, hc, Ne.symm hc]
  | receive c payload =>
      have hne : index ≠ c.index := (hreceive c payload rfl).symm
      rw [perform?] at h
      split at h
      · cases h
      · split at h
        · obtain rfl := Option.some.inj h
          simp [sentOn, sentOn?, hne]
        · cases h

namespace System

variable {sys traced : System} {pid : ProcessId} {e : Event} {index : Nat}
variable {events es past : List Event} {conf conf' : Configuration}
variable {live : ProcessId → StateId → Prop} {owed : ProcessId → StateId → List Event}

/-- Nobody but its own process does the event. -/
def IsOwned (sys : System) (e : Event) : Prop := ∀ pid, sys.Performs pid e → e.pid = pid

/-- Every process is in a state that its automaton has by itself. -/
def HasStates (sys : System) (conf : Configuration) : Prop :=
  ∀ pid s, conf.states[pid]? = some s → ∃ a, sys.automaton? pid = some a ∧ s < a.size

/-- The bookkeeping of every process. -/
def Books (sys traced : System) (index : Nat) (events : List Event)
    (live : ProcessId → StateId → Prop) (owed : ProcessId → StateId → List Event) : Prop :=
  ∀ pid b, traced.automaton? pid = some b → ∃ a, sys.automaton? pid = some a ∧
    Automaton.Records sys.isTracerEvent index (events.filter (·.pid = pid)) a b (live pid) (owed pid)

theorem Records.exists_books (h : sys.Records traced index events) :
    ∃ live owed, sys.Books traced index events live owed := by
  have hbook : ∀ pid, ∃ live owed, ∀ b, traced.automaton? pid = some b →
      ∃ a, sys.automaton? pid = some a ∧
        Automaton.Records sys.isTracerEvent index (events.filter (·.pid = pid)) a b live owed := by
    intro pid
    cases hb : traced.automaton? pid with
    | none => exact ⟨fun _ => True, fun _ => [], fun b hb' => nomatch hb'⟩
    | some b =>
        obtain ⟨a, live, owed, ha, hrecords⟩ := h.automaton hb
        refine ⟨live, owed, fun b' hb' => ?_⟩
        obtain rfl := Option.some.inj hb'
        exact ⟨a, ha, hrecords⟩
  choose live owed hbooks using hbook
  exact ⟨live, owed, hbooks⟩

/-- In the configuration, the channel holds the labels of a list of events, and
for each process these events, with those that it owes, are what it has
done. -/
structure Tells (index : Nat) (events : List Event) (live : ProcessId → StateId → Prop)
    (owed : ProcessId → StateId → List Event) (past : List Event) (conf : Configuration) :
    Prop where
  live : ∀ pid s, conf.states[pid]? = some s → live pid s
  recorded : ∃ recorded : List Event, conf.contents index = recorded.map Event.tracerLabel ∧
    ∀ pid, (past.filter (· ∈ events)).filter (·.pid = pid) =
      recorded.filter (·.pid = pid) ++ (conf.states[pid]?).elim [] (owed pid)

theorem Starts.tells (hbooks : sys.Books traced index events live owed) (h : traced.Starts conf) :
    Tells index events live owed [] conf := by
  obtain ⟨hinitial, hempty⟩ := h
  have hstates : ∀ pid s, conf.states[pid]? = some s → live pid s ∧ owed pid s = [] := by
    intro pid s hs
    obtain ⟨l, hl, hmem⟩ := getElem?_of_mem_choices hinitial hs
    rw [List.getElem?_map] at hl
    obtain ⟨b, hb, rfl⟩ := Option.map_eq_some_iff.1 hl
    obtain ⟨a, -, hrecords⟩ := hbooks pid b hb
    have hs : b.isInitial s = true := Automaton.mem_initialStates.1 hmem
    refine ⟨hrecords.live_of_isInitial s hs, hrecords.owed_of_lt s ?_⟩
    exact Automaton.isInitial_lt (hrecords.isInitial_eq s ▸ hs)
  refine ⟨fun pid s hs => (hstates pid s hs).1, [], hempty index, fun pid => ?_⟩
  cases hs : conf.states[pid]? with
  | none => rfl
  | some s => exact ((hstates pid s hs).2).symm

theorem filter_mem_filter (es events : List Event) (pid : ProcessId) :
    es.filter (· ∈ events.filter (·.pid = pid)) =
      (es.filter (· ∈ events)).filter (·.pid = pid) := by
  simp [List.filter_filter, Bool.and_comm]

/-- What a process records in a move are events of its own. -/
theorem pid_eq_of_mem_now {recorded debt debt' now : List Event}
    (hdone : (past.filter (· ∈ events)).filter (·.pid = pid) =
      recorded.filter (·.pid = pid) ++ debt)
    (hnow : debt ++ es.filter (· ∈ events.filter (·.pid = pid)) = now ++ debt') :
    ∀ f ∈ now, f.pid = pid := by
  intro f hf
  have hmem : f ∈ debt ++ es.filter (· ∈ events.filter (·.pid = pid)) :=
    hnow ▸ List.mem_append_left _ hf
  rcases List.mem_append.1 hmem with hmem | hmem
  · have hpast : f ∈ (past.filter (· ∈ events)).filter (·.pid = pid) :=
      hdone ▸ List.mem_append_right _ hmem
    exact of_decide_eq_true (List.mem_filter.1 hpast).2
  · rw [filter_mem_filter] at hmem
    exact of_decide_eq_true (List.mem_filter.1 hmem).2

/-- A move records what is owed, or owes what it does not record. -/
theorem Tells.move (h : Tells index events live owed past conf)
    (hbooks : sys.Books traced index events live owed)
    (howned : ∀ pid, ∀ f ∈ events, traced.Performs pid f → f.pid = pid)
    (hreceive : ∀ pid c payload, traced.Performs pid (.receive c payload) → c.index ≠ index)
    (hmove : traced.Moves conf e conf') : Tells index events live owed (past ++ [e]) conf' := by
  cases hmove with
  | @move pid b s t _ contents hb hs hstep hperform =>
    obtain ⟨recorded, hcontents, hdone⟩ := h.recorded
    obtain ⟨a, -, hrecords⟩ := hbooks pid b hb
    obtain ⟨now, hnow, hsent⟩ := hrecords.carries (h.live pid s hs) hstep
    have hperforms : traced.Performs pid e := ⟨b, s, t, hb, hstep⟩
    have hpid : pid < conf.states.length := (List.getElem?_eq_some_iff.1 hs).1
    have hhere := hdone pid
    rw [hs, Option.elim_some] at hhere
    have hown : ∀ f ∈ now, f.pid = pid := pid_eq_of_mem_now hhere hnow
    constructor
    case live =>
      intro pid' x hx
      rw [List.getElem?_set] at hx
      split at hx
      · next heq =>
        subst heq
        obtain rfl := Option.some.inj hx
        exact hrecords.live_of_step (h.live pid s hs) hstep
      · exact h.live pid' x hx
    case recorded =>
      refine ⟨recorded ++ now, ?_, fun pid' => ?_⟩
      · rw [List.map_append, ← hsent, ← hcontents]
        exact Event.perform?_eq_some hperform fun c payload heq =>
          hreceive pid c payload (heq ▸ hperforms)
      · rw [List.filter_append, List.filter_append, List.filter_append, hdone pid',
          List.getElem?_set, List.append_assoc, List.append_assoc]
        refine congrArg _ ?_
        by_cases hsame : pid = pid'
        · subst hsame
          rw [if_pos rfl, if_pos hpid, hs, Option.elim_some, Option.elim_some, ← filter_mem_filter,
            hnow,
            List.filter_eq_self.2 fun f hf => decide_eq_true (hown f hf)]
        · have hnone : ([e].filter (· ∈ events)).filter (·.pid = pid') = [] := by
            refine List.filter_eq_nil_iff.2 fun f hf => ?_
            obtain ⟨hf, hmem⟩ := List.mem_filter.1 hf
            obtain rfl := List.mem_singleton.1 hf
            rw [howned pid f (of_decide_eq_true hmem) hperforms]
            simpa using hsame
          have hnow' : now.filter (·.pid = pid') = [] :=
            List.filter_eq_nil_iff.2 fun f hf => by simpa [hown f hf] using hsame
          rw [if_neg hsame, hnone, hnow', List.append_nil, List.nil_append]

theorem Tells.runs (h : Tells index events live owed past conf)
    (hbooks : sys.Books traced index events live owed)
    (howned : ∀ pid, ∀ f ∈ events, traced.Performs pid f → f.pid = pid)
    (hreceive : ∀ pid c payload, traced.Performs pid (.receive c payload) → c.index ≠ index)
    (hruns : traced.Runs conf es conf') : Tells index events live owed (past ++ es) conf' := by
  induction hruns generalizing past with
  | stay => rwa [List.append_nil]
  | @step c d f e es hmove _ ih =>
      rw [List.append_cons]
      exact ih (h.move hbooks howned hreceive hmove)

namespace AddsSends

theorem pid_eq (h : AddsSends sys traced) (he : sys.isTracerEvent e = false)
    (howned : sys.IsOwned e) (hperforms : traced.Performs pid e) : e.pid = pid := by
  rcases h.performs hperforms with hperforms | ⟨_, _, -, htracer⟩
  · exact howned pid hperforms
  · rw [he] at htracer
    cases htracer

/-- Nobody receives on a tracer channel. -/
theorem ne_of_receive (h : AddsSends sys traced) (hsys : sys.IsFinished)
    (hindex : sys.firstTracer ≤ index) {c : Channel} {payload : String}
    (hperforms : traced.Performs pid (.receive c payload)) : c.index ≠ index := by
  rintro rfl
  have htracer : sys.isTracerEvent (.receive c payload) = true := decide_eq_true hindex
  rcases h.performs hperforms with ⟨a, x, y, ha, hstep⟩ | ⟨_, _, hsend, -⟩
  · rw [hsys.isTracerEvent_eq_false ha hstep] at htracer
    cases htracer
  · cases hsend

end AddsSends

/-- In a state that its automaton has by itself, a process owes nothing. -/
theorem Books.owed_eq_nil (h : sys.Books traced index events live owed)
    (hprocesses : traced.processes = sys.processes) (hstates : sys.HasStates conf)
    (pid : ProcessId) : (conf.states[pid]?).elim [] (owed pid) = [] := by
  cases hs : conf.states[pid]? with
  | none => rfl
  | some s =>
      obtain ⟨a, ha, hlt⟩ := hstates pid s hs
      obtain ⟨b, hb⟩ := @automaton?_of_lt traced pid (hprocesses ▸ automaton?_lt ha)
      obtain ⟨a', ha', hbook⟩ := h pid b hb
      obtain rfl := Option.some.inj (ha.symm.trans ha')
      exact hbook.owed_of_lt s hlt

theorem eq_of_filter_pid_eq {l l' : List Event}
    (hsame : ∀ pid, l.filter (·.pid = pid) = l'.filter (·.pid = pid))
    (hone : ∀ f ∈ l', f.pid = pid) : l = l' := by
  have hone' : ∀ f ∈ l, f.pid = pid := by
    intro f hf
    have hmem : f ∈ l.filter (·.pid = f.pid) := List.mem_filter.2 ⟨hf, decide_eq_true rfl⟩
    rw [hsame] at hmem
    exact hone f (List.mem_filter.1 hmem).1
  have heq := hsame pid
  rwa [List.filter_eq_self.2 fun f hf => decide_eq_true (hone' f hf),
    List.filter_eq_self.2 fun f hf => decide_eq_true (hone f hf)] at heq

/-- **A tracer channel holds an interleaving** of what the processes have done
of the events of its invariant: for each process, its own events in their
order. If all of them belong to one process, this is the record of the
run. -/
theorem tracer_channel_interleaves {invs : List Invariant} {inv : Invariant} {c : Channel}
    (hsys : sys.IsFinished) (htrace : sys.traceAll invs = .ok traced)
    (hc : traced.tracers.get? inv = some c)
    (hevents : ∀ e ∈ inv.events, sys.isTracerEvent e = false ∧ sys.IsOwned e)
    (hreaches : traced.Reaches es conf) (hstates : sys.HasStates conf) :
    ∃ recorded : List Event, conf.contents c.index = recorded.map Event.tracerLabel ∧
      (∀ pid, recorded.filter (·.pid = pid) = (inv.occurrences es).filter (·.pid = pid)) ∧
      ((∀ e ∈ inv.events, e.pid = inv.pid) → conf.contents c.index = inv.record es) := by
  obtain ⟨hindex, -, hrecords⟩ := (hsys.accounts_of_traceAll htrace).used inv c hc
  have hrecords := hrecords fun e he => (hevents e he).1
  obtain ⟨live, owed, hbooks⟩ := hrecords.exists_books
  obtain ⟨start, hstart, hruns⟩ := hreaches
  have hadds := AddsSends.traceAll htrace
  have htells := (hstart.tells hbooks).runs hbooks
    (fun pid f hf => hadds.pid_eq (hevents f hf).1 (hevents f hf).2)
    (fun pid d payload => hadds.ne_of_receive hsys hindex) hruns
  obtain ⟨recorded, hcontents, hdone⟩ := htells.recorded
  have hsame : ∀ pid, recorded.filter (·.pid = pid) =
      (inv.occurrences es).filter (·.pid = pid) := by
    intro pid
    have hpid := hdone pid
    rw [hbooks.owed_eq_nil hrecords.processes_eq hstates, List.append_nil] at hpid
    exact hpid.symm
  refine ⟨recorded, hcontents, hsame, fun hone => ?_⟩
  have hocc : ∀ f ∈ inv.occurrences es, f.pid = inv.pid := fun f hf =>
    hone f (of_decide_eq_true (List.mem_filter.1 hf).2)
  rw [hcontents, eq_of_filter_pid_eq hsame hocc, Invariant.record]

/-! ### A race

Two processes do `a` and `b` once. If the second one comes in between the first
event and its record, the records are exchanged. -/

/-- The invariant `a AP b` between two processes. -/
def precededAcross : Invariant := ⟨.alwaysPrecedes, .internal 0 "a", .internal 1 "b", none⟩

/-- The records of the two events. -/
def raceRecords : Event × Event :=
  (.send ⟨0, 0, 0, some "tracer0"⟩ "a_p0", .send ⟨1, 1, 0, some "tracer0"⟩ "b_p1")

/-- One way in which the race can go. -/
def raceRun : List Event :=
  [.internal 0 "a", .internal 1 "b", raceRecords.2, raceRecords.1]

/-- Wherever the two events and their records can be done, `b` can be recorded
first. -/
theorem reaches_race {traced : System} {a b : Automaton} {m n : StateId}
    (hstart : [0, 0] ∈ traced.initialStates) (ha : traced.automaton? 0 = some a)
    (hb : traced.automaton? 1 = some b) (ha₁ : a.Step 0 (.internal 0 "a") m)
    (ha₂ : a.Step m raceRecords.1 1) (hb₁ : b.Step 0 (.internal 1 "b") n)
    (hb₂ : b.Step n raceRecords.2 1) :
    ∃ conf, traced.Reaches raceRun conf ∧ conf.states = [1, 1] ∧
      conf.contents 0 = ["b_p1", "a_p0"] := by
  have hruns := Runs.step (.move ha (c := ⟨[0, 0], fun _ => []⟩) rfl ha₁ rfl) <|
    .step (.move hb rfl hb₁ rfl) <| .step (.move hb rfl hb₂ rfl) <|
      .step (.move ha rfl ha₂ rfl) (.stay _)
  exact ⟨_, ⟨_, ⟨hstart, fun _ => rfl⟩, hruns⟩, rfl, rfl⟩

theorem hasStates_pair {a b : Automaton} {s t : StateId} (hstates : conf.states = [s, t])
    (hs : s < a.size) (ht : t < b.size) : HasStates ⟨[], [a, b], ∅⟩ conf := by
  intro pid x hx
  rw [hstates] at hx
  match pid with
  | 0 =>
      obtain rfl := Option.some.inj hx
      exact ⟨a, rfl, hs⟩
  | 1 =>
      obtain rfl := Option.some.inj hx
      exact ⟨b, rfl, ht⟩
  | _ + 2 => cases hx

/-- The two processes. -/
def racerA : Automaton := .oneStep 0 (.internal 0 "a")

def racerB : Automaton := .oneStep 1 (.internal 1 "b")

def racing : System := ⟨[], [racerA, racerB], ∅⟩

theorem racing_performs {pid : ProcessId} {e : Event} (h : racing.Performs pid e) :
    (pid = 0 ∧ e = .internal 0 "a") ∨ (pid = 1 ∧ e = .internal 1 "b") := by
  obtain ⟨a, x, y, ha, hstep⟩ := h
  match pid with
  | 0 =>
      obtain rfl := Option.some.inj ha
      exact .inl ⟨rfl, (Automaton.step_oneStep.1 hstep).2.1⟩
  | 1 =>
      obtain rfl := Option.some.inj ha
      exact .inr ⟨rfl, (Automaton.step_oneStep.1 hstep).2.1⟩
  | _ + 2 => cases ha

theorem racing_interleaves :
    ∃ traced conf, racing.traceAll [precededAcross] = .ok traced ∧
      traced.Reaches raceRun conf ∧ conf.contents 0 = ["b_p1", "a_p0"] ∧
      ∃ recorded : List Event, conf.contents 0 = recorded.map Event.tracerLabel ∧
        ∀ pid, recorded.filter (·.pid = pid) =
          (precededAcross.occurrences raceRun).filter (·.pid = pid) := by
  have hboth : (racing.traceAll [precededAcross]).map (fun t =>
      (t.automata, t.tracers.get? precededAcross)) =
        .ok ([racerA.detour (.internal 0 "a") raceRecords.1 (0, 1),
          racerB.detour (.internal 1 "b") raceRecords.2 (0, 1)],
          some ⟨0, 0, 0, some "tracer0"⟩) := by cbv
  obtain ⟨traced, htrace, heq⟩ := map_eq_ok.1 hboth
  obtain ⟨hautomata, hc⟩ := Prod.mk.inj heq
  obtain ⟨conf, hreaches, hstates, hcontents⟩ := @reaches_race traced _ _ 2 2
    (by rw [initialStates, hautomata]; decide) (by rw [automaton?, hautomata]; rfl)
    (by rw [automaton?, hautomata]; rfl) (by rw [Automaton.Step]; decide)
    (by rw [Automaton.Step]; decide) (by rw [Automaton.Step]; decide)
    (by rw [Automaton.Step]; decide)
  have howned : ∀ e ∈ precededAcross.events, racing.isTracerEvent e = false ∧ racing.IsOwned e := by
    have htracers : ∀ e ∈ precededAcross.events, racing.isTracerEvent e = false := by decide
    refine fun e he => ⟨htracers e he, fun pid hperforms => ?_⟩
    rcases racing_performs hperforms with ⟨rfl, rfl⟩ | ⟨rfl, rfl⟩ <;> rfl
  have hhas : racing.HasStates conf := hasStates_pair hstates (by decide) (by decide)
  obtain ⟨recorded, hrecorded, hsame, -⟩ :=
    tracer_channel_interleaves ⟨2, [], racing.automata, _, rfl, rfl⟩ htrace hc howned hreaches hhas
  exact ⟨traced, conf, htrace, hreaches, hcontents, recorded, hrecorded, hsame⟩

/-- The second process does `a` when it has done `b`. -/
def borrower : Automaton := (racerB.addState false true).addTransition 1 (.internal 0 "a") 2

def borrowing : System := ⟨[], [racerA, borrower], ∅⟩

/-- The channel of an invariant between two processes need not tell the order of
their events, and says nothing of an event that another process does. -/
theorem borrowing_records_otherwise :
    ∃ traced, borrowing.IsFinished ∧ borrowing.traceAll [precededAcross] = .ok traced ∧
      (traced.tracers.get? precededAcross).map (·.index) = some 0 ∧
      (∃ conf, traced.Reaches raceRun conf ∧ borrowing.HasStates conf ∧
        conf.contents 0 = ["b_p1", "a_p0"] ∧
        precededAcross.record raceRun = ["a_p0", "b_p1"]) ∧
      ∃ es conf, traced.Reaches es conf ∧ borrowing.HasStates conf ∧
        conf.contents 0 = ["b_p1"] ∧ precededAcross.record es = ["b_p1", "a_p0"] := by
  have hboth : (borrowing.traceAll [precededAcross]).map (fun t =>
      (t.automata, (t.tracers.get? precededAcross).map (·.index))) =
        .ok ([racerA.detour (.internal 0 "a") raceRecords.1 (0, 1),
          borrower.detour (.internal 1 "b") raceRecords.2 (0, 1)], some 0) := by cbv
  obtain ⟨traced, htrace, heq⟩ := map_eq_ok.1 hboth
  obtain ⟨hautomata, hc⟩ := Prod.mk.inj heq
  have hstart : [0, 0] ∈ traced.initialStates := by
    rw [initialStates, hautomata]
    decide
  obtain ⟨conf, hreaches, hstates, hcontents⟩ := @reaches_race traced _ _ 2 3
    hstart (by rw [automaton?, hautomata]; rfl) (by rw [automaton?, hautomata]; rfl)
    (by rw [Automaton.Step]; decide) (by rw [Automaton.Step]; decide)
    (by rw [Automaton.Step]; decide) (by rw [Automaton.Step]; decide)
  have hb : traced.automaton? 1 =
      some (borrower.detour (.internal 1 "b") raceRecords.2 (0, 1)) := by
    rw [automaton?, hautomata]
    rfl
  have hruns := Runs.step (.move hb (c := ⟨[0, 0], fun _ => []⟩) rfl
      (t := 3) (by rw [Automaton.Step]; decide) (e := .internal 1 "b") rfl) <|
    .step (.move hb rfl (t := 1) (by rw [Automaton.Step]; decide) (e := raceRecords.2) rfl) <|
      .step (.move hb rfl (t := 2) (by rw [Automaton.Step]; decide) (e := .internal 0 "a") rfl)
        (.stay _)
  refine ⟨traced, ⟨2, [], borrowing.automata, _, rfl, rfl⟩, htrace, hc,
    ⟨conf, hreaches, hasStates_pair hstates (by decide) (by decide), hcontents, by decide⟩,
    _, _, ⟨_, ⟨hstart, fun _ => rfl⟩, hruns⟩, hasStates_pair rfl (by decide) (by decide), rfl,
    by decide⟩

end System

end ProtocolInference
