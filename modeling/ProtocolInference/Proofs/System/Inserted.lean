import ProtocolInference.Proofs.System.BadState

/-!
Which state has been inserted for what.

Invariants are traced one after the other, and the events of an invariant
one after the other, so every inserted state belongs to one event of one
invariant: to the one that was being traced when the state appeared
(`InsertedFor`). From then on nothing but the record of that event leaves
the state. Later rewriting may lead the record somewhere else, or through
yet another state, but never puts a different event in its place.
-/

namespace ProtocolInference.System

variable {sys traced t t' : System} {pid : ProcessId} {e : Event} {x : StateId}
variable {events : Event → Prop}
variable {inv : Invariant} {invs : List Invariant} {k index : Nat}

/-! ### Steps out of a state -/

/-- The process has the state, and these are the events of the steps that lead out
of it. -/
def LeavesBy (sys : System) (pid : ProcessId) (x : StateId) (events : Event → Prop) : Prop :=
  ∃ a, sys.automaton? pid = some a ∧ x < a.size ∧ ∀ f, (∃ y, a.Step x f y) ↔ events f

theorem exists_automaton_of_traceEvent {a : Automaton} (h : t.traceEvent k e = .ok t')
    (ha : t.automaton? pid = some a) :
    ∃ b, t'.automaton? pid = some b ∧
      (b = a ∨ pid = e.pid ∧
        a.trace e (.send (t.tracerChannel k e.pid) e.tracerLabel) = .ok b) := by
  obtain ⟨-, hprocesses, hautomata⟩ := traceEvent_eq_ok h
  obtain ⟨b, hb⟩ := automaton?_of_lt (hprocesses.symm ▸ automaton?_lt ha)
  refine ⟨b, hb, ?_⟩
  rcases hautomata pid b hb with ⟨-, hold⟩ | ⟨rfl, a', ha', hab⟩
  · exact .inl (Option.some.inj (hold.symm.trans ha))
  · obtain rfl := Option.some.inj (ha'.symm.trans ha)
    exact .inr ⟨rfl, hab⟩

theorem LeavesBy.traceEvent (h : t.LeavesBy pid x events) (htrace : t.traceEvent k e = .ok t') :
    t'.LeavesBy pid x events := by
  obtain ⟨a, ha, hx, hsteps⟩ := h
  obtain ⟨b, hb, rfl | ⟨-, hab⟩⟩ := exists_automaton_of_traceEvent htrace ha
  · exact ⟨b, hb, hx, hsteps⟩
  · refine ⟨b, hb, Nat.lt_of_lt_of_le hx (Automaton.size_le_of_trace hab), fun f => ?_⟩
    rw [Automaton.exists_step_iff_of_lt hab hx, hsteps]

theorem LeavesBy.traceEvents {es : List Event} (h : t.LeavesBy pid x events)
    (htrace : es.foldlM (fun t e => t.traceEvent k e) t = .ok t') : t'.LeavesBy pid x events :=
  foldlM_induction (P := fun t : System => t.LeavesBy pid x events)
    (fun _ _ _ _ hstep ht => ht.traceEvent hstep) htrace h

theorem LeavesBy.withTracers (h : t.LeavesBy pid x events)
    (tracers : OrderedMap Invariant Channel) : LeavesBy { t with tracers } pid x events := h

theorem LeavesBy.trace (h : t.LeavesBy pid x events) (htrace : t.trace inv = .ok (t', index)) :
    t'.LeavesBy pid x events :=
  trace_induction (P := fun t => t.LeavesBy pid x events)
    (fun _ _ _ _ hstep ht => ht.traceEvent hstep) (fun _ _ ht => ht.withTracers _) htrace h

theorem LeavesBy.traceAll (h : t.LeavesBy pid x events) (htrace : t.traceAll invs = .ok t') :
    t'.LeavesBy pid x events :=
  traceAll_induction (P := fun t => t.LeavesBy pid x events)
    (fun _ _ _ _ _ hstep ht => ht.trace hstep) htrace h

theorem leavesBy_of_traceEvent {a b : Automaton} (h : t.traceEvent k e = .ok t')
    (ha : t.automaton? pid = some a) (hb : t'.automaton? pid = some b) (hx : a.size ≤ x)
    (hxb : x < b.size) :
    pid = e.pid ∧
      t'.LeavesBy pid x (· = .send (t.tracerChannel k e.pid) e.tracerLabel) := by
  obtain ⟨b', hb', hab⟩ := exists_automaton_of_traceEvent h ha
  obtain rfl := Option.some.inj (hb'.symm.trans hb)
  rcases hab with rfl | ⟨rfl, hab⟩
  · exact absurd hxb (Nat.not_lt.2 hx)
  · exact ⟨rfl, b', hb', hxb, fun _ => Automaton.exists_step_iff_of_le hab hx hxb⟩

/-! ### Inserted states -/

/-- The process has the state in the second system, and does not have it yet in
the first. -/
def Appears (t t' : System) (pid : ProcessId) (x : StateId) : Prop :=
  ∃ a b, t.automaton? pid = some a ∧ t'.automaton? pid = some b ∧ a.size ≤ x ∧ x < b.size

/-- The state of the process of `e` has been inserted for `e` in the course of
tracing `inv`. The invariants before it had been traced by then, and so had
the events of `inv` before `e`. What is inserted with the state is the way
out of it; the way in is an occurrence of `e` itself. -/
def InsertedFor (sys : System) (invs : List Invariant) (inv : Invariant) (e : Event)
    (x : StateId) : Prop :=
  ∃ (before after : List Invariant) (earlier later : List Event) (t u v : System),
    invs = before ++ inv :: after ∧ sys.traceAll before = .ok t ∧
    inv.events = earlier ++ e :: later ∧
    earlier.foldlM (fun t' f => t'.traceEvent t.tracers.size f) t = .ok u ∧
    u.traceEvent t.tracers.size e = .ok v ∧ Appears u v e.pid x

theorem traceAll_append {before after : List Invariant} :
    sys.traceAll (before ++ after) = .ok traced ↔
      ∃ t, sys.traceAll before = .ok t ∧ t.traceAll after = .ok traced := by
  rw [traceAll, List.foldlM_append, bind_eq_ok]
  rfl

theorem traceAll_cons : sys.traceAll (inv :: invs) = .ok traced ↔
    ∃ t index, sys.trace inv = .ok (t, index) ∧ t.traceAll invs = .ok traced := by
  rw [traceAll, List.foldlM_cons, bind_eq_ok]
  constructor
  · rintro ⟨t, ht, hrest⟩
    obtain ⟨⟨t', index⟩, htrace, rfl⟩ := map_eq_ok.1 ht
    exact ⟨t', index, htrace, hrest⟩
  · rintro ⟨t, index, htrace, hrest⟩
    exact ⟨t, map_eq_ok.2 ⟨_, htrace, rfl⟩, hrest⟩

theorem traceAll_append_singleton : sys.traceAll (invs ++ [inv]) = .ok traced ↔
    ∃ t index, sys.traceAll invs = .ok t ∧ t.trace inv = .ok (traced, index) := by
  rw [traceAll_append]
  refine exists_congr fun t => ?_
  rw [exists_and_left, traceAll_cons]
  refine and_congr_right fun _ => ?_
  constructor
  · rintro ⟨t', index, htrace, hrest⟩
    obtain rfl := Except.ok.inj hrest
    exact ⟨index, htrace⟩
  · rintro ⟨index, htrace⟩
    exact ⟨traced, index, htrace, rfl⟩

/-- At some stage of the calls the event is traced, and what comes afterwards
traces the later events and then the later invariants. -/
theorem exists_stage {before after : List Invariant} {earlier later : List Event}
    (htrace : sys.traceAll (before ++ inv :: after) = .ok traced)
    (hevents : inv.events = earlier ++ e :: later) :
    ∃ t u v final tracers, sys.traceAll before = .ok t ∧
      earlier.foldlM (fun t' f => t'.traceEvent t.tracers.size f) t = .ok u ∧
      u.traceEvent t.tracers.size e = .ok v ∧
      later.foldlM (fun t' f => t'.traceEvent t.tracers.size f) v = .ok final ∧
      ({ final with tracers } : System).traceAll after = .ok traced := by
  obtain ⟨t, ht, hafter⟩ := traceAll_append.1 htrace
  obtain ⟨t', index, htrace', hafter⟩ := traceAll_cons.1 hafter
  obtain ⟨-, -, final, hfinal, rfl, -⟩ := trace_eq_ok.1 htrace'
  rw [hevents, List.foldlM_append, bind_eq_ok] at hfinal
  obtain ⟨u, hu, hfinal⟩ := hfinal
  rw [List.foldlM_cons, bind_eq_ok] at hfinal
  obtain ⟨v, hv, hlater⟩ := hfinal
  exact ⟨t, u, v, final, _, ht, hu, hv, hlater, hafter⟩

theorem ledger_of_traceAll (hsys : sys.IsFinished) (hclosed : sys.IsClosed)
    (htrace : sys.traceAll invs = .ok traced) :
    traced.tracers.size = invs.length ∧
      Ledger sys (invs.zipIdx.map fun (inv, k) => (inv, .ok (sys.firstTracer + k))) traced := by
  induction invs using List.reverseRecOn generalizing traced with
  | nil =>
      obtain rfl := Except.ok.inj htrace
      exact ⟨hsys.tracers_eq ▸ rfl, .none hsys hclosed⟩
  | append_singleton invs inv ih =>
      obtain ⟨t, index, ht, htrace⟩ := traceAll_append_singleton.1 htrace
      obtain ⟨hsize, hledger⟩ := ih ht
      have hnext := hledger.trace htrace
      obtain ⟨hnew, -, final, -, rfl, rfl⟩ := trace_eq_ok.1 htrace
      have hnone : t.tracers.get? inv = none := by simpa [OrderedMap.contains] using hnew
      refine ⟨?_, ?_⟩
      · show (t.tracers.insert inv _).size = _
        rw [OrderedMap.size_insert hnone, hsize, List.length_append]
        rfl
      · have hindex : t.firstTracer + t.tracers.size = sys.firstTracer + invs.length := by
          rw [hledger.firstTracer_eq, hsize]
        rw [hindex] at hnext
        simpa [List.zipIdx_append] using hnext

/-- Each invariant has its channel, numbered by its place among the invariants. -/
theorem exists_tracer_of_traceAll (hsys : sys.IsFinished) (hclosed : sys.IsClosed)
    (htrace : sys.traceAll invs = .ok traced) {i : Nat} (hi : invs[i]? = some inv) :
    ∃ c, traced.tracers.get? inv = some c ∧ c.index = sys.firstTracer + i := by
  obtain ⟨-, hledger⟩ := ledger_of_traceAll hsys hclosed htrace
  have hmem : (inv, .ok (sys.firstTracer + i)) ∈ invs.zipIdx.map fun (inv, k) =>
      (inv, (.ok (sys.firstTracer + k) : Except SystemError Nat)) :=
    List.mem_map.2 ⟨(inv, i), List.mem_zipIdx_iff_getElem?.2 hi, rfl⟩
  exact (hledger.mem_log_iff _ _).1 hmem

namespace InsertedFor

/-- Out of an inserted state leads the record of its event, on the channel of its
invariant. -/
theorem leavesBy (h : sys.InsertedFor invs inv e x) (hsys : sys.IsFinished)
    (hclosed : sys.IsClosed) (htrace : sys.traceAll invs = .ok traced) :
    ∃ c k, traced.tracers.get? inv = some c ∧ c.index = sys.firstTracer + k ∧
      traced.LeavesBy e.pid x (· = .send (sys.tracerChannel k e.pid) e.tracerLabel) := by
  obtain ⟨before, after, earlier, later, t, u, v, rfl, ht, hevents, hu, hv, happears⟩ := h
  obtain ⟨a, b, ha, hb, hle, hlt⟩ := happears
  obtain ⟨t', u', v', final, tracers, ht', hu', hv', hlater, hafter⟩ := exists_stage htrace hevents
  obtain rfl := Except.ok.inj (ht.symm.trans ht')
  obtain rfl := Except.ok.inj (hu.symm.trans hu')
  obtain rfl := Except.ok.inj (hv.symm.trans hv')
  obtain ⟨hsize, -⟩ := ledger_of_traceAll hsys hclosed ht
  have hplace : (before ++ inv :: after)[t.tracers.size]? = some inv := by simp [hsize]
  obtain ⟨c, hc, hindex⟩ := exists_tracer_of_traceAll hsys hclosed htrace hplace
  refine ⟨c, t.tracers.size, hc, hindex, ?_⟩
  have hchannels : u.channels = sys.channels :=
    foldlM_induction (P := fun t : System => t.channels = sys.channels)
      (fun _ _ _ _ hstep ht => (traceEvent_eq_ok hstep).1.trans ht) hu
      (AddsSends.traceAll ht).channels_eq
  have hrecord : u.tracerChannel t.tracers.size e.pid = sys.tracerChannel t.tracers.size e.pid := by
    rw [tracerChannel, tracerChannel, firstTracer, hchannels, firstTracer]
  obtain ⟨-, hleaves⟩ := leavesBy_of_traceEvent hv ha hb hle hlt
  rw [hrecord] at hleaves
  exact ((hleaves.traceEvents hlater).withTracers _).traceAll hafter

theorem append (h : sys.InsertedFor invs inv e x) (more : List Invariant) :
    sys.InsertedFor (invs ++ more) inv e x := by
  obtain ⟨before, after, earlier, later, t, u, v, rfl, hstage⟩ := h
  exact ⟨before, after ++ more, earlier, later, t, u, v, by simp, hstage⟩

end InsertedFor

theorem exists_appears {events : List Event}
    (htrace : events.foldlM (fun t e => t.traceEvent k e) t = .ok t') (h : Appears t t' pid x) :
    ∃ earlier f later u v, events = earlier ++ f :: later ∧
      earlier.foldlM (fun t e => t.traceEvent k e) t = .ok u ∧ u.traceEvent k f = .ok v ∧
      Appears u v pid x := by
  induction events using List.reverseRecOn generalizing t' with
  | nil =>
      obtain ⟨a, b, ha, hb, hle, hlt⟩ := h
      obtain rfl := Except.ok.inj htrace
      obtain rfl := Option.some.inj (ha.symm.trans hb)
      exact absurd hlt (Nat.not_lt.2 hle)
  | append_singleton events f ih =>
      rw [List.foldlM_append, bind_eq_ok] at htrace
      obtain ⟨u, hu, hlast⟩ := htrace
      rw [List.foldlM_cons, bind_eq_ok] at hlast
      obtain ⟨v, hv, hlast⟩ := hlast
      obtain rfl := Except.ok.inj hlast
      obtain ⟨a, b, ha, hb, hle, hlt⟩ := h
      obtain ⟨c, hc⟩ := automaton?_of_lt ((traceEvent_eq_ok hv).2.1 ▸ automaton?_lt hb)
      rcases Nat.lt_or_ge x c.size with hxc | hcx
      · obtain ⟨earlier, g, later, u', v', rfl, hstage⟩ := ih hu ⟨a, c, ha, hc, hle, hxc⟩
        exact ⟨earlier, g, later ++ [f], u', v', by simp, hstage⟩
      · exact ⟨events, f, [], u, v, rfl, hu, hv, c, b, hc, hb, hcx, hlt⟩

/-- Every state that was not there before has been inserted for an event. -/
theorem exists_insertedFor (htrace : sys.traceAll invs = .ok traced)
    (h : Appears sys traced pid x) : ∃ inv e, e.pid = pid ∧ sys.InsertedFor invs inv e x := by
  induction invs using List.reverseRecOn generalizing traced with
  | nil =>
      obtain ⟨a, b, ha, hb, hle, hlt⟩ := h
      obtain rfl := Except.ok.inj htrace
      obtain rfl := Option.some.inj (ha.symm.trans hb)
      exact absurd hlt (Nat.not_lt.2 hle)
  | append_singleton invs inv ih =>
      obtain ⟨t, index, ht, htrace⟩ := traceAll_append_singleton.1 htrace
      obtain ⟨a, b, ha, hb, hle, hlt⟩ := h
      obtain ⟨c, hc⟩ := automaton?_of_lt (processes_of_trace htrace ▸ automaton?_lt hb)
      rcases Nat.lt_or_ge x c.size with hxc | hcx
      · obtain ⟨inv', e, he, hinserted⟩ := ih ht ⟨a, c, ha, hc, hle, hxc⟩
        exact ⟨inv', e, he, hinserted.append [inv]⟩
      · obtain ⟨-, -, final, hfinal, rfl, -⟩ := trace_eq_ok.1 htrace
        obtain ⟨earlier, e, later, u, v, hevents, hu, hv, happears⟩ :=
          exists_appears hfinal ⟨c, b, hc, hb, hcx, hlt⟩
        obtain ⟨a', b', ha', hb', hle', hlt'⟩ := happears
        obtain ⟨rfl, -⟩ := leavesBy_of_traceEvent hv ha' hb' hle' hlt'
        exact ⟨inv, e, rfl, invs, [], earlier, later, t, u, v, rfl, ht, hevents, hu, hv,
          a', b', ha', hb', hle', hlt'⟩

end ProtocolInference.System
