import Mathlib
import ProtocolInference.Proofs.Model.Mirror

/-!
The language of the first graph.

Built by incoming events, the first graph remembers of a trace only which
event came last. So it admits a word if and only if the word looks like a
trace wherever one looks at no more than two events at a time: it begins
like some trace of the process, ends like some trace, and every two events
in a row occur in a row in some trace (`LocallyObserved`). Different traces
may be called upon for different places.

The same is said from the front to the back by `Continues`, which reads a
word event by event and keeps the last one in mind. This is what a walk does
that goes from partition to partition, as the observations of a process that
were reached by one event share a partition and no others are in it
(`GroupsByArrival`). Hence no two edges on one event lead out of a
partition, and the automata of the model are deterministic.
-/

namespace ProtocolInference

/-! ### Words that look like traces -/

/-- The events of a trace, without their times. -/
def ProcessTrace.word (t : ProcessTrace) : List Event := t.events.map (·.event)

section Words

variable (traces : List ProcessTrace) (pid : ProcessId)

/-- Some trace of the process begins with the event. -/
def BeginsWith (e : Event) : Prop := ∃ t ∈ traces, t.pid = pid ∧ t.word.head? = some e

/-- Some trace of the process ends with the event, or is empty if there is
none. -/
def EndsWith (last : Option Event) : Prop := ∃ t ∈ traces, t.pid = pid ∧ t.word.getLast? = last

/-- In some trace of the process the events occur in a row. -/
def InARow (x y : Event) : Prop := ∃ t ∈ traces, t.pid = pid ∧ [x, y] <:+: t.word

/-- The word is empty like some trace of the process; or it begins and ends like
traces of the process, and so does every two of its events in a row occur. -/
def LocallyObserved : List Event → Prop
  | [] => ∃ t ∈ traces, t.pid = pid ∧ t.events = []
  | e :: es => BeginsWith traces pid e ∧ EndsWith traces pid (e :: es).getLast? ∧
      ∀ x y, [x, y] <:+: e :: es → InARow traces pid x y

/-- An event may come next, when the given one came last. -/
def MayCome : Option Event → Event → Prop
  | none, e => BeginsWith traces pid e
  | some x, e => InARow traces pid x e

/-- The word may come next, event by event, and then the trace may end. -/
def Continues : Option Event → List Event → Prop
  | last, [] => EndsWith traces pid last
  | last, e :: es => MayCome traces pid last e ∧ Continues (some e) es

end Words

variable {traces : List ProcessTrace} {pid : ProcessId} {es : List Event}

theorem infix_pair_cons_iff {x y a b : Event} :
    [x, y] <:+: a :: b :: es ↔ (x = a ∧ y = b) ∨ [x, y] <:+: b :: es := by
  rw [List.infix_cons_iff, List.cons_prefix_cons, List.cons_prefix_cons]
  simp

/-- What may come after an event, said of all places at once. -/
theorem continues_some_iff {a : Event} :
    Continues traces pid (some a) es ↔
      EndsWith traces pid (a :: es).getLast? ∧
        ∀ x y, [x, y] <:+: a :: es → InARow traces pid x y := by
  induction es generalizing a with
  | nil =>
      have hnone : ∀ x y, ¬ [x, y] <:+: [a] := fun x y h => by simpa using h.length_le
      exact ⟨fun hends => ⟨hends, fun x y h => absurd h (hnone x y)⟩, fun h => h.1⟩
  | cons b es ih =>
      rw [Continues, ih, List.getLast?_cons_cons]
      constructor
      · rintro ⟨hcomes, hends, hpairs⟩
        refine ⟨hends, fun x y h => ?_⟩
        rcases infix_pair_cons_iff.1 h with ⟨rfl, rfl⟩ | h
        · exact hcomes
        · exact hpairs x y h
      · rintro ⟨hends, hpairs⟩
        exact ⟨hpairs a b (infix_pair_cons_iff.2 (.inl ⟨rfl, rfl⟩)), hends,
          fun x y h => hpairs x y (infix_pair_cons_iff.2 (.inr h))⟩

theorem locallyObserved_iff : LocallyObserved traces pid es ↔ Continues traces pid none es := by
  cases es with
  | nil =>
      refine exists_congr fun t => and_congr_right fun _ => and_congr_right fun _ => ?_
      rw [List.getLast?_eq_none_iff, ProcessTrace.word, List.map_eq_nil_iff]
  | cons e es => exact and_congr_right fun _ => continues_some_iff.symm

section Decide

variable (traces pid)

instance decidableMayCome : ∀ last e, Decidable (MayCome traces pid last e)
  | none, e => inferInstanceAs (Decidable (∃ t ∈ traces, t.pid = pid ∧ t.word.head? = some e))
  | some x, e => inferInstanceAs (Decidable (∃ t ∈ traces, t.pid = pid ∧ [x, e] <:+: t.word))

instance decidableContinues : ∀ last es, Decidable (Continues traces pid last es)
  | last, [] => inferInstanceAs (Decidable (∃ t ∈ traces, t.pid = pid ∧ t.word.getLast? = last))
  | last, e :: es =>
    have := decidableContinues (some e) es
    inferInstanceAs (Decidable (MayCome traces pid last e ∧ Continues traces pid (some e) es))

instance (es : List Event) : Decidable (LocallyObserved traces pid es) :=
  decidable_of_iff _ locallyObserved_iff.symm

end Decide

/-! ### Places of a trace -/

theorem infix_pair_iff {l : List Event} {x y : Event} :
    [x, y] <:+: l ↔ ∃ i : Nat, l[i]? = some x ∧ l[i + 1]? = some y := by
  rw [List.infix_iff_getElem?]
  constructor
  · rintro ⟨i, -, h⟩
    have hx := h 0 (Nat.succ_pos 1)
    have hy := h 1 (Nat.lt_succ_self 1)
    rw [Nat.zero_add] at hx
    rw [Nat.add_comm] at hy
    exact ⟨i, hx, hy⟩
  · rintro ⟨i, hx, hy⟩
    have hlt := (List.getElem?_eq_some_iff.1 hy).1
    refine ⟨i, by simp only [List.length_cons, List.length_nil]; omega, fun j hj => ?_⟩
    match j with
    | 0 => rwa [Nat.zero_add]
    | 1 => rwa [Nat.add_comm]

namespace ProcessTrace

/-- The event by which the trace gets to its place `i`. -/
def arrival? (t : ProcessTrace) (i : Nat) : Option Event :=
  if i = 0 then none else t.word[i - 1]?

theorem length_word (t : ProcessTrace) : t.word.length = t.events.length := List.length_map _

theorem arrival?_length (t : ProcessTrace) :
    t.arrival? t.events.length = t.word.getLast? := by
  rw [arrival?, List.getLast?_eq_getElem?, length_word]
  split
  · next h => rw [List.getElem?_eq_none (by rw [length_word]; omega)]
  · rfl

/-- The trace has arrived by an event at all places but the first. -/
theorem arrival?_succ {t : ProcessTrace} {i : Nat} (h : i + 1 ≤ t.events.length) :
    ∃ e, t.arrival? (i + 1) = some e ∧ t.word[i]? = some e := by
  have hlt : i < t.word.length := by
    rw [length_word]
    omega
  refine ⟨t.word[i], ?_, List.getElem?_eq_getElem hlt⟩
  rw [arrival?, if_neg (Nat.succ_ne_zero i), Nat.succ_sub_one]
  exact List.getElem?_eq_getElem hlt

end ProcessTrace

/-- The events that may come are those that come at some place with this event
of arrival. -/
theorem mayCome_iff {last : Option Event} {e : Event} :
    MayCome traces pid last e ↔ ∃ t ∈ traces, t.pid = pid ∧
      ∃ i ≤ t.events.length, t.arrival? i = last ∧ t.word[i]? = some e := by
  cases last with
  | none =>
      refine exists_congr fun t => and_congr_right fun _ => and_congr_right fun _ => ?_
      rw [List.head?_eq_getElem?]
      constructor
      · exact fun he => ⟨0, Nat.zero_le _, rfl, he⟩
      · rintro ⟨i, hi, harrival, he⟩
        cases i with
        | zero => exact he
        | succ i =>
            obtain ⟨x, hx, -⟩ := ProcessTrace.arrival?_succ hi
            cases hx.symm.trans harrival
  | some x =>
      refine exists_congr fun t => and_congr_right fun _ => and_congr_right fun _ => ?_
      rw [infix_pair_iff]
      constructor
      · rintro ⟨i, hx, he⟩
        have hlt : i < t.word.length := (List.getElem?_eq_some_iff.1 hx).1
        rw [t.length_word] at hlt
        obtain ⟨x', hx', hi⟩ := ProcessTrace.arrival?_succ hlt
        exact ⟨i + 1, hlt, hx'.trans (hi.symm.trans hx), he⟩
      · rintro ⟨i, hi, harrival, he⟩
        cases i with
        | zero => cases harrival
        | succ i =>
            obtain ⟨x', hx', hi⟩ := ProcessTrace.arrival?_succ hi
            exact ⟨i, hi.trans (hx'.symm.trans harrival), he⟩

namespace PartitionGraph

variable {g : PartitionGraph} {s t : ObservationId} {o o' : Observation}

/-- The event that led to an observation. -/
def arrival? (g : PartitionGraph) (s : ObservationId) : Option Event := (g.prev? s).map Prod.fst

/-! ### Places in the arena -/

section Records

variable {tr : ProcessTrace} {here : ObservationId}

theorem arrival?_of_records (h : Records g.observations tr here) {i : Nat}
    (hi : i ≤ tr.events.length) : g.arrival? (here + i) = tr.arrival? i := by
  rw [arrival?, prev?_of_records h hi, ProcessTrace.arrival?, ProcessTrace.word,
    List.getElem?_map]
  split
  · rfl
  · rw [Option.map_map]
    rfl

theorem pid_of_records (h : Records g.observations tr here) {i : Nat}
    (hi : i ≤ tr.events.length) (ho : g.observation? (here + i) = some o) : o.pid = tr.pid := by
  obtain ⟨name, ho'⟩ := observation?_of_records h hi
  rw [← Option.some.inj (ho'.symm.trans ho)]
  rfl

theorem exists_next?_of_records (h : Records g.observations tr here) {i : Nat}
    (hi : i ≤ tr.events.length) {e : Event} :
    (∃ t, g.next? (here + i) = some (e, t)) ↔ tr.word[i]? = some e := by
  rw [next?_of_records h hi, ProcessTrace.word, List.getElem?_map]
  cases tr.events[i]? <;> simp

end Records

/-- The observation is one of the process, and the event led to it. -/
def IsArrival (g : PartitionGraph) (pid : ProcessId) (last : Option Event) (s : ObservationId) :
    Prop :=
  ∃ o, g.observation? s = some o ∧ o.pid = pid ∧ g.arrival? s = last

section Observed

variable (hobs : g.Observes traces)

include hobs

theorem Observes.isArrival_iff {last : Option Event} :
    g.IsArrival pid last s ↔ ∃ tr ∈ traces, tr.pid = pid ∧ ∃ here,
      Records g.observations tr here ∧ ∃ i ≤ tr.events.length, s = here + i ∧
        tr.arrival? i = last := by
  constructor
  · rintro ⟨o, ho, hpid, harrival⟩
    obtain ⟨tr, htr, here, hrec, i, hi, rfl⟩ := hobs.covered s (observation?_lt ho)
    rw [arrival?_of_records hrec hi] at harrival
    exact ⟨tr, htr, (pid_of_records hrec hi ho).symm.trans hpid, here, hrec, i, hi, rfl, harrival⟩
  · rintro ⟨tr, -, hpid, here, hrec, i, hi, rfl, harrival⟩
    obtain ⟨name, ho⟩ := observation?_of_records hrec hi
    exact ⟨_, ho, (pid_of_records hrec hi ho).trans hpid,
      (arrival?_of_records hrec hi).trans harrival⟩

theorem Observes.mayCome_iff {last : Option Event} {e : Event} :
    MayCome traces pid last e ↔ ∃ s t, g.IsArrival pid last s ∧ g.next? s = some (e, t) := by
  rw [ProtocolInference.mayCome_iff]
  constructor
  · rintro ⟨tr, htr, hpid, i, hi, harrival, he⟩
    obtain ⟨here, hrec⟩ := hobs.records tr htr
    obtain ⟨t, ht⟩ := (exists_next?_of_records hrec hi).2 he
    exact ⟨here + i, t, hobs.isArrival_iff.2 ⟨tr, htr, hpid, here, hrec, i, hi, rfl, harrival⟩, ht⟩
  · rintro ⟨s, t, hs, ht⟩
    obtain ⟨tr, htr, hpid, here, hrec, i, hi, rfl, harrival⟩ := hobs.isArrival_iff.1 hs
    exact ⟨tr, htr, hpid, i, hi, harrival, (exists_next?_of_records hrec hi).1 ⟨t, ht⟩⟩

theorem Observes.endsWith_iff {last : Option Event} :
    EndsWith traces pid last ↔ ∃ s, g.IsArrival pid last s ∧ g.endsTrace s = true := by
  constructor
  · rintro ⟨tr, htr, hpid, hlast⟩
    obtain ⟨here, hrec⟩ := hobs.records tr htr
    refine ⟨here + tr.events.length, hobs.isArrival_iff.2 ⟨tr, htr, hpid, here, hrec, _,
      Nat.le_refl _, rfl, tr.arrival?_length.trans hlast⟩, ?_⟩
    rw [endsTrace_of_records hrec (Nat.le_refl _), decide_eq_true_eq]
  · rintro ⟨s, hs, hends⟩
    obtain ⟨tr, htr, hpid, here, hrec, i, hi, rfl, harrival⟩ := hobs.isArrival_iff.1 hs
    rw [endsTrace_of_records hrec hi, decide_eq_true_eq] at hends
    subst hends
    exact ⟨tr, htr, hpid, tr.arrival?_length.symm.trans harrival⟩

theorem Observes.isArrival_of_startsTrace (ho : g.observation? s = some o) (hpid : o.pid = pid)
    (hstart : g.startsTrace s = true) : g.IsArrival pid none s := by
  refine ⟨o, ho, hpid, ?_⟩
  rw [arrival?, (hobs.linked.startsTrace_iff s (observation?_lt ho)).1 hstart]
  rfl

theorem Observes.isArrival_next? {last : Option Event} {e : Event} (hs : g.IsArrival pid last s)
    (hnext : g.next? s = some (e, t)) : g.IsArrival pid (some e) t := by
  obtain ⟨o, ho, rfl, -⟩ := hs
  have hprev := (hobs.linked.next_iff_prev s e t).1 hnext
  obtain ⟨o', ho', -⟩ := Option.bind_eq_some_iff.1 hprev
  refine ⟨o', ho', (hobs.linked.pid_eq s e t o o' hnext ho ho').symm, ?_⟩
  rw [arrival?, hprev]
  rfl

end Observed

/-! ### Partitions of arrivals -/

/-- A partition holds all observations of a process to which one event led, and
no others. -/
structure GroupsByArrival (g : PartitionGraph) : Prop where
  owner?_eq_iff : ∀ {pid last s}, g.IsArrival pid last s →
    ∀ t, g.owner? t = g.owner? s ↔ g.IsArrival pid last t

theorem groupsByArrival_ofArena (processes : Nat) (channels : List Channel)
    (arena : List Observation) :
    (ofArena processes channels .byIncomingEvent arena).GroupsByArrival := by
  constructor
  rintro pid last s ⟨o, ho, rfl, rfl⟩ t
  have harrival {u : ObservationId} {o : Observation} (ho : arena[u]? = some o) :
      (ofArena processes channels .byIncomingEvent arena).arrival? u = o.prev.map Prod.fst := by
    rw [arrival?, prev?, observation?]
    exact congrArg (fun o => (Option.bind o (·.prev)).map Prod.fst) ho
  have hkey {o o' : Observation} :
      InitialPartitioning.byIncomingEvent.key o' = InitialPartitioning.byIncomingEvent.key o ↔
        o'.pid = o.pid ∧ o'.prev.map Prod.fst = o.prev.map Prod.fst := by
    simp [InitialPartitioning.key]
  obtain ⟨i, hi⟩ : ∃ i, (ofArena processes channels .byIncomingEvent arena).owner? s = some i := by
    rw [owner?_ofArena]
    exact ⟨_, congrArg (Option.map _) ho⟩
  rw [hi, owner?_ofArena_eq_some]
  obtain ⟨o₁, ho₁, hi⟩ := owner?_ofArena_eq_some.1 hi
  obtain rfl := Option.some.inj (ho₁.symm.trans ho)
  refine exists_congr fun o' => and_congr_right fun ho' => ?_
  rw [hi, Option.some.injEq, eq_comm, hkey, harrival ho', harrival ho₁]

section Graph

variable (hv : g.Valid) (hobs : g.Observes traces) (hgroups : g.GroupsByArrival)

include hv hobs hgroups

/-- From the partition of an arrival, walks to the end of a trace spell what may
come after it. -/
theorem exists_walk_iff {last : Option Event} {p : PartitionId} (hs : g.IsArrival pid last s)
    (hp : g.owner? s = some p) :
    (∃ q, g.Walk p es q ∧ g.isTerminal q = true) ↔ Continues traces pid last es := by
  have hc := hv.coherent
  induction es generalizing s last p with
  | nil =>
      rw [Continues, hobs.endsWith_iff]
      constructor
      · rintro ⟨q, hwalk, hq⟩
        cases hwalk
        obtain ⟨t, ht, hends⟩ := hc.isTerminal_iff.1 hq
        exact ⟨t, (hgroups.owner?_eq_iff hs t).1 (ht.trans hp.symm), hends⟩
      · rintro ⟨t, ht, hends⟩
        exact ⟨p, .stay p, hc.isTerminal_iff.2 ⟨t, ((hgroups.owner?_eq_iff hs t).2 ht).trans hp, hends⟩⟩
  | cons e es ih =>
      rw [Continues, hobs.mayCome_iff]
      constructor
      · rintro ⟨q, hwalk, hq⟩
        cases hwalk with
        | @step _ q' _ _ _ hedge hrest =>
            obtain ⟨u, t, hnext, hu, ht⟩ := hv.hasEdge_iff.1 hedge
            have hu := (hgroups.owner?_eq_iff hs u).1 (hu.trans hp.symm)
            exact ⟨⟨u, t, hu, hnext⟩,
              (ih (hobs.isArrival_next? hu hnext) ht).1 ⟨q, hrest, hq⟩⟩
      · rintro ⟨⟨u, t, hu, hnext⟩, hrest⟩
        have ht := hobs.isArrival_next? hu hnext
        obtain ⟨o, ho, -⟩ := id ht
        have hq' := hc.owner?_eq (observation?_lt ho)
        obtain ⟨q, hwalk, hq⟩ := (ih ht hq').2 hrest
        have hedge := hv.hasEdge_iff.2 ⟨u, t, hnext, ((hgroups.owner?_eq_iff hs u).2 hu).trans hp, hq'⟩
        exact ⟨q, .step hedge hwalk, hq⟩

/-- The process admits the words that may come from the beginning on. -/
theorem admits_iff_continues : g.Admits pid es ↔ Continues traces pid none es := by
  have hc := hv.coherent
  constructor
  · rintro ⟨p, q, hpid, hinitial, hwalk, hq⟩
    obtain ⟨s, hs, hstart⟩ := hc.isInitial_iff.1 hinitial
    obtain ⟨o, ho⟩ := observation?_of_owner? hc hs
    have harrival :=
      hobs.isArrival_of_startsTrace ho ((hc.isPartitionOf_iff hs ho).1 hpid) hstart
    exact (exists_walk_iff hv hobs hgroups harrival hs).1 ⟨q, hwalk, hq⟩
  · intro h
    obtain ⟨tr, htr, hpid⟩ : ∃ tr ∈ traces, tr.pid = pid := by
      cases es with
      | nil =>
          obtain ⟨tr, htr, hpid, -⟩ := h
          exact ⟨tr, htr, hpid⟩
      | cons e es =>
          obtain ⟨⟨tr, htr, hpid, -⟩, -⟩ := h
          exact ⟨tr, htr, hpid⟩
    obtain ⟨here, hrec⟩ := hobs.records tr htr
    obtain ⟨name, ho⟩ := observation?_of_records hrec (Nat.zero_le _)
    have hstart : g.startsTrace (here + 0) = true := startsTrace_of_records hrec (Nat.zero_le _)
    have hp := hc.owner?_eq (observation?_lt ho)
    obtain ⟨q, hwalk, hq⟩ := (exists_walk_iff hv hobs hgroups
      (hobs.isArrival_of_startsTrace ho hpid hstart) hp).2 h
    exact ⟨_, q, (hc.isPartitionOf_iff hp ho).2 hpid, hc.isInitial_iff.2 ⟨_, hp, hstart⟩, hwalk, hq⟩

end Graph

end PartitionGraph

/-! ### Automata -/

/-- There is no choice in the automaton: where to begin, or where to go on an
event. -/
structure Automaton.IsDeterministic (a : Automaton) : Prop where
  initial_unique : ∀ s s', a.isInitial s = true → a.isInitial s' = true → s = s'
  step_unique : ∀ s e t t', a.Step s e t → a.Step s e t' → t = t'

namespace PartitionGraph

variable {g : PartitionGraph} {a : Automaton}

theorem Mirrors.isDeterministic (hm : g.Mirrors pid a) (hv : g.Valid) (hobs : g.Observes traces)
    (hgroups : g.GroupsByArrival) : a.IsDeterministic := by
  have hc := hv.coherent
  have hsame {s s' : StateId} {p p' : PartitionId} {u u' : ObservationId} {last : Option Event}
      (hp : (g.idsOf pid)[s]? = some p) (hp' : (g.idsOf pid)[s']? = some p')
      (hu : g.owner? u = some p) (hu' : g.owner? u' = some p')
      (harrival : g.IsArrival pid last u) (harrival' : g.IsArrival pid last u') : s = s' := by
    have howner := (hgroups.owner?_eq_iff harrival u').2 harrival'
    rw [hu, hu'] at howner
    obtain ⟨hs, -⟩ := List.getElem?_eq_some_iff.1 hp
    exact (List.getElem?_inj hs (hc.nodup_idsOf pid)).1 (hp.trans (howner ▸ hp'.symm))
  have hpid {s : StateId} {p : PartitionId} {u : ObservationId} {o : Observation}
      (hp : (g.idsOf pid)[s]? = some p) (hu : g.owner? u = some p)
      (ho : g.observation? u = some o) : o.pid = pid :=
    (hc.isPartitionOf_iff hu ho).1 (hc.mem_idsOf_iff.1 (List.mem_of_getElem? hp))
  constructor
  case initial_unique =>
    have hinitial {s : StateId} (hs : a.isInitial s = true) :
        ∃ p u, (g.idsOf pid)[s]? = some p ∧ g.owner? u = some p ∧ g.IsArrival pid none u := by
      obtain ⟨p, hp, hstart⟩ := (hm.isInitial_iff s).1 hs
      obtain ⟨u, hu, hstart⟩ := hc.isInitial_iff.1 hstart
      obtain ⟨o, ho⟩ := observation?_of_owner? hc hu
      exact ⟨p, u, hp, hu, hobs.isArrival_of_startsTrace ho (hpid hp hu ho) hstart⟩
    intro s s' hs hs'
    obtain ⟨p, u, hp, hu, harrival⟩ := hinitial hs
    obtain ⟨p', u', hp', hu', harrival'⟩ := hinitial hs'
    exact hsame hp hp' hu hu' harrival harrival'
  case step_unique =>
    have htarget {s t : StateId} {e : Event} (hst : a.Step s e t) :
        ∃ q u, (g.idsOf pid)[t]? = some q ∧ g.owner? u = some q ∧
          g.IsArrival pid (some e) u := by
      obtain ⟨p, q, hp, hq, hedge⟩ := (hm.step_iff s e t).1 hst
      obtain ⟨v, u, hnext, hv, hu⟩ := hv.hasEdge_iff.1 hedge
      obtain ⟨o, ho⟩ := observation?_of_owner? hc hv
      exact ⟨q, u, hq, hu, hobs.isArrival_next? ⟨o, ho, hpid hp hv ho, rfl⟩ hnext⟩
    intro s e t t' hst hst'
    obtain ⟨q, u, hq, hu, harrival⟩ := htarget hst
    obtain ⟨q', u', hq', hu', harrival'⟩ := htarget hst'
    exact hsame hq hq' hu hu' harrival harrival'

end PartitionGraph

/-- **The first graph admits the locally observed words and no others**, if it is
built by incoming events from traces that all belong to processes of the
system. The automata of its model accept the same words and are
deterministic. -/
theorem first_graph_is_local {executions : List Execution} {processes : Nat}
    {channels : List Channel} {names : StateNames}
    (hpids : ∀ t ∈ executions.flatMap (·.processes), t.pid < processes) :
    ∃ g names', PartitionGraph.ofExecutions executions processes channels .byIncomingEvent names =
        .ok (g, names') ∧
      (∀ pid es, g.Admits pid es ↔
        LocallyObserved (executions.flatMap (·.processes)) pid es) ∧
      ∀ channels' m, g.model channels' = .ok m → ∀ pid < processes,
        ∃ a, m.system.automaton? pid = some a ∧ a.IsDeterministic ∧
          ∀ es, a.Accepts es ↔ LocallyObserved (executions.flatMap (·.processes)) pid es := by
  have hbuilt : PartitionGraph.ofExecutions executions processes channels .byIncomingEvent names =
      .ok (_, _) := PartitionGraph.ofExecutions_eq_ok.2 ⟨hpids, rfl, rfl⟩
  have hv := PartitionGraph.valid_ofExecutions hbuilt
  have hobs := PartitionGraph.observes_ofExecutions hbuilt
  have hgroups := PartitionGraph.groupsByArrival_ofArena processes channels
    (observeAll (executions.flatMap (·.processes)) names []).1
  have hadmits {pid : ProcessId} {es : List Event} :
      (PartitionGraph.ofArena processes channels .byIncomingEvent
        (observeAll (executions.flatMap (·.processes)) names []).1).Admits pid es ↔
        LocallyObserved (executions.flatMap (·.processes)) pid es :=
    (PartitionGraph.admits_iff_continues hv hobs hgroups).trans locallyObserved_iff.symm
  refine ⟨_, _, hbuilt, fun pid es => hadmits, fun channels' m hmodel pid hpid => ?_⟩
  have hmirrors := hv.mirrors_model hmodel
  obtain ⟨a, ha⟩ := System.automaton?_of_lt (hmirrors.processes_eq ▸ hpid : pid < m.system.processes)
  obtain ⟨hm, -⟩ := hmirrors.automaton pid a ha
  exact ⟨a, ha, hm.isDeterministic hv hobs hgroups, fun es => (hm.accepts_iff hv).trans hadmits⟩

/-- The first graph of the traces `x x y` and `x` admits `x x x y`, which is none
of them, but not `x y x`, since nothing comes after `y`. -/
theorem loop_words_are_local :
    ∃ g names', PartitionGraph.ofExecutions PartitionGraph.loopExecutions 1 [] .byIncomingEvent
        .standard = .ok (g, names') ∧
      g.Admits 0 [.internal 0 "x", .internal 0 "x", .internal 0 "x", .internal 0 "y"] ∧
      ¬ g.Admits 0 [.internal 0 "x", .internal 0 "y", .internal 0 "x"] ∧
      ∃ m a, g.model [] = .ok m ∧ m.system.automaton? 0 = some a ∧ a.IsDeterministic := by
  have hlocal := @first_graph_is_local PartitionGraph.loopExecutions 1 [] .standard (by decide)
  obtain ⟨g, names', hbuilt, hadmits, hmodel⟩ := hlocal
  refine ⟨g, names', hbuilt, (hadmits 0 _).2 (by decide), fun h => ?_, ?_⟩
  · exact absurd ((hadmits 0 _).1 h) (by decide)
  · have hfirst : PartitionGraph.ofExecutions PartitionGraph.loopExecutions 1 [] .byIncomingEvent
        .standard = .ok (PartitionGraph.loopGraph, ⟨"a", 6⟩) := rfl
    obtain ⟨rfl, -⟩ := Prod.mk.inj (Except.ok.inj (hbuilt.symm.trans hfirst))
    have hok : (PartitionGraph.loopGraph.model []).map (fun _ => ()) = .ok () := by cbv
    obtain ⟨m, hm, -⟩ := map_eq_ok.1 hok
    obtain ⟨a, ha, hdeterministic, -⟩ := hmodel [] m hm 0 Nat.zero_lt_one
    exact ⟨m, a, hm, ha, hdeterministic⟩

end ProtocolInference
