import ProtocolInference.Proofs.Automaton.Steps
import ProtocolInference.Proofs.Except
import ProtocolInference.System

/-!
How systems are put together.

A draft looks at the events of every automaton that it takes, and a draft
is finished only if its channels are numbered by position. So in a
finished system no event happens on a channel behind the real ones, and
what tracing sends there cannot be mistaken for an event of the system.
-/

namespace ProtocolInference

/-- The event touches no channel, or one of the given channels. -/
def Event.IsOn (channels : List Channel) (e : Event) : Prop :=
  ∀ c, e.channel? = some c → ∃ d ∈ channels, d.index = c.index

namespace Draft

variable {d d' : Draft} {a : Automaton} {pid : ProcessId}

theorem checkEvent_eq_ok {e : Event} {c : Channel} (h : d.checkEvent pid e = .ok ())
    (hc : e.channel? = some c) : ∃ c' ∈ d.channels, c'.index = c.index := by
  rw [checkEvent, check_eq_ok, hc] at h
  obtain ⟨-, h⟩ := h
  dsimp only at h
  split at h
  · next hany =>
    obtain ⟨c', hc', hindex⟩ := List.any_eq_true.1 hany
    exact ⟨c', hc', of_decide_eq_true hindex⟩
  · cases h

theorem add_eq_ok (h : d.add a = .ok d') :
    d' = { d with automata := d.automata ++ [a] } ∧ a.pid < d.processes ∧
      d.automaton? a.pid = none ∧ ∀ e ∈ a.alphabet, e.IsOn d.channels := by
  simp only [add, error_bind, check_eq_ok, bind_eq_ok, pure_eq_ok, Nat.not_le] at h
  obtain ⟨hlt, hnew, ⟨⟩, hevents, rfl⟩ := h
  refine ⟨rfl, hlt, by simpa using hnew, ?_⟩
  intro e he c hc
  exact checkEvent_eq_ok (forM_eq_ok.1 hevents e he) hc

theorem misplaced?_eq_none {channels : List Channel} {position : Nat}
    (h : misplaced? position channels = none) {i : Nat} {c : Channel}
    (hc : channels[i]? = some c) : c.index = position + i := by
  induction channels generalizing position i with
  | nil => cases hc
  | cons d channels ih =>
      rw [misplaced?] at h
      split at h
      · next hindex =>
        cases i with
        | zero =>
            obtain rfl := Option.some.inj hc
            exact hindex
        | succ i =>
            rw [ih h hc]
            omega
      · cases h

theorem getElem?_filterMap_of_isSome {α β : Type} {f : α → Option β} {l : List α}
    (h : ∀ x ∈ l, (f x).isSome) (i : Nat) : (l.filterMap f)[i]? = (l[i]?).bind f := by
  induction l generalizing i with
  | nil => rfl
  | cons x l ih =>
      obtain ⟨y, hy⟩ := Option.isSome_iff_exists.1 (h x List.mem_cons_self)
      rw [List.filterMap_cons_some hy]
      cases i with
      | zero => simp [hy]
      | succ i => simpa using ih (fun z hz => h z (List.mem_cons_of_mem _ hz)) i

/-- A finished system has the channels of the draft, numbered by position,
and the automaton of each process in its place. -/
theorem finish_eq_ok {sys : System} (h : d.finish = .ok sys) :
    sys.channels = d.channels ∧ sys.tracers = ∅ ∧ sys.processes = d.processes ∧
      (∀ (i : Nat) (c : Channel), d.channels[i]? = some c → c.index = i) ∧
      ∀ pid a, sys.automaton? pid = some a → d.automaton? pid = some a := by
  rw [finish, check_eq_ok] at h
  obtain ⟨hmissing, h⟩ := h
  split at h
  · cases h
  · next hplaced =>
    obtain rfl := Except.ok.inj h
    have hall : ∀ pid ∈ List.range d.processes, (d.automaton? pid).isSome := by
      have hnil : d.missing = [] := by simpa using hmissing
      intro pid hpid
      simpa [Option.isSome_iff_ne_none] using List.filter_eq_nil_iff.1 hnil pid hpid
    refine ⟨rfl, rfl, ?_, ?_, ?_⟩
    · exact (List.filterMap_length_eq_length.2 hall).trans List.length_range
    · intro i c hc
      rw [misplaced?_eq_none hplaced hc, Nat.zero_add]
    · intro pid a ha
      rw [System.automaton?, getElem?_filterMap_of_isSome hall] at ha
      obtain ⟨pid', hpid', ha⟩ := Option.bind_eq_some_iff.1 ha
      obtain ⟨hlt, rfl⟩ := List.getElem?_eq_some_iff.1 hpid'
      rwa [List.getElem_range] at ha

theorem automaton?_eq_some (h : d.automaton? pid = some a) : a ∈ d.automata ∧ a.pid = pid := by
  rw [automaton?] at h
  exact ⟨List.mem_of_find?_eq_some h, by simpa using List.find?_some h⟩

end Draft

namespace System

variable {sys : System} {pid : ProcessId} {a : Automaton} {e : Event} {s t : StateId}

theorem isTracerEvent_eq_false
    (hindex : ∀ (i : Nat) (c : Channel), sys.channels[i]? = some c → c.index = i)
    (he : e.IsOn sys.channels) : sys.isTracerEvent e = false := by
  rw [isTracerEvent, Bool.eq_false_iff, Ne, Option.any_eq_true]
  rintro ⟨c, hc, htracer⟩
  obtain ⟨d, hd, hsame⟩ := he c hc
  obtain ⟨i, hi⟩ := List.mem_iff_getElem?.1 hd
  have hle : sys.channels.length ≤ c.index := of_decide_eq_true htracer
  rw [← hsame, hindex i d hi] at hle
  exact absurd (List.getElem?_eq_some_iff.1 hi).1 (Nat.not_lt.2 hle)

namespace IsFinished

theorem tracers_eq (h : sys.IsFinished) : sys.tracers = ∅ := by
  obtain ⟨_, _, _, draft, -, hfinish⟩ := h
  exact (Draft.finish_eq_ok hfinish).2.1

theorem index_eq (h : sys.IsFinished) {i : Nat} {c : Channel} (hc : sys.channels[i]? = some c) :
    c.index = i := by
  obtain ⟨_, _, _, draft, -, hfinish⟩ := h
  obtain ⟨hchannels, -, -, hindex, -⟩ := Draft.finish_eq_ok hfinish
  exact hindex i c (hchannels ▸ hc)

/-- The automata of a finished system know nothing of tracer channels. -/
theorem isTracerEvent_eq_false (h : sys.IsFinished) (ha : sys.automaton? pid = some a)
    (hstep : a.Step s e t) : sys.isTracerEvent e = false := by
  obtain ⟨processes, channels, automata, draft, hadd, hfinish⟩ := h
  obtain ⟨hchannels, -, -, hindex, hlookup⟩ := Draft.finish_eq_ok hfinish
  have hon : ∀ a ∈ draft.automata, ∀ e ∈ a.alphabet, e.IsOn draft.channels :=
    foldlM_induction (P := fun d : Draft => ∀ a ∈ d.automata, ∀ e ∈ a.alphabet, e.IsOn d.channels)
      (fun b _ d d' hstep hd a ha => by
        obtain ⟨rfl, -, -, hb⟩ := Draft.add_eq_ok hstep
        rcases List.mem_append.1 ha with ha | ha
        · exact hd a ha
        · exact List.mem_singleton.1 ha ▸ hb)
      hadd fun a ha => absurd ha List.not_mem_nil
  rw [← hchannels] at hon hindex
  obtain ⟨hmem, -⟩ := Draft.automaton?_eq_some (hlookup pid a ha)
  exact System.isTracerEvent_eq_false hindex (hon a hmem e hstep.mem_alphabet)

end IsFinished

end System

end ProtocolInference
