import ProtocolInference.Document.Invariant
import ProtocolInference.Document.Options
import ProtocolInference.Document.TraceLog
import ProtocolInference.Proofs.Json.Coding

/-!
Documents that are written and read back.

Trace documents, invariants and options are written by one family of
functions and read by another, and nothing in their definitions ties the
two together: each function names the fields of its record for itself,
each writer decides what to leave out, and each reader has its own
defaults. Here the two are shown to be codings, one kind of value after
the other, from channels and events up to whole documents.

Where a reader accepts more than a writer produces, such as fields in
another order, nulls for missing fields or records written as arrays, a
document changes its form when it is read and written again, but not what
it is read as. Events are kept as a whole before they are decoded; what is
written for one is small enough for that wherever it stands.
-/

namespace ProtocolInference

open Json

/-! ### Channels and events -/

theorem Channel.isCoding : IsCoding Channel.toJson Channel.ofJson? Channel.numbers := by
  have number := isCoding_natural.required
  have label := isCoding_string.omitted nofun
  refine .ofRecord ["src", "dst", "index", "name"]
    (fun c => [some (.natural c.src), some (.natural c.dst), some (.natural c.index),
      c.name.map .string]) (by decide) (fun _ => rfl) ?_ (fun _ => rfl) ?_ ?_
  · rintro ⟨src, dst, index, _ | name⟩ <;> rfl
  · intro c hc
    simp only [Channel.numbers, areWords_cons] at hc
    simp [number.decode_encode, label.decode_encode, hc]
  · intro given c h
    split at h
    · simp only [Option.bind_eq_bind, Option.bind_eq_some_iff] at h
      obtain ⟨src, hsrc, dst, hdst, index, hindex, name, -, h⟩ := h
      cases h
      exact ((number.areWords _ _ hsrc).append (number.areWords _ _ hdst)).append
        (number.areWords _ _ hindex)
    · cases h

/-- A record of a number and a text, as all events are. -/
def numbered {α : Type} (first second : String) (build : Nat → String → α) (v : Json) :
    Option α := do
  let [n, s] ← v.record? [first, second] | none
  return build (← required nat? n) (← required string? s)

theorem numbered_object {α : Type} {first second : String} {build : Nat → String → α} {n : Nat}
    {s : String} (hne : first ≠ second) (hn : n < wordSize) :
    numbered first second build (.object [(first, .natural n), (second, .string s)]) =
      some (build n s) := by
  have fields : record? [first, second] (.object [(first, .natural n), (second, .string s)]) =
      some [some (.natural n), some (.string s)] :=
    record?_written [some (.natural n), some (.string s)] (by simpa using hne) rfl
  have number : nat? (.natural n) = some n := isCoding_natural.decode_encode n (by simpa using hn)
  simp [numbered, fields, number, required, string?]

theorem numbered_eq_some {α : Type} {first second : String} {build : Nat → String → α} {v : Json}
    {x : α} (h : numbered first second build v = some x) : ∃ n s, n < wordSize ∧ build n s = x := by
  rw [numbered, Option.bind_eq_bind, Option.bind_eq_some_iff] at h
  obtain ⟨given, -, h⟩ := h
  split at h
  · simp only [Option.bind_eq_bind, Option.bind_eq_some_iff] at h
    obtain ⟨n, hn, s, -, h⟩ := h
    have hn := isCoding_natural.required.areWords _ _ hn
    exact ⟨n, s, by simpa using hn, Option.some.inj h⟩
  · cases h

/-- What a record of a number and a text is read as goes by its tag. -/
theorem EventSpec.ofJson?_eq (v : Json) :
    EventSpec.ofJson? v = v.tagged?.bind fun tagged =>
      match tagged with
      | ("local", v) => numbered "pid" "name" .internal v
      | ("send", v) => numbered "channel" "payload" .send v
      | ("recv", v) => numbered "channel" "payload" .receive v
      | _ => none := rfl

theorem tagged?_numbered {tag first second : String} {v w : Json} (hfirst : first ≠ "type")
    (hsecond : second ≠ "type") :
    tagged? (.object [("type", .string tag), (first, v), (second, w)]) =
      some (tag, .object [(first, v), (second, w)]) :=
  tagged?_cons (by simpa using ⟨hfirst, hsecond⟩)

theorem EventSpec.isCoding : IsCoding EventSpec.toJson EventSpec.ofJson? EventSpec.numbers where
  decode_encode e he := by
    have he : ∀ n ∈ e.numbers, n < wordSize := he
    rw [ofJson?_eq]
    cases e with
    | internal pid name =>
        rw [toJson, tagged?_numbered (by decide) (by decide)]
        exact numbered_object (by decide) (he pid List.mem_cons_self)
    | send channel payload =>
        rw [toJson, tagged?_numbered (by decide) (by decide)]
        exact numbered_object (by decide) (he channel List.mem_cons_self)
    | receive channel payload =>
        rw [toJson, tagged?_numbered (by decide) (by decide)]
        exact numbered_object (by decide) (he channel List.mem_cons_self)
  areWords v e h := by
    rw [ofJson?_eq, Option.bind_eq_some_iff] at h
    obtain ⟨tagged, -, h⟩ := h
    split at h
    · obtain ⟨n, s, hn, rfl⟩ := numbered_eq_some h
      simpa [numbers] using hn
    · obtain ⟨n, s, hn, rfl⟩ := numbered_eq_some h
      simpa [numbers] using hn
    · obtain ⟨n, s, hn, rfl⟩ := numbered_eq_some h
      simpa [numbers] using hn
    · cases h

theorem EventSpec.canKeep_toJson {e : EventSpec} {levels : Nat} (hlevels : levels ≠ 0)
    (he : AreWords e.numbers) : e.toJson.canKeep levels = true := by
  have he : ∀ n ∈ e.numbers, n < wordSize := he
  cases e <;> simp_all [toJson, numbers, canKeep, canKeepFields]

/-! ### Trace documents -/

theorem TimedEventSpec.isCoding :
    IsCoding TimedEventSpec.toJson TimedEventSpec.ofJson? TimedEventSpec.numbers := by
  have event := (EventSpec.isCoding.kept fun _ => EventSpec.canKeep_toJson (by decide) :
    IsCoding _ (kept TimedEventSpec.nesting EventSpec.ofJson?) _).required
  have delta := isCoding_natural.withDefault 0 (by decide)
  refine .ofRecord ["event", "delta"]
    (fun e => [some e.event.toJson, some (.natural e.delta)]) (by decide)
    (fun _ => rfl) (fun _ => rfl) (fun _ => rfl) ?_ ?_
  · intro e he
    simp only [numbers, areWords_append] at he
    simp [event.decode_encode, delta.decode_encode, he]
  · intro given e h
    split at h
    · simp only [Option.bind_eq_bind, Option.bind_eq_some_iff] at h
      obtain ⟨e, he, time, htime, h⟩ := h
      cases h
      exact (event.areWords _ _ he).append (delta.areWords _ _ htime)
    · cases h

theorem ProcessTraceSpec.isCoding :
    IsCoding ProcessTraceSpec.toJson ProcessTraceSpec.ofJson? ProcessTraceSpec.numbers := by
  have pid := isCoding_natural.required
  have states := isCoding_string.list.omitted nofun
  have events := TimedEventSpec.isCoding.list.required
  refine .ofRecord ["pid", "states", "events"]
    (fun t => [some (.natural t.pid), t.states.map fun names => .array (names.map .string),
      some (.array (t.events.map TimedEventSpec.toJson))]) (by decide)
    (fun _ => rfl) ?_ (fun _ => rfl) ?_ ?_
  · rintro ⟨pid, _ | names, events⟩ <;> rfl
  · intro t ht
    simp only [numbers, areWords_cons] at ht
    simp [pid.decode_encode, states.decode_encode, events.decode_encode, ht]
  · intro given t h
    split at h
    · simp only [Option.bind_eq_bind, Option.bind_eq_some_iff] at h
      obtain ⟨p, hp, names, -, es, hes, h⟩ := h
      cases h
      exact (pid.areWords _ _ hp).append (events.areWords _ _ hes)
    · cases h

theorem ExecutionSpec.isCoding :
    IsCoding ExecutionSpec.toJson ExecutionSpec.ofJson? ExecutionSpec.numbers := by
  have processes := ProcessTraceSpec.isCoding.list.required
  refine .ofRecord ["processes"]
    (fun x => [some (.array (x.processes.map ProcessTraceSpec.toJson))]) (by decide)
    (fun _ => rfl) (fun _ => rfl) (fun _ => rfl) ?_ ?_
  · intro x hx
    simp [processes.decode_encode _ hx]
  · intro given x h
    split at h
    · simp only [Option.bind_eq_bind, Option.bind_eq_some_iff] at h
      obtain ⟨ts, hts, h⟩ := h
      cases h
      exact processes.areWords _ _ hts
    · cases h

theorem TraceLog.isCoding : IsCoding TraceLog.toJson TraceLog.ofJson? TraceLog.numbers := by
  have processes := isCoding_natural.required
  have channels := Channel.isCoding.list.withDefault [] areWords_nil
  have executions := ExecutionSpec.isCoding.list.required
  refine .ofRecord ["num_processes", "channels", "executions"]
    (fun log => [some (.natural log.processes),
      some (.array (log.channels.map Channel.toJson)),
      some (.array (log.executions.map ExecutionSpec.toJson))]) (by decide)
    (fun _ => rfl) (fun _ => rfl) (fun _ => rfl) ?_ ?_
  · intro log hlog
    simp only [numbers, areWords_cons, areWords_append] at hlog
    simp [processes.decode_encode, channels.decode_encode, executions.decode_encode, hlog]
  · intro given log h
    split at h
    · simp only [Option.bind_eq_bind, Option.bind_eq_some_iff] at h
      obtain ⟨n, hn, cs, hcs, xs, hxs, h⟩ := h
      cases h
      exact (processes.areWords _ _ hn).append
        ((channels.areWords _ _ hcs).append (executions.areWords _ _ hxs))
    · cases h

/-! ### Invariants documents -/

theorem Relation.isCoding : IsCoding Relation.toJson Relation.ofJson? fun _ => [] where
  decode_encode r _ := by cases r <;> rfl
  areWords _ _ _ := areWords_nil

theorem Bound.isCoding : IsCoding Bound.toJson Bound.ofJson? Bound.numbers where
  decode_encode b hb := by
    have limit := isCoding_natural.decode_encode
    cases b with
    | atMost n => simp [toJson, ofJson?, alternative?, required, limit n hb]
    | atLeast n => simp [toJson, ofJson?, alternative?, required, limit n hb]
  areWords v b h := by
    have limit := isCoding_natural.required.areWords
    rw [ofJson?, Option.bind_eq_bind, Option.bind_eq_some_iff] at h
    obtain ⟨alternative, -, h⟩ := h
    split at h
    · obtain ⟨n, hn, h⟩ := Option.bind_eq_some_iff.1 h
      cases h
      exact limit _ n hn
    · obtain ⟨n, hn, h⟩ := Option.bind_eq_some_iff.1 h
      cases h
      exact limit _ n hn
    · cases h

theorem InvariantSpec.isCoding :
    IsCoding InvariantSpec.toJson InvariantSpec.ofJson? InvariantSpec.numbers := by
  have event : IsCoding _ (kept InvariantSpec.nesting EventSpec.ofJson?) _ :=
    EventSpec.isCoding.kept fun _ => EventSpec.canKeep_toJson (by decide)
  have relation := Relation.isCoding.required
  have first := event.omitted (by rintro ⟨⟩ <;> nofun)
  have second := event.required
  have bound := Bound.isCoding.nulled (by rintro ⟨⟩ <;> nofun)
  refine .ofRecord ["kind", "first", "second", "constraint"]
    (fun spec => [some spec.relation.toJson, spec.first.map EventSpec.toJson,
      some spec.second.toJson, some ((spec.bound.map Bound.toJson).getD .null)]) (by decide)
    (fun _ => rfl) ?_ (fun _ => rfl) ?_ ?_
  · rintro ⟨relation, _ | first, second, bound⟩ <;> rfl
  · intro spec hspec
    simp only [numbers, areWords_append] at hspec
    simp [relation.decode_encode, first.decode_encode _ hspec.1.1, second.decode_encode _ hspec.1.2,
      bound.decode_encode _ hspec.2]
  · intro given spec h
    split at h
    · simp only [Option.bind_eq_bind, Option.bind_eq_some_iff] at h
      obtain ⟨r, -, e, he, e', he', b, hb, h⟩ := h
      cases h
      exact ((first.areWords _ _ he).append (second.areWords _ _ he')).append (bound.areWords _ _ hb)
    · cases h

/-! ### Options -/

theorem InitialPartitioning.isCoding :
    IsCoding InitialPartitioning.toJson InitialPartitioning.ofJson? fun _ => [] where
  decode_encode how _ := by cases how <;> rfl
  areWords _ _ _ := areWords_nil

theorem LeftSet.isCoding : IsCoding LeftSet.toJson LeftSet.ofJson? fun _ => [] where
  decode_encode left _ := by cases left <;> rfl
  areWords _ _ _ := areWords_nil

theorem RemainderPolicy.isCoding :
    IsCoding RemainderPolicy.toJson RemainderPolicy.ofJson? RemainderPolicy.numbers where
  decode_encode policy h := by
    cases policy with
    | left => rfl
    | right => rfl
    | seeded seed =>
        have number := isCoding_natural.decode_encode seed h
        simp [toJson, ofJson?, alternative?, required, number]
  areWords v policy h := by
    rw [ofJson?, Option.bind_eq_bind, Option.bind_eq_some_iff] at h
    obtain ⟨alternative, -, h⟩ := h
    split at h
    · obtain rfl := bare_eq_some h
      exact areWords_nil
    · obtain rfl := bare_eq_some h
      exact areWords_nil
    · obtain ⟨seed, hseed, h⟩ := Option.bind_eq_some_iff.1 h
      cases h
      exact isCoding_natural.required.areWords _ seed hseed
    · cases h

theorem InferenceOptions.isCoding :
    IsCoding InferenceOptions.toJson InferenceOptions.ofJson? InferenceOptions.numbers := by
  have maxIterations := isCoding_natural.withDefault standard.maxIterations (by decide)
  have partitioning :=
    InitialPartitioning.isCoding.withDefault standard.partitioning areWords_nil
  have leftSet := LeftSet.isCoding.withDefault standard.leftSet areWords_nil
  have remainder :=
    RemainderPolicy.isCoding.withDefault standard.remainder areWords_nil
  have checkThreads := isCoding_natural.nulled nofun
  have systemName := isCoding_string.withDefault standard.systemName areWords_nil
  have coarsen := isCoding_bool.withDefault standard.coarsenByName areWords_nil
  refine .ofRecord ["max_iterations", "initial_partitioning", "left_set", "remainder",
      "check_threads", "system_name", "coarsen_by_name"]
    (fun opts => [some (.natural opts.maxIterations), some opts.partitioning.toJson,
      some opts.leftSet.toJson, some opts.remainder.toJson,
      some ((opts.checkThreads.map .natural).getD .null), some (.string opts.systemName),
      some (.bool opts.coarsenByName)]) (by decide)
    (fun _ => rfl) (fun _ => rfl) (fun _ => rfl) ?_ ?_
  · intro opts hopts
    simp only [numbers, areWords_cons, areWords_append] at hopts
    obtain ⟨hmax, hremainder, hthreads⟩ := hopts
    simp [maxIterations.decode_encode, partitioning.decode_encode, leftSet.decode_encode,
      remainder.decode_encode, checkThreads.decode_encode, systemName.decode_encode,
      coarsen.decode_encode, hmax, hremainder, hthreads]
  · intro given opts h
    split at h
    · simp only [Option.bind_eq_bind, Option.bind_eq_some_iff] at h
      obtain ⟨n, hn, how, -, left, -, policy, hpolicy, threads, hthreads, name, -, c, -, h⟩ := h
      cases h
      have hthreads := checkThreads.areWords _ _ hthreads
      rw [List.flatMap_singleton'] at hthreads
      exact (maxIterations.areWords _ _ hn).append
        ((remainder.areWords _ _ hpolicy).append hthreads)
    · cases h

/-! ### All documents -/

/-- **Documents are read as they were written.** A trace document, a list of
invariants or a set of options, whatever its texts are and whichever of its
optional parts it has, is read back as it was from what is written for it,
provided that its numbers are words. So every document that is accepted
may be written again, and is then read as the same. -/
theorem documents_decode_encode :
    ((∀ log : TraceLog, AreWords log.numbers → TraceLog.ofJson? log.toJson = some log) ∧
      ∀ v log, TraceLog.ofJson? v = some log → TraceLog.ofJson? log.toJson = some log) ∧
    ((∀ specs : List InvariantSpec, AreWords (specs.flatMap InvariantSpec.numbers) →
        list? InvariantSpec.ofJson? (.array (specs.map InvariantSpec.toJson)) = some specs) ∧
      ∀ v specs, list? InvariantSpec.ofJson? v = some specs →
        list? InvariantSpec.ofJson? (.array (specs.map InvariantSpec.toJson)) = some specs) ∧
    ((∀ opts : InferenceOptions, AreWords opts.numbers →
        InferenceOptions.ofJson? opts.toJson = some opts) ∧
      ∀ v opts, InferenceOptions.ofJson? v = some opts →
        InferenceOptions.ofJson? opts.toJson = some opts) := by
  have log := TraceLog.isCoding
  have specs := InvariantSpec.isCoding.list
  have opts := InferenceOptions.isCoding
  refine ⟨⟨log.decode_encode, ?_⟩, ⟨specs.decode_encode, ?_⟩, ⟨opts.decode_encode, ?_⟩⟩
  · exact fun _ _ => log.decode_encode_of_eq_some
  · exact fun _ _ => specs.decode_encode_of_eq_some
  · exact fun _ _ => opts.decode_encode_of_eq_some

/-- A document with a channel that has a name and one that has none, with a
trace that has state names and one that has none. -/
def greetingLog : TraceLog :=
  ⟨2, [⟨0, 1, 0, some "out"⟩, ⟨1, 0, 1, none⟩],
    [⟨[⟨0, some ["idle", "busy"], [⟨.send 0 "hello", 3⟩]⟩,
      ⟨1, none, [⟨.receive 0 "hello", 0⟩, ⟨.internal 1 "rest", 5⟩]⟩]⟩]⟩

/-- Invariants with and without a first event and a bound. -/
def greetingSpecs : List InvariantSpec :=
  [⟨.alwaysPrecedes, some (.send 0 "hello"), .receive 0 "hello", some (.atMost 7)⟩,
    ⟨.eventually, none, .internal 1 "rest", none⟩]

/-- Options that differ from the standard ones. -/
def greetingOptions : InferenceOptions :=
  { InferenceOptions.standard with remainder := .seeded 11, checkThreads := some 4 }

/-- A trace document with its fields in another order and two records written
as arrays. -/
def shuffledDocument : Json :=
  .object [("executions", .array [.array [.array [.object [("events", .array []),
    ("states", .null), ("pid", .natural 0)]]]]), ("num_processes", .natural 1)]

/-- An invariants document with its fields in another order, an event written
as an array, and the relation as an alternative whose content is null. -/
def shuffledSpecs : Json :=
  .array [.object [("second", .array [.string "local", .natural 0, .string "stop"]),
    ("kind", .object [("eventually", .null)])]]

theorem greeting_decode_encode :
    (AreWords greetingLog.numbers ∧ TraceLog.ofJson? greetingLog.toJson = some greetingLog) ∧
    (∃ log, TraceLog.ofJson? shuffledDocument = some log ∧ TraceLog.ofJson? log.toJson = some log) ∧
    (AreWords (greetingSpecs.flatMap InvariantSpec.numbers) ∧
      list? InvariantSpec.ofJson? (.array (greetingSpecs.map InvariantSpec.toJson)) =
        some greetingSpecs) ∧
    (∃ specs, list? InvariantSpec.ofJson? shuffledSpecs = some specs ∧
      list? InvariantSpec.ofJson? (.array (specs.map InvariantSpec.toJson)) = some specs) ∧
    (AreWords greetingOptions.numbers ∧
      InferenceOptions.ofJson? greetingOptions.toJson = some greetingOptions) ∧
    ∃ opts, InferenceOptions.ofJson? (.object []) = some opts ∧
      InferenceOptions.ofJson? opts.toJson = some opts := by
  obtain ⟨⟨log, logAgain⟩, ⟨specs, specsAgain⟩, opts, optsAgain⟩ := documents_decode_encode
  have hlog : AreWords greetingLog.numbers := by decide
  have hspecs : AreWords (greetingSpecs.flatMap InvariantSpec.numbers) := by decide
  have hopts : AreWords greetingOptions.numbers := by decide
  have hshuffled : TraceLog.ofJson? shuffledDocument = some ⟨1, [], [⟨[⟨0, none, []⟩]⟩]⟩ := rfl
  have hrelation : list? InvariantSpec.ofJson? shuffledSpecs =
      some [⟨.eventually, none, .internal 0 "stop", none⟩] := rfl
  have hempty : InferenceOptions.ofJson? (.object []) = some .standard := rfl
  exact ⟨⟨hlog, log _ hlog⟩, ⟨_, hshuffled, logAgain _ _ hshuffled⟩, ⟨hspecs, specs _ hspecs⟩,
    ⟨_, hrelation, specsAgain _ _ hrelation⟩, ⟨hopts, opts _ hopts⟩, _, hempty, optsAgain _ _ hempty⟩

end ProtocolInference
