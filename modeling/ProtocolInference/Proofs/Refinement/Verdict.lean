import ProtocolInference.Proofs.Partition.Stitch
import ProtocolInference.Proofs.Refinement.Settled
import ProtocolInference.Trace.Log

/-!
Refinement decides about the traces.

By its construction, refinement speaks about models: an invariant is
satisfied if no violation is left in the model, and unresolved if one is
left that cannot be split away. Where the first graph is built by
incoming events, this is a statement about the traces themselves. What
was observed is admitted by every graph, so a satisfied invariant holds
of every trace. And a violation that cannot be split away has a path
without a stitch, which is the path of a trace
(`observed_of_stitch?_eq_none`), so of an unresolved invariant some trace
is a violation.

The two exclude each other. Unless the bound on the number of splits is
reached, the outcome thus depends on the traces and on the invariant, and
on nothing else: not on how partitions are split, nor on what else is
looked at and when.
-/

namespace ProtocolInference

variable {executions : List Execution} {processes : Nat} {channels : List Channel}
variable {opts : InferenceOptions} {inv : Invariant} {limit : Nat}
variable {g g₀ : PartitionGraph} {m : Model} {p q q' : Progress Unit} {r r' : InvariantReport}
variable {traces : List ProcessTrace}

/-! ### Violations that cannot be split away -/

/-- A violation whose path has no stitch was observed. -/
theorem observed_of_askAbout (hv : g.Valid) (hapart : g.StartsApart)
    (hinv : ∀ e ∈ inv.events, e.IsOn g.channels) {cex : Counterexample}
    (hask : askAbout (productSearch limit) () g inv = (.ok (m, some cex), ()))
    (hpaths : ∀ run ∈ cex.runs, ∃ path, m.path run = .ok path ∧ path.stitch? g = .ok none) :
    ∃ es, g.Observed inv.pid es ∧ inv.FailsOn es := by
  obtain ⟨run, path, hruns, hpath, hpid, hin, hbegins, hends, hfails⟩ :=
    exists_path_of_askAbout hv hinv hask
  obtain ⟨path', hpath', hstitch⟩ := hpaths run (hruns ▸ List.mem_cons_self)
  obtain rfl : path = path' := Except.ok.inj (hpath.symm.trans hpath')
  have hpart := ((Bool.and_eq_true _ _).mp hin).1
  refine ⟨path.events, hpid ▸ ?_, hfails⟩
  exact PartitionPath.observed_of_stitch?_eq_none hv hapart hpart hbegins hends hstitch

/-! ### Outcomes and traces -/

/-- The outcome says of the traces what it should: only invariants across
processes are skipped, every trace of the process passes a satisfied
invariant, and some trace fails an unresolved one. Bounds are
disregarded. -/
structure InvariantReport.IsVerdict (traces : List ProcessTrace) (r : InvariantReport) : Prop where
  skipped_iff : r.outcome = .skipped ↔ r.invariant.first.pid ≠ r.invariant.second.pid
  passes_of_satisfied : r.outcome = .satisfied →
    ∀ t ∈ traces, t.pid = r.invariant.pid →
      (r.invariant.untimed.check t.events).map (·.passed) = .ok true
  fails_of_unresolved : r.outcome = .unresolved →
    ∃ t ∈ traces, t.pid = r.invariant.pid ∧
      (r.invariant.untimed.check t.events).map (·.passed) = .ok false

theorem InvariantReport.IsVerdict.outcome_eq (h : r.IsVerdict traces) (h' : r'.IsVerdict traces)
    (heq : r'.invariant = r.invariant) (hr : r.outcome ≠ .boundReached)
    (hr' : r'.outcome ≠ .boundReached) : r'.outcome = r.outcome := by
  have hskipped : r'.outcome = .skipped ↔ r.outcome = .skipped := by
    rw [h.skipped_iff, h'.skipped_iff, heq]
  have hdiffer : ∀ t ∈ traces, t.pid = r.invariant.pid →
      (r.invariant.untimed.check t.events).map (·.passed) = .ok true →
      (r.invariant.untimed.check t.events).map (·.passed) = .ok false → False := by
    intro t _ _ hpasses hfails
    rw [hpasses] at hfails
    cases hfails
  cases hout : r.outcome <;> cases hout' : r'.outcome <;>
    simp only [hout, hout', ne_eq, reduceCtorEq, not_true_eq_false, not_false_eq_true, iff_false,
      iff_true] at hr hr' hskipped ⊢
  · obtain ⟨t, ht, hpid, hfails⟩ := h'.fails_of_unresolved hout'
    rw [heq] at hpid hfails
    exact hdiffer t ht hpid (h.passes_of_satisfied hout t ht hpid) hfails
  · obtain ⟨t, ht, hpid, hfails⟩ := h.fails_of_unresolved hout
    have hpasses := h'.passes_of_satisfied hout' t ht (heq ▸ hpid)
    rw [heq] at hpasses
    exact hdiffer t ht hpid hpasses hfails

theorem isVerdict_of_reports (hv : q.graph.Valid) (hapart : q.graph.StartsApart)
    (hobs : q.graph.Observes traces) (hinv : ∀ e ∈ r.invariant.events, e.IsOn q.graph.channels)
    (h : Reports (productSearch limit) opts q r q') : r.IsVerdict traces := by
  cases h with
  | @skipped inv hsupports =>
      have hne : inv.first.pid ≠ inv.second.pid := of_decide_eq_false hsupports
      exact ⟨⟨fun _ => hne, fun _ => rfl⟩, nofun, nofun⟩
  | @driven _ inv n outcome hsupports hdrives =>
      have heq : inv.first.pid = inv.second.pid := of_decide_eq_true hsupports
      have hadvances := hdrives.advances hv
      have hv' := hadvances.valid hv
      have hobs' := (hadvances.refines hv).observes hobs
      have hinv' : ∀ e ∈ inv.events, e.IsOn q'.graph.channels := by
        rw [hadvances.splits.channels_eq]
        exact hinv
      refine ⟨⟨fun hskipped => absurd hskipped hdrives.ne_skipped, fun hne => absurd heq hne⟩,
        ?_, ?_⟩
      · rintro rfl t ht hpid
        obtain ⟨s, m, hask⟩ := hdrives.ask_of_satisfied
        rw [Invariant.passes_iff]
        refine not_fails_of_admits hv' hinv' hask (hv'.admits_of_observed ?_)
        exact (hobs'.observed_iff _ _).2 ⟨t, ht, hpid, rfl⟩
      · rintro rfl
        obtain ⟨s, m, cex, hask, hpaths⟩ := hdrives.ask_of_unresolved
        have hapart' := (hadvances.refines hv).startsApart hapart
        obtain ⟨es, hes, hfails⟩ := observed_of_askAbout hv' hapart' hinv' hask hpaths
        obtain ⟨t, ht, hpid, rfl⟩ := (hobs'.observed_iff _ _).1 hes
        exact ⟨t, ht, hpid, Invariant.fails_iff.2 hfails⟩

/-! ### Invariants of documents -/

theorem findChannel_eq_ok {index : Nat} {c : Channel} (h : findChannel channels index = .ok c) :
    c ∈ channels := by
  rw [findChannel] at h
  split at h
  · next hfind =>
    obtain rfl := Except.ok.inj h
    exact List.mem_of_find?_eq_some hfind
  · cases h

theorem EventSpec.isOn_of_resolve {spec : EventSpec} {e : Event}
    (h : spec.resolve channels = .ok e) : e.IsOn channels := by
  intro c hc
  cases spec with
  | internal pid name =>
      obtain rfl := Except.ok.inj h
      cases hc
  | send index payload =>
      obtain ⟨d, hd, rfl⟩ := map_eq_ok.1 h
      obtain rfl := Option.some.inj hc
      exact ⟨d, findChannel_eq_ok hd, rfl⟩
  | receive index payload =>
      obtain ⟨d, hd, rfl⟩ := map_eq_ok.1 h
      obtain rfl := Option.some.inj hc
      exact ⟨d, findChannel_eq_ok hd, rfl⟩

theorem InvariantSpec.isOn_of_resolve {spec : InvariantSpec}
    (h : spec.resolve channels = .ok inv) : ∀ e ∈ inv.events, e.IsOn channels := by
  obtain ⟨second, hsecond, h⟩ := bind_eq_ok.1 h
  have key : inv.second.IsOn channels ∧ inv.first.IsOn channels := by
    split at h
    · obtain rfl := pure_eq_ok.1 h
      exact ⟨EventSpec.isOn_of_resolve hsecond, EventSpec.isOn_of_resolve hsecond⟩
    · obtain ⟨first, hfirst, h⟩ := bind_eq_ok.1 h
      obtain rfl := pure_eq_ok.1 h
      exact ⟨EventSpec.isOn_of_resolve hsecond, EventSpec.isOn_of_resolve hfirst⟩
    · cases h
  intro e he
  rw [Invariant.events] at he
  split at he
  · exact List.mem_singleton.1 he ▸ key.1
  · rcases List.mem_cons.1 he with rfl | he
    · exact key.2
    · exact List.mem_singleton.1 he ▸ key.1

/-! ### Inference -/

theorem startGraph_eq_ok (hpartitioning : opts.partitioning = .byIncomingEvent)
    (hcoarsen : opts.coarsenByName = false) :
    startGraph executions processes channels opts = .ok g ↔
      ∃ names, PartitionGraph.ofExecutions executions processes channels .byIncomingEvent
        .standard = .ok (g, names) := by
  simp only [startGraph, hpartitioning, hcoarsen, bind_eq_ok, Bool.false_eq_true, if_false,
    pure_eq_ok, Prod.exists]
  constructor
  · rintro ⟨g', names, h, rfl⟩
    exact ⟨names, h⟩
  · rintro ⟨names, h⟩
    exact ⟨g, names, h, rfl⟩

theorem infer_eq_ok {σ ε : Type} {oracle : Oracle σ ε} {s : σ} {invs : List Invariant}
    {report : RefinementReport}
    (h : infer oracle s executions processes channels invs opts = .ok (g, report)) :
    ∃ g₀, startGraph executions processes channels opts = .ok g₀ ∧
      refineGraph oracle s opts invs g₀ = (.ok report, g) := by
  simp only [infer, bind_eq_ok, mapError_eq_ok] at h
  obtain ⟨g₀, hg₀, h⟩ := h
  refine ⟨g₀, hg₀, ?_⟩
  split at h
  · cases h
  · next hrefine =>
    obtain ⟨rfl, rfl⟩ := Prod.mk.inj (pure_eq_ok.1 h)
    exact hrefine

/-- What an inference by incoming events reports, from the first graph on. -/
theorem isVerdict_of_refineGraph {names : StateNames} {invs : List Invariant}
    {report : RefinementReport}
    (hg₀ : PartitionGraph.ofExecutions executions processes channels .byIncomingEvent .standard =
      .ok (g₀, names))
    (hinvs : ∀ inv ∈ invs, ∀ e ∈ inv.events, e.IsOn channels)
    (h : refineGraph (productSearch limit) () opts invs g₀ = (.ok report, g)) :
    report.invariants.map (·.invariant) = invs ∧
      ∀ r ∈ report.invariants, r.IsVerdict (executions.flatMap (·.processes)) ∧
        (g₀.observations.length - g₀.partitions.length < opts.maxIterations →
          r.outcome ≠ .boundReached) := by
  have hv := PartitionGraph.valid_ofExecutions hg₀
  have hchannels : g₀.channels = channels :=
    (PartitionGraph.Arises.built hg₀).system_eq.2
  obtain ⟨p', rfl, hlist, -, -, hall⟩ := reportsAll_of_refineGraph h
  refine ⟨hlist, fun r hr => ?_⟩
  obtain ⟨q, q', hq, hreports, hq'⟩ := hall.mem hv hr
  have hrefines := hq.refines hv
  refine ⟨?_, fun hbound => ?_⟩
  · refine isVerdict_of_reports (hq.valid hv) ?_ ?_ ?_ hreports
    · exact hrefines.startsApart (PartitionGraph.startsApart_ofExecutions hg₀)
    · exact hrefines.observes (PartitionGraph.observes_ofExecutions hg₀)
    · rw [hq.splits.channels_eq, hchannels]
      exact hinvs _ (hlist ▸ List.mem_map_of_mem hr)
  · intro houtcome
    have hle := hall.le_of_boundReached hv hr houtcome
    have hfinal := (hall.advances hv).iterations_bounded hv
    dsimp only at hfinal
    omega

/-- **The outcomes are verdicts on the traces.** For a first graph by incoming
events, the reported outcomes tell which invariants the traces pass. If the
bound on the number of splits leaves room for all that are possible, it is
not reached, and any other inference from the same executions comes to the
same outcomes, in whatever way it splits and in whatever order it takes
the invariants. The executions may be any, not only those of a document
that is accepted. -/
theorem infer_isVerdict {specs : List InvariantSpec} {invs : List Invariant}
    {report : RefinementReport}
    (hspecs : specs.mapM (·.resolve channels) = .ok invs)
    (hpartitioning : opts.partitioning = .byIncomingEvent) (hcoarsen : opts.coarsenByName = false)
    (h : infer (productSearch limit) () executions processes channels invs opts =
      .ok (g, report)) :
    report.invariants.map (·.invariant) = invs ∧
      (∀ r ∈ report.invariants, r.IsVerdict (executions.flatMap (·.processes))) ∧
      ∃ g₀, startGraph executions processes channels opts = .ok g₀ ∧
        (g₀.observations.length - g₀.partitions.length < opts.maxIterations →
          (∀ r ∈ report.invariants, r.outcome ≠ .boundReached) ∧
          ∀ (limit' : Nat) (opts' : InferenceOptions) (invs' : List Invariant)
            (g' : PartitionGraph) (report' : RefinementReport),
            opts'.partitioning = .byIncomingEvent → opts'.coarsenByName = false →
            g₀.observations.length - g₀.partitions.length < opts'.maxIterations →
            invs'.Perm invs →
            infer (productSearch limit') () executions processes channels invs' opts' =
              .ok (g', report') →
            ∀ r ∈ report.invariants, ∀ r' ∈ report'.invariants,
              r'.invariant = r.invariant → r'.outcome = r.outcome) := by
  have hinvs : ∀ inv ∈ invs, ∀ e ∈ inv.events, e.IsOn channels := by
    intro inv hinv
    obtain ⟨spec, -, hspec⟩ := (mem_of_mapM_eq_ok hspecs).1 hinv
    exact InvariantSpec.isOn_of_resolve hspec
  obtain ⟨g₀, hstart, hrefine⟩ := infer_eq_ok h
  obtain ⟨names, hg₀⟩ := (startGraph_eq_ok hpartitioning hcoarsen).1 hstart
  obtain ⟨hlist, hverdicts⟩ := isVerdict_of_refineGraph hg₀ hinvs hrefine
  refine ⟨hlist, fun r hr => (hverdicts r hr).1, g₀, hstart, fun hbound => ?_⟩
  refine ⟨fun r hr => (hverdicts r hr).2 hbound, ?_⟩
  intro limit' opts' invs' g' report' hpartitioning' hcoarsen' hbound' hperm h' r hr r' hr' heq
  obtain ⟨g₁, hstart', hrefine'⟩ := infer_eq_ok h'
  obtain ⟨names', hg₁⟩ := (startGraph_eq_ok hpartitioning' hcoarsen').1 hstart'
  obtain rfl : g₁ = g₀ := (Prod.mk.inj (Except.ok.inj (hg₁.symm.trans hg₀))).1
  obtain ⟨-, hverdicts'⟩ :=
    isVerdict_of_refineGraph hg₀ (fun inv hinv => hinvs inv (hperm.mem_iff.1 hinv)) hrefine'
  exact (hverdicts r hr).1.outcome_eq (hverdicts' r' hr').1 heq ((hverdicts r hr).2 hbound)
    ((hverdicts' r' hr').2 hbound')

/-! ### The stitched traces again

Of the two invariants one is violated by the trace `c b` and one only by
the word `a c b`, which was not observed. -/

/-- The document that holds the traces `a c` and `c b`. -/
def stitchedLog : TraceLog :=
  let a : TimedEventSpec := ⟨.internal 0 "a", 0⟩
  let b : TimedEventSpec := ⟨.internal 0 "b", 0⟩
  let c : TimedEventSpec := ⟨.internal 0 "c", 0⟩
  ⟨1, [], [⟨[⟨0, none, [a, c]⟩]⟩, ⟨[⟨0, none, [c, b]⟩]⟩]⟩

/-- The invariants `a NFby b` and `c NFby b`, as a document writes them. -/
def forbiddingSpecs : List InvariantSpec :=
  [⟨.neverFollowedBy, some (.internal 0 "a"), .internal 0 "b", none⟩,
    ⟨.neverFollowedBy, some (.internal 0 "c"), .internal 0 "b", none⟩]

/-- The same invariants, resolved. -/
def forbiddingInvariants : List Invariant :=
  [⟨.neverFollowedBy, .internal 0 "a", .internal 0 "b", none⟩,
    ⟨.neverFollowedBy, .internal 0 "c", .internal 0 "b", none⟩]

/-- Options under which splits go another way. -/
def otherOptions : InferenceOptions :=
  { InferenceOptions.standard with leftSet := .predecessor, remainder := .right }

/-- What refinement reports about them. -/
def forbiddingReport : RefinementReport :=
  ⟨1, 5, [⟨⟨.neverFollowedBy, .internal 0 "a", .internal 0 "b", none⟩, .satisfied, 1⟩,
    ⟨⟨.neverFollowedBy, .internal 0 "c", .internal 0 "b", none⟩, .unresolved, 0⟩]⟩

theorem stitched_infer_isVerdict :
    stitchedLog.resolve = .ok stitchedExecutions ∧
      forbiddingSpecs.mapM (·.resolve []) = .ok forbiddingInvariants ∧
      ∃ g, infer (productSearch 100) () stitchedExecutions 1 [] forbiddingInvariants .standard =
          .ok (g, forbiddingReport) ∧
        (∀ r ∈ forbiddingReport.invariants,
          r.IsVerdict (stitchedExecutions.flatMap (·.processes)) ∧ r.outcome ≠ .boundReached) ∧
        ∃ g' report', infer (productSearch 100) () stitchedExecutions 1 []
            forbiddingInvariants.reverse otherOptions = .ok (g', report') ∧
          ∀ r ∈ forbiddingReport.invariants, ∀ r' ∈ report'.invariants,
            r'.invariant = r.invariant → r'.outcome = r.outcome := by
  have hlog : stitchedLog.resolve = .ok stitchedExecutions := rfl
  have hspecs : forbiddingSpecs.mapM (·.resolve []) = .ok forbiddingInvariants := rfl
  have hreport : (infer (productSearch 100) () stitchedExecutions 1 [] forbiddingInvariants
      .standard).map (·.2) = .ok forbiddingReport := by cbv
  have hreport' : (infer (productSearch 100) () stitchedExecutions 1 []
      forbiddingInvariants.reverse otherOptions).map (·.2.iterations) = .ok 1 := by cbv
  obtain ⟨⟨g, report⟩, hinfer, rfl⟩ := map_eq_ok.1 hreport
  obtain ⟨⟨g', report'⟩, hinfer', -⟩ := map_eq_ok.1 hreport'
  obtain ⟨-, hverdicts, g₀, hg₀, hindependent⟩ := infer_isVerdict hspecs rfl rfl hinfer
  obtain rfl : stitchedGraph = g₀ := Except.ok.inj hg₀
  obtain ⟨hbound, hsame⟩ := hindependent (by decide)
  exact ⟨hlog, hspecs, g, hinfer, fun r hr => ⟨hverdicts r hr, hbound r hr⟩, g', report', hinfer',
    hsame 100 otherOptions forbiddingInvariants.reverse g' report' rfl rfl (by decide)
      (List.reverse_perm _) hinfer'⟩

end ProtocolInference
