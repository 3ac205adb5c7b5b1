import Mathlib
import ProtocolInference.Proofs.Refinement.Course
import ProtocolInference.Proofs.Search

/-!
A settled invariant stays settled.

Each invariant is looked at only while it is its turn, and the graph goes
on being split for the sake of others. That the first answer still counts
in the end rests on two things. The search misses no violation, so an
invariant without a violation in the traced model holds of every word
that the graph admits (`not_fails_of_admits`). And later graphs admit
nothing that earlier graphs did not, which is what makes it unnecessary
to look again (`Advances.upholds`).
-/

namespace ProtocolInference

variable {opts : InferenceOptions} {inv : Invariant} {limit : Nat}
variable {p p' : Progress Unit} {g g' : PartitionGraph} {m base : Model}
variable {channels : List Channel}

/-! ### Questions to the search -/

theorem Model.Unfolds.failsOn_withoutTracers (h : base.Unfolds m) (hbase : base.Mirrors g channels)
    (hinv : ∀ e ∈ inv.events, e.IsOn channels) (es : List Event) :
    inv.FailsOn (es.filter (!m.system.isTracerEvent ·)) ↔ inv.FailsOn es := by
  refine Invariant.failsOn_filter es fun e he => ?_
  rw [h.system.isTracerEvent_eq]
  exact hbase.isTracerEvent_eq_false (hinv e he)

theorem search_of_askAbout (hv : g.Valid) (hinv : ∀ e ∈ inv.events, e.IsOn g.channels)
    {answer : Option Counterexample}
    (h : askAbout (productSearch limit) () g inv = (.ok (m, answer), ())) :
    ∃ (base : Model) (result : Option ProcessRun), base.Mirrors g g.channels ∧ base.Unfolds m ∧
      m.search limit inv = .ok result ∧ answer = result.map fun run => ⟨[run]⟩ := by
  obtain ⟨base, index, hbase, htrace, hask⟩ := model_of_askAbout h
  have hmirrors := hv.mirrors_model hbase
  have hunfolds : base.Unfolds m :=
    hmirrors.unfolds.trace (fun e he => hmirrors.isTracerEvent_eq_false (hinv e he)) htrace
  obtain ⟨result, hresult, heq⟩ := map_eq_ok.1 (Prod.mk.inj hask).1
  exact ⟨base, result, hmirrors, hunfolds, hresult, heq.symm⟩

/-- If the search has nothing to say against the invariant, the invariant
holds of all that the graph admits. -/
theorem not_fails_of_admits (hv : g.Valid) (hinv : ∀ e ∈ inv.events, e.IsOn g.channels)
    (h : askAbout (productSearch limit) () g inv = (.ok (m, none), ()))
    {es : List Event} (hadmits : g.Admits inv.pid es) : ¬ inv.FailsOn es := by
  obtain ⟨base, result, hmirrors, hunfolds, hsearch, hanswer⟩ := search_of_askAbout hv hinv h
  obtain rfl := Option.map_eq_none_iff.1 hanswer.symm
  obtain ⟨b, hb, hnone⟩ := Model.search_eq_none hsearch
  obtain ⟨a, home, ha, hab, -⟩ := hunfolds.automaton hmirrors hb
  obtain ⟨es', haccepts, rfl⟩ := hab.accepts_iff.2 ((ha.accepts_iff hv).2 hadmits)
  rw [hunfolds.failsOn_withoutTracers hmirrors hinv]
  exact hnone es' haccepts

/-- A violation that the search finds is one run. Its path is one of the
graph, from where traces begin to where traces end, and the invariant fails
on its events. -/
theorem exists_path_of_askAbout (hv : g.Valid) (hinv : ∀ e ∈ inv.events, e.IsOn g.channels)
    {cex : Counterexample}
    (h : askAbout (productSearch limit) () g inv = (.ok (m, some cex), ())) :
    ∃ run path, cex.runs = [run] ∧ m.path run = .ok path ∧ path.pid = inv.pid ∧
      path.isIn g = true ∧ g.isInitial path.start = true ∧ g.isTerminal path.last = true ∧
      inv.FailsOn path.events := by
  obtain ⟨base, result, hmirrors, hunfolds, hsearch, hanswer⟩ := search_of_askAbout hv hinv h
  obtain ⟨run, rfl, rfl⟩ := Option.map_eq_some_iff.1 hanswer.symm
  obtain ⟨b, hb, hpid, hinitial, hin, haccepting, hfails⟩ := Model.search_eq_some hsearch
  obtain ⟨a, home, ha, hab, hids⟩ := hunfolds.automaton hmirrors hb
  obtain ⟨path, hpath, hpathpid, hstart, hlast, hevents, hsteps⟩ :=
    Model.path_eq_ok ha hab hids hb hpid (Automaton.isInitial_lt hinitial) hin
  rw [hab.isInitial_eq] at hinitial
  rw [hab.isAccepting_eq] at haccepting
  rw [hab.home_of_lt _ (Automaton.isInitial_lt hinitial)] at hstart
  rw [hab.home_of_lt _ (Automaton.isAccepting_lt haccepting)] at hlast
  obtain ⟨first, hfirst, hbegins⟩ := (ha.isInitial_iff _).1 hinitial
  obtain ⟨last, hlast', hends⟩ := (ha.isAccepting_iff _).1 haccepting
  obtain rfl : first = path.start := Option.some.inj (hfirst.symm.trans hstart)
  obtain rfl : last = path.last := Option.some.inj (hlast'.symm.trans hlast)
  have hpart : g.isPartitionOf path.pid path.start = true := by
    rw [hpathpid]
    exact hv.coherent.mem_idsOf_iff.1 (List.mem_of_getElem? hstart)
  refine ⟨run, path, rfl, hpath, hpathpid, ?_, hbegins, hends, ?_⟩
  · rw [PartitionPath.isIn, hpart, hsteps]
    rfl
  · rw [hevents, System.withoutTracers, hunfolds.failsOn_withoutTracers hmirrors hinv]
    exact hfails

/-! ### The model of a graph upholds an invariant -/

/-- The automaton of the process in the model of the graph has no run from
an initial to an accepting state on which the invariant fails. -/
def PartitionGraph.Upholds (g : PartitionGraph) (inv : Invariant) : Prop :=
  ∃ m a, g.model g.channels = .ok m ∧ m.system.automaton? inv.pid = some a ∧
    ∀ es, a.Accepts es → ¬ inv.FailsOn es

/-- The graph has a model over its own channels. -/
def PartitionGraph.HasModel (g : PartitionGraph) : Prop := ∃ m, g.model g.channels = .ok m

theorem PartitionGraph.Valid.upholds (hv : g.Valid) (hmodel : g.HasModel)
    (hpid : inv.pid < g.processes) (h : ∀ es, g.Admits inv.pid es → ¬ inv.FailsOn es) :
    g.Upholds inv := by
  obtain ⟨m, hm⟩ := hmodel
  have hmirrors := hv.mirrors_model hm
  obtain ⟨a, ha⟩ := System.automaton?_of_lt (hmirrors.processes_eq.symm ▸ hpid)
  refine ⟨m, a, hm, ha, fun es haccepts => h es ?_⟩
  exact ((hmirrors.automaton inv.pid a ha).1.accepts_iff hv).1 haccepts

section Course

variable {σ ε : Type} {oracle : Oracle σ ε} {q q' : Progress σ} {r : InvariantReport}

theorem Reports.hasModel (h : Reports oracle opts q r q') :
    (r.outcome ≠ .skipped → q'.graph.HasModel) ∧ (q.graph.HasModel → q'.graph.HasModel) := by
  cases h with
  | skipped => exact ⟨fun hne => absurd rfl hne, id⟩
  | driven _ hdrives =>
      obtain ⟨s, m, answer, hask⟩ := hdrives.exists_ask
      obtain ⟨base, _, hbase, -, -⟩ := model_of_askAbout hask
      exact ⟨fun _ => ⟨base, hbase⟩, fun _ => ⟨base, hbase⟩⟩

/-- If any invariant was looked at, the last graph has a model. -/
theorem ReportsAll.hasModel {rs : List InvariantReport} (h : ReportsAll oracle opts q rs q') :
    ((∃ r ∈ rs, r.outcome ≠ .skipped) → q'.graph.HasModel) ∧
      (q.graph.HasModel → q'.graph.HasModel) := by
  induction h with
  | nil => exact ⟨fun ⟨_, hr, _⟩ => absurd hr List.not_mem_nil, id⟩
  | cons hfirst _ ih =>
      refine ⟨?_, fun hmodel => ih.2 (hfirst.hasModel.2 hmodel)⟩
      rintro ⟨r, hr, hne⟩
      rcases List.mem_cons.1 hr with rfl | hr
      · exact ih.2 (hfirst.hasModel.1 hne)
      · exact ih.1 ⟨r, hr, hne⟩

end Course

/-- Further splits do not bring a violation back. -/
theorem Advances.upholds (h : Advances p p') (hv : p.graph.Valid) (hmodel : p'.graph.HasModel)
    (hinv : ∀ e ∈ inv.events, e.IsOn p.graph.channels)
    (hask : askAbout (productSearch limit) () p.graph inv = (.ok (m, none), ())) :
    p'.graph.Upholds inv := by
  obtain ⟨base, result, hmirrors, hunfolds, hsearch, -⟩ := search_of_askAbout hv hinv hask
  refine (h.valid hv).upholds hmodel ?_ fun es hadmits => ?_
  · obtain ⟨-, b, hb, -⟩ := Model.search_eq_ok hsearch
    rw [h.splits.processes_eq, ← hmirrors.processes_eq, ← hunfolds.system.processes_eq]
    exact System.automaton?_lt hb
  · exact not_fails_of_admits hv hinv hask ((h.refines hv).admits hv (h.valid hv) hadmits)

theorem reportsAll_of_refineGraph {σ ε : Type} {oracle : Oracle σ ε} {s : σ}
    {invs : List Invariant} {report : RefinementReport}
    (h : refineGraph oracle s opts invs g = (.ok report, g')) :
    ∃ p' : Progress σ, p'.graph = g' ∧ report.invariants.map (·.invariant) = invs ∧
      report.iterations = p'.iterations ∧ report.partitions = g'.partitions.length ∧
      ReportsAll oracle opts ⟨g, s, 0⟩ report.invariants p' := by
  rw [refineGraph] at h
  obtain ⟨hreport, rfl⟩ := Prod.mk.inj h
  obtain ⟨rs, hrs, rfl⟩ := map_eq_ok.1 hreport
  obtain ⟨hinvs, hall⟩ := reportsAll_of_driveAll (Prod.ext hrs rfl)
  exact ⟨_, rfl, hinvs, rfl, rfl, hall⟩

/-- **Settled invariants stay settled.** Whatever was split for the sake of
later invariants, the model of the last graph upholds every invariant that
was reported to be satisfied; if all were, it upholds all. -/
theorem refinement_upholds {executions : List Execution} {processes : Nat}
    {invs : List Invariant} {report : RefinementReport}
    (harises : PartitionGraph.Arises executions processes channels g)
    (hinvs : ∀ inv ∈ invs, ∀ e ∈ inv.events, e.IsOn g.channels)
    (h : refineGraph (productSearch limit) () opts invs g = (.ok report, g')) :
    (∀ r ∈ report.invariants, r.outcome = .satisfied → g'.Upholds r.invariant) ∧
      (report.isFixpoint = true → ∀ inv ∈ invs, g'.Upholds inv) := by
  have hv := harises.valid
  obtain ⟨p', rfl, hlist, -, -, hall⟩ := reportsAll_of_refineGraph h
  have key : ∀ r ∈ report.invariants, r.outcome = .satisfied → p'.graph.Upholds r.invariant := by
    intro r hr houtcome
    have hmodel : p'.graph.HasModel := by
      refine hall.hasModel.1 ⟨r, hr, ?_⟩
      rw [houtcome]
      exact InvariantOutcome.noConfusion
    have hmem : r.invariant ∈ invs := hlist ▸ List.mem_map_of_mem hr
    obtain ⟨q, q', hq, hreports, hq'⟩ := hall.mem hv hr
    cases hreports with
    | skipped => cases houtcome
    | driven _ hdrives =>
        obtain rfl : _ = InvariantOutcome.satisfied := houtcome
        have hqq' := hq.trans (hdrives.advances (hq.valid hv))
        obtain ⟨s, m, hask⟩ := hdrives.ask_of_satisfied
        refine hq'.upholds (hqq'.valid hv) hmodel ?_ hask
        rw [hqq'.splits.channels_eq]
        exact hinvs _ hmem
  refine ⟨key, fun hfix inv hinv => ?_⟩
  rw [← hlist] at hinv
  obtain ⟨r, hr, rfl⟩ := List.mem_map.1 hinv
  exact key r hr (of_decide_eq_true (List.all_eq_true.1 hfix r hr))

/-! ### Two traces that are stitched together

The traces `a c` and `c b` share the partition behind `c`, so their first
graph admits `a c b` as well. This violates one invariant and not the
other, which comes first and is not looked at again after the split. -/

/-- The traces `a c` and `c b`. -/
def stitchedExecutions : List Execution :=
  let a : TimedEvent := ⟨.internal 0 "a", 0⟩
  let b : TimedEvent := ⟨.internal 0 "b", 0⟩
  let c : TimedEvent := ⟨.internal 0 "c", 0⟩
  [⟨[⟨0, none, [a, c]⟩]⟩, ⟨[⟨0, none, [c, b]⟩]⟩]

/-- Their first graph. -/
def stitchedGraph : PartitionGraph :=
  .ofArena 1 [] .byIncomingEvent
    (observeAll (stitchedExecutions.flatMap (·.processes)) .standard []).1

/-- The invariants `c AP b` and `a NFby b`. -/
def stitchedInvariants : List Invariant :=
  [⟨.alwaysPrecedes, .internal 0 "c", .internal 0 "b", none⟩,
    ⟨.neverFollowedBy, .internal 0 "a", .internal 0 "b", none⟩]

/-- What refinement reports about them. -/
def stitchedReport : RefinementReport :=
  ⟨1, 5, [⟨⟨.alwaysPrecedes, .internal 0 "c", .internal 0 "b", none⟩, .satisfied, 0⟩,
    ⟨⟨.neverFollowedBy, .internal 0 "a", .internal 0 "b", none⟩, .satisfied, 1⟩]⟩

theorem stitchedGraph_upholds :
    ∃ g', refineGraph (productSearch 100) () .standard stitchedInvariants stitchedGraph =
        (.ok stitchedReport, g') ∧
      PartitionGraph.Arises stitchedExecutions 1 [] stitchedGraph ∧
      (∀ inv ∈ stitchedInvariants, ∀ e ∈ inv.events, e.IsOn stitchedGraph.channels) ∧
      ∀ inv ∈ stitchedInvariants, g'.Upholds inv := by
  have hreport : (refineGraph (productSearch 100) () .standard stitchedInvariants
      stitchedGraph).1 = .ok stitchedReport := by cbv
  have hrefine : refineGraph (productSearch 100) () .standard stitchedInvariants stitchedGraph =
      (.ok stitchedReport, (refineGraph (productSearch 100) () .standard stitchedInvariants
        stitchedGraph).2) := Prod.ext hreport rfl
  have harises : PartitionGraph.Arises stitchedExecutions 1 [] stitchedGraph :=
    .built (rfl : PartitionGraph.ofExecutions stitchedExecutions 1 [] .byIncomingEvent .standard =
      .ok (stitchedGraph, ⟨"a", 6⟩))
  have hinvs : ∀ inv ∈ stitchedInvariants, ∀ e ∈ inv.events, e.IsOn stitchedGraph.channels := by
    simp [stitchedInvariants, Invariant.events, Event.IsOn, Event.channel?]
  exact ⟨_, hrefine, harises, hinvs, (refinement_upholds harises hinvs hrefine).2 rfl⟩

end ProtocolInference
