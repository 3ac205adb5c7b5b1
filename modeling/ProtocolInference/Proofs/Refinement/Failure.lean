import ProtocolInference.Proofs.Partition.Coarsen
import ProtocolInference.Proofs.Partition.Refine
import ProtocolInference.Proofs.Refinement.Verdict
import ProtocolInference.Proofs.Trace.Downstream

/-!
Why an inference fails.

An inference has many ways to fail: each merge, each split, each model,
each path and each question to the oracle may be refused. For a document
that is accepted all but two of them are closed, however many splits have
been made before. `FailsAt` says what is wrong at the point at which a
refinement stops, and since everything up to there was a sequence of
splits, the graph at that point arises from the document.

Such a graph has a model (`TraceLog.WellFormed.exists_model`), the path of
a violation is a path of the graph between the ends of traces
(`exists_path_of_askAbout`), and along such a path the graph can be split
(`PartitionPath.exists_refine`). What remains is an invariant of a process
that there is not, and a search that is larger than it may be.
-/

namespace ProtocolInference

/-! ### The point of failure -/

section FailsAt

variable {σ ε : Type} {oracle : Oracle σ ε} {opts : InferenceOptions} {inv : Invariant}
variable {invs : List Invariant} {p p' q : Progress σ} {k : Nat} {e : RefinementError ε}

/-- The invariant is not driven on from the progress `q`: the oracle cannot be
asked or has no answer, or a run of its counterexample has no path, or the
graph cannot be split along it. -/
inductive FailsAt (oracle : Oracle σ ε) (opts : InferenceOptions) (inv : Invariant)
    (q : Progress σ) : RefinementError ε → Prop
  | ask {s : σ} {e : RefinementError ε} :
      askAbout oracle q.oracle q.graph inv = (.error e, s) → FailsAt oracle opts inv q e
  | refine {m : Model} {cex : Counterexample} {s : σ} {e : RefineError} :
      askAbout oracle q.oracle q.graph inv = (.ok (m, some cex), s) →
      refineAlong q.graph m opts.refine cex.runs = .error (.inl e) →
      FailsAt oracle opts inv q (.refine e)
  | model {m : Model} {cex : Counterexample} {s : σ} {e : ModelError} :
      askAbout oracle q.oracle q.graph inv = (.ok (m, some cex), s) →
      refineAlong q.graph m opts.refine cex.runs = .error (.inr e) →
      FailsAt oracle opts inv q (.model e)

theorem failsAt_of_drive (hv : p.graph.Valid)
    (h : drive oracle opts inv k p = (.error e, p')) :
    ∃ q, Advances p q ∧ FailsAt oracle opts inv q e := by
  induction k, p using drive.induct oracle opts inv with
  | case1 k p e' s hask =>
      rw [drive_of_error hask] at h
      obtain rfl := Except.error.inj (Prod.mk.inj h).1
      exact ⟨p, .refl p, .ask hask⟩
  | case2 k p m s hask =>
      rw [drive_of_none hask] at h
      cases h
  | case3 k p m cex s hask hbound =>
      rw [drive_of_le hask hbound] at h
      cases h
  | case4 k p m cex s hask hbound e' hrefine =>
      rw [drive_of_refineError hask hbound hrefine] at h
      obtain rfl := Except.error.inj (Prod.mk.inj h).1
      exact ⟨p, .refl p, .refine hask hrefine⟩
  | case5 k p m cex s hask hbound e' hrefine =>
      rw [drive_of_modelError hask hbound hrefine] at h
      obtain rfl := Except.error.inj (Prod.mk.inj h).1
      exact ⟨p, .refl p, .model hask hrefine⟩
  | case6 k p m cex s hask hbound hrefine =>
      rw [drive_of_noStitch hask hbound hrefine] at h
      cases h
  | case7 k p m cex s hask hbound g hrefine ih =>
      rw [drive_of_refined hask hbound hrefine] at h
      have hstep : Advances p ⟨g, s, p.iterations + 1⟩ := advances_of_refineAlong hv hrefine
      obtain ⟨q, hq, hfails⟩ := ih (hstep.valid hv) h
      exact ⟨q, hstep.trans hq, hfails⟩

theorem failsAt_of_driveAll (hv : p.graph.Valid)
    (h : driveAll oracle opts p invs = (.error e, p')) :
    ∃ inv ∈ invs, oracle.supports inv = true ∧
      ∃ q, Advances p q ∧ FailsAt oracle opts inv q e := by
  induction invs generalizing p with
  | nil => cases h
  | cons inv invs ih =>
      have hlater {p₁ : Progress σ} {f : List InvariantReport → List InvariantReport}
          (hadvances : Advances p p₁)
          (hrest : ((driveAll oracle opts p₁ invs).1.map f, (driveAll oracle opts p₁ invs).2) =
            (.error e, p')) :
          ∃ inv' ∈ inv :: invs, oracle.supports inv' = true ∧
            ∃ q, Advances p q ∧ FailsAt oracle opts inv' q e := by
        obtain ⟨hfirst, hsecond⟩ := Prod.mk.inj hrest
        obtain ⟨inv', hinv', hsupports, q, hq, hfails⟩ :=
          ih (hadvances.valid hv) (Prod.ext (map_eq_error.1 hfirst) hsecond)
        exact ⟨inv', List.mem_cons_of_mem _ hinv', hsupports, q, hadvances.trans hq, hfails⟩
      by_cases hsupports : oracle.supports inv = true
      · cases hfirst : drive oracle opts inv 0 p with
        | mk report p₁ =>
            cases report with
            | error e' =>
                rw [driveAll_cons_of_error hsupports hfirst] at h
                obtain rfl := Except.error.inj (Prod.mk.inj h).1
                obtain ⟨q, hq, hfails⟩ := failsAt_of_drive hv hfirst
                exact ⟨inv, List.mem_cons_self, hsupports, q, hq, hfails⟩
            | ok r =>
                rw [driveAll_cons_of_ok hsupports hfirst] at h
                obtain ⟨-, hreports⟩ := reports_of_drive hsupports hfirst
                exact hlater (hreports.advances hv) h
      · rw [driveAll_cons_of_not_supports hsupports] at h
        exact hlater (.refl p) h

theorem askAbout_eq_error {s s' : σ} {g : PartitionGraph}
    (h : askAbout oracle s g inv = (.error e, s')) :
    (∃ cause, (g.model g.channels).bind (·.trace inv) = .error cause ∧ e = .model cause) ∨
      ∃ base m index cause, g.model g.channels = .ok base ∧ base.trace inv = .ok (m, index) ∧
        oracle.ask s m inv = (.error cause, s') ∧ e = .oracle oracle.name inv cause := by
  rw [askAbout] at h
  split at h
  · next cause hmodel =>
    exact .inl ⟨cause, hmodel, (Except.error.inj (Prod.mk.inj h).1).symm⟩
  · next m index hmodel =>
    obtain ⟨base, hbase, htrace⟩ := bind_eq_ok.1 hmodel
    split at h
    · next cause s'' hask =>
      obtain ⟨he, rfl⟩ := Prod.mk.inj h
      exact .inr ⟨base, m, index, cause, hbase, htrace, hask, (Except.error.inj he).symm⟩
    · cases h

end FailsAt

/-! ### Graphs of accepted documents -/

section Accepted

variable {log : TraceLog} {opts : InferenceOptions} {invs : List Invariant} {inv : Invariant}
variable {limit : Nat} {g g₀ : PartitionGraph} {q : Progress Unit} {e : RefinementError SearchError}

theorem TraceLog.WellFormed.exists_startGraph (h : log.WellFormed) (opts : InferenceOptions) :
    ∃ g, startGraph log.resolved log.processes log.channels opts = .ok g ∧
      PartitionGraph.Arises log.resolved log.processes log.channels g := by
  obtain ⟨g, names, hg⟩ : ∃ g names, PartitionGraph.ofExecutions log.resolved log.processes
      log.channels opts.partitioning .standard = .ok (g, names) :=
    PartitionGraph.exists_ofExecutions (fun t ht => (h.fits t ht).1) _ _
  by_cases hcoarsen : opts.coarsenByName = true
  · obtain ⟨g', merges, hg'⟩ := (PartitionGraph.valid_ofExecutions hg).exists_coarsenByName
    refine ⟨g', ?_, .changed (.built hg) (.coarsen hg')⟩
    rw [startGraph, hg, ok_bind]
    dsimp only
    rw [if_pos hcoarsen, hg']
    rfl
  · refine ⟨g, ?_, .built hg⟩
    rw [startGraph, hg, ok_bind]
    dsimp only
    rw [if_neg hcoarsen]
    rfl

/-- In the pursuit of an answer that the search has given, nothing fails. -/
theorem exists_refineAlong (hv : g.Valid) (hinv : ∀ e ∈ inv.events, e.IsOn g.channels)
    {m : Model} {cex : Counterexample}
    (hask : askAbout (productSearch limit) () g inv = (.ok (m, some cex), ()))
    (refineOpts : RefineOptions) : ∃ result, refineAlong g m refineOpts cex.runs = .ok result := by
  obtain ⟨run, path, hruns, hpath, -, hin, -, hend, -⟩ := exists_path_of_askAbout hv hinv hask
  obtain ⟨g', outcome, hrefine⟩ := PartitionPath.exists_refine hv hin hend refineOpts
  cases outcome with
  | refined partition stitch left right =>
      exact ⟨some g', by simp [hruns, refineAlong, hpath, hrefine, Except.mapError]⟩
  | noStitch =>
      exact ⟨none, by simp [hruns, refineAlong, hpath, hrefine, Except.mapError]⟩

/-- How an inference from an accepted document may fail. -/
inductive InferenceFailure (log : TraceLog) (opts : InferenceOptions) (invs : List Invariant)
    (limit : Nat) : RefinementError SearchError → Prop
  /-- An invariant within one process is about a process that there is not. -/
  | processOutOfRange {inv : Invariant} :
      inv ∈ invs → inv.isWithinProcess = true → log.processes ≤ inv.pid →
      InferenceFailure log opts invs limit
        (.model (.system (.processOutOfRange inv.pid log.processes)))
  /-- In the traced model of a graph to which splits have led, more nodes can be
  reached than a search may look at. -/
  | exhausted {inv : Invariant} {g₀ g : PartitionGraph} {base m : Model} {index : Nat}
      {a : Automaton} :
      inv ∈ invs → inv.isWithinProcess = true →
      startGraph log.resolved log.processes log.channels opts = .ok g₀ → g₀.Splits g →
      g.model log.channels = .ok base → base.trace inv = .ok (m, index) →
      m.system.automaton? inv.pid = some a → a.Exceeds inv.untimed limit →
      InferenceFailure log opts invs limit (.oracle "product-search" inv (.exhausted limit))

/-- What can be wrong where a refinement of an accepted document stops. -/
theorem TraceLog.WellFormed.failure_of_failsAt (h : log.WellFormed)
    (hg₀ : startGraph log.resolved log.processes log.channels opts = .ok g₀)
    (harises : PartitionGraph.Arises log.resolved log.processes log.channels g₀)
    (hsplits : g₀.Splits q.graph) (hmem : inv ∈ invs)
    (hinv : ∀ e ∈ inv.events, e.IsOn log.channels) (hwithin : inv.isWithinProcess = true)
    (hfails : FailsAt (productSearch limit) opts inv q e) :
    InferenceFailure log opts invs limit e := by
  have harises' := harises.splits hsplits
  obtain ⟨hprocesses, hchannels⟩ := harises'.system_eq
  have hon : ∀ e ∈ inv.events, e.IsOn q.graph.channels := hchannels.symm ▸ hinv
  have hrefines {m : Model} {cex : Counterexample} {s : Unit} {err : RefineError ⊕ ModelError}
      (hask : askAbout (productSearch limit) q.oracle q.graph inv = (.ok (m, some cex), s))
      (herr : refineAlong q.graph m opts.refine cex.runs = .error err) : False := by
    obtain ⟨result, hok⟩ := exists_refineAlong harises'.valid hon hask opts.refine
    rw [hok] at herr
    cases herr
  cases hfails with
  | refine hask herr => exact (hrefines hask herr).elim
  | model hask herr => exact (hrefines hask herr).elim
  | ask hask =>
      obtain ⟨base, hbase, hmirrors, hclosed⟩ := h.exists_model harises'
      have hcount : base.system.processes = log.processes :=
        hmirrors.processes_eq.trans hprocesses
      rcases askAbout_eq_error hask with ⟨cause, hmodel, rfl⟩ | ⟨base', m, index, cause, hbase',
        htrace, hcause, rfl⟩
      · rw [hchannels, hbase] at hmodel
        obtain ⟨hge, rfl⟩ := Model.trace_eq_error hclosed hmirrors.tracers_eq hwithin hmodel
        rw [hcount] at hge ⊢
        exact .processOutOfRange hmem hwithin hge
      · rw [hchannels, hbase] at hbase'
        obtain rfl := Except.ok.inj hbase'
        obtain ⟨a, ha⟩ := Model.exists_automaton_of_trace hclosed htrace
        have hsearch := map_eq_error.1 (Prod.mk.inj hcause).1
        obtain ⟨rfl, hexceeds⟩ := Model.search_eq_error hwithin ha hsearch
        exact .exhausted hmem hwithin hg₀ hsplits hbase htrace ha hexceeds

/-- **An inference fails on account of its input only.** From a document that
is accepted, and invariants that have been resolved against its channels, an
inference by search comes to a report, whatever the options are, unless an
invariant within one process is about a process that there is not, or a
search would have to look at more nodes than it may. Nothing else fails,
before or after any number of splits. -/
theorem inference_fails_on_input_only {executions : List Execution} {specs : List InvariantSpec}
    (h : log.resolve = .ok executions) (hspecs : specs.mapM (·.resolve log.channels) = .ok invs)
    (opts : InferenceOptions) (limit : Nat) :
    (∃ g report, infer (productSearch limit) () executions log.processes log.channels invs opts =
      .ok (g, report)) ∨
    ∃ e, infer (productSearch limit) () executions log.processes log.channels invs opts =
      .error e ∧ InferenceFailure log opts invs limit e := by
  obtain ⟨hlog, rfl⟩ := TraceLog.resolve_eq_ok.1 h
  obtain ⟨g₀, hg₀, harises⟩ := hlog.exists_startGraph opts
  cases hrefine : refineGraph (productSearch limit) () opts invs g₀ with
  | mk result g =>
      have hinfer : infer (productSearch limit) () log.resolved log.processes log.channels invs
          opts = result.map (g, ·) := by
        rw [infer, hg₀, Except.mapError, ok_bind, hrefine]
        cases result <;> rfl
      cases result with
      | ok report => exact .inl ⟨g, report, hinfer⟩
      | error e =>
          refine .inr ⟨e, hinfer, ?_⟩
          obtain ⟨hreports, -⟩ := Prod.mk.inj hrefine
          obtain ⟨inv, hmem, hsupports, q, hadvances, hfails⟩ :=
            failsAt_of_driveAll (p := ⟨g₀, (), 0⟩) harises.valid
              (Prod.ext (map_eq_error.1 hreports) rfl)
          obtain ⟨spec, -, hspec⟩ := (mem_of_mapM_eq_ok hspecs).1 hmem
          exact hlog.failure_of_failsAt hg₀ harises hadvances.splits hmem
            (InvariantSpec.isOn_of_resolve hspec) hsupports hfails

end Accepted

/-! ### Both failures

The two traces `a c` and `c b`, with a search that may look at a single
node, and with an invariant of a process that there is not. -/

/-- The invariant `Eventually d` of process 3, as a document writes it. -/
def foreignSpecs : List InvariantSpec := [⟨.eventually, none, .internal 3 "d", none⟩]

/-- The same invariant, resolved. -/
def foreignInvariants : List Invariant :=
  [⟨.eventually, .internal 3 "d", .internal 3 "d", none⟩]

theorem stitched_fails_on_input :
    stitchedLog.resolve = .ok stitchedExecutions ∧
      forbiddingSpecs.mapM (·.resolve []) = .ok forbiddingInvariants ∧
      foreignSpecs.mapM (·.resolve []) = .ok foreignInvariants ∧
      (∃ e, infer (productSearch 1) () stitchedExecutions 1 [] forbiddingInvariants .standard =
          .error e ∧ InferenceFailure stitchedLog .standard forbiddingInvariants 1 e ∧
        e = .oracle "product-search" ⟨.neverFollowedBy, .internal 0 "a", .internal 0 "b", none⟩
          (.exhausted 1)) ∧
      ∃ e, infer (productSearch 100) () stitchedExecutions 1 [] foreignInvariants .standard =
          .error e ∧ InferenceFailure stitchedLog .standard foreignInvariants 100 e ∧
        e = .model (.system (.processOutOfRange 3 1)) := by
  have hlog : stitchedLog.resolve = .ok stitchedExecutions := rfl
  have hspecs : forbiddingSpecs.mapM (·.resolve []) = .ok forbiddingInvariants := rfl
  have hforeign : foreignSpecs.mapM (·.resolve []) = .ok foreignInvariants := rfl
  have hexhausted : infer (productSearch 1) () stitchedExecutions 1 [] forbiddingInvariants
      .standard = .error (.oracle "product-search"
        ⟨.neverFollowedBy, .internal 0 "a", .internal 0 "b", none⟩ (.exhausted 1)) := by cbv
  have hrange : infer (productSearch 100) () stitchedExecutions 1 [] foreignInvariants
      .standard = .error (.model (.system (.processOutOfRange 3 1))) := by cbv
  refine ⟨hlog, hspecs, hforeign, ?_, ?_⟩
  · obtain ⟨g, report, hok⟩ | ⟨e, herror, hfailure⟩ :=
      inference_fails_on_input_only hlog hspecs .standard 1
    · cases hexhausted.symm.trans hok
    · exact ⟨e, herror, hfailure, Except.error.inj (herror.symm.trans hexhausted)⟩
  · obtain ⟨g, report, hok⟩ | ⟨e, herror, hfailure⟩ :=
      inference_fails_on_input_only hlog hforeign .standard 100
    · cases hrange.symm.trans hok
    · exact ⟨e, herror, hfailure, Except.error.inj (herror.symm.trans hrange)⟩

end ProtocolInference
