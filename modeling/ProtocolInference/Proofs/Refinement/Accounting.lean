import ProtocolInference.Proofs.Refinement.Settled

/-!
Every refinement ends, and its report accounts for every split.

What is known about reports (`ReportsAll`) concerns refinements that
succeed. A refinement may also fail, and then it leaves a graph as well.
`drive_induction` and `driveAll_induction` are about the progress in
which driving ends, whether it fails or not: it is made of questions and
of splits, whatever comes out of it.

There is at most one question for each invariant and one for each split
(`questions_le`). The splits are bounded by the options, and by the
observations in any case: each split adds a partition, and as none is
empty there cannot be more of them than observations.
-/

namespace ProtocolInference

variable {σ ε : Type} {oracle : Oracle σ ε} {opts : InferenceOptions} {inv : Invariant}
variable {invs : List Invariant} {p p' : Progress σ} {g g' : PartitionGraph} {n : Nat}
variable {executions : List Execution} {processes : Nat} {channels : List Channel}

/-! ### Driving, whether or not it fails -/

/-- Driving an invariant is asking about it, and as long as the answer leads
to a split, driving it on from the graph that was split. -/
theorem drive_induction {P : Progress σ → Progress σ → Prop}
    (hask : ∀ p answer s, askAbout oracle p.oracle p.graph inv = (answer, s) →
      P p { p with oracle := s })
    (hrefine : ∀ p m cex s g p', askAbout oracle p.oracle p.graph inv = (.ok (m, some cex), s) →
      p.iterations < opts.maxIterations →
      refineAlong p.graph m opts.refine cex.runs = .ok (some g) →
      P ⟨g, s, p.iterations + 1⟩ p' → P p p')
    (k : Nat) (p : Progress σ) : P p (drive oracle opts inv k p).2 := by
  induction k, p using drive.induct oracle opts inv with
  | case1 k p e s h =>
      rw [drive_of_error h]
      exact hask p _ s h
  | case2 k p m s h =>
      rw [drive_of_none h]
      exact hask p _ s h
  | case3 k p m cex s h hbound =>
      rw [drive_of_le h hbound]
      exact hask p _ s h
  | case4 k p m cex s h hbound e hfail =>
      rw [drive_of_refineError h hbound hfail]
      exact hask p _ s h
  | case5 k p m cex s h hbound e hfail =>
      rw [drive_of_modelError h hbound hfail]
      exact hask p _ s h
  | case6 k p m cex s h hbound hnone =>
      rw [drive_of_noStitch h hbound hnone]
      exact hask p _ s h
  | case7 k p m cex s h hbound g hsplit ih =>
      rw [drive_of_refined h hbound hsplit]
      exact hrefine p m cex s g _ h (Nat.not_le.1 hbound) hsplit ih

/-- Driving all the invariants is driving one after the other, until one
fails. Those that the oracle cannot decide are passed over. -/
theorem driveAll_induction {P : List Invariant → Progress σ → Progress σ → Prop}
    (hstop : ∀ invs p, P invs p p)
    (hskip : ∀ inv invs p p', P invs p p' → P (inv :: invs) p p')
    (hdrive : ∀ inv invs p p', P invs (drive oracle opts inv 0 p).2 p' → P (inv :: invs) p p')
    (invs : List Invariant) (p : Progress σ) : P invs p (driveAll oracle opts p invs).2 := by
  induction invs generalizing p with
  | nil => exact hstop [] p
  | cons inv invs ih =>
      by_cases hsupports : oracle.supports inv = true
      · refine hdrive inv invs p _ ?_
        cases hfirst : drive oracle opts inv 0 p with
        | mk report q =>
            cases report with
            | error e =>
                rw [driveAll_cons_of_error hsupports hfirst]
                exact hstop invs q
            | ok r =>
                rw [driveAll_cons_of_ok hsupports hfirst]
                exact ih q
      · rw [driveAll_cons_of_not_supports hsupports]
        exact hskip inv invs p _ (ih p)

/-! ### Splits -/

section Splits

variable (oracle opts)

theorem advances_drive (inv : Invariant) (k : Nat) (hv : p.graph.Valid) :
    Advances p (drive oracle opts inv k p).2 := by
  refine drive_induction (P := fun p p' => p.graph.Valid → Advances p p') ?_ ?_ k p hv
  · exact fun p _ s _ _ => ⟨.none _, Nat.le_refl _, rfl⟩
  · intro p m cex s g p' _ _ hsplit ih hv
    have hstep : Advances p ⟨g, s, p.iterations + 1⟩ := advances_of_refineAlong hv hsplit
    exact hstep.trans (ih (hstep.valid hv))

theorem advances_driveAll (invs : List Invariant) (hv : p.graph.Valid) :
    Advances p (driveAll oracle opts p invs).2 := by
  refine driveAll_induction (P := fun _ p p' => p.graph.Valid → Advances p p') ?_ ?_ ?_ invs p hv
  · exact fun _ p _ => .refl p
  · exact fun _ _ _ _ ih => ih
  · intro inv invs p p' ih hv
    have hstep := advances_drive oracle opts inv 0 hv
    exact hstep.trans (ih (hstep.valid hv))

theorem iterations_drive_le (inv : Invariant) (k : Nat) (h : p.iterations ≤ opts.maxIterations) :
    (drive oracle opts inv k p).2.iterations ≤ opts.maxIterations := by
  refine drive_induction (P := fun p p' => p.iterations ≤ opts.maxIterations →
    p'.iterations ≤ opts.maxIterations) ?_ ?_ k p h
  · exact fun _ _ _ _ h => h
  · exact fun p m cex s g p' _ hlt _ ih _ => ih hlt

theorem iterations_driveAll_le (invs : List Invariant) (h : p.iterations ≤ opts.maxIterations) :
    (driveAll oracle opts p invs).2.iterations ≤ opts.maxIterations := by
  refine driveAll_induction (P := fun _ p p' => p.iterations ≤ opts.maxIterations →
    p'.iterations ≤ opts.maxIterations) ?_ ?_ ?_ invs p h
  · exact fun _ _ h => h
  · exact fun _ _ _ _ ih => ih
  · exact fun inv invs p p' ih h => ih (iterations_drive_le oracle opts inv 0 h)

/-- A refinement from the beginning makes as many splits as the options
allow and the observations leave room for, at most. -/
theorem iterations_driveAll_bounded (invs : List Invariant) (s : σ) (hv : g.Valid) :
    (driveAll oracle opts ⟨g, s, 0⟩ invs).2.iterations ≤
      min opts.maxIterations (g.observations.length - g.partitions.length) := by
  have hadvances := advances_driveAll oracle opts (p := ⟨g, s, 0⟩) invs hv
  exact Nat.le_min.2 ⟨iterations_driveAll_le oracle opts invs (Nat.zero_le _),
    hadvances.iterations_bounded hv⟩

end Splits

/-! ### Questions -/

/-- The oracle, with a count of the questions that it has been asked. -/
def Oracle.counting (oracle : Oracle σ ε) : Oracle (σ × Nat) ε where
  name := oracle.name
  supports := oracle.supports
  ask := fun (s, n) m inv => ((oracle.ask s m inv).1, (oracle.ask s m inv).2, n + 1)

/-- The progress without the count. -/
def Progress.uncounted (p : Progress (σ × Nat)) : Progress σ :=
  ⟨p.graph, p.oracle.1, p.iterations⟩

theorem askAbout_counting (oracle : Oracle σ ε) (s : σ × Nat) (g : PartitionGraph)
    (inv : Invariant) :
    ∃ n, n ≤ s.2 + 1 ∧ askAbout oracle.counting s g inv =
      ((askAbout oracle s.1 g inv).1, (askAbout oracle s.1 g inv).2, n) := by
  rw [askAbout, askAbout]
  cases (g.model g.channels).bind fun m => m.trace inv with
  | error e => exact ⟨s.2, Nat.le_succ _, rfl⟩
  | ok traced =>
      refine ⟨s.2 + 1, Nat.le_refl _, ?_⟩
      dsimp only [Oracle.counting]
      cases oracle.ask s.1 traced.1 inv with
      | mk answer s' => cases answer <;> rfl

theorem askAbout_of_counting {s s' : σ × Nat}
    {answer : Except (RefinementError ε) (Model × Option Counterexample)}
    (h : askAbout oracle.counting s g inv = (answer, s')) :
    askAbout oracle s.1 g inv = (answer, s'.1) ∧ s'.2 ≤ s.2 + 1 := by
  obtain ⟨n, hn, heq⟩ := askAbout_counting oracle s g inv
  obtain ⟨hanswer, hs⟩ := Prod.mk.inj (h.symm.trans heq)
  rw [hs]
  exact ⟨Prod.ext hanswer.symm rfl, hn⟩

section Questions

variable (oracle opts)

theorem drive_counting (inv : Invariant) (k : Nat) (p : Progress (σ × Nat)) :
    drive oracle opts inv k p.uncounted =
      Prod.map id Progress.uncounted (drive oracle.counting opts inv k p) := by
  induction k, p using drive.induct oracle.counting opts inv with
  | case1 k p e s h =>
      rw [drive_of_error h, drive_of_error (p := p.uncounted) (askAbout_of_counting h).1]
      rfl
  | case2 k p m s h =>
      rw [drive_of_none h, drive_of_none (p := p.uncounted) (askAbout_of_counting h).1]
      rfl
  | case3 k p m cex s h hbound =>
      rw [drive_of_le h hbound, drive_of_le (p := p.uncounted) (askAbout_of_counting h).1 hbound]
      rfl
  | case4 k p m cex s h hbound e hfail =>
      rw [drive_of_refineError h hbound hfail,
        drive_of_refineError (p := p.uncounted) (askAbout_of_counting h).1 hbound hfail]
      rfl
  | case5 k p m cex s h hbound e hfail =>
      rw [drive_of_modelError h hbound hfail,
        drive_of_modelError (p := p.uncounted) (askAbout_of_counting h).1 hbound hfail]
      rfl
  | case6 k p m cex s h hbound hnone =>
      rw [drive_of_noStitch h hbound hnone,
        drive_of_noStitch (p := p.uncounted) (askAbout_of_counting h).1 hbound hnone]
      rfl
  | case7 k p m cex s h hbound g hsplit ih =>
      rw [drive_of_refined h hbound hsplit,
        drive_of_refined (p := p.uncounted) (askAbout_of_counting h).1 hbound hsplit]
      exact ih

theorem driveAll_counting (invs : List Invariant) (p : Progress (σ × Nat)) :
    driveAll oracle opts p.uncounted invs =
      Prod.map id Progress.uncounted (driveAll oracle.counting opts p invs) := by
  induction invs generalizing p with
  | nil => rfl
  | cons inv invs ih =>
      by_cases hsupports : oracle.supports inv = true
      · have hsupports' : oracle.counting.supports inv = true := hsupports
        have hcounting := drive_counting oracle opts inv 0 p
        cases hfirst : drive oracle.counting opts inv 0 p with
        | mk report q =>
            rw [hfirst] at hcounting
            cases report with
            | error e =>
                rw [driveAll_cons_of_error hsupports' hfirst,
                  driveAll_cons_of_error hsupports hcounting]
                rfl
            | ok r =>
                rw [driveAll_cons_of_ok hsupports' hfirst, driveAll_cons_of_ok hsupports hcounting]
                dsimp only [Prod.map, id]
                rw [ih q]
                rfl
      · have hsupports' : ¬ oracle.counting.supports inv = true := hsupports
        rw [driveAll_cons_of_not_supports hsupports, driveAll_cons_of_not_supports hsupports',
          ih p]
        rfl

theorem refineGraph_counting (s : σ) (n : Nat) (invs : List Invariant) (g : PartitionGraph) :
    refineGraph oracle.counting (s, n) opts invs g = refineGraph oracle s opts invs g := by
  have h := driveAll_counting oracle opts invs ⟨g, (s, n), 0⟩
  rw [Progress.uncounted] at h
  rw [refineGraph, refineGraph, h]
  rfl

/-- Between the two progresses there is one question for each split, and at
most `n` questions besides. -/
def AsksAtMost (n : Nat) (p p' : Progress (σ × Nat)) : Prop :=
  p'.oracle.2 + p.iterations ≤ p.oracle.2 + p'.iterations + n

theorem asksAtMost_drive (inv : Invariant) (k : Nat) (p : Progress (σ × Nat)) :
    AsksAtMost 1 p (drive oracle.counting opts inv k p).2 := by
  refine drive_induction (fun p answer s hask => ?_) ?_ k p
  · have hcount := (askAbout_of_counting hask).2
    dsimp only [AsksAtMost]
    omega
  · intro p m cex s g p' hask _ _ ih
    have hcount := (askAbout_of_counting hask).2
    dsimp only [AsksAtMost] at ih ⊢
    omega

theorem asksAtMost_driveAll (invs : List Invariant) (p : Progress (σ × Nat)) :
    AsksAtMost invs.length p (driveAll oracle.counting opts p invs).2 := by
  refine driveAll_induction (P := fun invs p p' => AsksAtMost invs.length p p') ?_ ?_ ?_ invs p
  · intro invs p
    exact Nat.le_add_right _ _
  · intro inv invs p p' ih
    exact Nat.le_succ_of_le ih
  · intro inv invs p p' ih
    have hfirst := asksAtMost_drive oracle opts inv 0 p
    dsimp only [AsksAtMost, List.length_cons] at hfirst ih ⊢
    omega

/-- How many questions a refinement asks. -/
def questions (s : σ) (invs : List Invariant) (g : PartitionGraph) : Nat :=
  (driveAll oracle.counting opts ⟨g, (s, 0), 0⟩ invs).2.oracle.2

theorem questions_le (s : σ) (invs : List Invariant) (hv : g.Valid) :
    questions oracle opts s invs g ≤ invs.length +
      min opts.maxIterations (g.observations.length - g.partitions.length) := by
  have hasks := asksAtMost_driveAll oracle opts invs ⟨g, (s, 0), 0⟩
  have hbounded := iterations_driveAll_bounded oracle.counting opts invs (s, 0) hv
  rw [questions]
  dsimp only [AsksAtMost] at hasks
  omega

end Questions

/-! ### The account -/

/-- The report accounts for a refinement of `g` against the invariants, in
which `g'` was left. -/
structure RefinementReport.Accounts (report : RefinementReport) (opts : InferenceOptions)
    (invs : List Invariant) (g g' : PartitionGraph) : Prop where
  /-- There is an entry for each invariant, in order. -/
  invariants_eq : report.invariants.map (·.invariant) = invs
  refinements_eq : (report.invariants.map (·.refinements)).sum = report.iterations
  length_eq : g'.partitions.length = g.partitions.length + report.iterations
  partitions_eq : report.partitions = g'.partitions.length
  iterations_le : report.iterations ≤
    min opts.maxIterations (g.observations.length - g.partitions.length)
  eq_of_boundReached : ∀ r ∈ report.invariants, r.outcome = .boundReached →
    report.iterations = opts.maxIterations

/-- The reports count every iteration, and none twice. -/
theorem ReportsAll.iterations_eq {rs : List InvariantReport} (h : ReportsAll oracle opts p rs p') :
    p'.iterations = p.iterations + (rs.map (·.refinements)).sum := by
  induction h with
  | nil => rfl
  | cons hfirst _ ih =>
      rw [ih, List.map_cons, List.sum_cons, ← Nat.add_assoc]
      cases hfirst with
      | skipped => rfl
      | driven _ hdrives => rw [hdrives.iterations_eq]

theorem accounts_of_refineGraph {s : σ} {report : RefinementReport} (hv : g.Valid)
    (h : refineGraph oracle s opts invs g = (.ok report, g')) :
    report.Accounts opts invs g g' := by
  rw [refineGraph] at h
  obtain ⟨hreport, rfl⟩ := Prod.mk.inj h
  obtain ⟨rs, hrs, rfl⟩ := map_eq_ok.1 hreport
  obtain ⟨hinvs, hall⟩ := reportsAll_of_driveAll (Prod.ext hrs rfl)
  have hbounded := iterations_driveAll_bounded oracle opts invs s hv
  constructor
  case invariants_eq => exact hinvs
  case refinements_eq => exact (hall.iterations_eq.trans (Nat.zero_add _)).symm
  case length_eq => exact (hall.advances hv).length_eq
  case partitions_eq => rfl
  case iterations_le => exact hbounded
  case eq_of_boundReached =>
    intro r hr houtcome
    exact Nat.le_antisymm (Nat.le_trans hbounded (Nat.min_le_left _ _))
      (hall.le_of_boundReached hv hr houtcome)

/-- **Every refinement ends and accounts for its splits**, whatever the oracle
answers. It asks no more than one question for each invariant and one for
each split. If it succeeds, its report accounts for it; in any case it
leaves a graph that arises from the same executions, with no more
partitions than observations. -/
theorem refinement_is_accounted (oracle : Oracle σ ε) (opts : InferenceOptions) (s : σ)
    (invs : List Invariant) (h : PartitionGraph.Arises executions processes channels g) :
    (∀ n, refineGraph oracle.counting (s, n) opts invs g = refineGraph oracle s opts invs g) ∧
      questions oracle opts s invs g ≤ invs.length +
        min opts.maxIterations (g.observations.length - g.partitions.length) ∧
      ∀ result g', refineGraph oracle s opts invs g = (result, g') →
        PartitionGraph.Arises executions processes channels g' ∧ g'.Valid ∧
        g'.observations = g.observations ∧ g'.partitions.length ≤ g.observations.length ∧
        ∀ report, result = .ok report → report.Accounts opts invs g g' := by
  have hv := h.valid
  refine ⟨fun n => refineGraph_counting oracle opts s n invs g,
    questions_le oracle opts s invs hv, fun result g' hrefine => ?_⟩
  have hadvances := advances_driveAll oracle opts (p := ⟨g, s, 0⟩) invs hv
  have hg' : (driveAll oracle opts ⟨g, s, 0⟩ invs).2.graph = g' := by
    rw [refineGraph] at hrefine
    exact (Prod.mk.inj hrefine).2
  have hobs := (hadvances.refines hv).observations_eq
  have hv' := hadvances.valid hv
  rw [hg'] at hobs hv'
  refine ⟨hg' ▸ h.splits hadvances.splits, hv', hobs, ?_, ?_⟩
  · rw [← hobs]
    exact hv'.coherent.length_partitions_le
  · rintro report rfl
    exact accounts_of_refineGraph hv hrefine

/-- The refinement of `stitchedGraph` asks three questions, two of them about
the invariant that takes a split. -/
theorem stitchedGraph_is_accounted :
    PartitionGraph.Arises stitchedExecutions 1 [] stitchedGraph ∧
      questions (productSearch 100) .standard () stitchedInvariants stitchedGraph = 3 ∧
      ∃ g', refineGraph (productSearch 100) () .standard stitchedInvariants stitchedGraph =
          (.ok stitchedReport, g') ∧
        stitchedReport.Accounts .standard stitchedInvariants stitchedGraph g' := by
  have harises : PartitionGraph.Arises stitchedExecutions 1 [] stitchedGraph :=
    .built (rfl : PartitionGraph.ofExecutions stitchedExecutions 1 [] .byIncomingEvent .standard =
      .ok (stitchedGraph, ⟨"a", 6⟩))
  have hreport : (refineGraph (productSearch 100) () .standard stitchedInvariants
      stitchedGraph).1 = .ok stitchedReport := by cbv
  have hrefine : refineGraph (productSearch 100) () .standard stitchedInvariants stitchedGraph =
      (.ok stitchedReport, (refineGraph (productSearch 100) () .standard stitchedInvariants
        stitchedGraph).2) := Prod.ext hreport rfl
  obtain ⟨-, -, hall⟩ := refinement_is_accounted (productSearch 100) .standard ()
    stitchedInvariants harises
  exact ⟨harises, by cbv, _, hrefine, (hall _ _ hrefine).2.2.2.2 _ rfl⟩

end ProtocolInference
