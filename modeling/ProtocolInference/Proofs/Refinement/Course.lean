import ProtocolInference.Proofs.Partition.Ownership
import ProtocolInference.Proofs.Partition.Behaviour
import ProtocolInference.Refinement

/-!
The course of a refinement.

Driving an invariant to its outcome is a sequence of splits with a last
question at its end. The relation `Drives` says so without the loop: it
has one constructor for each outcome and one for a split, so what holds
of a refinement is proved by induction over the splits. Nothing is
assumed about the oracle here.

Whatever the oracle answers, a refinement only splits
(`Advances.splits`), and every iteration adds exactly one partition
(`Advances.length_eq`). As a partition is never empty there cannot be
more of them than observations, and this bounds the number of iterations.
-/

namespace ProtocolInference

variable {σ ε : Type} {oracle : Oracle σ ε} {opts : InferenceOptions} {inv : Invariant}
variable {p p' p'' : Progress σ} {g g' : PartitionGraph} {m : Model} {n : Nat}
variable {outcome : InvariantOutcome} {r : InvariantReport}

/-! ### One counterexample -/

theorem stitch?_of_refineAlong {refineOpts : RefineOptions} {runs : List ProcessRun}
    (h : refineAlong g m refineOpts runs = .ok none) :
    ∀ run ∈ runs, ∃ path, m.path run = .ok path ∧ path.stitch? g = .ok none := by
  induction runs with
  | nil => exact fun _ hrun => absurd hrun List.not_mem_nil
  | cons run runs ih =>
      simp only [refineAlong, bind_eq_ok, mapError_eq_ok] at h
      obtain ⟨path, hpath, ⟨g', result⟩, hrefine, h⟩ := h
      cases result with
      | refined => cases h
      | noStitch =>
          refine List.forall_mem_cons.2 ⟨⟨path, hpath, ?_⟩, ih h⟩
          obtain ⟨-, -, hstitch⟩ | ⟨_, _, _, _, _, _, habsurd, -⟩ :=
            PartitionPath.refine_eq_ok hrefine
          · exact hstitch
          · cases habsurd

theorem split_of_refineAlong {refineOpts : RefineOptions} {runs : List ProcessRun}
    (h : refineAlong g m refineOpts runs = .ok (some g')) :
    ∃ id left right l r, g.split id left right = .ok (g', l, r) := by
  induction runs with
  | nil => cases h
  | cons run runs ih =>
      simp only [refineAlong, bind_eq_ok, mapError_eq_ok] at h
      obtain ⟨path, -, ⟨g'', result⟩, hrefine, h⟩ := h
      cases result with
      | noStitch => exact ih h
      | refined =>
          obtain rfl := Option.some.inj (pure_eq_ok.1 h)
          obtain ⟨habsurd, -⟩ | ⟨_, _, left, right, l, r, -, hsplit⟩ :=
            PartitionPath.refine_eq_ok hrefine
          · cases habsurd
          · exact ⟨_, left, right, l, r, hsplit⟩

/-! ### One invariant -/

section Drive

variable {k : Nat} {s : σ} {cex : Counterexample}

theorem drive_of_error {e : RefinementError ε}
    (hask : askAbout oracle p.oracle p.graph inv = (.error e, s)) :
    drive oracle opts inv k p = (.error e, { p with oracle := s }) := by
  rw [drive, hask]

theorem drive_of_none (hask : askAbout oracle p.oracle p.graph inv = (.ok (m, none), s)) :
    drive oracle opts inv k p = (.ok ⟨inv, .satisfied, k⟩, { p with oracle := s }) := by
  rw [drive, hask]

variable (hask : askAbout oracle p.oracle p.graph inv = (.ok (m, some cex), s))

include hask

theorem drive_of_le (hbound : opts.maxIterations ≤ p.iterations) :
    drive oracle opts inv k p = (.ok ⟨inv, .boundReached, k⟩, { p with oracle := s }) := by
  rw [drive, hask]
  exact dif_pos hbound

variable (hbound : ¬ opts.maxIterations ≤ p.iterations)

include hbound

theorem drive_of_refineError {e : RefineError}
    (hrefine : refineAlong p.graph m opts.refine cex.runs = .error (.inl e)) :
    drive oracle opts inv k p = (.error (.refine e), { p with oracle := s }) := by
  rw [drive, hask]
  dsimp only
  rw [dif_neg hbound, hrefine]

theorem drive_of_modelError {e : ModelError}
    (hrefine : refineAlong p.graph m opts.refine cex.runs = .error (.inr e)) :
    drive oracle opts inv k p = (.error (.model e), { p with oracle := s }) := by
  rw [drive, hask]
  dsimp only
  rw [dif_neg hbound, hrefine]

theorem drive_of_noStitch (hrefine : refineAlong p.graph m opts.refine cex.runs = .ok none) :
    drive oracle opts inv k p = (.ok ⟨inv, .unresolved, k⟩, { p with oracle := s }) := by
  rw [drive, hask]
  dsimp only
  rw [dif_neg hbound, hrefine]

theorem drive_of_refined (hrefine : refineAlong p.graph m opts.refine cex.runs = .ok (some g)) :
    drive oracle opts inv k p = drive oracle opts inv (k + 1) ⟨g, s, p.iterations + 1⟩ := by
  rw [drive, hask]
  dsimp only
  rw [dif_neg hbound, hrefine]

end Drive

/-- From the progress `p`, the invariant is driven to the outcome in `n`
splits. -/
inductive Drives (oracle : Oracle σ ε) (opts : InferenceOptions) (inv : Invariant) :
    Progress σ → Nat → InvariantOutcome → Progress σ → Prop
  | satisfied {p : Progress σ} {m : Model} {s : σ} :
      askAbout oracle p.oracle p.graph inv = (.ok (m, none), s) →
      Drives oracle opts inv p 0 .satisfied { p with oracle := s }
  | boundReached {p : Progress σ} {m : Model} {cex : Counterexample} {s : σ} :
      askAbout oracle p.oracle p.graph inv = (.ok (m, some cex), s) →
      opts.maxIterations ≤ p.iterations →
      Drives oracle opts inv p 0 .boundReached { p with oracle := s }
  | unresolved {p : Progress σ} {m : Model} {cex : Counterexample} {s : σ} :
      askAbout oracle p.oracle p.graph inv = (.ok (m, some cex), s) →
      p.iterations < opts.maxIterations →
      refineAlong p.graph m opts.refine cex.runs = .ok none →
      Drives oracle opts inv p 0 .unresolved { p with oracle := s }
  | refine {p p' : Progress σ} {m : Model} {cex : Counterexample} {s : σ} {g : PartitionGraph}
      {n : Nat} {outcome : InvariantOutcome} :
      askAbout oracle p.oracle p.graph inv = (.ok (m, some cex), s) →
      p.iterations < opts.maxIterations →
      refineAlong p.graph m opts.refine cex.runs = .ok (some g) →
      Drives oracle opts inv ⟨g, s, p.iterations + 1⟩ n outcome p' →
      Drives oracle opts inv p (n + 1) outcome p'

theorem drives_of_drive {k : Nat} (h : drive oracle opts inv k p = (.ok r, p')) :
    ∃ n, r = ⟨inv, r.outcome, k + n⟩ ∧ Drives oracle opts inv p n r.outcome p' := by
  induction k, p using drive.induct oracle opts inv with
  | case1 k p e s hask =>
      rw [drive_of_error hask] at h
      cases h
  | case2 k p m s hask =>
      rw [drive_of_none hask] at h
      obtain ⟨hr, rfl⟩ := Prod.mk.inj h
      obtain rfl := Except.ok.inj hr
      exact ⟨0, rfl, .satisfied hask⟩
  | case3 k p m cex s hask hbound =>
      rw [drive_of_le hask hbound] at h
      obtain ⟨hr, rfl⟩ := Prod.mk.inj h
      obtain rfl := Except.ok.inj hr
      exact ⟨0, rfl, .boundReached hask hbound⟩
  | case4 k p m cex s hask hbound e hrefine =>
      rw [drive_of_refineError hask hbound hrefine] at h
      cases h
  | case5 k p m cex s hask hbound e hrefine =>
      rw [drive_of_modelError hask hbound hrefine] at h
      cases h
  | case6 k p m cex s hask hbound hrefine =>
      rw [drive_of_noStitch hask hbound hrefine] at h
      obtain ⟨hr, rfl⟩ := Prod.mk.inj h
      obtain rfl := Except.ok.inj hr
      exact ⟨0, rfl, .unresolved hask (Nat.not_le.1 hbound) hrefine⟩
  | case7 k p m cex s hask hbound g hrefine ih =>
      rw [drive_of_refined hask hbound hrefine] at h
      obtain ⟨n, hr, hdrives⟩ := ih h
      refine ⟨n + 1, ?_, .refine hask (Nat.not_le.1 hbound) hrefine hdrives⟩
      rw [hr, Nat.add_right_comm, Nat.add_assoc]

/-! ### All invariants -/

/-- From the progress `p`, the report is made of its invariant. -/
inductive Reports (oracle : Oracle σ ε) (opts : InferenceOptions) :
    Progress σ → InvariantReport → Progress σ → Prop
  | skipped {p : Progress σ} {inv : Invariant} :
      oracle.supports inv = false → Reports oracle opts p ⟨inv, .skipped, 0⟩ p
  | driven {p p' : Progress σ} {inv : Invariant} {n : Nat} {outcome : InvariantOutcome} :
      oracle.supports inv = true → Drives oracle opts inv p n outcome p' →
      Reports oracle opts p ⟨inv, outcome, n⟩ p'

/-- One report after the other. -/
inductive ReportsAll (oracle : Oracle σ ε) (opts : InferenceOptions) :
    Progress σ → List InvariantReport → Progress σ → Prop
  | nil {p : Progress σ} : ReportsAll oracle opts p [] p
  | cons {p p' p'' : Progress σ} {r : InvariantReport} {rs : List InvariantReport} :
      Reports oracle opts p r p' → ReportsAll oracle opts p' rs p'' →
      ReportsAll oracle opts p (r :: rs) p''

theorem reports_of_drive (hsupports : oracle.supports inv = true)
    (h : drive oracle opts inv 0 p = (.ok r, p')) :
    r.invariant = inv ∧ Reports oracle opts p r p' := by
  obtain ⟨n, hr, hdrives⟩ := drives_of_drive h
  rw [Nat.zero_add] at hr
  rw [hr]
  exact ⟨rfl, .driven hsupports hdrives⟩

section DriveAll

variable {invs : List Invariant} {e : RefinementError ε} {q : Progress σ}

theorem driveAll_cons_of_not_supports (hsupports : ¬ oracle.supports inv = true) :
    driveAll oracle opts p (inv :: invs) =
      ((driveAll oracle opts p invs).1.map (⟨inv, .skipped, 0⟩ :: ·),
        (driveAll oracle opts p invs).2) := by
  rw [driveAll, if_neg hsupports]

theorem driveAll_cons_of_error (hsupports : oracle.supports inv = true)
    (hfirst : drive oracle opts inv 0 p = (.error e, q)) :
    driveAll oracle opts p (inv :: invs) = (.error e, q) := by
  rw [driveAll, if_pos hsupports, hfirst]

theorem driveAll_cons_of_ok (hsupports : oracle.supports inv = true)
    (hfirst : drive oracle opts inv 0 p = (.ok r, q)) :
    driveAll oracle opts p (inv :: invs) =
      ((driveAll oracle opts q invs).1.map (r :: ·), (driveAll oracle opts q invs).2) := by
  rw [driveAll, if_pos hsupports, hfirst]

theorem reportsAll_of_driveAll {rs : List InvariantReport}
    (h : driveAll oracle opts p invs = (.ok rs, p')) :
    rs.map (·.invariant) = invs ∧ ReportsAll oracle opts p rs p' := by
  induction invs generalizing p rs with
  | nil =>
      obtain ⟨hrs, rfl⟩ := Prod.mk.inj h
      obtain rfl := Except.ok.inj hrs
      exact ⟨rfl, .nil⟩
  | cons inv invs ih =>
      by_cases hsupports : oracle.supports inv = true
      · cases hfirst : drive oracle opts inv 0 p with
        | mk report q =>
            cases report with
            | error e =>
                rw [driveAll_cons_of_error hsupports hfirst] at h
                cases h
            | ok r =>
                rw [driveAll_cons_of_ok hsupports hfirst] at h
                obtain ⟨hall, rfl⟩ := Prod.mk.inj h
                obtain ⟨rest, hrest, rfl⟩ := map_eq_ok.1 hall
                obtain ⟨hinvs, hrestAll⟩ := ih (Prod.ext hrest rfl)
                obtain ⟨hinv, hreports⟩ := reports_of_drive hsupports hfirst
                exact ⟨by rw [List.map_cons, hinv, hinvs], .cons hreports hrestAll⟩
      · rw [driveAll_cons_of_not_supports hsupports] at h
        obtain ⟨hall, rfl⟩ := Prod.mk.inj h
        obtain ⟨rest, hrest, rfl⟩ := map_eq_ok.1 hall
        obtain ⟨hinvs, hrestAll⟩ := ih (Prod.ext hrest rfl)
        have hskipped : Reports oracle opts p ⟨inv, .skipped, 0⟩ p :=
          .skipped (Bool.not_eq_true _ ▸ hsupports)
        exact ⟨by rw [List.map_cons, hinvs], .cons hskipped hrestAll⟩

end DriveAll

/-! ### What a refinement does to the graph -/

/-- Between the two progresses there are splits, each of which is counted
and adds a partition. -/
structure Advances (p p' : Progress σ) : Prop where
  splits : p.graph.Splits p'.graph
  iterations_le : p.iterations ≤ p'.iterations
  length_eq : p'.graph.partitions.length + p.iterations =
    p.graph.partitions.length + p'.iterations

namespace Advances

theorem refl (p : Progress σ) : Advances p p := ⟨.none _, Nat.le_refl _, rfl⟩

theorem trans (h : Advances p p') (h' : Advances p' p'') : Advances p p'' where
  splits := h.splits.trans h'.splits
  iterations_le := Nat.le_trans h.iterations_le h'.iterations_le
  length_eq := by
    have hlength := h.length_eq
    have hlength' := h'.length_eq
    omega

theorem valid (h : Advances p p') (hv : p.graph.Valid) : p'.graph.Valid :=
  (hv.splits h.splits).1

theorem refines (h : Advances p p') (hv : p.graph.Valid) : p'.graph.Refines p.graph :=
  (hv.splits h.splits).2

/-- There are no more iterations than the observations leave room for. -/
theorem iterations_bounded (h : Advances p p') (hv : p.graph.Valid) :
    p'.iterations - p.iterations ≤
      p.graph.observations.length - p.graph.partitions.length := by
  have hle := (h.valid hv).coherent.length_partitions_le
  have hlength := h.length_eq
  rw [(h.refines hv).observations_eq] at hle
  omega

end Advances

theorem advances_of_refineAlong {runs : List ProcessRun} {s : σ} (hv : p.graph.Valid)
    (h : refineAlong p.graph m opts.refine runs = .ok (some g)) :
    Advances p ⟨g, s, p.iterations + 1⟩ := by
  obtain ⟨_, _, _, _, _, hsplit⟩ := split_of_refineAlong h
  refine ⟨.split hsplit (.none g), Nat.le_succ _, ?_⟩
  have hlength := hv.coherent.length_partitions_split hsplit
  dsimp only
  omega

theorem Drives.advances (h : Drives oracle opts inv p n outcome p') (hv : p.graph.Valid) :
    Advances p p' := by
  induction h with
  | satisfied => exact ⟨.none _, Nat.le_refl _, rfl⟩
  | boundReached => exact ⟨.none _, Nat.le_refl _, rfl⟩
  | unresolved => exact ⟨.none _, Nat.le_refl _, rfl⟩
  | @refine p p' m cex s g n outcome _ _ hrefine _ ih =>
      have hstep : Advances p ⟨g, s, p.iterations + 1⟩ := advances_of_refineAlong hv hrefine
      exact hstep.trans (ih (hstep.valid hv))

theorem Reports.advances (h : Reports oracle opts p r p') (hv : p.graph.Valid) :
    Advances p p' := by
  cases h with
  | skipped => exact .refl p
  | driven _ hdrives => exact hdrives.advances hv

theorem ReportsAll.advances {rs : List InvariantReport} (h : ReportsAll oracle opts p rs p')
    (hv : p.graph.Valid) : Advances p p' := by
  induction h with
  | nil => exact .refl _
  | cons hr _ ih =>
      have hstep := hr.advances hv
      exact hstep.trans (ih (hstep.valid hv))

/-- Where in the course of the refinement a report was made. -/
theorem ReportsAll.mem {rs : List InvariantReport} (h : ReportsAll oracle opts p rs p')
    (hv : p.graph.Valid) (hr : r ∈ rs) :
    ∃ q q', Advances p q ∧ Reports oracle opts q r q' ∧ Advances q' p' := by
  induction h with
  | nil => cases hr
  | @cons p₀ p₁ p₂ r' rs hfirst hrest ih =>
      have hstep := hfirst.advances hv
      have hv' := hstep.valid hv
      rcases List.mem_cons.1 hr with rfl | hr
      · exact ⟨p₀, p₁, .refl p₀, hfirst, hrest.advances hv'⟩
      · obtain ⟨q, q', hq, hreports, hq'⟩ := ih hv' hr
        exact ⟨q, q', hstep.trans hq, hreports, hq'⟩

/-- The splits of a drive are its iterations. -/
theorem Drives.iterations_eq (h : Drives oracle opts inv p n outcome p') :
    p'.iterations = p.iterations + n := by
  induction h with
  | satisfied => rfl
  | boundReached => rfl
  | unresolved => rfl
  | refine _ _ _ _ ih =>
      rw [ih]
      exact Nat.succ_add_eq_add_succ _ _

/-! ### What the outcomes mean -/

theorem Drives.le_of_boundReached (h : Drives oracle opts inv p n .boundReached p') :
    opts.maxIterations ≤ p'.iterations := by
  generalize houtcome : InvariantOutcome.boundReached = outcome at h
  induction h with
  | satisfied => cases houtcome
  | boundReached _ hbound => exact hbound
  | unresolved => cases houtcome
  | refine _ _ _ _ ih => exact ih houtcome

theorem ReportsAll.le_of_boundReached {rs : List InvariantReport}
    (h : ReportsAll oracle opts p rs p') (hv : p.graph.Valid) (hr : r ∈ rs)
    (houtcome : r.outcome = .boundReached) : opts.maxIterations ≤ p'.iterations := by
  obtain ⟨q, q', -, hreports, hq'⟩ := h.mem hv hr
  cases hreports with
  | skipped => cases houtcome
  | driven _ hdrives =>
      obtain rfl : _ = InvariantOutcome.boundReached := houtcome
      exact Nat.le_trans hdrives.le_of_boundReached hq'.iterations_le

/-- An invariant that is satisfied has no violation in the last graph. -/
theorem Drives.ask_of_satisfied (h : Drives oracle opts inv p n .satisfied p') :
    ∃ s m, askAbout oracle s p'.graph inv = (.ok (m, none), p'.oracle) := by
  generalize houtcome : InvariantOutcome.satisfied = outcome at h
  induction h with
  | satisfied hask => exact ⟨_, _, hask⟩
  | boundReached => cases houtcome
  | unresolved => cases houtcome
  | refine _ _ _ _ ih => exact ih houtcome

/-- An invariant that stays unresolved has a violation in the last graph,
no run of which has a stitch. -/
theorem Drives.ask_of_unresolved (h : Drives oracle opts inv p n .unresolved p') :
    ∃ s m cex, askAbout oracle s p'.graph inv = (.ok (m, some cex), p'.oracle) ∧
      ∀ run ∈ cex.runs, ∃ path, m.path run = .ok path ∧ path.stitch? p'.graph = .ok none := by
  generalize houtcome : InvariantOutcome.unresolved = outcome at h
  induction h with
  | satisfied => cases houtcome
  | boundReached => cases houtcome
  | unresolved hask _ hrefine => exact ⟨_, _, _, hask, stitch?_of_refineAlong hrefine⟩
  | refine _ _ _ _ ih => exact ih houtcome

theorem Drives.exists_ask (h : Drives oracle opts inv p n outcome p') :
    ∃ s m answer, askAbout oracle s p'.graph inv = (.ok (m, answer), p'.oracle) := by
  induction h with
  | satisfied hask => exact ⟨_, _, _, hask⟩
  | boundReached hask _ => exact ⟨_, _, _, hask⟩
  | unresolved hask _ _ => exact ⟨_, _, _, hask⟩
  | refine _ _ _ _ ih => exact ih

/-- No drive ends by being skipped. -/
theorem Drives.ne_skipped (h : Drives oracle opts inv p n outcome p') :
    outcome ≠ .skipped := by
  induction h with
  | satisfied => exact InvariantOutcome.noConfusion
  | boundReached => exact InvariantOutcome.noConfusion
  | unresolved => exact InvariantOutcome.noConfusion
  | refine _ _ _ _ ih => exact ih

theorem model_of_askAbout {s s' : σ} {answer : Option Counterexample}
    (h : askAbout oracle s g inv = (.ok (m, answer), s')) :
    ∃ base index, g.model g.channels = .ok base ∧ base.trace inv = .ok (m, index) ∧
      oracle.ask s m inv = (.ok answer, s') := by
  rw [askAbout] at h
  split at h
  · cases h
  · next m' index hmodel =>
    obtain ⟨base, hbase, htrace⟩ := bind_eq_ok.1 hmodel
    split at h
    · cases h
    · next answer' s'' hask =>
      obtain ⟨hok, rfl⟩ := Prod.mk.inj h
      obtain ⟨rfl, rfl⟩ := Prod.mk.inj (Except.ok.inj hok)
      exact ⟨base, index, hbase, htrace, hask⟩

end ProtocolInference
