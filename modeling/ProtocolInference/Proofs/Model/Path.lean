import ProtocolInference.Proofs.Model.Mirror

/-!
Runs of a traced model, read back as paths.

A run of a traced automaton passes through states that stand for no
partition. Each of them has a home (`Automaton.Unfolds`), and the
partition behind the home is the one to which the state is resolved
(`resolve_eq`): the sends that lead home go down in the order of the
numbers, so the way there is never a circle. The path of a run then
keeps the run's own events, goes along edges of the graph, and ends in
the partition behind the home of the last state.
-/

namespace ProtocolInference

namespace Model

variable {base m m' : Model} {g : PartitionGraph} {channels : List Channel}
variable {pid : ProcessId} {a b : Automaton} {home : StateId → StateId}

/-- The model `m` comes from `base` by tracing. -/
structure Unfolds (base m : Model) : Prop where
  partitions_eq : m.partitions = base.partitions
  system : base.system.Unfolds m.system

theorem Mirrors.unfolds (h : m.Mirrors g channels) : m.Unfolds m :=
  ⟨rfl, .refl h.isUntraced⟩

theorem trace_eq_ok {inv : Invariant} {index : Nat} :
    m.trace inv = .ok (m', index) ↔
      ∃ sys, m.system.trace inv = .ok (sys, index) ∧ { m with system := sys } = m' := by
  simp only [trace, bind_eq_ok, mapError_eq_ok, pure_eq_ok, Prod.exists, Prod.mk.injEq]
  constructor
  · rintro ⟨sys, i, hsys, rfl, rfl⟩
    exact ⟨sys, hsys, rfl⟩
  · rintro ⟨sys, hsys, rfl⟩
    exact ⟨sys, index, hsys, rfl, rfl⟩

theorem Unfolds.trace {inv : Invariant} {index : Nat} (h : base.Unfolds m)
    (hinv : ∀ e ∈ inv.events, base.system.isTracerEvent e = false)
    (htrace : m.trace inv = .ok (m', index)) : base.Unfolds m' := by
  obtain ⟨sys, hsys, rfl⟩ := trace_eq_ok.1 htrace
  exact ⟨h.partitions_eq, h.system.trace hinv hsys⟩

/-- What is known about the automaton of a process in a traced model. -/
theorem Unfolds.automaton (h : base.Unfolds m) (hbase : base.Mirrors g channels)
    (hb : m.system.automaton? pid = some b) :
    ∃ a home, g.Mirrors pid a ∧ Automaton.Unfolds m.system.isTracerEvent a b home ∧
      m.partitions[pid]? = some (g.idsOf pid) := by
  obtain ⟨a, home, ha, hunfolds⟩ := h.system.automaton hb
  have hlt : pid < g.processes := hbase.processes_eq ▸ System.automaton?_lt ha
  rw [h.system.isTracerEvent_eq, h.partitions_eq, hbase.partitions_eq]
  refine ⟨a, home, (hbase.automaton pid a ha).1, hunfolds, ?_⟩
  rw [List.getElem?_map, List.getElem?_range hlt]
  rfl

/-! ### From states to partitions -/

section Resolve

variable (hmirrors : g.Mirrors pid a)
variable (hunfolds : Automaton.Unfolds m.system.isTracerEvent a b home)
variable (hids : m.partitions[pid]? = some (g.idsOf pid))

include hmirrors hunfolds

theorem exists_partition {s : StateId} (hs : s < b.size) :
    ∃ p, (g.idsOf pid)[home s]? = some p := by
  have hlt : home s < (g.idsOf pid).length := hmirrors.size_eq ▸ hunfolds.home_lt s hs
  exact ⟨_, List.getElem?_eq_getElem hlt⟩

include hids

theorem settle_eq {s : StateId} (hs : s < b.size) {p : PartitionId}
    (hp : (g.idsOf pid)[home s]? = some p) {visited : List StateId}
    (hvisited : ∀ v ∈ visited, s < v) : m.settle b visited s = some p := by
  have hpid : b.pid = pid := hunfolds.pid_eq.trans hmirrors.pid_eq
  induction s using Nat.strongRecOn generalizing visited with
  | ind s ih =>
      have hlookup : m.partitionOf? b.pid s = (g.idsOf pid)[s]? := by
        rw [partitionOf?, hpid, hids]
        rfl
      rw [settle, hlookup]
      rcases Nat.lt_or_ge s a.size with hlt | hge
      · rw [hunfolds.home_of_lt s hlt] at hp
        rw [hp]
      · have hnone : (g.idsOf pid)[s]? = none :=
          List.getElem?_eq_none (hmirrors.size_eq ▸ hge)
        have hnew : s ∉ visited := fun hmem => Nat.lt_irrefl s (hvisited s hmem)
        rw [hnone]
        dsimp only
        rw [dif_neg hnew, dif_pos hs]
        obtain ⟨f, u, hstep, hf⟩ := hunfolds.exists_send hge hs
        split
        · next f' t hfind =>
          have htracer : m.system.isTracerEvent f' = true := by
            simpa using List.find?_some hfind
          have hst : b.Step s f' t := List.mem_of_find?_eq_some hfind
          obtain ⟨-, hlt, heq⟩ := hunfolds.step_tracer hst htracer
          refine ih t hlt (hunfolds.closed _ _ _ hst) (heq ▸ hp) ?_
          intro v hv
          rcases List.mem_append.1 hv with hv | hv
          · exact Nat.lt_trans hlt (hvisited v hv)
          · exact List.mem_singleton.1 hv ▸ hlt
        · next hfind =>
          exact absurd hf (by simpa using List.find?_eq_none.1 hfind (f, u) hstep)

theorem resolve_eq (hb : m.system.automaton? pid = some b) {s : StateId} (hs : s < b.size)
    {p : PartitionId} (hp : (g.idsOf pid)[home s]? = some p) : m.resolve pid s = .ok p := by
  rw [resolve, hb, Option.bind_some,
    settle_eq hmirrors hunfolds hids hs hp fun v hv => absurd hv List.not_mem_nil]

end Resolve

end Model

/-! ### Runs, step by step -/

namespace ProcessRun

variable {a : Automaton} {s t : StateId} {es : List Event} {step : RunStep}
variable {steps steps' : List RunStep}

theorem last_cons (pid : ProcessId) (s : StateId) (step : RunStep) (steps : List RunStep) :
    last ⟨pid, s, step :: steps⟩ = last ⟨pid, step.target, steps⟩ := by
  cases steps with
  | nil => rfl
  | cons next steps =>
      rw [last, last, List.getLast?_cons_cons]
      rfl

theorem last_append (pid : ProcessId) (s : StateId) (steps steps' : List RunStep) :
    last ⟨pid, s, steps ++ steps'⟩ = last ⟨pid, last ⟨pid, s, steps⟩, steps'⟩ := by
  induction steps generalizing s with
  | nil => rfl
  | cons step steps ih => rw [List.cons_append, last_cons, last_cons, ih]

theorem stepsAlong_cons :
    stepsAlong a s (step :: steps) = true ↔
      a.Step s step.event step.target ∧ stepsAlong a step.target steps = true := by
  rw [stepsAlong, Bool.and_eq_true, List.contains_iff_mem]
  exact Iff.rfl

theorem stepsAlong_append (pid : ProcessId) :
    stepsAlong a s (steps ++ steps') = true ↔
      stepsAlong a s steps = true ∧ stepsAlong a (last ⟨pid, s, steps⟩) steps' = true := by
  induction steps generalizing s with
  | nil => simp [stepsAlong, last]
  | cons step steps ih =>
      rw [List.cons_append, stepsAlong_cons, ih, stepsAlong_cons, last_cons, and_assoc]

theorem run_of_isIn {run : ProcessRun} (h : run.isIn a = true) :
    a.Run run.start run.events run.last := by
  obtain ⟨pid, start, steps⟩ := run
  rw [isIn] at h
  induction steps generalizing start with
  | nil => exact .stay start
  | cons step steps ih =>
      obtain ⟨hstep, hrest⟩ := stepsAlong_cons.1 h
      rw [last_cons]
      exact .step hstep (ih step.target hrest)

theorem exists_steps (pid : ProcessId) (h : a.Run s es t) :
    ∃ steps, stepsAlong a s steps = true ∧ steps.map (·.event) = es ∧
      last ⟨pid, s, steps⟩ = t := by
  induction h with
  | stay s => exact ⟨[], rfl, rfl, rfl⟩
  | @step s t u e es hstep _ ih =>
      obtain ⟨steps, hsteps, rfl, rfl⟩ := ih
      exact ⟨⟨e, t⟩ :: steps, stepsAlong_cons.2 ⟨hstep, hsteps⟩, rfl, last_cons ..⟩

end ProcessRun

/-! ### From runs to paths -/

theorem PartitionPath.last_cons (pid : ProcessId) (p q : PartitionId) (e : Event)
    (steps : List (Event × PartitionId)) :
    PartitionPath.last ⟨pid, p, (e, q) :: steps⟩ = PartitionPath.last ⟨pid, q, steps⟩ := by
  cases steps with
  | nil => rfl
  | cons next steps =>
      rw [PartitionPath.last, PartitionPath.last, List.getLast?_cons_cons]
      rfl

namespace Model

variable {m : Model} {g : PartitionGraph} {channels : List Channel}
variable {pid : ProcessId} {a b : Automaton} {home : StateId → StateId}

section Path

variable (hmirrors : g.Mirrors pid a)
variable (hunfolds : Automaton.Unfolds m.system.isTracerEvent a b home)
variable (hids : m.partitions[pid]? = some (g.idsOf pid))
variable (hb : m.system.automaton? pid = some b)

include hmirrors hunfolds hids hb

/-- The steps of a run that are no tracer sends, with the partitions to
which they lead. -/
theorem path_steps {steps : List RunStep} {s : StateId} {p : PartitionId}
    (hp : (g.idsOf pid)[home s]? = some p) (hsteps : ProcessRun.stepsAlong b s steps = true) :
    ∃ taken, ((steps.filter fun step => !m.system.isTracerEvent step.event).mapM fun step => do
          return (step.event, ← m.resolve pid step.target)) = Except.ok taken ∧
      taken.map Prod.fst = m.system.withoutTracers (steps.map (·.event)) ∧
      stepsAlongEdges g p taken = true ∧
      (g.idsOf pid)[home (ProcessRun.last ⟨pid, s, steps⟩)]? =
        some (PartitionPath.last ⟨pid, p, taken⟩) := by
  induction steps generalizing s p with
  | nil => exact ⟨[], rfl, rfl, rfl, hp⟩
  | cons step steps ih =>
      obtain ⟨hstep, hrest⟩ := ProcessRun.stepsAlong_cons.1 hsteps
      rw [ProcessRun.last_cons, List.map_cons, System.withoutTracers]
      cases htracer : m.system.isTracerEvent step.event with
      | true =>
          have hhome := (hunfolds.step_tracer hstep htracer).2.2
          rw [List.filter_cons_of_neg (by simp [htracer]), List.filter_cons_of_neg (by simp [htracer])]
          exact ih (hhome ▸ hp) hrest
      | false =>
          obtain ⟨hs, hst⟩ := hunfolds.step_event hstep htracer
          obtain ⟨p', q, hp', hq, hedge⟩ := (hmirrors.step_iff _ _ _).1 hst
          rw [hunfolds.home_of_lt s hs] at hp
          obtain rfl := Option.some.inj (hp.symm.trans hp')
          obtain ⟨taken, hok, hevents, hedges, hlast⟩ := ih hq hrest
          have hresolve : m.resolve pid step.target = .ok q :=
            resolve_eq hmirrors hunfolds hids hb (hunfolds.closed _ _ _ hstep) hq
          refine ⟨(step.event, q) :: taken, ?_, ?_, ?_, ?_⟩
          · rw [List.filter_cons_of_pos (by simp [htracer]), mapM_cons_eq_ok]
            exact ⟨_, taken, by rw [hresolve]; rfl, hok, rfl⟩
          · rw [List.filter_cons_of_pos (by simp [htracer]), List.map_cons, hevents]
            rfl
          · rw [stepsAlongEdges, hedge, hedges]
            rfl
          · rw [PartitionPath.last_cons]
            exact hlast

/-- A run of the traced automaton has a path, which goes along edges of the
graph. -/
theorem path_eq_ok {run : ProcessRun} (hpid : run.pid = pid) (hstart : run.start < b.size)
    (hsteps : run.isIn b = true) :
    ∃ path, m.path run = .ok path ∧ path.pid = pid ∧
      (g.idsOf pid)[home run.start]? = some path.start ∧
      (g.idsOf pid)[home run.last]? = some path.last ∧
      path.events = m.system.withoutTracers run.events ∧
      stepsAlongEdges g path.start path.steps = true := by
  obtain ⟨p, hp⟩ := exists_partition hmirrors hunfolds hstart
  have hresolve : m.resolve pid run.start = .ok p :=
    resolve_eq hmirrors hunfolds hids hb hstart hp
  obtain ⟨taken, hok, hevents, hedges, hlast⟩ :=
    path_steps hmirrors hunfolds hids hb hp hsteps
  have hlt : ¬ m.partitions.length ≤ run.pid := by
    rw [hpid]
    exact Nat.not_le.2 (List.getElem?_eq_some_iff.1 hids).1
  refine ⟨⟨pid, p, taken⟩, ?_, rfl, hp, ?_, hevents, hedges⟩
  · subst hpid
    simp only [path, error_bind, check_eq_ok, bind_eq_ok, pure_eq_ok]
    exact ⟨hlt, p, hresolve, taken, hok, rfl⟩
  · subst hpid
    exact hlast

end Path

end Model

end ProtocolInference
