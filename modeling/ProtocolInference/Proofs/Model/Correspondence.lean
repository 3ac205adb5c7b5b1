import Mathlib
import ProtocolInference.Proofs.System.Transparency

/-!
Runs and paths are the same thing at two levels.

The states of a traced automaton are of two kinds. Those that the model
had from the beginning are *mapped*: each stands for a partition, and the
partition for it. The others lie on chains of tracer sends, of any length,
that end in a mapped state. A run from a mapped state is read as a path of
the graph, and this reading has three properties that are put together in
`Model.Corresponds`: no run fails to have a path, a path does not depend on
how far into a chain the run has got, and there is no edge path that is
not read from some run.

The two directions are shown one step at a time. A step of the automaton
that is no tracer send leads into the chain before the state that the
edge leads to; and an edge becomes a step with the rest of the chain put
behind it (`Automaton.Unfolds.exists_sends`).
-/

namespace ProtocolInference

/-! ### Chains of sends -/

theorem Automaton.Unfolds.exists_sends {tracer : Event → Bool} {a b : Automaton}
    {home : StateId → StateId} {s : StateId} (h : Unfolds tracer a b home) (pid : ProcessId)
    (hs : s < b.size) :
    ∃ sends, ProcessRun.stepsAlong b s sends = true ∧
      (∀ step ∈ sends, tracer step.event = true) ∧ ProcessRun.last ⟨pid, s, sends⟩ = home s := by
  obtain ⟨es, hrun, hes⟩ := h.run_home hs
  obtain ⟨sends, hsends, rfl, hlast⟩ := ProcessRun.exists_steps pid hrun
  exact ⟨sends, hsends, fun step hstep => hes _ (List.mem_map_of_mem hstep), hlast⟩

/-! ### Mapped states -/

theorem findState_eq_some {known : List (List PartitionId)} {ids : List PartitionId}
    {p : PartitionId} {s : StateId} (hids : ids ∈ known) (hnodup : ids.Nodup) (hp : p ∈ ids)
    (honly : ∀ ids' ∈ known, p ∈ ids' → ids' = ids) :
    findState known p = some s ↔ ids[s]? = some p := by
  have key : findState known p = ids.idxOf? p := by
    induction known with
    | nil => exact absurd hids List.not_mem_nil
    | cons ids' known ih =>
        rw [findState, List.findSome?_cons]
        split
        · next t ht =>
          have hmem : p ∈ ids' := by
            by_contra hnot
            rw [List.idxOf?_eq_none_iff.2 hnot] at ht
            cases ht
          rw [← honly ids' List.mem_cons_self hmem, ht]
        · next hnone =>
          have hnot : p ∉ ids' := List.idxOf?_eq_none_iff.1 hnone
          refine ih ?_ fun ids'' h => honly ids'' (List.mem_cons_of_mem _ h)
          rcases List.mem_cons.1 hids with rfl | hids
          · exact absurd hp hnot
          · exact hids
  rw [key, List.idxOf?_eq_some_iff, List.getElem?_eq_some_iff]
  refine exists_congr fun hs => and_iff_left_of_imp fun heq j hj hj' => ?_
  exact Nat.ne_of_lt hj ((List.Nodup.getElem_inj_iff hnodup).1 (hj'.trans heq.symm))

namespace Model

/-- Tracer sends do not show in the path of a run. -/
theorem path_append_sends {m : Model} {pid : ProcessId} {s : StateId}
    {steps sends : List RunStep}
    (hsends : ∀ step ∈ sends, m.system.isTracerEvent step.event = true) :
    m.path ⟨pid, s, steps ++ sends⟩ = m.path ⟨pid, s, steps⟩ := by
  have hnone : sends.filter (fun step => !m.system.isTracerEvent step.event) = [] :=
    List.filter_eq_nil_iff.2 fun step hstep => by simp [hsends step hstep]
  rw [path, path, List.filter_append, hnone, List.append_nil]

/-- The runs of the automaton of a process, and the paths of the process
through the graph, correspond to each other. -/
structure Corresponds (m : Model) (g : PartitionGraph) (pid : ProcessId) (b : Automaton) :
    Prop where
  /-- What a state stands for is a partition of the process. -/
  isPartitionOf : ∀ {s p}, m.partitionOf? pid s = some p →
    s < b.size ∧ g.isPartitionOf pid p = true
  /-- Each partition of the process has a state that stands for it. -/
  exists_state : ∀ {p}, g.isPartitionOf pid p = true → ∃ s, m.partitionOf? pid s = some p
  /-- There is no other, and it is the one that is looked up. -/
  stateOf?_iff : ∀ {s p}, g.isPartitionOf pid p = true →
    (m.stateOf? p = some s ↔ m.partitionOf? pid s = some p)
  isInitial_eq : ∀ {s p}, m.partitionOf? pid s = some p → b.isInitial s = g.isInitial p
  isAccepting_eq : ∀ {s p}, m.partitionOf? pid s = some p → b.isAccepting s = g.isTerminal p
  /-- A run from a mapped state has a path of the graph, on which its own
  events happen. -/
  path : ∀ {run : ProcessRun} {p}, run.pid = pid → m.partitionOf? pid run.start = some p →
    run.isIn b = true → ∃ path, m.path run = .ok path ∧ path.pid = pid ∧ path.start = p ∧
      path.events = m.system.withoutTracers run.events ∧ path.isIn g = true
  /-- Tracer sends complete the run. Its path ends in the partition behind the
  state in which they end, and it is the same wherever the sends are cut off. -/
  complete : ∀ {run : ProcessRun} {p}, run.pid = pid → m.partitionOf? pid run.start = some p →
    run.isIn b = true → ∃ path sends, m.path run = .ok path ∧
      (∀ step ∈ sends, m.system.isTracerEvent step.event = true) ∧
      ProcessRun.isIn { run with steps := run.steps ++ sends } b = true ∧
      m.partitionOf? pid (ProcessRun.last { run with steps := run.steps ++ sends }) =
        some path.last ∧
      ∀ n, m.path { run with steps := run.steps ++ sends.take n } = .ok path
  /-- Every path of the graph is that of a run. -/
  exists_run : ∀ {path : PartitionPath}, path.pid = pid → path.isIn g = true →
    ∃ run : ProcessRun, run.pid = pid ∧ m.partitionOf? pid run.start = some path.start ∧
      run.isIn b = true ∧ m.path run = .ok path

section

variable {m : Model} {g : PartitionGraph} {pid : ProcessId} {a b : Automaton}
variable {home : StateId → StateId}

theorem partitionOf?_eq (hids : m.partitions[pid]? = some (g.idsOf pid)) (s : StateId) :
    m.partitionOf? pid s = (g.idsOf pid)[s]? := by
  rw [partitionOf?, hids]
  rfl

variable (hmirrors : g.Mirrors pid a)
variable (hunfolds : Automaton.Unfolds m.system.isTracerEvent a b home)
variable (hids : m.partitions[pid]? = some (g.idsOf pid))

include hmirrors hunfolds hids

theorem lt_of_partitionOf? {s : StateId} {p : PartitionId} (hp : m.partitionOf? pid s = some p) :
    s < a.size ∧ s < b.size ∧ home s = s := by
  rw [partitionOf?_eq hids] at hp
  have hlt : s < a.size := hmirrors.size_eq ▸ (List.getElem?_eq_some_iff.1 hp).1
  exact ⟨hlt, Nat.lt_of_lt_of_le hlt hunfolds.size_le, hunfolds.home_of_lt s hlt⟩

variable (hb : m.system.automaton? pid = some b)

include hb

theorem complete_of_mapped {run : ProcessRun} {p : PartitionId} (hpid : run.pid = pid)
    (hp : m.partitionOf? pid run.start = some p) (hin : run.isIn b = true) :
    ∃ path sends, m.path run = .ok path ∧
      (∀ step ∈ sends, m.system.isTracerEvent step.event = true) ∧
      ProcessRun.isIn { run with steps := run.steps ++ sends } b = true ∧
      m.partitionOf? pid (ProcessRun.last { run with steps := run.steps ++ sends }) =
        some path.last ∧
      ∀ n, m.path { run with steps := run.steps ++ sends.take n } = .ok path := by
  obtain ⟨-, hlt, -⟩ := lt_of_partitionOf? hmirrors hunfolds hids hp
  have hlast : run.last < b.size := hunfolds.closed.run_lt hlt (ProcessRun.run_of_isIn hin)
  obtain ⟨path, hpath, -, -, hend, -, -⟩ := path_eq_ok hmirrors hunfolds hids hb hpid hlt hin
  obtain ⟨sends, hsends, htracer, hhome⟩ := hunfolds.exists_sends run.pid hlast
  refine ⟨path, sends, hpath, htracer, ?_, ?_, fun n => ?_⟩
  · exact (ProcessRun.stepsAlong_append run.pid).2 ⟨hin, hsends⟩
  · rw [ProcessRun.last_append, partitionOf?_eq hids]
    show (g.idsOf pid)[ProcessRun.last ⟨run.pid, run.last, sends⟩]? = _
    rw [hhome, hend]
  · rw [path_append_sends fun step hstep => htracer step (List.mem_of_mem_take hstep)]
    exact hpath

variable (hv : g.Valid)

include hv

/-- Steps along the edges of the graph are taken by the automaton, each with
the sends behind it that lead to the state of the next partition. -/
theorem exists_runSteps {steps : List (Event × PartitionId)} {s : StateId} {p : PartitionId}
    (hp : (g.idsOf pid)[s]? = some p) (hsteps : stepsAlongEdges g p steps = true) :
    ∃ taken : List RunStep, ProcessRun.stepsAlong b s taken = true ∧
      ((taken.filter fun step => !m.system.isTracerEvent step.event).mapM fun step => do
          return (step.event, ← m.resolve pid step.target)) = Except.ok steps := by
  induction steps generalizing s p with
  | nil => exact ⟨[], rfl, rfl⟩
  | cons step steps ih =>
      obtain ⟨e, q⟩ := step
      rw [stepsAlongEdges, Bool.and_eq_true] at hsteps
      obtain ⟨hedge, hrest⟩ := hsteps
      have hqmem := hv.mem_idsOf_of_hasEdge (List.mem_of_getElem? hp) hedge
      obtain ⟨t, ht⟩ := List.mem_iff_getElem?.1 hqmem
      have hst : a.Step s e t := (hmirrors.step_iff _ _ _).2 ⟨p, q, hp, ht, hedge⟩
      obtain ⟨y, hy, rfl⟩ := hunfolds.lift hst
      have htracer : m.system.isTracerEvent e = false := by
        refine Bool.eq_false_iff.2 fun htr => ?_
        exact Nat.not_lt.2 (hunfolds.step_tracer hy htr).1 hst.lt_size
      have hlt : y < b.size := hunfolds.closed _ _ _ hy
      obtain ⟨sends, hsends, htr, hlast⟩ := hunfolds.exists_sends pid hlt
      obtain ⟨taken, htaken, hok⟩ := ih ht hrest
      have hnone : sends.filter (fun step => !m.system.isTracerEvent step.event) = [] :=
        List.filter_eq_nil_iff.2 fun step hstep => by simp [htr step hstep]
      refine ⟨⟨e, y⟩ :: (sends ++ taken), ?_, ?_⟩
      · refine ProcessRun.stepsAlong_cons.2 ⟨hy, (ProcessRun.stepsAlong_append pid).2 ?_⟩
        exact ⟨hsends, by rwa [hlast]⟩
      · rw [List.filter_cons_of_pos (by simp [htracer]), List.filter_append, hnone,
          List.nil_append, mapM_cons_eq_ok]
        have hresolve : m.resolve pid y = .ok q :=
          resolve_eq hmirrors hunfolds hids hb hlt ht
        exact ⟨_, steps, by rw [hresolve]; rfl, hok, rfl⟩

theorem path_of_mapped {run : ProcessRun} {p : PartitionId} (hpid : run.pid = pid)
    (hp : m.partitionOf? pid run.start = some p) (hin : run.isIn b = true) :
    ∃ path, m.path run = .ok path ∧ path.pid = pid ∧ path.start = p ∧
      path.events = m.system.withoutTracers run.events ∧ path.isIn g = true := by
  obtain ⟨-, hlt, hstart⟩ := lt_of_partitionOf? hmirrors hunfolds hids hp
  obtain ⟨path, hpath, hpid', hfirst, -, hevents, hedges⟩ :=
    path_eq_ok hmirrors hunfolds hids hb hpid hlt hin
  rw [partitionOf?_eq hids] at hp
  rw [hstart, hp] at hfirst
  obtain rfl := Option.some.inj hfirst
  refine ⟨path, hpath, hpid', rfl, hevents, ?_⟩
  rw [PartitionPath.isIn, hpid', hedges, Bool.and_true, ← hv.coherent.mem_idsOf_iff]
  exact List.mem_of_getElem? hp

theorem exists_run_of_path {path : PartitionPath} (hpid : path.pid = pid)
    (hin : path.isIn g = true) :
    ∃ run : ProcessRun, run.pid = pid ∧ m.partitionOf? pid run.start = some path.start ∧
      run.isIn b = true ∧ m.path run = .ok path := by
  subst hpid
  obtain ⟨pid, start, steps⟩ := path
  obtain ⟨hstart, hedges⟩ := (Bool.and_eq_true _ _).mp hin
  obtain ⟨s, hs⟩ := List.mem_iff_getElem?.1 (hv.coherent.mem_idsOf_iff.2 hstart)
  have hp : m.partitionOf? pid s = some start := (partitionOf?_eq hids s).trans hs
  obtain ⟨-, hlt, hhome⟩ := lt_of_partitionOf? hmirrors hunfolds hids hp
  have hresolve : m.resolve pid s = .ok start :=
    resolve_eq hmirrors hunfolds hids hb hlt (by rwa [hhome])
  obtain ⟨taken, htaken, hok⟩ := exists_runSteps hmirrors hunfolds hids hb hv hs hedges
  refine ⟨⟨pid, s, taken⟩, rfl, hp, htaken, ?_⟩
  simp only [Model.path, error_bind, check_eq_ok, bind_eq_ok, pure_eq_ok]
  exact ⟨Nat.not_le.2 (List.getElem?_eq_some_iff.1 hids).1, start, hresolve, steps, hok, rfl⟩

theorem corresponds (hpartitions : m.partitions = (List.range g.processes).map g.idsOf) :
    m.Corresponds g pid b := by
  have hc := hv.coherent
  have hlookup := partitionOf?_eq hids
  constructor
  case isPartitionOf =>
    intro s p hp
    refine ⟨(lt_of_partitionOf? hmirrors hunfolds hids hp).2.1, ?_⟩
    rw [hlookup] at hp
    exact hc.mem_idsOf_iff.1 (List.mem_of_getElem? hp)
  case exists_state =>
    intro p hp
    obtain ⟨s, hs⟩ := List.mem_iff_getElem?.1 (hc.mem_idsOf_iff.2 hp)
    exact ⟨s, by rw [hlookup, hs]⟩
  case stateOf?_iff =>
    intro s p hp
    have hmem := hc.mem_idsOf_iff.2 hp
    rw [stateOf?, hlookup]
    refine findState_eq_some (List.mem_of_getElem? hids) (hc.nodup_idsOf pid) hmem ?_
    intro ids hids' hmem'
    rw [hpartitions] at hids'
    obtain ⟨pid', -, rfl⟩ := List.mem_map.1 hids'
    rw [hc.pid_unique hmem' hmem]
  case isInitial_eq =>
    intro s p hp
    rw [hlookup] at hp
    rw [hunfolds.isInitial_eq, Bool.eq_iff_iff, hmirrors.isInitial_iff]
    simp [hp]
  case isAccepting_eq =>
    intro s p hp
    rw [hlookup] at hp
    rw [hunfolds.isAccepting_eq, Bool.eq_iff_iff, hmirrors.isAccepting_iff]
    simp [hp]
  case path => exact path_of_mapped hmirrors hunfolds hids hb hv
  case complete => exact complete_of_mapped hmirrors hunfolds hids hb
  case exists_run => exact exists_run_of_path hmirrors hunfolds hids hb hv

end

end Model

/-- **Runs and paths correspond.** Take any graph that arises, its model over any
channels, and any invariants that speak of no tracer channel. If they can
all be traced, then every process has an automaton in the traced model
whose runs correspond to the paths of the process through the graph. -/
theorem traced_runs_correspond {executions : List Execution} {processes : Nat}
    {channels channels' : List Channel} {g : PartitionGraph} {base m : Model}
    {invs : List Invariant} (hg : PartitionGraph.Arises executions processes channels g)
    (hbase : g.model channels' = .ok base)
    (hinvs : ∀ inv ∈ invs, ∀ e ∈ inv.events, base.system.isTracerEvent e = false)
    (htrace : base.traceAll invs = .ok m) :
    ∀ pid < g.processes, ∃ b, m.system.automaton? pid = some b ∧ m.Corresponds g pid b := by
  intro pid hpid
  have hmirrors := hg.valid.mirrors_model hbase
  have hunfolds := Model.Unfolds.traceAll hmirrors.isUntraced hinvs htrace
  have hcount : m.system.processes = g.processes :=
    hunfolds.system.processes_eq.trans hmirrors.processes_eq
  obtain ⟨b, hb⟩ := System.automaton?_of_lt (hcount ▸ hpid)
  obtain ⟨a, home, ha, hab, hids⟩ := hunfolds.automaton hmirrors hb
  exact ⟨b, hb, Model.corresponds ha hab hids hb hg.valid
    (hunfolds.partitions_eq.trans hmirrors.partitions_eq)⟩

/-- In the model of a single event, traced twice, the run that has just done the
event has two sends ahead of it, and goes along the edge already. -/
theorem oneGraph_runs_correspond :
    ∃ base m b, System.oneGraph.model [] = .ok base ∧
      base.traceAll [System.precededB, System.followedA] = .ok m ∧
      m.system.automaton? 0 = some b ∧ m.Corresponds System.oneGraph 0 b ∧
      ∃ path, m.path ⟨0, 0, [⟨.internal 0 "a", 3⟩]⟩ = .ok path ∧ path.start = 0 ∧
        path.events = [.internal 0 "a"] ∧ path.isIn System.oneGraph = true := by
  have hok : (System.oneGraph.model [] >>= fun base =>
      base.traceAll [System.precededB, System.followedA]).map (fun m =>
        ((m.system.automaton? 0).map (ProcessRun.isIn ⟨0, 0, [⟨.internal 0 "a", 3⟩]⟩),
          m.partitionOf? 0 0)) = .ok (some true, some 0) := by cbv
  obtain ⟨m, hm, heq⟩ := map_eq_ok.1 hok
  obtain ⟨hin, hstart⟩ := Prod.mk.inj heq
  obtain ⟨base, hbase, htrace⟩ := bind_eq_ok.1 hm
  have harises : PartitionGraph.Arises System.oneObservation 1 [] System.oneGraph :=
    .built (rfl : PartitionGraph.ofExecutions System.oneObservation 1 [] .byIncomingEvent
      .standard = .ok (System.oneGraph, ⟨"a", 2⟩))
  have hinternal : ∀ inv ∈ [System.precededB, System.followedA], ∀ e ∈ inv.events,
      base.system.isTracerEvent e = false := by
    simp [System.precededB, System.followedA, Invariant.events, System.isTracerEvent,
      Event.channel?]
  obtain ⟨b, hb, hcorresponds⟩ := traced_runs_correspond harises hbase hinternal htrace 0 (by decide)
  rw [hb] at hin
  obtain ⟨path, hpath, -, hpathStart, hevents, hpathIn⟩ :
      ∃ path, m.path ⟨0, 0, [⟨.internal 0 "a", 3⟩]⟩ = .ok path ∧ _ :=
    hcorresponds.path rfl hstart (Option.some.inj hin)
  exact ⟨base, m, b, hbase, htrace, hb, hcorresponds, path, hpath, hpathStart, hevents, hpathIn⟩

end ProtocolInference
