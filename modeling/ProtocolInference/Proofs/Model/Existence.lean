import ProtocolInference.Proofs.Model.Mirror

/-!
When a graph has a model.

The automata of a model are put together from edges, and a system from
automata, and on the way everything is checked again: that an edge leads
to a partition of its own process, that no process comes twice or is left
out, and that events speak of processes and channels that there are. In a
valid graph the first two are so. The third is a matter of the events on
its edges, which have to *fit* the system.
-/

namespace ProtocolInference

/-- The event speaks of processes and channels of the system. -/
structure Event.Fits (processes : Nat) (channels : List Channel) (e : Event) : Prop where
  pid_lt : e.pid < processes
  channel : ∀ c, e.channel? = some c → c ∈ channels ∧ c.src < processes ∧ c.dst < processes

namespace Draft

variable {d : Draft} {a : Automaton} {pid : ProcessId} {e : Event}

theorem checkEvent_of_fits (h : e.Fits d.processes d.channels) : d.checkEvent pid e = .ok () := by
  have hrange : d.isInRange e = true := by
    cases e with
    | internal pid' name => simpa [isInRange, Event.pid] using h.pid_lt
    | send c payload => simpa [isInRange] using (h.channel c rfl).2
    | receive c payload => simpa [isInRange] using (h.channel c rfl).2
  rw [checkEvent, check_eq_ok]
  refine ⟨by simp [hrange], ?_⟩
  split
  · next c hc =>
    refine if_pos (List.any_eq_true.2 ⟨c, (h.channel c hc).1, ?_⟩)
    exact decide_eq_true rfl
  · rfl

theorem automaton?_eq_none (h : pid ∉ d.automata.map (·.pid)) : d.automaton? pid = none := by
  refine List.find?_eq_none.2 fun a ha heq => h ?_
  exact List.mem_map.2 ⟨a, ha, of_decide_eq_true heq⟩

theorem add_of_fits (hpid : a.pid < d.processes) (hnew : a.pid ∉ d.automata.map (·.pid))
    (hevents : ∀ e ∈ a.alphabet, e.Fits d.processes d.channels) :
    d.add a = .ok { d with automata := d.automata ++ [a] } := by
  have hchecks : a.alphabet.toList.forM (d.checkEvent a.pid) = .ok () :=
    forM_eq_ok.2 fun e he => checkEvent_of_fits (hevents e he)
  simp only [add, error_bind, check_eq_ok, bind_eq_ok, pure_eq_ok]
  exact ⟨Nat.not_le.2 hpid, by simp [automaton?_eq_none hnew], ⟨⟩, hchecks, trivial⟩

theorem misplaced?_of_index {channels : List Channel} {position : Nat}
    (h : ∀ (i : Nat) (c : Channel), channels[i]? = some c → c.index = position + i) :
    misplaced? position channels = none := by
  induction channels generalizing position with
  | nil => rfl
  | cons c channels ih =>
      have hc : c.index = position := h 0 c rfl
      rw [misplaced?, if_pos hc]
      refine ih fun i d hd => ?_
      rw [h (i + 1) d hd]
      omega

theorem exists_finish (hall : ∀ pid < d.processes, pid ∈ d.automata.map (·.pid))
    (hindex : ∀ (i : Nat) (c : Channel), d.channels[i]? = some c → c.index = i) :
    ∃ sys, d.finish = .ok sys := by
  have hmissing : d.missing = [] := by
    refine List.filter_eq_nil_iff.2 fun pid hpid => ?_
    obtain ⟨a, ha, hpid'⟩ := List.mem_map.1 (hall pid (List.mem_range.1 hpid))
    have hsome : (d.automaton? pid).isSome :=
      List.find?_isSome.2 ⟨a, ha, decide_eq_true hpid'⟩
    simpa [Option.isSome_iff_ne_none] using hsome
  have hplaced : misplaced? 0 d.channels = none :=
    misplaced?_of_index fun i c hc => by rw [hindex i c hc, Nat.zero_add]
  refine ⟨⟨d.channels, (List.range d.processes).filterMap d.automaton?, ∅⟩, ?_⟩
  rw [finish, check_eq_ok, hmissing, hplaced]
  exact ⟨by simp, rfl⟩

end Draft

namespace PartitionGraph

variable {g : PartitionGraph} {pid : ProcessId} {a : Automaton} {e : Event}

theorem exists_findState {known : List (List PartitionId)} {ids : List PartitionId}
    {p : PartitionId} (hids : ids ∈ known) (hp : p ∈ ids) : ∃ s, findState known p = some s := by
  refine Option.isSome_iff_exists.1 (List.findSome?_isSome_iff.2 ⟨ids, hids, ?_⟩)
  simpa [Option.isSome_iff_ne_none, List.idxOf?_eq_none_iff] using hp

/-- Every edge of a process leads to one of its states, whatever the other
processes are. -/
theorem Valid.exists_automatonOf (h : g.Valid) (known : List (List PartitionId))
    (pid : ProcessId) : ∃ a, g.automatonOf known pid = .ok a := by
  obtain ⟨ts, hts⟩ : ∃ ts, g.automatonTransitions (known ++ [g.idsOf pid]) (g.idsOf pid) =
      .ok ts := by
    refine exists_mapM_eq_ok ?_
    rintro ⟨s, e, q⟩ hmem
    obtain ⟨⟨p, s'⟩, hp, hrow⟩ := List.mem_flatMap.1 hmem
    obtain ⟨⟨e', q'⟩, hedge, heq⟩ := List.mem_map.1 hrow
    obtain ⟨rfl, rfl, rfl⟩ : s' = s ∧ e' = e ∧ q' = q := by simpa using heq
    have hpmem : p ∈ g.idsOf pid := List.mem_of_getElem? (List.mem_zipIdx_iff_getElem?.1 hp)
    have hqmem := h.mem_idsOf_of_hasEdge hpmem (mem_edgesFrom.1 hedge)
    have hids : g.idsOf pid ∈ known ++ [g.idsOf pid] :=
      List.mem_append_right known List.mem_cons_self
    obtain ⟨t, ht⟩ := exists_findState hids hqmem
    exact ⟨(s', e', t), by simp [ht]⟩
  refine ⟨_, bind_eq_ok.2 ⟨ts, hts, rfl⟩⟩

/-- The automaton uses the events on the edges and no others. -/
theorem hasEdge_of_mem_alphabet {known : List (List PartitionId)}
    (ha : g.automatonOf known pid = .ok a) (he : e ∈ a.alphabet) :
    ∃ p q, p ∈ g.idsOf pid ∧ g.hasEdge p e q = true := by
  obtain ⟨ts, hts, hok⟩ := bind_eq_ok.1 ha
  obtain rfl := pure_eq_ok.1 hok
  rcases Automaton.mem_alphabet_foldl_addTransition he with he | ⟨s, t, hmem⟩
  · obtain ⟨st, hst, hkey⟩ := Automaton.mem_alphabet.1 he
    rw [automatonStates, states_foldl_addState] at hst
    obtain ⟨p, -, rfl⟩ := List.mem_map.1 hst
    cases hkey
  · obtain ⟨p, q, hp, hedge, -⟩ := (mem_automatonTransitions hts).1 hmem
    exact ⟨p, q, List.mem_of_getElem? hp, hedge⟩

theorem Valid.exists_draftFrom (h : g.Valid) {before pids : List ProcessId} {draft : Draft}
    (hdraft : draft.automata.map (·.pid) = before) (hnodup : (before ++ pids).Nodup)
    (hpids : ∀ pid ∈ pids, pid < draft.processes)
    (hfits : ∀ p e q, g.hasEdge p e q = true → e.Fits draft.processes draft.channels) :
    ∃ draft' partitions, g.draftFrom draft (before.map g.idsOf) pids = .ok (draft', partitions) ∧
      draft'.automata.map (·.pid) = before ++ pids := by
  induction pids generalizing before draft with
  | nil => exact ⟨draft, _, rfl, by rw [List.append_nil, hdraft]⟩
  | cons pid pids ih =>
      obtain ⟨hpid, hpids⟩ := List.forall_mem_cons.1 hpids
      have hnew : pid ∉ before := fun hmem =>
        (List.nodup_append.1 hnodup).2.2 pid hmem pid List.mem_cons_self rfl
      obtain ⟨a, ha⟩ := h.exists_automatonOf (before.map g.idsOf) pid
      have hapid : a.pid = pid := (h.mirrors_automatonOf hnew ha).pid_eq
      have hadd : draft.add a = .ok { draft with automata := draft.automata ++ [a] } := by
        refine Draft.add_of_fits (hapid ▸ hpid) (by rwa [hdraft, hapid]) fun e he => ?_
        obtain ⟨p, q, -, hedge⟩ := hasEdge_of_mem_alphabet ha he
        exact hfits p e q hedge
      have happend : before ++ pid :: pids = (before ++ [pid]) ++ pids := by simp
      have hknown : before.map g.idsOf ++ [(g.partitionsOf pid).map (·.id)] =
          (before ++ [pid]).map g.idsOf := by simp [idsOf]
      rw [happend] at hnodup ⊢
      have hdraft' : (draft.automata ++ [a]).map (·.pid) = before ++ [pid] := by
        simp [hdraft, hapid]
      obtain ⟨draft', partitions, hnext, hall⟩ :=
        @ih (before ++ [pid]) { draft with automata := draft.automata ++ [a] } hdraft' hnodup hpids
          hfits
      refine ⟨draft', partitions, ?_, hall⟩
      rw [draftFrom, ha, ok_bind, hadd, hknown]
      exact hnext

/-- A valid graph has a model over channels that stand at the positions of
their indices, if the events on its edges fit. -/
theorem Valid.exists_model (h : g.Valid) {channels : List Channel}
    (hindex : ∀ (i : Nat) (c : Channel), channels[i]? = some c → c.index = i)
    (hfits : ∀ p e q, g.hasEdge p e q = true → e.Fits g.processes channels) :
    ∃ m, g.model channels = .ok m := by
  obtain ⟨draft, partitions, hdraft, hall⟩ : ∃ draft partitions,
      g.draftFrom ⟨g.processes, channels, []⟩ [] (List.range g.processes) =
          .ok (draft, partitions) ∧
        draft.automata.map (·.pid) = List.range g.processes :=
    h.exists_draftFrom rfl List.nodup_range (fun _ => List.mem_range.1) hfits
  obtain ⟨hprocesses, hchannels, -⟩ := @Valid.draftFrom_eq_ok g h [] _ _ _ _ List.nodup_range
    (fun _ h => absurd h List.not_mem_nil) hdraft
  obtain ⟨sys, hsys⟩ := Draft.exists_finish (d := draft)
    (fun pid hpid => by
      rw [hall]
      exact List.mem_range.2 (Nat.lt_of_lt_of_eq hpid hprocesses))
    (by rwa [hchannels])
  refine ⟨⟨sys, partitions⟩, ?_⟩
  rw [model]
  simp only [bind_eq_ok, mapError_eq_ok]
  exact ⟨(draft, partitions), hdraft, sys, hsys, rfl⟩

end PartitionGraph

end ProtocolInference
