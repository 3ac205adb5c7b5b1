import ProtocolInference.Proofs.Partition.Valid

/-!
Splits only take behaviour away.

What a graph admits depends on its arena and on which observations share
a partition, and on nothing else; the numbers of partitions do not
matter. One graph *refines* another if it has the same arena and every
two observations that share a partition in it share one in the other as
well. A split refines the graph that was split, and a graph refines what
is merged from it.

A walk of the refined graph is a walk of the other one, partition by
partition, where the partition that an observation is in on the one side
is followed to the partition that it is in on the other
(`Refines.walk`). Hence `Refines.admits`, the monotonicity on which the
whole refinement loop rests.
-/

namespace ProtocolInference.PartitionGraph

variable {g g' g'' : PartitionGraph}

/-! ### Partitions by their observations -/

section Members

variable {id : PartitionId} {p : Partition}

theorem Coherent.partition?_isSome (h : g.Coherent) {s : ObservationId}
    (hs : g.owner? s = some id) : ∃ p, g.partition? id = some p ∧ s ∈ p.members := by
  obtain ⟨p, hp, rfl⟩ := h.owner_exists s id hs
  exact ⟨p, h.partition?_of_mem hp, (h.mem_iff_owner p hp s).2 hs⟩

theorem Coherent.any_members_iff (h : g.Coherent) {f : ObservationId → Bool} :
    (g.partition? id).any (·.members.toList.any f) = true ↔
      ∃ s, g.owner? s = some id ∧ f s = true := by
  rw [Option.any_eq_true]
  constructor
  · rintro ⟨p, hp, hany⟩
    obtain ⟨s, hs, hf⟩ := List.any_eq_true.1 hany
    exact ⟨s, (h.mem_members hp s).1 hs, hf⟩
  · rintro ⟨s, hs, hf⟩
    obtain ⟨p, hp, hmem⟩ := h.partition?_isSome hs
    exact ⟨p, hp, List.any_eq_true.2 ⟨s, hmem, hf⟩⟩

theorem Coherent.isInitial_iff (h : g.Coherent) :
    g.isInitial id = true ↔ ∃ s, g.owner? s = some id ∧ g.startsTrace s = true :=
  h.any_members_iff

theorem Coherent.isTerminal_iff (h : g.Coherent) :
    g.isTerminal id = true ↔ ∃ s, g.owner? s = some id ∧ g.endsTrace s = true :=
  h.any_members_iff

theorem Coherent.pid_of_mem (h : g.Coherent) (hp : g.partition? id = some p)
    {s : ObservationId} {o : Observation} (hs : s ∈ p.members) (ho : g.observation? s = some o) :
    o.pid = p.pid := h.pid_eq p (partition?_eq_some hp).1 s hs o ho

theorem observation?_of_owner? (h : g.Coherent) {s : ObservationId} (hs : g.owner? s = some id) :
    ∃ o, g.observation? s = some o := by
  have hlt : s < g.observations.length := by
    rw [← h.owner?_isSome, hs]
    rfl
  exact ⟨_, List.getElem?_eq_getElem hlt⟩

theorem Coherent.isPartitionOf_iff (h : g.Coherent) {pid : ProcessId} {s : ObservationId}
    {o : Observation} (hs : g.owner? s = some id) (ho : g.observation? s = some o) :
    g.isPartitionOf pid id = true ↔ o.pid = pid := by
  obtain ⟨p, hp, hmem⟩ := h.partition?_isSome hs
  rw [isPartitionOf, hp, h.pid_of_mem hp hmem ho, Option.any_some, decide_eq_true_eq]

theorem endsTraceOf_iff {pid : ProcessId} {s : ObservationId} {o : Observation}
    (ho : g.observation? s = some o) :
    g.endsTraceOf pid s = true ↔ g.endsTrace s = true ∧ o.pid = pid := by
  rw [endsTraceOf, endsTrace, ho]
  simp

end Members

/-! ### Traces are walks -/

theorem Valid.hasEdge_of_next? (h : g.Valid) {s t : ObservationId} {e : Event}
    (hnext : g.next? s = some (e, t)) : g.hasEdge (g.owner s) e (g.owner t) = true :=
  (PartitionGraph.hasEdge_iff h.counted).2 ⟨s, t, hnext, rfl, rfl⟩

theorem Valid.isPartitionOf_of_hasEdge (h : g.Valid) {pid : ProcessId} {p q : PartitionId}
    {e : Event} (hp : g.isPartitionOf pid p = true) (hedge : g.hasEdge p e q = true) :
    g.isPartitionOf pid q = true := by
  have hc := h.coherent
  obtain ⟨s, t, hnext, hs, ht⟩ := h.hasEdge_iff.1 hedge
  obtain ⟨o, ho⟩ := observation?_of_owner? hc hs
  obtain ⟨o', ho'⟩ := observation?_of_owner? hc ht
  rw [hc.isPartitionOf_iff hs ho] at hp
  rw [hc.isPartitionOf_iff ht ho', ← hp]
  exact (h.linked.pid_eq _ _ _ _ _ hnext ho ho').symm

theorem Valid.walk_of_leads (h : g.Valid) {s t : ObservationId} {es : List Event}
    (hleads : g.Leads s es t) : g.Walk (g.owner s) es (g.owner t) := by
  induction hleads with
  | stay s => exact .stay _
  | step hnext _ ih => exact .step (h.hasEdge_of_next? hnext) ih

theorem Linked.pid_of_leads (h : g.Linked) {s t : ObservationId} {es : List Event}
    (hleads : g.Leads s es t) {o o' : Observation} (ho : g.observation? s = some o)
    (ho' : g.observation? t = some o') : o.pid = o'.pid := by
  induction hleads generalizing o with
  | stay s => rw [Option.some.inj (ho.symm.trans ho')]
  | step hnext _ ih =>
      have hlt := h.lt_of_next? hnext
      obtain ⟨o₁, ho₁⟩ : ∃ o₁, g.observation? _ = some o₁ := ⟨_, List.getElem?_eq_getElem hlt⟩
      rw [h.pid_eq _ _ _ _ _ hnext ho ho₁]
      exact ih ho₁ ho'

/-- Whatever was observed is admitted. -/
theorem Valid.admits_of_observed (h : g.Valid) {pid : ProcessId} {es : List Event}
    (hobs : g.Observed pid es) : g.Admits pid es := by
  obtain ⟨s, t, hstart, hleads, hend⟩ := hobs
  have hc := h.coherent
  obtain ⟨o, ho, -⟩ := (Option.any_eq_true _ _).1 hstart
  obtain ⟨o', ho', -⟩ := (Option.any_eq_true _ _).1 hend
  have hs := hc.owner?_eq (observation?_lt ho)
  have ht := hc.owner?_eq (observation?_lt ho')
  obtain ⟨hend, hpid⟩ := (endsTraceOf_iff ho').1 hend
  refine ⟨g.owner s, g.owner t, ?_, ?_, h.walk_of_leads hleads, ?_⟩
  · rw [hc.isPartitionOf_iff hs ho, h.linked.pid_of_leads hleads ho ho', hpid]
  · exact hc.isInitial_iff.2 ⟨s, hs, hstart⟩
  · exact hc.isTerminal_iff.2 ⟨t, ht, hend⟩

/-! ### One arena

What the traces are does not depend on how they are divided. -/

section Arena

variable (h : g'.observations = g.observations)

include h

theorem observation?_congr (s : ObservationId) : g'.observation? s = g.observation? s := by
  rw [observation?, observation?, h]

theorem next?_congr (s : ObservationId) : g'.next? s = g.next? s := by
  rw [next?, next?, observation?_congr h]

theorem startsTrace_congr (s : ObservationId) : g'.startsTrace s = g.startsTrace s := by
  rw [startsTrace, startsTrace, observation?_congr h]

theorem endsTrace_congr (s : ObservationId) : g'.endsTrace s = g.endsTrace s := by
  rw [endsTrace, endsTrace, observation?_congr h]

theorem endsTraceOf_congr (pid : ProcessId) (s : ObservationId) :
    g'.endsTraceOf pid s = g.endsTraceOf pid s := by
  rw [endsTraceOf, endsTraceOf, observation?_congr h]

theorem leads_congr {s t : ObservationId} {es : List Event} (hleads : g.Leads s es t) :
    g'.Leads s es t := by
  induction hleads with
  | stay s => exact .stay s
  | step hnext _ ih => exact .step ((next?_congr h _).trans hnext) ih

theorem observed_congr {pid : ProcessId} {es : List Event} (hobs : g.Observed pid es) :
    g'.Observed pid es := by
  obtain ⟨s, t, hstart, hleads, hend⟩ := hobs
  exact ⟨s, t, (startsTrace_congr h s).trans hstart, leads_congr h hleads,
    (endsTraceOf_congr h pid t).trans hend⟩

theorem observes_congr {traces : List ProcessTrace} (hobs : g.Observes traces) :
    g'.Observes traces := by
  obtain ⟨hrecords, hcovered⟩ := hobs
  rw [← h] at hrecords hcovered
  exact ⟨hrecords, hcovered⟩

end Arena

/-! ### Refinement -/

/-- The first graph divides the observations of the second one at least as
finely. -/
structure Refines (g' g : PartitionGraph) : Prop where
  observations_eq : g'.observations = g.observations
  owner?_eq : ∀ s t, g'.owner? s = g'.owner? t → g.owner? s = g.owner? t

namespace Refines

theorem refl (g : PartitionGraph) : Refines g g := ⟨rfl, fun _ _ h => h⟩

theorem trans (h : Refines g'' g') (h' : Refines g' g) : Refines g'' g where
  observations_eq := h.observations_eq.trans h'.observations_eq
  owner?_eq s t hst := h'.owner?_eq s t (h.owner?_eq s t hst)

section Views

variable (h : Refines g' g)

include h

theorem observation?_eq (s : ObservationId) : g'.observation? s = g.observation? s :=
  observation?_congr h.observations_eq s

theorem next?_eq (s : ObservationId) : g'.next? s = g.next? s := next?_congr h.observations_eq s

theorem startsTrace_eq (s : ObservationId) : g'.startsTrace s = g.startsTrace s :=
  startsTrace_congr h.observations_eq s

theorem endsTrace_eq (s : ObservationId) : g'.endsTrace s = g.endsTrace s :=
  endsTrace_congr h.observations_eq s

theorem observes {traces : List ProcessTrace} (hobs : g.Observes traces) : g'.Observes traces :=
  observes_congr h.observations_eq hobs

/-- Where the partition of an observation is on the coarser side. -/
theorem owner?_some (hv : g.Valid) (hv' : g'.Valid) {s : ObservationId} {p : PartitionId}
    (hs : g'.owner? s = some p) : g.owner? s = some (g.owner s) := by
  refine hv.coherent.owner?_eq ?_
  rw [← h.observations_eq, ← hv'.coherent.owner?_isSome, hs]
  rfl

theorem owner_eq {s t : ObservationId} (hst : g'.owner? s = g'.owner? t) :
    g.owner s = g.owner t := by
  rw [owner, owner, h.owner?_eq s t hst]

/-- A walk of the finer graph, seen in the coarser one. -/
theorem walk (hv : g.Valid) (hv' : g'.Valid) {p q : PartitionId} {es : List Event}
    (hwalk : g'.Walk p es q) {s : ObservationId} (hs : g'.owner? s = some p) :
    ∃ t, g'.owner? t = some q ∧ g.Walk (g.owner s) es (g.owner t) := by
  induction hwalk generalizing s with
  | stay p => exact ⟨s, hs, .stay _⟩
  | step hedge _ ih =>
      obtain ⟨s₁, t₁, hnext, hs₁, ht₁⟩ := hv'.hasEdge_iff.1 hedge
      obtain ⟨t, ht, hwalk⟩ := ih ht₁
      refine ⟨t, ht, .step ?_ hwalk⟩
      rw [h.owner_eq (hs.trans hs₁.symm)]
      exact hv.hasEdge_of_next? (by rwa [← h.next?_eq])

theorem admits (hv : g.Valid) (hv' : g'.Valid) {pid : ProcessId} {es : List Event}
    (hadmits : g'.Admits pid es) : g.Admits pid es := by
  have hc := hv.coherent
  have hc' := hv'.coherent
  obtain ⟨p, q, hp, hinitial, hwalk, hterminal⟩ := hadmits
  obtain ⟨s, hs, hstart⟩ := hc'.isInitial_iff.1 hinitial
  obtain ⟨u, hu, hend⟩ := hc'.isTerminal_iff.1 hterminal
  obtain ⟨o, ho⟩ := observation?_of_owner? hc' hs
  obtain ⟨t, ht, hwalk⟩ := h.walk hv hv' hwalk hs
  have hs' := h.owner?_some hv hv' hs
  refine ⟨g.owner s, g.owner t, ?_, ?_, hwalk, ?_⟩
  · rw [hc.isPartitionOf_iff hs' (by rwa [← h.observation?_eq])]
    exact (hc'.isPartitionOf_iff hs ho).1 hp
  · exact hc.isInitial_iff.2 ⟨s, hs', by rwa [← h.startsTrace_eq]⟩
  · refine hc.isTerminal_iff.2 ⟨u, ?_, by rwa [← h.endsTrace_eq]⟩
    rw [h.owner_eq (ht.trans hu.symm)]
    exact h.owner?_some hv hv' hu

end Views

end Refines

/-! ### Merges and splits -/

theorem Valid.refines_merged (h : g.Valid) {retain remove : PartitionId} {kept gone : Partition}
    (hm : g.Mergeable retain remove kept gone) : Refines g (g.merged retain gone) where
  observations_eq := rfl
  owner?_eq s t hst := by
    have hiff : s ∈ gone.members ↔ t ∈ gone.members := by
      rw [h.coherent.mem_members hm.gone_eq, h.coherent.mem_members hm.gone_eq, hst]
    rw [owner?_merged h.coherent hm, owner?_merged h.coherent hm, hst]
    simp only [hiff]

theorem Valid.refines_splitInto (h : g.Valid) {id : PartitionId} {p : Partition}
    {left right : OrderedSet ObservationId} (hs : g.Splittable id p left right) :
    Refines (g.splitInto p left right) g where
  observations_eq := rfl
  owner?_eq := by
    have hc := h.coherent
    have hkey (s : ObservationId) :
        (∃ i, (g.splitInto p left right).owner? s = some i ∧ g.nextId ≤ i) ∧
            g.owner? s = some id ∨
          (∀ i, (g.splitInto p left right).owner? s = some i → i < g.nextId) ∧
            g.owner? s = (g.splitInto p left right).owner? s := by
      rw [owner?_splitInto hc hs]
      split
      · next hl =>
        exact .inl ⟨⟨_, rfl, Nat.le_refl _⟩,
          (hc.mem_members hs.partition_eq s).1 ((hs.mem_iff s).2 (.inl hl))⟩
      · split
        · next hr =>
          exact .inl ⟨⟨_, rfl, Nat.le_succ _⟩,
            (hc.mem_members hs.partition_eq s).1 ((hs.mem_iff s).2 (.inr hr))⟩
        · exact .inr ⟨fun i hi => hc.owner?_lt hi, rfl⟩
    intro s t hst
    rcases hkey s with ⟨⟨i, hi, hnew⟩, hs⟩ | ⟨hold, hs⟩ <;>
      rcases hkey t with ⟨⟨j, hj, hnew'⟩, ht⟩ | ⟨hold', ht⟩
    · rw [hs, ht]
    · exact absurd (hold' i (hst ▸ hi)) (Nat.not_lt.2 hnew)
    · exact absurd (hold j (hst ▸ hj)) (Nat.not_lt.2 hnew')
    · rw [hs, ht, hst]

theorem Valid.refines_split (h : g.Valid) {id l r : PartitionId}
    {left right : OrderedSet ObservationId} (hsplit : g.split id left right = .ok (g', l, r)) :
    Refines g' g := by
  obtain ⟨p, hs, rfl, -, -⟩ := split_eq_ok hsplit
  exact h.refines_splitInto hs

theorem Splits.trans (h : g.Splits g') (h' : g'.Splits g'') : g.Splits g'' := by
  induction h with
  | none => exact h'
  | split hs _ ih => exact .split hs (ih h')
  | splitWithRemainder hs _ ih => exact .splitWithRemainder hs (ih h')

theorem Splits.induction {P : PartitionGraph → Prop}
    (hsplit : ∀ g g' id left right l r, g.split id left right = .ok (g', l, r) → P g → P g')
    (h : g.Splits g') (hg : P g) : P g' := by
  induction h with
  | none => exact hg
  | split hs _ ih => exact ih (hsplit _ _ _ _ _ _ _ hs hg)
  | splitWithRemainder hs _ ih =>
      obtain ⟨_, _, hs⟩ := splitWithRemainder_eq_ok hs
      exact ih (hsplit _ _ _ _ _ _ _ hs hg)

theorem Valid.splits (h : g.Valid) (hsplits : g.Splits g') : g'.Valid ∧ Refines g' g := by
  refine hsplits.induction (P := fun g' => g'.Valid ∧ Refines g' g) ?_ ⟨h, .refl g⟩
  rintro g₁ g₂ id left right l r hs ⟨hv, hrefines⟩
  exact ⟨hv.split hs, (hv.refines_split hs).trans hrefines⟩

theorem Splits.system_eq (h : g.Splits g') :
    g'.channels = g.channels ∧ g'.processes = g.processes := by
  refine h.induction (P := fun g' => g'.channels = g.channels ∧ g'.processes = g.processes)
    ?_ ⟨rfl, rfl⟩
  intro g₁ g₂ id left right l r hs heq
  obtain ⟨_, -, rfl, -, -⟩ := split_eq_ok hs
  exact heq

theorem Splits.channels_eq (h : g.Splits g') : g'.channels = g.channels := h.system_eq.1

theorem Splits.processes_eq (h : g.Splits g') : g'.processes = g.processes := h.system_eq.2

/-! ### All graphs -/

section Arises

variable {executions : List Execution} {processes : Nat} {channels : List Channel}

/-- The arena keeps what it was built from. -/
theorem Arises.observes (h : Arises executions processes channels g) :
    g.Observes (executions.flatMap (·.processes)) := by
  induction h with
  | built h => exact observes_ofExecutions h
  | changed _ hchange ih => exact observes_congr hchange.frame.1 ih

theorem Arises.splits (h : Arises executions processes channels g) (hsplits : g.Splits g') :
    Arises executions processes channels g' := by
  refine hsplits.induction (P := Arises executions processes channels) ?_ h
  exact fun _ _ _ _ _ _ _ hs hg => .changed hg (.split hs)

theorem Arises.system_eq (h : Arises executions processes channels g) :
    g.processes = processes ∧ g.channels = channels := by
  induction h with
  | built h =>
      obtain ⟨-, rfl, -⟩ := ofExecutions_eq_ok.1 h
      exact ⟨rfl, rfl⟩
  | changed _ hchange ih =>
      obtain ⟨-, hchannels, hprocesses⟩ := hchange.frame
      exact ⟨hprocesses.trans ih.1, hchannels.trans ih.2⟩

theorem Arises.pid_lt (h : Arises executions processes channels g) {t : ProcessTrace}
    (ht : t ∈ executions.flatMap (·.processes)) : t.pid < g.processes := by
  rw [h.system_eq.1]
  induction h with
  | built h => exact (ofExecutions_eq_ok.1 h).1 t ht
  | changed _ _ ih => exact ih

end Arises

end ProtocolInference.PartitionGraph
