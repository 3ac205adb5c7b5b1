import ProtocolInference.Proofs.Partition.Recount

/-!
Whether a graph admits a word can be computed.

A walk may be at several partitions after the same events. The partitions
at which walks can be are found event by event (`reached`), and a word is
admitted if one of them is terminal in the end. No assumption on the
graph is needed for this.
-/

namespace ProtocolInference.PartitionGraph

variable {g : PartitionGraph} {pid : ProcessId} {p q : PartitionId} {es : List Event}

/-- Where walks along the events lead from the given partitions. -/
def reached (g : PartitionGraph) (ps : List PartitionId) : List Event → List PartitionId
  | [] => ps
  | e :: es =>
    g.reached ((ps.flatMap fun p => (g.edgesFrom p).filter (·.1 = e)).map Prod.snd) es

theorem mem_reached {ps : List PartitionId} :
    q ∈ g.reached ps es ↔ ∃ p ∈ ps, g.Walk p es q := by
  induction es generalizing ps with
  | nil =>
      rw [reached]
      constructor
      · exact fun hq => ⟨q, hq, .stay q⟩
      · rintro ⟨p, hp, hwalk⟩
        cases hwalk
        exact hp
  | cons e es ih =>
      rw [reached, ih]
      constructor
      · rintro ⟨r, hr, hwalk⟩
        obtain ⟨⟨e', r'⟩, hmem, rfl⟩ := List.mem_map.1 hr
        obtain ⟨p, hp, hout⟩ := List.mem_flatMap.1 hmem
        obtain ⟨hedge, he⟩ := List.mem_filter.1 hout
        obtain rfl : e' = e := of_decide_eq_true he
        exact ⟨p, hp, .step (mem_edgesFrom.1 hedge) hwalk⟩
      · rintro ⟨p, hp, hwalk⟩
        cases hwalk with
        | @step _ r _ _ _ hedge hwalk =>
            refine ⟨r, List.mem_map.2 ⟨(e, r), List.mem_flatMap.2 ⟨p, hp, ?_⟩, rfl⟩, hwalk⟩
            exact List.mem_filter.2 ⟨mem_edgesFrom.2 hedge, decide_eq_true rfl⟩

/-- The partitions of the process in which a trace begins. -/
def beginnings (g : PartitionGraph) (pid : ProcessId) : List PartitionId :=
  (g.partitions.map (·.id)).filter fun p => g.isPartitionOf pid p && g.isInitial p

theorem mem_beginnings :
    p ∈ g.beginnings pid ↔ g.isPartitionOf pid p = true ∧ g.isInitial p = true := by
  rw [beginnings, List.mem_filter, Bool.and_eq_true]
  refine and_iff_right_of_imp fun hp => ?_
  obtain ⟨part, hpart, -⟩ := (Option.any_eq_true _ _).1 hp.1
  obtain ⟨hmem, rfl⟩ := partition?_eq_some hpart
  exact List.mem_map_of_mem hmem

theorem admits_iff_reached :
    g.Admits pid es ↔ (g.reached (g.beginnings pid) es).any g.isTerminal = true := by
  rw [List.any_eq_true]
  constructor
  · rintro ⟨p, q, hp, hinitial, hwalk, hterminal⟩
    exact ⟨q, mem_reached.2 ⟨p, mem_beginnings.2 ⟨hp, hinitial⟩, hwalk⟩, hterminal⟩
  · rintro ⟨q, hq, hterminal⟩
    obtain ⟨p, hp, hwalk⟩ := mem_reached.1 hq
    obtain ⟨hpart, hinitial⟩ := mem_beginnings.1 hp
    exact ⟨p, q, hpart, hinitial, hwalk, hterminal⟩

instance : Decidable (g.Admits pid es) := decidable_of_iff' _ admits_iff_reached

end ProtocolInference.PartitionGraph
