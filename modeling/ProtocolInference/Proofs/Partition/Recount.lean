import Mathlib.Data.List.Dedup
import ProtocolInference.Proofs.Partition.Valid

/-!
The edge table is a recount.

The table is never built anew. A merge or a split touches the counts of
those transitions that it concerns, and a mistake would stay in the table
and show only later, as an edge without transitions or a transition
without an edge. There is none: in every valid graph the table holds what
a count from scratch holds, entry by entry (`Valid.isRecounted`).
-/

namespace ProtocolInference.PartitionGraph

variable {g : PartitionGraph}

theorem count_recount (g : PartitionGraph) (e : Edge) :
    g.recount.count e = g.transitions.countP (g.edgeOf · = e) := by
  rw [recount, EdgeTable.count_foldl_increment, EdgeTable.count_empty, Nat.zero_add]

/-- The transitions behind an edge, counted by the observations at which
they begin. -/
theorem countP_transitions_eq (g : PartitionGraph) (p : PartitionId) (e : Event)
    (q : PartitionId) :
    g.transitions.countP (g.edgeOf · = ⟨p, e, q⟩) =
      (List.range g.observations.length).countP fun s =>
        (g.next? s).any fun (e', t) => e' = e ∧ g.owner s = p ∧ g.owner t = q := by
  rw [transitions, List.countP_filterMap]
  refine List.countP_congr fun s _ => ?_
  cases g.next? s with
  | none => simp
  | some next => simp [edgeOf, and_left_comm]

theorem Counted.size_eq (h : g.Counted) :
    g.edges.size = (g.transitions.map g.edgeOf).dedup.length := by
  have hperm : g.edges.edges.Perm (g.transitions.map g.edgeOf).dedup := by
    refine (List.perm_ext_iff_of_nodup (EdgeTable.nodup_edges _) (List.nodup_dedup _)).2 fun e => ?_
    rw [mem_edges_iff h, List.mem_dedup]
  exact hperm.length_eq

/-! ### The edges that leave a partition -/

theorem mem_edgesFrom {p q : PartitionId} {e : Event} :
    (e, q) ∈ g.edgesFrom p ↔ g.hasEdge p e q = true := by
  rw [hasEdge, ← EdgeTable.mem_edges_iff, edgesFrom, List.mem_map]
  constructor
  · rintro ⟨⟨p', e', q'⟩, hin, heq⟩
    obtain ⟨rfl, rfl⟩ := Prod.mk.inj heq
    obtain ⟨hmem, hp⟩ := List.mem_filter.1 hin
    obtain rfl : p' = p := of_decide_eq_true hp
    exact hmem
  · intro hmem
    exact ⟨⟨p, e, q⟩, List.mem_filter.2 ⟨hmem, decide_eq_true rfl⟩, rfl⟩

theorem nodup_edgesFrom (g : PartitionGraph) (p : PartitionId) : (g.edgesFrom p).Nodup := by
  refine List.Nodup.map_on ?_ ((EdgeTable.nodup_edges _).filter _)
  rintro ⟨p₁, e₁, q₁⟩ h₁ ⟨p₂, e₂, q₂⟩ h₂ heq
  obtain ⟨rfl, rfl⟩ := Prod.mk.inj heq
  obtain rfl : p₁ = p := of_decide_eq_true (List.mem_filter.1 h₁).2
  obtain rfl : p₂ = p₁ := of_decide_eq_true (List.mem_filter.1 h₂).2
  rfl

/-! ### The whole picture -/

/-- The table counts for each edge exactly the observations whose next
transition it stands for, as a recount does. It holds no count of zero and no
row without targets, so an edge is there exactly where such a transition is, is
listed once, and counts once in the number of edges. And when observations are
moved, every count that is taken back has been there. -/
structure IsRecounted (g : PartitionGraph) : Prop where
  count_eq : ∀ p e q, g.edges.count ⟨p, e, q⟩ =
    (List.range g.observations.length).countP fun s =>
      (g.next? s).any fun (e', t) => e' = e ∧ g.owner s = p ∧ g.owner t = q
  count_eq_recount : ∀ e, g.edges.count e = g.recount.count e
  counts_pos : ∀ k row, (k, row) ∈ g.edges.rows.entries →
    row.entries ≠ [] ∧ ∀ q n, (q, n) ∈ row.entries → 0 < n
  hasEdge_iff : ∀ p e q, g.hasEdge p e q = true ↔
    ∃ s t, g.next? s = some (e, t) ∧ g.owner? s = some p ∧ g.owner? t = some q
  listed_once : ∀ p,
    (g.edgesFrom p).Nodup ∧ ∀ e q, (e, q) ∈ g.edgesFrom p ↔ g.hasEdge p e q = true
  size_eq : g.edges.size = (g.transitions.map g.edgeOf).dedup.length
  decrement_pos : ∀ states done t rest, (g.incident states).toList = done ++ t :: rest →
    0 < (done.foldl (fun table t => table.decrement (g.edgeOf t)) g.edges).count (g.edgeOf t)

theorem Valid.isRecounted (hv : g.Valid) : g.IsRecounted := by
  have hc := hv.counted
  constructor
  case count_eq =>
    intro p e q
    rw [hc.count_eq, countP_transitions_eq]
  case count_eq_recount =>
    intro e
    rw [hc.count_eq, count_recount]
  case counts_pos =>
    intro k row hrow
    have hget := OrderedMap.get?_eq_some_iff.2 hrow
    refine ⟨fun hnil => ?_, fun q n hn => ?_⟩
    · have hempty := hc.tight.row_nonempty k row hget
      rw [OrderedMap.isEmpty, hnil] at hempty
      cases hempty
    · exact hc.tight.count_pos k row q n hget (OrderedMap.get?_eq_some_iff.2 hn)
  case hasEdge_iff => exact fun p e q => hv.hasEdge_iff
  case listed_once => exact fun p => ⟨nodup_edgesFrom g p, fun e q => mem_edgesFrom⟩
  case size_eq => exact hc.size_eq
  case decrement_pos => exact fun states done t rest => count_pos_of_incident hv.linked hc

end ProtocolInference.PartitionGraph
