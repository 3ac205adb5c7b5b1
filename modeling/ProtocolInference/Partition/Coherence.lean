import ProtocolInference.Partition.Graph

/-!
When the views of a partition graph agree.

A graph says three times who belongs to whom: by the members of the
partitions, by the owners of the observations, and by the counts of the
edges. `Coherent` says that the three agree, and that partitions are
numbered and peopled as they should be. It is what every operation has to
preserve.
-/

namespace ProtocolInference.PartitionGraph

/-- The three views of the graph agree. -/
structure Coherent (g : PartitionGraph) : Prop where
  /-- Every observation has an owner. -/
  owners_length : g.owners.length = g.observations.length
  /-- No number is given twice. -/
  ids_nodup : (g.partitions.map (·.id)).Nodup
  /-- All numbers have been given before the next one. -/
  id_lt : ∀ p ∈ g.partitions, p.id < g.nextId
  members_nonempty : ∀ p ∈ g.partitions, p.members.toList ≠ []
  /-- The members of a partition are the observations that it owns. -/
  mem_iff_owner : ∀ p ∈ g.partitions, ∀ s, s ∈ p.members ↔ g.owner? s = some p.id
  /-- Every owner is a partition. -/
  owner_exists : ∀ s id, g.owner? s = some id → ∃ p ∈ g.partitions, p.id = id
  /-- The members belong to the process of their partition. -/
  pid_eq : ∀ p ∈ g.partitions, ∀ s ∈ p.members, ∀ o, g.observation? s = some o → o.pid = p.pid
  /-- Every edge is counted as often as there are transitions behind it. -/
  count_eq : ∀ e, g.edges.count e = (g.transitions.filter fun t => g.edgeOf t = e).length
  /-- An edge is in the table only as long as there are. -/
  contains_iff : ∀ e, g.edges.contains e ↔ 0 < g.edges.count e

end ProtocolInference.PartitionGraph
