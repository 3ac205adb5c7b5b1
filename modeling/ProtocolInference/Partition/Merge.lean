import ProtocolInference.Partition.Graph

/-!
Merging partitions.

A merge moves the members of one partition into another one of the same
process. Coarsening by name merges all partitions of a process whose
members bear one and the same name.
-/

namespace ProtocolInference.PartitionGraph

/-- Whether two partitions may be merged: they differ, both are there and
have members, belong to one process, and share no member. -/
def checkMerge (g : PartitionGraph) (retain remove : PartitionId) :
    Except GraphError (Partition × Partition) := do
  if retain = remove then .error (.selfMerge retain)
  let kept ← g.require retain
  let gone ← g.require remove
  -- A coherent graph fails neither for want of members nor by sharing them.
  if kept.members.isEmpty then .error (.emptyPartition retain)
  if gone.members.isEmpty then .error (.emptyPartition remove)
  if kept.pid ≠ gone.pid then .error (.processMismatch retain remove)
  let expected := kept.members.size + gone.members.size
  let actual := (kept.members.insertAll gone.members.toList).size
  if actual ≠ expected then .error (.lostStates expected actual)
  return (kept, gone)

/-- Move all members of `remove` into `retain` and take `remove` out. -/
def merge (g : PartitionGraph) (retain remove : PartitionId) :
    Except GraphError PartitionGraph := do
  let (_, gone) ← g.checkMerge retain remove
  let moved := g.reassign (gone.members.toList.map fun s => (s, retain))
  let partitions := (g.partitions.filter (·.id ≠ remove)).map fun p =>
    if p.id = retain then { p with members := p.members.insertAll gone.members.toList } else p
  return { moved with partitions }

def mergeAll (g : PartitionGraph) (retain : PartitionId) (remove : List PartitionId) :
    Except GraphError PartitionGraph :=
  remove.foldlM (fun g r => g.merge retain r) g

/-! ### Coarsening by name -/

/-- The name that all members of the partition bear, if they agree. -/
def commonName? (g : PartitionGraph) (p : Partition) : Option String :=
  match p.members.toList.filterMap fun s => (g.observation? s).map (·.name) with
  | [] => none
  | name :: names => if names.all (· = name) then some name else none

/-- The partitions whose members agree on a name, by process and name. -/
def byName (g : PartitionGraph) : OrderedMap (ProcessId × String) (List PartitionId) :=
  g.partitions.foldl (fun groups p =>
    match g.commonName? p with
    | some name => groups.alter (p.pid, name) fun ids => some (ids.getD [] ++ [p.id])
    | none => groups) ∅

/-- Merge the partitions of a process whose members all bear one name,
each time into the first of them. Returns the number of merges. -/
def coarsenByName (g : PartitionGraph) : Except GraphError (PartitionGraph × Nat) :=
  g.byName.values.foldlM (fun (g, merges) ids =>
    match ids with
    | [] => .ok (g, merges)
    | retain :: rest => do return (← g.mergeAll retain rest, merges + rest.length)) (g, 0)

end ProtocolInference.PartitionGraph
