import ProtocolInference.Partition.Merge
import ProtocolInference.Partition.Refine

/-!
Merges, splits and refinements in place.

The operations on a partition graph are functions that return a new graph.
Here they are programs that change the one graph they are given, by one
small step after the other: a number is taken, a partition is put in or
taken out, observations are given to other partitions. A program that fails
does not undo what it has done, so how the checks and the steps are ordered
matters, and a merge even looks partitions up when it has begun to change
the graph. A coarsening is a sequence of merges, so one that failed would
leave behind those it has made.

Whoever calls such a program and goes on whatever the answer is goes on with
the graph that the call has left behind (`afterCall`).
-/

namespace ProtocolInference.PartitionGraph

/-- A program that changes a graph in place. If it fails, the graph stays as
the program has left it. -/
abbrev InPlace (ε : Type) := ExceptT ε (StateM PartitionGraph)

namespace InPlace

variable {ε α : Type}

/-- What becomes of a graph if the program is run on it. -/
def runOn (x : InPlace ε α) (g : PartitionGraph) : Except ε α × PartitionGraph :=
  StateT.run (ExceptT.run x) g

/-! ### Steps -/

/-- Compute something from the graph, without changing it. -/
def inspect (f : PartitionGraph → Except ε α) : InPlace ε α := do
  match f (← get) with
  | .ok a => return a
  | .error e => throw e

/-- Take the next number. -/
def freshId : InPlace ε PartitionId := do
  let g ← get
  set { g with nextId := g.nextId + 1 }
  return g.nextId

/-- Put a partition behind all others, or in the place of the one that has its
number. -/
def put (p : Partition) : InPlace ε Unit :=
  modify fun g =>
    if g.partitions.any (·.id = p.id) then
      { g with partitions := g.partitions.map fun q => if q.id = p.id then p else q }
    else { g with partitions := g.partitions ++ [p] }

/-- Take a partition out, if it is there. -/
def drop (id : PartitionId) : InPlace ε Unit :=
  modify fun g => { g with partitions := g.partitions.filter (·.id ≠ id) }

/-- Give observations to other partitions, and count the edges anew. -/
def move (moves : List (ObservationId × PartitionId)) : InPlace ε Unit := modify (·.reassign moves)

/-- Add members to a partition, which has to be there. -/
def extend (id : PartitionId) (more : OrderedSet ObservationId) : InPlace GraphError Unit := do
  let _ ← inspect (·.require id)
  modify fun g =>
    { g with partitions := g.partitions.map fun p =>
        if p.id = id then { p with members := p.members.insertAll more.toList } else p }

/-! ### Operations -/

/-- Move all members of `remove` into `retain` and take `remove` out. -/
def merge (retain remove : PartitionId) : InPlace GraphError Unit := do
  let (_, gone) ← inspect (·.checkMerge retain remove)
  move (gone.members.toList.map fun s => (s, retain))
  let removed ← inspect (·.require remove)
  drop remove
  extend retain removed.members

/-- Merge the partitions of a group into the first of them. Returns the number of
merges, added to those made before. -/
def mergeGroup (merges : Nat) : List PartitionId → InPlace GraphError Nat
  | [] => return merges
  | retain :: rest => do
    rest.forM (merge retain)
    return merges + rest.length

/-- Merge the partitions of a process whose members all bear one name, each
time into the first of them. Returns the number of merges. -/
def coarsenByName : InPlace GraphError Nat := do
  let groups := (← get).byName.values
  groups.foldlM mergeGroup 0

/-- Replace a partition by two new ones with the given members. Returns the
numbers of the left and the right one. -/
def split (id : PartitionId) (left right : OrderedSet ObservationId) :
    InPlace GraphError (PartitionId × PartitionId) := do
  let p ← inspect (·.checkSplit id left right)
  let l ← freshId
  let r ← freshId
  put ⟨l, p.pid, left⟩
  put ⟨r, p.pid, right⟩
  move (left.toList.map (fun s => (s, l)) ++ right.toList.map fun s => (s, r))
  drop id
  return (l, r)

/-- Split a partition after the policy has placed the members that are on
neither side. -/
def splitWithRemainder (id : PartitionId) (left right : OrderedSet ObservationId)
    (policy : RemainderPolicy) : InPlace GraphError (PartitionId × PartitionId) := do
  let p ← inspect (·.require id)
  let rest := (remainder p left right).zipIdx.partition fun (_, i) => policy.goesLeft id i
  split id (left.insertAll (rest.1.map Prod.fst)) (right.insertAll (rest.2.map Prod.fst))

/-- Split the partition at the last stitch of the path, if there is one. -/
def refine (path : PartitionPath) (opts : RefineOptions) : InPlace RefineError RefineOutcome := do
  let some k ← inspect path.stitch? | return .noStitch
  let id := path.states.getD k path.start
  let p ← inspect fun g => (g.require id).mapError RefineError.graph
  let right ← inspect fun g => path.rightSet g k id p.members
  let left := path.leftSet (← get) opts.leftSet k p.members right
  if left.isEmpty || right.isEmpty || left.toList.any (· ∈ right) then
    throw (.invalidStitchSets id left.size right.size)
  let (l, r) ← ExceptT.adapt RefineError.graph (splitWithRemainder id left right opts.remainder)
  return .refined id k l r

end InPlace

/-! ### Calls -/

/-- A call of one of the operations. -/
inductive Call
  | merge (retain remove : PartitionId)
  | split (id : PartitionId) (left right : OrderedSet ObservationId)
  | splitWithRemainder (id : PartitionId) (left right : OrderedSet ObservationId)
      (policy : RemainderPolicy)
  | coarsenByName
  | refine (path : PartitionPath) (opts : RefineOptions)

/-- The graph that the call leaves behind, be it that it succeeds or that it
fails. -/
def afterCall (g : PartitionGraph) : Call → PartitionGraph
  | .merge retain remove => ((InPlace.merge retain remove).runOn g).2
  | .split id left right => ((InPlace.split id left right).runOn g).2
  | .splitWithRemainder id left right policy =>
    ((InPlace.splitWithRemainder id left right policy).runOn g).2
  | .coarsenByName => (InPlace.coarsenByName.runOn g).2
  | .refine path opts => ((InPlace.refine path opts).runOn g).2

/-- The graph after one call and another, whatever their answers. -/
def afterCalls (g : PartitionGraph) (calls : List Call) : PartitionGraph := calls.foldl afterCall g

end ProtocolInference.PartitionGraph
