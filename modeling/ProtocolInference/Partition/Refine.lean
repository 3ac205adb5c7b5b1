import ProtocolInference.Partition.Path
import ProtocolInference.Partition.Split

/-!
Splitting a path apart.

The partition at the last stitch of a path is split such that those of
its members that go on with the path are on the right, and the others on
the left. Afterwards no observation leads into the right half without
going on, and the path is no longer what it was.
-/

namespace ProtocolInference

/-- How the left side is chosen once the right side is known. -/
inductive LeftSet
  /-- All members that are not on the right. -/
  | complement
  /-- The members that were entered along the path and are not on the
  right; all others if there are no such members. -/
  | predecessor
  deriving DecidableEq, Inhabited

structure RefineOptions where
  leftSet : LeftSet
  remainder : RemainderPolicy
  deriving DecidableEq, Inhabited

inductive RefineOutcome
  | refined (partition : PartitionId) (stitch : Nat) (left right : PartitionId)
  /-- Every observation that follows the path bears it out. -/
  | noStitch
  deriving DecidableEq

namespace PartitionPath

/-- The members of the partition at place `k` that were entered along the
path: by its event, from its partition. At the start these are the
members at which traces begin. -/
def entered (path : PartitionPath) (g : PartitionGraph) (k : Nat)
    (members : OrderedSet ObservationId) : OrderedSet ObservationId :=
  match k with
  | 0 => members.filter g.startsTrace
  | j + 1 =>
    members.filter fun s =>
      match g.prev? s, path.events[j]?, path.states[j]? with
      | some (e, p), some e', some q => e = e' ∧ g.owner? p = some q
      | _, _, _ => false

/-- The members of the partition at place `k` that go on with the path.
At the end these are the members at which traces of the process end. If
all members go on, those that were entered along the path. -/
def rightSet (path : PartitionPath) (g : PartitionGraph) (k : Nat) (id : PartitionId)
    (members : OrderedSet ObservationId) : Except RefineError (OrderedSet ObservationId) :=
  match path.steps[k]? with
  | none => .ok (members.filter (g.endsTraceOf path.pid))
  | some (e, p) =>
    let right := members.filter fun s => (g.successor? s e p).isSome
    if right.size < members.size then .ok right
    -- All go on, so the stitch is in the way they were entered.
    else if k = 0 then .error (.stitchAtInitial id)
    else .ok (path.entered g k members)

def leftSet (path : PartitionPath) (g : PartitionGraph) (how : LeftSet) (k : Nat)
    (members right : OrderedSet ObservationId) : OrderedSet ObservationId :=
  let complement := members.filter (· ∉ right)
  match how with
  | .complement => complement
  | .predecessor =>
    let entered := (path.entered g k members).filter (· ∉ right)
    if entered.isEmpty then complement else entered

/-- Split the partition at the last stitch of the path, if there is one. -/
def refine (path : PartitionPath) (g : PartitionGraph) (opts : RefineOptions) :
    Except RefineError (PartitionGraph × RefineOutcome) := do
  let some k ← path.stitch? g | return (g, .noStitch)
  let id := path.states.getD k path.start
  let members := (← (g.require id).mapError .graph).members
  let right ← path.rightSet g k id members
  let left := path.leftSet g opts.leftSet k members right
  if left.isEmpty || right.isEmpty || left.toList.any (· ∈ right) then
    .error (.invalidStitchSets id left.size right.size)
  let (g, l, r) ← (g.splitWithRemainder id left right opts.remainder).mapError .graph
  return (g, .refined id k l r)

end PartitionPath

end ProtocolInference
