/-!
Channels between processes.

A system consists of processes, numbered from zero, that exchange
messages over unidirectional first-in-first-out channels. A channel is
known by its index; the name is decoration, used where a channel is
printed. All the same the name takes part in equality: two channels are
equal only if every field agrees, so an event on a named channel is not
the event on the unnamed channel with the same index.
-/

namespace ProtocolInference

/-- The number of a process. -/
abbrev ProcessId := Nat

/-- A unidirectional channel from process `src` to process `dst`. -/
structure Channel where
  src : ProcessId
  dst : ProcessId
  index : Nat
  name : Option String
  deriving DecidableEq, Inhabited

namespace Channel

/-- The printed form, `name[src->dst]`, in which a channel without a name
goes by its index. -/
def text (c : Channel) : String :=
  c.name.getD s!"c{c.index}" ++ s!"[{c.src}->{c.dst}]"

/-- Channels are ordered by their fields; no name comes before any name. -/
instance : Ord Channel where
  compare a b :=
    ((compare a.src b.src).then (compare a.dst b.dst)).then
      ((compare a.index b.index).then (compare a.name b.name))

/-- One unnamed channel for every ordered pair of distinct processes,
numbered in the order of the pairs. -/
def allToAll (n : Nat) : List Channel :=
  let pairs := (List.range n).flatMap fun src =>
    ((List.range n).filter (src ≠ ·)).map fun dst => (src, dst)
  pairs.mapIdx fun index (src, dst) => ⟨src, dst, index, none⟩

end Channel

end ProtocolInference
