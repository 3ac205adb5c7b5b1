import ProtocolInference.Json.Record
import ProtocolInference.Options

/-!
The JSON form of options.

Every option may be left out, and then has its standard value. A document
that is written contains them all.
-/

namespace ProtocolInference

open Json

def InitialPartitioning.toJson : InitialPartitioning → Json
  | byIncomingEvent => .string "by_incoming_event"
  | byStateName => .string "by_state_name"

def InitialPartitioning.ofJson? (v : Json) : Option InitialPartitioning :=
  v.oneOf? [("by_incoming_event", .byIncomingEvent), ("by_state_name", .byStateName)]

def LeftSet.toJson : LeftSet → Json
  | complement => .string "complement"
  | predecessor => .string "predecessor"

def LeftSet.ofJson? (v : Json) : Option LeftSet :=
  v.oneOf? [("complement", .complement), ("predecessor", .predecessor)]

def RemainderPolicy.toJson : RemainderPolicy → Json
  | left => .string "left"
  | right => .string "right"
  | seeded seed => .object [("seeded", .natural seed)]

def RemainderPolicy.ofJson? (v : Json) : Option RemainderPolicy := do
  match ← v.alternative? with
  | ("left", content) => bare .left content
  | ("right", content) => bare .right content
  | ("seeded", content) => return .seeded (← required nat? content)
  | _ => none

def InferenceOptions.toJson (opts : InferenceOptions) : Json :=
  .object [
    ("max_iterations", .natural opts.maxIterations),
    ("initial_partitioning", opts.partitioning.toJson),
    ("left_set", opts.leftSet.toJson),
    ("remainder", opts.remainder.toJson),
    ("check_threads", (opts.checkThreads.map Json.natural).getD .null),
    ("system_name", .string opts.systemName),
    ("coarsen_by_name", .bool opts.coarsenByName)]

def InferenceOptions.ofJson? (v : Json) : Option InferenceOptions := do
  let [maxIterations, partitioning, leftSet, remainder, checkThreads, systemName, coarsenByName] ←
    v.record? ["max_iterations", "initial_partitioning", "left_set", "remainder",
      "check_threads", "system_name", "coarsen_by_name"] | none
  let std := InferenceOptions.standard
  return {
    maxIterations := ← withDefault std.maxIterations nat? maxIterations
    partitioning := ← withDefault std.partitioning InitialPartitioning.ofJson? partitioning
    leftSet := ← withDefault std.leftSet LeftSet.ofJson? leftSet
    remainder := ← withDefault std.remainder RemainderPolicy.ofJson? remainder
    checkThreads := ← optional nat? checkThreads
    systemName := ← withDefault std.systemName string? systemName
    coarsenByName := ← withDefault std.coarsenByName bool? coarsenByName }

end ProtocolInference
