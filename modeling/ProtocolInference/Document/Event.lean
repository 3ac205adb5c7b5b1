import ProtocolInference.Json.Record
import ProtocolInference.Trace.Log

/-!
The JSON form of channels and events.

A channel without a name is written without the field. An event says in
its field `type` what it is. Events occur in two forms, with the channel
itself and with its index; the two differ in nothing else.
-/

namespace ProtocolInference

open Json

def Channel.toJson (c : Channel) : Json :=
  .object <|
    [("src", .natural c.src), ("dst", .natural c.dst), ("index", .natural c.index)] ++
      (c.name.map fun name => ("name", Json.string name)).toList

def Channel.ofJson? (v : Json) : Option Channel := do
  let [src, dst, index, name] ← v.record? ["src", "dst", "index", "name"] | none
  return {
    src := ← required nat? src
    dst := ← required nat? dst
    index := ← required nat? index
    name := ← optional string? name }

def Event.toJson : Event → Json
  | internal pid name =>
    .object [("type", .string "local"), ("pid", .natural pid), ("name", .string name)]
  | send channel payload =>
    .object [("type", .string "send"), ("channel", channel.toJson), ("payload", .string payload)]
  | receive channel payload =>
    .object [("type", .string "recv"), ("channel", channel.toJson), ("payload", .string payload)]

def Event.ofJson? (v : Json) : Option Event := do
  match ← v.tagged? with
  | ("local", v) =>
    let [pid, name] ← v.record? ["pid", "name"] | none
    return .internal (← required nat? pid) (← required string? name)
  | ("send", v) =>
    let [channel, payload] ← v.record? ["channel", "payload"] | none
    return .send (← required Channel.ofJson? channel) (← required string? payload)
  | ("recv", v) =>
    let [channel, payload] ← v.record? ["channel", "payload"] | none
    return .receive (← required Channel.ofJson? channel) (← required string? payload)
  | _ => none

def EventSpec.toJson : EventSpec → Json
  | internal pid name =>
    .object [("type", .string "local"), ("pid", .natural pid), ("name", .string name)]
  | send channel payload =>
    .object [("type", .string "send"), ("channel", .natural channel), ("payload", .string payload)]
  | receive channel payload =>
    .object [("type", .string "recv"), ("channel", .natural channel), ("payload", .string payload)]

def EventSpec.ofJson? (v : Json) : Option EventSpec := do
  match ← v.tagged? with
  | ("local", v) =>
    let [pid, name] ← v.record? ["pid", "name"] | none
    return .internal (← required nat? pid) (← required string? name)
  | ("send", v) =>
    let [channel, payload] ← v.record? ["channel", "payload"] | none
    return .send (← required nat? channel) (← required string? payload)
  | ("recv", v) =>
    let [channel, payload] ← v.record? ["channel", "payload"] | none
    return .receive (← required nat? channel) (← required string? payload)
  | _ => none

end ProtocolInference
