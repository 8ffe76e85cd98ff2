import WriteBehind.Config
import WriteBehind.EntryState
import WriteBehind.Json.Decode

/-!
# Documents of small values and configurations

A configuration is decoded over its defaults: a field that is left out keeps its default, at both
levels. Watermarks have no defaults of their own, so both marks have to be given.
-/

namespace WriteBehind

open Json (Value)

def Json.Value.nat (n : Nat) : Value := .number (.int n)

namespace Sequence

def toJson (s : Sequence) : Value := .nat s.val

def decode? {α : Type} (f : Format α) (part : α) : Option Sequence := (f.nat? part).map (⟨·⟩)

end Sequence

namespace EntryState

def toJson (s : EntryState) : Value := .string s.name

def decode? {α : Type} (f : Format α) (part : α) : Option EntryState := do
  match ← f.shape? part with
  | .text name => ofName? name
  | .table [(name, content)] =>
    match ← f.shape? content with
    | .null => ofName? name
    | _ => none
  | _ => none

end EntryState

namespace Watermarks

def toJson (w : Watermarks) : Value := .object [("high", .nat w.high), ("low", .nat w.low)]

def decode? {α : Type} (f : Format α) (part : α) : Option Watermarks := do
  match ← f.fields? ["high", "low"] part with
  | [some high, some low] => return { high := ← f.nat? high, low := ← f.nat? low }
  | _ => none

end Watermarks

namespace QueueConfig

def toJson (c : QueueConfig) : Value :=
  .object [
    ("worker_count", .nat c.workers),
    ("watermarks", c.watermarks.toJson),
    ("stall", .bool c.stall)]

def decode? {α : Type} (f : Format α) (part : α) : Option QueueConfig := do
  let default : QueueConfig := {}
  match ← f.fields? ["worker_count", "watermarks", "stall"] part with
  | [workers, watermarks, stall] =>
    return {
      workers := ← Format.orDefault default.workers f.nat? workers
      watermarks := ← Format.orDefault default.watermarks (Watermarks.decode? f) watermarks
      stall := ← Format.orDefault default.stall f.bool? stall }
  | _ => none

end QueueConfig

namespace SessionConfig

def toJson (c : SessionConfig) : Value :=
  .object [
    ("name", .string c.name),
    ("foreground_connections", .nat c.foreground),
    ("write_back", c.queue.toJson)]

def decode? {α : Type} (f : Format α) (part : α) : Option SessionConfig := do
  let default : SessionConfig := {}
  match ← f.fields? ["name", "foreground_connections", "write_back"] part with
  | [name, foreground, queue] =>
    return {
      name := ← Format.orDefault default.name f.text? name
      foreground := ← Format.orDefault default.foreground f.nat? foreground
      queue := ← Format.orDefault default.queue (QueueConfig.decode? f) queue }
  | _ => none

end SessionConfig

end WriteBehind
