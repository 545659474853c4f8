import Arne.Lib.JsonText
import Arne.Message.Types

/-!
# Messages as JSON (`message/mod.rs`)

The derived writers: the fields in their order, and `null` where there is nothing.
-/

namespace Arne.Message

open JsonText

def nullable {α : Type} (toJson : α → Value) : Option α → Value
  | none => .null
  | some a => toJson a

/-- The variant in snake case. -/
def Encoding.name : Encoding → String
  | .avro => "avro"
  | .protobuf => "protobuf"
  | .json => "json"
  | .utf8 => "utf8"
  | .bytes => "bytes"
  | .decodeError => "decode_error"

def DecodedPayload.toJson (p : DecodedPayload) : Value :=
  .object [("encoding", .string p.encoding.name), ("text", .string p.text),
    ("schema_id", nullable .int p.schemaId), ("error", nullable .string p.error)]

def HeaderOut.toJson (h : HeaderOut) : Value :=
  .object [("key", .string h.key), ("value", .string h.value)]

def MessageOut.toJson (m : MessageOut) : Value :=
  .object [("partition", .int m.partition), ("offset", .int m.offset),
    ("timestamp_ms", nullable .int m.timestampMs), ("key", nullable DecodedPayload.toJson m.key),
    ("value", nullable DecodedPayload.toJson m.value),
    ("headers", .array (m.headers.map HeaderOut.toJson))]

theorem nullable_whole {α : Type} {toJson : α → Value} (h : ∀ a, Whole (toJson a))
    (a : Option α) : Whole (nullable toJson a) := by
  cases a with
  | none => exact Whole.null
  | some a => exact h a

theorem DecodedPayload.toJson_whole (p : DecodedPayload) : Whole p.toJson := by
  apply Whole.object
  simp only [List.forall_mem_cons]
  exact ⟨Whole.string _, Whole.string _, nullable_whole Whole.int _, nullable_whole Whole.string _,
    by simp⟩

theorem HeaderOut.toJson_whole (h : HeaderOut) : Whole h.toJson := by
  apply Whole.object
  simp only [List.forall_mem_cons]
  exact ⟨Whole.string _, Whole.string _, by simp⟩

theorem MessageOut.toJson_whole (m : MessageOut) : Whole m.toJson := by
  have hheaders : Whole (.array (m.headers.map HeaderOut.toJson)) := by
    apply Whole.array
    intro v hv
    rcases List.mem_map.mp hv with ⟨h, -, rfl⟩
    exact h.toJson_whole
  apply Whole.object
  simp only [List.forall_mem_cons]
  exact ⟨Whole.int _, Whole.int _, nullable_whole Whole.int _,
    nullable_whole DecodedPayload.toJson_whole _, nullable_whole DecodedPayload.toJson_whole _,
    hheaders, by simp⟩

end Arne.Message
