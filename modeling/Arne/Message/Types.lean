import Mathlib.Algebra.Order.Ring.Int
import Mathlib.Data.List.Basic

/-!
# Messages, records and ranges

The data of `message/mod.rs`, `message/fetch.rs` and `message/range.rs`.  A record
is what a poll delivered; a message is the same record after its key and value
were decoded.  Decoding asks a schema registry, so the two byte decoders are
fields of a `Decoder` rather than functions of this development.
-/

namespace Arne.Message

inductive Encoding where
  | avro
  | protobuf
  | json
  | utf8
  | bytes
  | decodeError
deriving DecidableEq, Repr

structure DecodedPayload where
  encoding : Encoding
  text : String
  schemaId : Option Int
  error : Option String
deriving DecidableEq, Repr

structure HeaderOut where
  key : String
  value : String
deriving DecidableEq, Repr

structure MessageOut where
  partition : Int
  offset : Int
  timestampMs : Option Int
  key : Option DecodedPayload
  value : Option DecodedPayload
  headers : List HeaderOut
deriving DecidableEq, Repr

structure RawRecord where
  partition : Int
  offset : Int
  timestampMs : Option Int
  key : Option (List UInt8)
  value : Option (List UInt8)
  headers : List (String × List UInt8)
deriving DecidableEq, Repr

/-- The two byte decoders a message is built with: `decode_payload` behind the
    cluster's schema registry, and the lossy UTF-8 reading of a header. -/
structure Decoder where
  decodePayload : Option (List UInt8) → Option DecodedPayload
  fromUtf8Lossy : List UInt8 → String

def toOneMessageOut (d : Decoder) (r : RawRecord) : MessageOut where
  partition := r.partition
  offset := r.offset
  timestampMs := r.timestampMs
  key := d.decodePayload r.key
  value := d.decodePayload r.value
  headers := r.headers.map fun h => ⟨h.1, d.fromUtf8Lossy h.2⟩

@[simp] theorem toOneMessageOut_partition (d : Decoder) (r : RawRecord) :
    (toOneMessageOut d r).partition = r.partition := rfl

@[simp] theorem toOneMessageOut_offset (d : Decoder) (r : RawRecord) :
    (toOneMessageOut d r).offset = r.offset := rfl

@[simp] theorem toOneMessageOut_timestampMs (d : Decoder) (r : RawRecord) :
    (toOneMessageOut d r).timestampMs = r.timestampMs := rfl

/-! ### Offset ranges -/

/-- A half-open offset range `[start, end_)` of one partition. -/
structure PartitionRange where
  partition : Int
  start : Int
  end_ : Int
deriving DecidableEq, Repr

/-- `(r.end - r.start) as u64`. -/
def PartitionRange.span (r : PartitionRange) : Nat := (r.end_ - r.start).toNat

def total (ranges : List PartitionRange) : Nat := (ranges.map PartitionRange.span).sum

@[simp] theorem total_nil : total [] = 0 := rfl

@[simp] theorem total_cons (r : PartitionRange) (rs : List PartitionRange) :
    total (r :: rs) = r.span + total rs := by
  simp [total]

/-- What a bounded fetch delivered, and which partitions it scanned to the end of
    their requested range. -/
structure FetchOutcome where
  records : List RawRecord
  complete : List Int
deriving Repr

/-! ### Errors -/

/-- The error envelope of `error.rs`, less the HTTP status no stream carries. -/
structure ApiError where
  code : String
  message : String
  cluster : Option String
  retriable : Bool
deriving DecidableEq, Repr

def ApiError.fetchDeadline (cluster message : String) : ApiError :=
  ⟨"fetch_deadline", message, some cluster, true⟩

def ApiError.badRequest (message : String) : ApiError :=
  ⟨"bad_request", message, none, false⟩

def ApiError.internal (message : String) : ApiError := ⟨"internal", message, none, false⟩

/-- Of a panic nothing is told. -/
def ApiError.taskJoin : ApiError :=
  ApiError.internal "something went wrong completing the request"

/-- A fallible computation that succeeded went through its first step. -/
theorem except_bind_ok {ε α β : Type} {x : Except ε α} {f : α → Except ε β} {b : β}
    (h : x >>= f = .ok b) : ∃ a, x = .ok a ∧ f a = .ok b := by
  cases x with
  | error e => cases h
  | ok a => exact ⟨a, rfl, h⟩

theorem except_map_ok {α β ε : Type} {x : Except ε α} {f : α → β} {b : β} (h : x.map f = .ok b) :
    ∃ a, x = .ok a ∧ f a = b := by
  cases x with
  | error e => cases h
  | ok a =>
    cases h
    exact ⟨a, rfl, rfl⟩

end Arne.Message
