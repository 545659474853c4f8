import Arne.Client.CursorText
import Arne.Client.TailPipeline
import Arne.Lib.EventStream
import Arne.Message.MessageJson
import Arne.Timeline.Engine

/-!
# Events over the wire (`timeline/event.rs`, `api/messages.rs`, `api/sse.ts`)

The server names each event and writes its fields as JSON; an `EventSource` reads the stream and
fires the listeners of that name.  A name that the browser uses for failures of its own would
fire the handler for those as well, and none of the names is that one.
-/

namespace Arne.Client

open Arne.Message Arne.Timeline JsonText EventStream

/-! ### What the server writes -/

/-- `TimelineEvent::name`. -/
def timelineEventName : TimelineEvent → String
  | .match _ => "match"
  | .progress _ _ _ => "progress"
  | .pageEnd _ _ => "page_end"
  | .error _ _ _ _ => "app_error"

/-- The fields of the variant, without its name. -/
def timelineEventJson : TimelineEvent → Value
  | .match m => m.toJson
  | .progress scanned matches_ budget =>
      .object [("scanned", .int scanned), ("matches", .int matches_), ("budget", .int budget)]
  | .pageEnd cursor exhausted =>
      .object [("cursor", nullable (fun c : Cursor => .string c.encode) cursor),
        ("exhausted", .bool exhausted)]
  | .error code message cluster retriable =>
      .object [("code", .string code), ("message", .string message),
        ("cluster", nullable .string cluster), ("retriable", .bool retriable)]

/-- `Event::default().event(name).data(json)`. -/
def sseEvent (name : String) (json : Value) : EventStream.Event := ⟨name.toList, write json⟩

def timelineSse (e : TimelineEvent) : EventStream.Event :=
  sseEvent (timelineEventName e) (timelineEventJson e)

def APP_ERROR_EVENT : String := "app_error"

/-- A call of one of the two handlers that `openSse` is given. -/
inductive SseCall where
  | onEvent (name : String) (data : Value)
  | onTransportError

/-- An event fires the listener of its name, and `onerror` if it is an `error`.  A listener that
    cannot parse the data throws. -/
def openSse (eventNames : List String) (e : EventStream.Event) : List SseCall :=
  ((eventNames.filter fun name => name == String.ofList e.name).filterMap fun name =>
      (read .chars e.data).map (SseCall.onEvent name)) ++
    if String.ofList e.name = "error" then [.onTransportError] else []

def stringOf : Value → Option String
  | .string s => some s
  | _ => none

def booleanOf : Value → Option Bool
  | .bool b => some b
  | _ => none

/-- A member that may be `null`. -/
def nullableOf {α : Type} (ofJson : Value → Option α) : Value → Option (Option α)
  | .null => some none
  | v => (ofJson v).map some

/-- A member that may be missing. -/
def optionalOf {α : Type} (ofJson : Value → Option (Option α)) : Option Value → Option (Option α)
  | none => some none
  | some v => ofJson v

def encodingOf (v : Value) : Option Encoding := do
  let name ← stringOf v
  [Encoding.avro, .protobuf, .json, .utf8, .bytes, .decodeError].find? fun e => e.name == name

def decodedPayloadOf (v : Value) : Option DecodedPayload := do
  let encoding ← (ownMember "encoding" v).bind encodingOf
  let text ← (ownMember "text" v).bind stringOf
  let schemaId ← (ownMember "schema_id" v).bind (nullableOf numberOf)
  let error ← (ownMember "error" v).bind (nullableOf stringOf)
  return ⟨encoding, text, schemaId, error⟩

def headerOf (v : Value) : Option HeaderOut := do
  let key ← (ownMember "key" v).bind stringOf
  let value ← (ownMember "value" v).bind stringOf
  return ⟨key, value⟩

def headersOf : Value → Option (List HeaderOut)
  | .array items => items.mapM headerOf
  | _ => none

/-- `data as MessageOut`, of data that is one. -/
def messageOf (v : Value) : Option MessageOut := do
  let partition ← (ownMember "partition" v).bind numberOf
  let offset ← (ownMember "offset" v).bind numberOf
  let timestampMs ← (ownMember "timestamp_ms" v).bind (nullableOf numberOf)
  let key ← (ownMember "key" v).bind (nullableOf decodedPayloadOf)
  let value ← (ownMember "value" v).bind (nullableOf decodedPayloadOf)
  let headers ← (ownMember "headers" v).bind headersOf
  return ⟨partition, offset, timestampMs, key, value, headers⟩

def countOf (v : Value) : Option Nat := (numberOf v).map Int.toNat

def progressOf (v : Value) : Option TimelineProgress := do
  let scanned ← (ownMember "scanned" v).bind countOf
  let matches_ ← (ownMember "matches" v).bind countOf
  let budget ← (ownMember "budget" v).bind countOf
  return ⟨scanned, matches_, budget⟩

def pageEndOf (v : Value) : Option (Option String × Bool) := do
  let cursor ← (ownMember "cursor" v).bind (nullableOf stringOf)
  let exhausted ← (ownMember "exhausted" v).bind booleanOf
  return (cursor, exhausted)

def sseErrorDataOf (v : Value) : Option SseErrorData := do
  let code ← (ownMember "code" v).bind stringOf
  let message ← (ownMember "message" v).bind stringOf
  let cluster ← optionalOf (nullableOf stringOf) (ownMember "cluster" v)
  let retriable ← optionalOf (fun v => (booleanOf v).map some) (ownMember "retriable" v)
  return ⟨code, message, cluster, retriable⟩

/-- The handlers of `timelinePage`. -/
def timelinePageCall : SseCall → Option StreamEvent
  | .onTransportError => some .onTransportError
  | .onEvent name data =>
      if name = "match" then (messageOf data).map .onMatch
      else if name = "progress" then (progressOf data).map .onProgress
      else if name = "page_end" then (pageEndOf data).map fun d => .onPageEnd d.1 d.2
      else (sseErrorDataOf data).map .onError

/-- The calls that `timelinePage` has made when the given pieces of its stream have arrived. -/
def timelinePage (pieces : List (List Char)) : List StreamEvent :=
  ((Parser.start.receive pieces).2.flatMap
    (openSse ["match", "progress", "page_end", APP_ERROR_EVENT])).filterMap timelinePageCall

def roundPayload (p : DecodedPayload) : DecodedPayload :=
  { p with schemaId := p.schemaId.map JsNumber.round }

/-- The message as the client has it. -/
def roundMessage (m : MessageOut) : MessageOut where
  partition := JsNumber.round m.partition
  offset := JsNumber.round m.offset
  timestampMs := m.timestampMs.map JsNumber.round
  key := m.key.map roundPayload
  value := m.value.map roundPayload
  headers := m.headers

def tellsTimeline : TimelineEvent → StreamEvent
  | .match m => .onMatch (roundMessage m)
  | .progress scanned matches_ budget =>
      .onProgress ⟨JsNumber.roundNat scanned, JsNumber.roundNat matches_, JsNumber.roundNat budget⟩
  | .pageEnd cursor exhausted => .onPageEnd (cursor.map Cursor.encode) exhausted
  | .error code message cluster retriable => .onError ⟨code, message, cluster, some retriable⟩

theorem nullableOf_nullable {α β : Type} (toJson : α → Value) (ofJson : Value → Option β)
    (f : α → β) (h : ∀ a, ofJson (toJson a) = some (f a)) (hnull : ∀ a, toJson a ≠ .null)
    (a : Option α) : nullableOf ofJson (nullable toJson a) = some (a.map f) := by
  rcases a with _ | a
  · rfl
  · simp only [nullable, Option.map_some]
    unfold nullableOf
    split
    · rename_i heq
      exact absurd heq (hnull a)
    · rw [h a, Option.map_some]

theorem nullableOf_number (n : Option Int) :
    nullableOf numberOf (nullable Value.int n) = some (n.map JsNumber.round) := by
  apply nullableOf_nullable Value.int numberOf JsNumber.round (fun _ => rfl)
  intro n h
  cases h

theorem nullableOf_string (s : Option String) :
    nullableOf stringOf (nullable Value.string s) = some s := by
  have hstring := nullableOf_nullable Value.string stringOf id (fun _ => rfl)
    (fun _ h => by cases h) s
  rw [hstring, Option.map_id]
  rfl

theorem encodingOf_name (e : Encoding) : encodingOf (.string e.name) = some e := by
  cases e <;> decide

theorem decodedPayloadOf_toJson (p : DecodedPayload) :
    decodedPayloadOf p.toJson = some (roundPayload p) := by
  simp [decodedPayloadOf, DecodedPayload.toJson, ownMember, encodingOf_name, nullableOf_number,
    nullableOf_string, stringOf, roundPayload]

theorem headersOf_toJson (headers : List HeaderOut) :
    headersOf (.array (headers.map HeaderOut.toJson)) = some headers := by
  rw [headersOf]
  induction headers with
  | nil => rfl
  | cons h headers ih =>
    rw [List.map_cons, List.mapM_cons, ih]
    rfl

theorem messageOf_toJson (m : MessageOut) : messageOf m.toJson = some (roundMessage m) := by
  have hpayload := nullableOf_nullable DecodedPayload.toJson decodedPayloadOf roundPayload
    decodedPayloadOf_toJson (fun _ h => by cases h)
  simp [messageOf, MessageOut.toJson, ownMember, numberOf, nullableOf_number, hpayload,
    headersOf_toJson, roundMessage]

theorem pageEndOf_toJson (cursor : Option Cursor) (exhausted : Bool) :
    pageEndOf (timelineEventJson (.pageEnd cursor exhausted)) =
      some (cursor.map Cursor.encode, exhausted) := by
  have hcursor := nullableOf_nullable (fun c : Cursor => Value.string c.encode) stringOf
    Cursor.encode (fun _ => rfl) (fun _ h => by cases h) cursor
  simp [pageEndOf, timelineEventJson, ownMember, hcursor, booleanOf]

theorem sseErrorDataOf_toJson (code message : String) (cluster : Option String)
    (retriable : Bool) :
    sseErrorDataOf (timelineEventJson (.error code message cluster retriable)) =
      some ⟨code, message, cluster, some retriable⟩ := by
  simp [sseErrorDataOf, timelineEventJson, ownMember, optionalOf, nullableOf_string, stringOf,
    booleanOf]

theorem timelineEventJson_whole (e : TimelineEvent) : Whole (timelineEventJson e) := by
  cases e with
  | «match» m => exact m.toJson_whole
  | progress scanned matches_ budget =>
    apply Whole.object
    simp only [List.forall_mem_cons]
    exact ⟨Whole.int _, Whole.int _, Whole.int _, by simp⟩
  | pageEnd cursor exhausted =>
    apply Whole.object
    simp only [List.forall_mem_cons]
    exact ⟨nullable_whole (fun _ => Whole.string _) cursor, Whole.bool _, by simp⟩
  | error code message cluster retriable =>
    apply Whole.object
    simp only [List.forall_mem_cons]
    exact ⟨Whole.string _, Whole.string _, nullable_whole Whole.string cluster, Whole.bool _,
      by simp⟩

/-- JSON stays on its line. -/
theorem sseEvent_sendable {name : String} (hname : OneLine name.toList ∧ name.toList ≠ [])
    {json : Value} (h : Whole json) : (sseEvent name json).Sendable := by
  have hprinted := write_printed h
  refine ⟨hname, fun hfeed => ?_, fun hreturn => ?_⟩
  · exact absurd (hprinted _ hfeed) (by decide)
  · exact absurd (hprinted _ hreturn) (by decide)

theorem timelineSse_sendable (e : TimelineEvent) : (timelineSse e).Sendable := by
  apply sseEvent_sendable _ (timelineEventJson_whole e)
  cases e <;> simp [timelineEventName, OneLine]

/-- One listener hears an event, unless its name is the browser's own. -/
theorem openSse_sseEvent {eventNames : List String} {name : String}
    (honce : (eventNames.filter fun n => n == name) = [name]) (herror : name ≠ "error")
    {json : Value} (h : Whole json) :
    openSse eventNames (sseEvent name json) = [.onEvent name json] := by
  simp [openSse, sseEvent, String.ofList_toList, honce, read_write h, herror]

theorem timelinePageCall_told (e : TimelineEvent) :
    (openSse ["match", "progress", "page_end", APP_ERROR_EVENT] (timelineSse e)).filterMap
      timelinePageCall = [tellsTimeline e] := by
  have hwhole := timelineEventJson_whole e
  cases e with
  | «match» m =>
    rw [timelineSse, timelineEventName, openSse_sseEvent (by decide) (by decide) hwhole]
    simp [timelinePageCall, timelineEventJson, messageOf_toJson, tellsTimeline]
  | progress scanned matches_ budget =>
    rw [timelineSse, timelineEventName, openSse_sseEvent (by decide) (by decide) hwhole]
    rfl
  | pageEnd cursor exhausted =>
    rw [timelineSse, timelineEventName, openSse_sseEvent (by decide) (by decide) hwhole]
    simp [timelinePageCall, pageEndOf_toJson, tellsTimeline]
  | error code message cluster retriable =>
    rw [timelineSse, timelineEventName, openSse_sseEvent (by decide) (by decide) hwhole]
    simp [timelinePageCall, sseErrorDataOf_toJson, tellsTimeline]

section

variable {α κ : Type} {sse : α → EventStream.Event} {eventNames : List String}
  {call : SseCall → Option κ} {tells : α → κ}

/-- What calls tell of a stream's events when part of its text has arrived: the first events, each
    when the text up to its end is there and no sooner, and all of them at the end. -/
structure Told (sse : α → EventStream.Event) (tells : α → κ) (events : List α)
    (text arrived : List Char) (calls : List κ) : Prop where
  first : calls <+: events.map tells
  each : ∀ n < events.length, ∃ front, front <+: text ∧
    EndsWhole ((events.take (n + 1)).map sse) front ∧ (n < calls.length ↔ front <+: arrived)
  all : arrived = text → calls = events.map tells

/-- One call for each event. -/
theorem calls_of_events (htold : ∀ e, (openSse eventNames (sse e)).filterMap call = [tells e])
    (events : List α) :
    ((events.map sse).flatMap (openSse eventNames)).filterMap call = events.map tells := by
  induction events with
  | nil => rfl
  | cons e events ih =>
    rw [List.map_cons, List.flatMap_cons, List.filterMap_append, htold, ih]
    rfl

theorem calls_told (hsendable : ∀ e, (sse e).Sendable)
    (htold : ∀ e, (openSse eventNames (sse e)).filterMap call = [tells e]) {events : List α}
    {text : List Char} (htext : StreamText (events.map sse) text) {pieces : List (List Char)}
    (hpieces : pieces.flatten <+: text) :
    Told sse tells events text pieces.flatten
      (((Parser.start.receive pieces).2.flatMap (openSse eventNames)).filterMap call) := by
  have hevents : ∀ e ∈ events.map sse, e.Sendable := by
    intro e he
    rcases List.mem_map.mp he with ⟨a, -, rfl⟩
    exact hsendable a
  rcases receive_streamText htext hevents hpieces with ⟨hfirst, hall, heach⟩
  -- what was seen are the first events, and each of them is told by one call
  have hcount : (Parser.start.receive pieces).2.length ≤ events.length := by
    have hle := hfirst.length_le
    rwa [List.length_map] at hle
  rw [List.prefix_iff_eq_take, ← List.map_take] at hfirst
  generalize (Parser.start.receive pieces).2.length = count at hfirst hcount heach
  rw [hfirst] at hall ⊢
  rw [calls_of_events htold]
  constructor
  · exact (List.take_prefix count events).map tells
  · intro n hn
    rw [List.length_map] at heach
    rcases heach n hn with ⟨front, hfront, hends, hiff⟩
    refine ⟨front, hfront, List.map_take ▸ hends, ?_⟩
    rwa [List.length_map, List.length_take, Nat.min_eq_left hcount]
  · intro hwhole
    rw [← calls_of_events htold, hall hwhole, calls_of_events htold]

end

end Arne.Client
