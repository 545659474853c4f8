import Arne.Lib.Base64
import Arne.Lib.Bytes
import Arne.Message.MessageIndexes

/-!
# Decoding a payload (`message/decode.rs`)

A payload is shown as text: a body that the schema registry knows how to read, the bytes
themselves where they are text, or their base64.  A body in a schema's own format is read by a
codec and says no more than the codec does; every other text gives the bytes back.
-/

namespace Arne.Message

open Bytes

inductive SchemaType where
  | avro
  | protobuf
  | json
deriving DecidableEq, Repr

/-- A parsed schema: what `avro::decode_with_schema` makes of a body, or a descriptor. -/
inductive ParsedSchema where
  | avro (decodeWithSchema : List UInt8 → Except String String)
  | protobuf (fd : FileDescriptor)

/-- What the registry answers while a payload is decoded: the type of a schema, from its cache
    or over the network, and the parsed schema. -/
structure SchemaRegistry where
  schema : Int → Except String SchemaType
  parsed : Int → Except String ParsedSchema

def confluentSchemaId (bytes : List UInt8) : Option Int :=
  if 5 ≤ bytes.length ∧ bytes[0]? = some 0 then some (signed 4 (ofBE ((bytes.drop 1).take 4)))
  else none

section

/- `base64::STANDARD.encode`, and whether `serde_json` reads a text. -/
variable (base64 : List UInt8 → String) (isJson : String → Bool)

def decodePlain (bytes : List UInt8) : DecodedPayload :=
  match fromUtf8 bytes with
  | some text =>
    if isJson text then ⟨.json, text, none, none⟩
    else ⟨.utf8, text, none, none⟩
  | none => ⟨.bytes, base64 bytes, none, none⟩

def decodeError (bytes : List UInt8) (schemaId : Option Int) (error : String) : DecodedPayload :=
  ⟨.decodeError, base64 bytes, schemaId, some error⟩

/-- The body behind a header, by the type of its schema. -/
def decodeBody (sr : SchemaRegistry) (schemaId : Int) (schemaType : SchemaType)
    (body : List UInt8) : Except String (Encoding × String) :=
  match schemaType with
  | .avro | .protobuf =>
    match sr.parsed schemaId with
    | .error e => .error e
    | .ok (.avro decodeWithSchema) => (decodeWithSchema body).map fun text => (.avro, text)
    | .ok (.protobuf fd) => (decodeWithDescriptor fd body).map fun text => (.protobuf, text)
  | .json =>
    let plain := decodePlain base64 isJson body
    if plain.encoding = .json then
      .ok (.json, plain.text)
    else
      .error (s!"schema registry declares schema id {schemaId} as JSON " ++
        "but the payload body is not valid JSON")

def decodePayload (bytes : Option (List UInt8)) (sr : Option SchemaRegistry) :
    Option DecodedPayload := do
  let bytes ← bytes
  match confluentSchemaId bytes with
  | none => return decodePlain base64 isJson bytes
  | some schemaId =>
    match sr with
    | none =>
      return decodeError base64 bytes (some schemaId)
        (s!"message carries schema id {schemaId} " ++
          "but no schema registry is configured for this cluster")
    | some sr =>
      match sr.schema schemaId with
      | .error e => return decodeError base64 bytes (some schemaId) e
      | .ok schemaType =>
        match decodeBody base64 isJson sr schemaId schemaType (bytes.drop 5) with
        | .ok (encoding, text) => return ⟨encoding, text, some schemaId, none⟩
        | .error e => return decodeError base64 bytes (some schemaId) e

/-- The byte decoders of a cluster: with its registry, if it has one. -/
def clusterDecoder (sr : Option SchemaRegistry) (fromUtf8Lossy : List UInt8 → String) :
    Decoder where
  decodePayload := fun bytes => decodePayload base64 isJson bytes sr
  fromUtf8Lossy := fromUtf8Lossy

/-! ### What a payload is shown as -/

/-- The ways in which `raw` is shown. -/
inductive ShownAs (raw : List UInt8) : DecodedPayload → Prop where
  | plainText {encoding : Encoding} {text : String} (hheader : confluentSchemaId raw = none)
      (hutf8 : fromUtf8 raw = some text) (hencoding : encoding = .json ∨ encoding = .utf8) :
      ShownAs raw ⟨encoding, text, none, none⟩
  | plainBytes (hheader : confluentSchemaId raw = none) :
      ShownAs raw ⟨.bytes, base64 raw, none, none⟩
  | failed {id : Int} (e : String) (hheader : confluentSchemaId raw = some id) :
      ShownAs raw (decodeError base64 raw (some id) e)
  | jsonBody {id : Int} {text : String} (hheader : confluentSchemaId raw = some id)
      (hutf8 : fromUtf8 (raw.drop 5) = some text) : ShownAs raw ⟨.json, text, some id, none⟩
  | schemaBody {id : Int} {encoding : Encoding} (text : String)
      (hheader : confluentSchemaId raw = some id)
      (hencoding : encoding = .avro ∨ encoding = .protobuf) :
      ShownAs raw ⟨encoding, text, some id, none⟩

variable {base64 isJson}

theorem decodePlain_shownAs {raw : List UInt8} (h : confluentSchemaId raw = none) :
    ShownAs base64 raw (decodePlain base64 isJson raw) := by
  unfold decodePlain
  split
  · rename_i text hutf8
    split
    · exact .plainText h hutf8 (Or.inl rfl)
    · exact .plainText h hutf8 (Or.inr rfl)
  · exact .plainBytes h

/-- Only a body that is text is taken for JSON. -/
theorem decodePlain_json {bytes : List UInt8}
    (h : (decodePlain base64 isJson bytes).encoding = .json) :
    fromUtf8 bytes = some (decodePlain base64 isJson bytes).text := by
  unfold decodePlain at h ⊢
  split
  · rename_i text hutf8
    rw [hutf8]
    split <;> rfl
  · rename_i hutf8
    rw [hutf8] at h
    cases h

/-- A codec's text stands under the codec's own encoding; a JSON body stands as it is. -/
theorem decodeBody_ok {sr : SchemaRegistry} {id : Int} {schemaType : SchemaType}
    {body : List UInt8} {encoding : Encoding} {text : String}
    (h : decodeBody base64 isJson sr id schemaType body = .ok (encoding, text)) :
    (encoding = .avro ∨ encoding = .protobuf) ∨
      encoding = .json ∧ fromUtf8 body = some text := by
  have hcodec {parsed : Except String ParsedSchema}
      (h : (match parsed with
        | .error e => .error e
        | .ok (.avro decodeWithSchema) => (decodeWithSchema body).map fun text => (.avro, text)
        | .ok (.protobuf fd) => (decodeWithDescriptor fd body).map fun text => (.protobuf, text)) =
          Except.ok (encoding, text)) : encoding = .avro ∨ encoding = .protobuf := by
    split at h
    · cases h
    · obtain ⟨_, -, heq⟩ := except_map_ok h
      cases heq
      exact Or.inl rfl
    · obtain ⟨_, -, heq⟩ := except_map_ok h
      cases heq
      exact Or.inr rfl
  cases schemaType with
  | avro => exact Or.inl (hcodec h)
  | protobuf => exact Or.inl (hcodec h)
  | json =>
    unfold decodeBody at h
    dsimp only at h
    split at h
    · rename_i hjson
      cases h
      exact Or.inr ⟨rfl, decodePlain_json hjson⟩
    · cases h

theorem decodePayload_shownAs {raw : List UInt8} {sr : Option SchemaRegistry}
    {p : DecodedPayload} (h : decodePayload base64 isJson (some raw) sr = some p) :
    ShownAs base64 raw p := by
  change (match confluentSchemaId raw with | none => _ | some schemaId => _) = some p at h
  split at h
  · rename_i hheader
    cases h
    exact decodePlain_shownAs hheader
  · rename_i id hheader
    split at h
    · cases h
      exact .failed _ hheader
    · rename_i sr
      split at h
      · cases h
        exact .failed _ hheader
      · split at h
        · rename_i encoding text hbody
          cases h
          rcases decodeBody_ok hbody with hcodec | ⟨rfl, hutf8⟩
          · exact .schemaBody text hheader hcodec
          · exact .jsonBody hheader hutf8
        · cases h
          exact .failed _ hheader

theorem decodePayload_isSome (raw : List UInt8) (sr : Option SchemaRegistry) :
    (decodePayload base64 isJson (some raw) sr).isSome := by
  change (match confluentSchemaId raw with | none => _ | some schemaId => _ : Option _).isSome
  repeat' split
  all_goals rfl

theorem decodePayload_eq_none_iff (bytes : Option (List UInt8)) (sr : Option SchemaRegistry) :
    decodePayload base64 isJson bytes sr = none ↔ bytes = none := by
  cases bytes with
  | none => exact ⟨fun _ => rfl, fun _ => rfl⟩
  | some raw =>
    have hsome : (decodePayload base64 isJson (some raw) sr).isSome := decodePayload_isSome raw sr
    constructor
    · intro h
      rw [h] at hsome
      cases hsome
    · intro h
      cases h

theorem decodePayload_orphan {raw : List UInt8} {id : Int}
    (hheader : confluentSchemaId raw = some id) :
    decodePayload base64 isJson (some raw) none =
      some (decodeError base64 raw (some id)
        (s!"message carries schema id {id} " ++
          "but no schema registry is configured for this cluster")) := by
  change (match confluentSchemaId raw with | none => _ | some schemaId => _) = _
  rw [hheader]
  rfl

/-- The 5-byte header of the registry's format: a zero byte, and the id in four bytes. -/
def HasHeader (raw : List UInt8) (id : Int) : Prop :=
  ∃ idBytes body, raw = 0 :: (idBytes ++ body) ∧ idBytes.length = 4 ∧ signed 4 (ofBE idBytes) = id

theorem confluentSchemaId_eq_some_iff {raw : List UInt8} {id : Int} :
    confluentSchemaId raw = some id ↔ HasHeader raw id := by
  unfold confluentSchemaId
  constructor
  · intro h
    split at h
    · rename_i hheader
      obtain ⟨hlength, hmagic⟩ := hheader
      cases raw with
      | nil => cases hmagic
      | cons b rest =>
        cases hmagic
        cases h
        refine ⟨rest.take 4, rest.drop 4, by rw [List.take_append_drop], ?_, rfl⟩
        rw [List.length_cons] at hlength
        rw [List.length_take]
        omega
    · cases h
  · rintro ⟨idBytes, body, rfl, hlength, rfl⟩
    have hlong : 5 ≤ (0 :: (idBytes ++ body)).length := by
      rw [List.length_cons, List.length_append]
      omega
    rw [if_pos ⟨hlong, rfl⟩, List.drop_succ_cons, List.drop_zero, ← hlength, List.take_left]

/-- The bytes of a header. -/
def header (id : Int) : List UInt8 := 0 :: toBE 4 (id % (256 ^ 4 : Nat)).toNat

/-- What a payload with a header consists of. -/
theorem eq_header_append {raw : List UInt8} {id : Int} (h : confluentSchemaId raw = some id) :
    raw = header id ++ raw.drop 5 := by
  obtain ⟨idBytes, body, rfl, hlength, rfl⟩ := confluentSchemaId_eq_some_iff.mp h
  have hlt := ofBE_lt idBytes
  rw [hlength] at hlt
  have hid := signed_emod hlt
  have hbody : (0 :: (idBytes ++ body)).drop 5 = body := by
    rw [List.drop_succ_cons, ← hlength, List.drop_left]
  rw [hbody, header, hid, Int.toNat_natCast, ← hlength, toBE_ofBE, List.cons_append]

/-- The bytes of a payload, from how it is shown: base64 and text are read back, and a JSON
    text stands behind its header, if it came with one. -/
def originalBytes (unbase64 : String → List UInt8) :
    Encoding → Option Int → String → List UInt8
  | .json, some id, text => header id ++ text.toUTF8.data.toList
  | .json, none, text | .utf8, _, text => text.toUTF8.data.toList
  | _, _, text => unbase64 text

/-- The encodings under which a payload keeps all its bytes. -/
def Encoding.KeepsBytes (e : Encoding) : Prop := e ≠ .avro ∧ e ≠ .protobuf

theorem ShownAs.error_iff {raw : List UInt8} {p : DecodedPayload} (h : ShownAs base64 raw p) :
    p.error.isSome ↔ p.encoding = .decodeError := by
  cases h with
  | plainText hheader hutf8 hencoding => rcases hencoding with rfl | rfl <;> simp
  | plainBytes hheader => simp
  | failed e hheader => simp [decodeError]
  | jsonBody hheader hutf8 => simp
  | schemaBody text hheader hencoding => rcases hencoding with rfl | rfl <;> simp

theorem ShownAs.schemaId_eq {raw : List UInt8} {p : DecodedPayload} (h : ShownAs base64 raw p) :
    p.schemaId = confluentSchemaId raw := by
  cases h with
  | plainText hheader hutf8 hencoding => exact hheader.symm
  | plainBytes hheader => exact hheader.symm
  | failed e hheader => exact hheader.symm
  | jsonBody hheader hutf8 => exact hheader.symm
  | schemaBody text hheader hencoding => exact hheader.symm

/-- Each way to show a payload that keeps its bytes is read back. -/
theorem ShownAs.originalBytes_eq {unbase64 : String → List UInt8}
    (hbase64 : ∀ bytes, unbase64 (base64 bytes) = bytes) {raw : List UInt8} {p : DecodedPayload}
    (h : ShownAs base64 raw p) (hkeeps : p.encoding.KeepsBytes) :
    originalBytes unbase64 p.encoding p.schemaId p.text = raw := by
  cases h with
  | plainText hheader hutf8 hencoding =>
    rcases hencoding with rfl | rfl
    · exact toUTF8_of_fromUtf8 hutf8
    · exact toUTF8_of_fromUtf8 hutf8
  | plainBytes hheader => exact hbase64 raw
  | failed e hheader => exact hbase64 raw
  | jsonBody hheader hutf8 =>
    rw [originalBytes, toUTF8_of_fromUtf8 hutf8]
    exact (eq_header_append hheader).symm
  | schemaBody text hheader hencoding =>
    rcases hencoding with rfl | rfl
    · exact absurd rfl hkeeps.1
    · exact absurd rfl hkeeps.2

/-- **Decoding a payload loses nothing.**  An absent payload and only that one is shown as
    absent, an error and only that one says so, the schema id is the header's, and outside the
    schemas' own formats what is shown gives the bytes back, whatever the registry answered. -/
theorem decode_payload_lossless {unbase64 : String → List UInt8}
    (hbase64 : ∀ bytes, unbase64 (base64 bytes) = bytes) :
    (∀ bytes sr, decodePayload base64 isJson bytes sr = none ↔ bytes = none) ∧
    (∀ raw sr p, decodePayload base64 isJson (some raw) sr = some p →
      (p.error.isSome ↔ p.encoding = .decodeError) ∧
      (∀ id, p.schemaId = some id ↔ HasHeader raw id) ∧
      (p.encoding.KeepsBytes → originalBytes unbase64 p.encoding p.schemaId p.text = raw)) ∧
    ∀ raw raw' sr sr' p p', decodePayload base64 isJson (some raw) sr = some p →
      decodePayload base64 isJson (some raw') sr' = some p' →
      p.encoding.KeepsBytes → p.encoding = p'.encoding → p.schemaId = p'.schemaId →
      p.text = p'.text → raw = raw' := by
  refine ⟨decodePayload_eq_none_iff, fun raw sr p h => ?_, ?_⟩
  · have hshown := decodePayload_shownAs h
    refine ⟨hshown.error_iff, fun id => ?_, hshown.originalBytes_eq hbase64⟩
    rw [hshown.schemaId_eq, confluentSchemaId_eq_some_iff]
  · intro raw raw' sr sr' p p' h h' hkeeps hencoding hid htext
    rw [← (decodePayload_shownAs h).originalBytes_eq hbase64 hkeeps,
      ← (decodePayload_shownAs h').originalBytes_eq hbase64 (hencoding ▸ hkeeps),
      hencoding, hid, htext]

/-- A payload with a header, where no registry is configured. -/
theorem orphan_payload_lossless :
    originalBytes (fun text => Base64.decode text.toList) .decodeError (some 7) "AAAAAAcBAgM=" =
      [0, 0, 0, 0, 7, 1, 2, 3] := by
  have hlossless := @decode_payload_lossless (fun bytes => String.ofList (Base64.encode bytes))
    (fun _ => false) (fun text => Base64.decode text.toList)
    (fun bytes => by rw [String.toList_ofList, Base64.decode_encode])
  have htext : String.ofList (Base64.encode [0, 0, 0, 0, 7, 1, 2, 3]) = "AAAAAAcBAgM=" := by decide
  have hid : confluentSchemaId [0, 0, 0, 0, 7, 1, 2, 3] = some 7 := by decide
  have hshown := hlossless.2.1 [0, 0, 0, 0, 7, 1, 2, 3] none
    (decodeError _ [0, 0, 0, 0, 7, 1, 2, 3] (some 7) _) (decodePayload_orphan hid)
  rw [← htext]
  exact hshown.2.2 ⟨nofun, nofun⟩

/-- A record without a value is shown without one, and no other record is. -/
theorem clusterDecoder_value_eq_none_iff (sr : Option SchemaRegistry)
    (fromUtf8Lossy : List UInt8 → String) (r : RawRecord) :
    (toOneMessageOut (clusterDecoder base64 isJson sr fromUtf8Lossy) r).value = none ↔
      r.value = none :=
  decodePayload_eq_none_iff r.value sr

end

end Arne.Message
