import Arne.Client.StoreSpec
import Arne.Lib.JsNumber
import Arne.Timeline.CursorText

/-!
# The text of a cursor on the client (`lib/timelineCursor.ts`)

The client mints cursors of its own and takes those of the server apart.  Its numbers are
doubles, so an offset past the exact ones is read as the double next to it, and written with
the fewest digits that show this double.
-/

namespace Arne.Client

open Arne.Timeline Bytes JsonText

/-- The own member of a parsed object: of members with one name the last one counts. -/
def ownMember (name : String) : Value → Option Value
  | .object members => (members.reverse.find? fun e => e.1 == name).map Prod.snd
  | _ => none

/-- An integer of a parsed text, as a double. -/
def numberOf : Value → Option Int
  | .int n => some (JsNumber.round n)
  | _ => none

section

/- What a `TextDecoder` makes of bytes that are no UTF-8. -/
variable (lossy : List UInt8 → List Char)

/-- `new TextDecoder().decode(bytes)`: a byte order mark in front is dropped. -/
def textDecode (bytes : List UInt8) : List Char :=
  match (fromUtf8 bytes).elim (lossy bytes) String.toList with
  | c :: rest => if c = Char.ofNat 0xFEFF then rest else c :: rest
  | [] => []

/-- What `JSON.stringify` makes of a number: its text. -/
def numberJson (n : Int) : Value :=
  if (JsNumber.shown n).natAbs < 10 ^ 21 then .int (JsNumber.shown n) else .real (JsNumber.text n)

def encodeCursorText (positions : List Position) : String :=
  String.ofList (Base64.encode (asBytes (write (.object [("positions",
    .array (positions.map fun e => .array [numberJson e.1, numberJson e.2]))]))))

/-- An entry as its type has it: two numbers. -/
def entryOfJson : Value → Option Position
  | .array [p, o] => do
      let p ← numberOf p
      let o ← numberOf o
      return (p, o)
  | _ => none

def decodeCursorText (cursor : String) : Option (List Position) := do
  let bytes ← Base64.decodeForgiving cursor.toList
  let parsed ← read .chars (textDecode lossy bytes)
  match ownMember "positions" parsed with
  | some (.array items) => (items.mapM entryOfJson).map decodeCursor
  | _ => none

/-- The position as the client has it. -/
def roundPosition (e : Position) : Position := (JsNumber.round e.1, JsNumber.round e.2)

theorem roundPosition_exact {e : Position} (h : JsNumber.Exact e.1 ∧ JsNumber.Exact e.2) :
    roundPosition e = e := by
  rw [roundPosition, JsNumber.round_exact h.1, JsNumber.round_exact h.2]

/-- The position that the client's text of it shows. -/
def shownPosition (e : Position) : Position := (JsNumber.shown e.1, JsNumber.shown e.2)

theorem shownPosition_exact {e : Position} (h : JsNumber.Exact e.1 ∧ JsNumber.Exact e.2) :
    shownPosition e = e := by
  rw [shownPosition, JsNumber.shown_exact h.1, JsNumber.shown_exact h.2]

theorem map_shownPosition {positions : List Position}
    (h : ∀ e ∈ positions, JsNumber.Exact e.1 ∧ JsNumber.Exact e.2) :
    positions.map shownPosition = positions := by
  conv_rhs => rw [← List.map_id positions]
  exact List.map_congr_left fun e he => shownPosition_exact (h e he)

/-- The JSON of an object begins with a brace, so nothing is dropped from it. -/
theorem textDecode_object (members : List (String × Value)) :
    textDecode lossy (asBytes (write (.object members))) = write (.object members) := by
  rw [textDecode, fromUtf8_asBytes, Option.elim_some, String.toList_ofList, write]
  simp only
  rw [if_neg (by decide)]

theorem mapM_entryOfJson (positions : List Position) :
    (positions.map positionJson).mapM entryOfJson = some (positions.map roundPosition) := by
  induction positions with
  | nil => rfl
  | cons e positions ih =>
    rw [List.map_cons, List.mapM_cons, ih]
    rfl

/-- A text that holds the JSON of an object is read as that object is. -/
theorem decodeCursorText_object {members : List (String × Value)} {positions : List Position}
    (hwhole : Whole (.object members))
    (hmember : ownMember "positions" (.object members) = some (positionsJson positions)) :
    decodeCursorText lossy (String.ofList (Base64.encode (asBytes (write (.object members))))) =
      some (decodeCursor (positions.map roundPosition)) := by
  simp only [decodeCursorText, String.toList_ofList, Base64.decodeForgiving_encode,
    textDecode_object, read_write hwhole, Option.bind_eq_bind, Option.bind_some, hmember,
    positionsJson, mapM_entryOfJson, Option.map_some]

theorem decodeCursorText_encode (c : Cursor) :
    decodeCursorText lossy c.encode = some (decodeCursor (c.positions.map roundPosition)) :=
  decodeCursorText_object lossy c.toJson_ascii.whole rfl

theorem minted_ascii (positions : List Position) :
    Ascii (.object [("positions", positionsJson positions)]) := by
  apply StringsOf.object
  · intro e he
    rw [List.mem_singleton] at he
    subst he
    exact fun c hc _ => (by simp : ∀ c ∈ "positions".toList, c.toNat < 128) c hc
  · intro e he
    rw [List.mem_singleton] at he
    subst he
    exact positionsJson_ascii positions

theorem numberJson_of_fits {e : Position} (h : FitsPosition (shownPosition e)) :
    numberJson e.1 = .int (shownPosition e).1 ∧ numberJson e.2 = .int (shownPosition e).2 := by
  have hpartition : -2 ^ 31 ≤ (shownPosition e).1 ∧ (shownPosition e).1 ≤ 2 ^ 31 - 1 := h.1
  have hoffset := h.2
  unfold shownPosition at *
  exact ⟨if_pos (by omega), if_pos (by omega)⟩

/-- The server reads what the client's own cursors show: the direction that they leave out is
    filled in. -/
theorem decode_minted {positions : List Position}
    (h : ∀ e ∈ positions.map shownPosition, FitsPosition e) :
    Cursor.decode (encodeCursorText positions) =
      some ⟨.forward, positions.map shownPosition⟩ := by
  have hjson : Value.array (positions.map fun e => .array [numberJson e.1, numberJson e.2]) =
      positionsJson (positions.map shownPosition) := by
    rw [positionsJson, List.map_map]
    apply congrArg
    apply List.map_congr_left
    intro e he
    have hnumbers := numberJson_of_fits (h _ (List.mem_map_of_mem he))
    rw [hnumbers.1, hnumbers.2]
    rfl
  rw [encodeCursorText, hjson, Cursor.decode_text (minted_ascii _)]
  simp only [Cursor.ofJson, List.foldlM_cons, List.foldlM_nil,
    CursorFields.visit_positions _ h, Option.bind_eq_bind, Option.bind_some, Option.pure_def,
    Option.getD_none]

theorem decode_minted_exact {positions : List Position}
    (hfits : ∀ e ∈ positions, FitsPosition e)
    (hexact : ∀ e ∈ positions, JsNumber.Exact e.1 ∧ JsNumber.Exact e.2) :
    Cursor.decode (encodeCursorText positions) = some ⟨.forward, positions⟩ := by
  have hminted := @decode_minted positions
  rw [map_shownPosition hexact] at hminted
  exact hminted hfits

/-- The partitions of a cursor that was read are exact as doubles. -/
theorem exact_of_fitsI32 {n : Int} (h : FitsI32 n) : JsNumber.Exact n := by
  unfold FitsI32 at h
  show n.natAbs ≤ 2 ^ 53
  omega

/-- What holds of all entries of a cursor holds of those that are left of it. -/
theorem mem_decodeCursor_of {P : Position → Prop} {positions : List Position}
    (h : ∀ e ∈ positions, P e) : ∀ e ∈ decodeCursor positions, P e := by
  intro e he
  have hget := (mem_mapToPositions _ e).mp he
  rw [OrdMap.get?_setAll, OrdMap.get?_empty, Option.or_none] at hget
  exact h e (OrdMap.lastFor_mem hget)

/-- Whatever text the server takes for a cursor, it reads its own text of that cursor the same
    way; and the client that takes this text apart and mints a cursor from what it found sends
    one that the server reads with the same position for every partition. -/
theorem accepted_cursor_survives {s : String} {c : Cursor} (h : Cursor.decode s = some c)
    (hexact : ∀ e ∈ c.positions, JsNumber.Exact e.2) :
    Cursor.decode c.encode = some c ∧
      ∃ positions, decodeCursorText lossy c.encode = some positions ∧
        Cursor.decode (encodeCursorText positions) = some ⟨.forward, positions⟩ ∧
        ∀ p, OrdMap.lastFor p positions = OrdMap.lastFor p c.positions := by
  have hfits := Cursor.decode_fits h
  have hround : c.positions.map roundPosition = c.positions := by
    conv_rhs => rw [← List.map_id c.positions]
    apply List.map_congr_left
    intro e he
    exact roundPosition_exact ⟨exact_of_fitsI32 (hfits e he).1, hexact e he⟩
  have hread := decodeCursorText_encode lossy c
  rw [hround] at hread
  refine ⟨Cursor.decode_encode hfits, decodeCursor c.positions, hread, ?_, ?_⟩
  · apply decode_minted_exact (mem_decodeCursor_of hfits)
    exact mem_decodeCursor_of fun e he => ⟨exact_of_fitsI32 (hfits e he).1, hexact e he⟩
  · exact lastFor_decodeCursor c.positions

/-- A text of the client's own, and what becomes of it. -/
theorem minted_survives :
    Cursor.decode (Cursor.encode ⟨.forward, [(0, 5), (1, 42)]⟩) =
        some ⟨.forward, [(0, 5), (1, 42)]⟩ ∧
      ∃ positions,
        decodeCursorText (fun _ => []) (Cursor.encode ⟨.forward, [(0, 5), (1, 42)]⟩) =
            some positions ∧
          Cursor.decode (encodeCursorText positions) = some ⟨.forward, positions⟩ ∧
          ∀ p, OrdMap.lastFor p positions = OrdMap.lastFor p [(0, 5), (1, 42)] :=
  accepted_cursor_survives (fun _ => []) (s := encodeCursorText [(0, 5), (1, 42)])
    (decode_minted_exact (by unfold FitsPosition FitsI32; decide) (by decide)) (by decide)

end

end Arne.Client
