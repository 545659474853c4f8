import Arne.Lib.Base64
import Arne.Lib.Bytes
import Arne.Lib.JsonText
import Arne.Timeline.Window

/-!
# The text of a cursor (`timeline/cursor.rs`)

A cursor goes over the wire as the base64 of its JSON.  The texts of clients are read too, so
the reader takes what the derived one takes: members in any order, the direction left out,
members it does not know.  Of the positions it wants pairs of integers in their ranges.  It
reads bytes: the names of members must be UTF-8, while what stands under a name that it does
not know is passed over unread, whatever the strings there hold.
-/

namespace Arne.Timeline

open Bytes JsonText

def FitsI32 (n : Int) : Prop := -2 ^ 31 ≤ n ∧ n ≤ 2 ^ 31 - 1

/-- A pair that `(i32, i64)` holds. -/
def FitsPosition (e : Position) : Prop :=
  FitsI32 e.1 ∧ (-2 ^ 63 ≤ e.2 ∧ e.2 ≤ 2 ^ 63 - 1)

/-! ### Writing -/

def Direction.name : Direction → String
  | .back => "back"
  | .forward => "forward"

def positionJson (e : Position) : Value := .array [.int e.1, .int e.2]

def positionsJson (positions : List Position) : Value := .array (positions.map positionJson)

def Cursor.toJson (c : Cursor) : Value :=
  .object [("direction", .string c.direction.name),
    ("positions", positionsJson c.positions)]

def Cursor.encode (c : Cursor) : String :=
  String.ofList (Base64.encode (asBytes (write c.toJson)))

/-! ### Reading -/

/-- An integer type between `lo` and `hi`: numbers with a fraction or an exponent are none. -/
def integerOfJson (lo hi : Int) : Value → Option Int
  | .int n => if lo ≤ n ∧ n ≤ hi then some n else none
  | _ => none

def positionOfJson : Value → Option Position
  | .array [p, o] => do
      let p ← integerOfJson (-2 ^ 31) (2 ^ 31 - 1) p
      let o ← integerOfJson (-2 ^ 63) (2 ^ 63 - 1) o
      return (p, o)
  | _ => none

def positionsOfJson : Value → Option (List Position)
  | .array items => items.mapM positionOfJson
  | _ => none

def Direction.ofName (name : String) : Option Direction :=
  if name = "back" then some .back
  else if name = "forward" then some .forward
  else none

/-- A variant without fields is its name, or an object with nothing under its name. -/
def Direction.ofJson : Value → Option Direction
  | .string name => Direction.ofName name
  | .object [(name, .null)] => Direction.ofName name
  | _ => none

/-- The fields that have been read. -/
structure CursorFields where
  direction : Option Direction
  positions : Option (List Position)

/-- The string read from bytes is UTF-8. -/
def isText (name : String) : Bool := (fromUtf8 (ofChars name.toList)).isSome

/-- A field may not come twice, and members that are no fields are skipped. -/
def CursorFields.visit (fields : CursorFields) (e : String × Value) : Option CursorFields :=
  if e.1 = "direction" then
    if fields.direction.isSome then none
    else (Direction.ofJson e.2).map fun d => { fields with direction := some d }
  else if e.1 = "positions" then
    if fields.positions.isSome then none
    else (positionsOfJson e.2).map fun positions => { fields with positions := some positions }
  else if isText e.1 then some fields
  else none

/-- The derived reader: an object, or the fields in their order. -/
def Cursor.ofJson : Value → Option Cursor
  | .object members => do
      let fields ← members.foldlM CursorFields.visit ⟨none, none⟩
      let positions ← fields.positions
      return ⟨fields.direction.getD .forward, positions⟩
  | .array [direction, positions] => do
      let direction ← Direction.ofJson direction
      let positions ← positionsOfJson positions
      return ⟨direction, positions⟩
  | _ => none

/-- `serde_json::from_slice`. -/
def Cursor.decode (s : String) : Option Cursor := do
  let bytes ← Base64.decodeStrict s.toList
  let json ← read .bytes (asChars bytes)
  Cursor.ofJson json

/-! ### What is written is read back -/

theorem positionsJson_ascii (positions : List Position) : Ascii (positionsJson positions) := by
  apply StringsOf.array
  intro v hv
  rcases List.mem_map.mp hv with ⟨e, -, rfl⟩
  apply StringsOf.array
  intro v hv
  rw [List.mem_cons, List.mem_singleton] at hv
  rcases hv with rfl | rfl
  · exact StringsOf.int e.1
  · exact StringsOf.int e.2

theorem Cursor.toJson_ascii (c : Cursor) : Ascii c.toJson := by
  apply StringsOf.object
  · intro e he
    rw [List.mem_cons, List.mem_singleton] at he
    rcases he with rfl | rfl
    · exact fun c hc _ => (by simp : ∀ c ∈ "direction".toList, c.toNat < 128) c hc
    · exact fun c hc _ => (by simp : ∀ c ∈ "positions".toList, c.toNat < 128) c hc
  · intro e he
    rw [List.mem_cons, List.mem_singleton] at he
    rcases he with rfl | rfl
    · cases c.direction
      · exact StringsOf.string fun c hc _ => (by simp : ∀ c ∈ "back".toList, c.toNat < 128) c hc
      · exact StringsOf.string fun c hc _ =>
          (by simp : ∀ c ∈ "forward".toList, c.toNat < 128) c hc
    · exact positionsJson_ascii c.positions

theorem positionOfJson_positionJson {e : Position} (h : FitsPosition e) :
    positionOfJson (positionJson e) = some e := by
  have hp : -2 ^ 31 ≤ e.1 ∧ e.1 ≤ 2 ^ 31 - 1 := h.1
  have ho := h.2
  simp only [positionJson, positionOfJson, integerOfJson, if_pos hp, if_pos ho,
    Option.bind_eq_bind, Option.bind_some, Option.pure_def]

theorem positionsOfJson_positionsJson {positions : List Position}
    (h : ∀ e ∈ positions, FitsPosition e) :
    positionsOfJson (positionsJson positions) = some positions := by
  rw [positionsJson, positionsOfJson]
  induction positions with
  | nil => rfl
  | cons e positions ih =>
    rcases List.forall_mem_cons.mp h with ⟨he, hrest⟩
    rw [List.map_cons, List.mapM_cons, positionOfJson_positionJson he, ih hrest]
    rfl

@[simp] theorem Direction.ofName_name (d : Direction) :
    Direction.ofName d.name = some d := by
  cases d <;> decide

theorem CursorFields.visit_direction (positions : Option (List Position)) (d : Direction) :
    CursorFields.visit ⟨none, positions⟩ ("direction", .string d.name) =
      some ⟨some d, positions⟩ := by
  rw [CursorFields.visit, if_pos rfl, if_neg (by simp), Direction.ofJson, Direction.ofName_name,
    Option.map_some]

theorem CursorFields.visit_positions (direction : Option Direction) {positions : List Position}
    (h : ∀ e ∈ positions, FitsPosition e) :
    CursorFields.visit ⟨direction, none⟩ ("positions", positionsJson positions) =
      some ⟨direction, some positions⟩ := by
  rw [CursorFields.visit, if_neg (by simp), if_pos rfl, if_neg (by simp),
    positionsOfJson_positionsJson h, Option.map_some]

/-- A text that holds the JSON of a cursor is read as that JSON is. -/
theorem Cursor.decode_text {json : Value} (h : Ascii json) :
    Cursor.decode (String.ofList (Base64.encode (asBytes (write json)))) = Cursor.ofJson json := by
  simp only [Cursor.decode, String.toList_ofList, Base64.decodeStrict_encode, Option.bind_eq_bind,
    Option.bind_some, read_bytes h]

theorem Cursor.decode_encode {c : Cursor} (h : ∀ e ∈ c.positions, FitsPosition e) :
    Cursor.decode c.encode = some c := by
  rw [Cursor.encode, Cursor.decode_text c.toJson_ascii]
  simp only [Cursor.toJson, Cursor.ofJson, List.foldlM_cons, List.foldlM_nil,
    CursorFields.visit_direction, CursorFields.visit_positions _ h, Option.bind_eq_bind,
    Option.bind_some, Option.pure_def, Option.getD_some]

/-! ### What is read is in range -/

theorem integerOfJson_fits {lo hi n : Int} {v : Value} (h : integerOfJson lo hi v = some n) :
    lo ≤ n ∧ n ≤ hi := by
  unfold integerOfJson at h
  split at h
  · split at h
    · rename_i hfits
      rw [← Option.some.inj h]
      exact hfits
    · cases h
  · cases h

theorem positionOfJson_fits {v : Value} {e : Position} (h : positionOfJson v = some e) :
    FitsPosition e := by
  unfold positionOfJson at h
  split at h
  · simp only [Option.bind_eq_bind, Option.bind_eq_some_iff, Option.pure_def] at h
    rcases h with ⟨p, hp, o, ho, h⟩
    rw [← Option.some.inj h]
    exact ⟨integerOfJson_fits hp, integerOfJson_fits ho⟩
  · cases h

theorem positionsOfJson_fits {v : Value} {positions : List Position}
    (h : positionsOfJson v = some positions) : ∀ e ∈ positions, FitsPosition e := by
  unfold positionsOfJson at h
  split at h
  · rename_i items
    induction items generalizing positions with
    | nil =>
      cases h
      simp
    | cons v items ih =>
      simp only [List.mapM_cons, Option.bind_eq_bind, Option.bind_eq_some_iff,
        Option.pure_def] at h
      rcases h with ⟨e, he, rest, hrest, h⟩
      rw [← Option.some.inj h]
      exact List.forall_mem_cons.mpr ⟨positionOfJson_fits he, ih hrest⟩
  · cases h

/-- The positions of the fields read so far are in range. -/
def CursorFields.Fits (fields : CursorFields) : Prop :=
  ∀ positions, fields.positions = some positions → ∀ e ∈ positions, FitsPosition e

theorem CursorFields.Fits.visit {fields fields' : CursorFields} (hfits : fields.Fits)
    {e : String × Value} (h : fields.visit e = some fields') : fields'.Fits := by
  unfold CursorFields.visit at h
  split at h
  · split at h
    · cases h
    · rcases Option.map_eq_some_iff.mp h with ⟨d, -, rfl⟩
      exact hfits
  split at h
  · split at h
    · cases h
    · rcases Option.map_eq_some_iff.mp h with ⟨positions, hpositions, rfl⟩
      intro positions' heq
      cases heq
      exact positionsOfJson_fits hpositions
  split at h
  · cases h
    exact hfits
  · cases h

theorem CursorFields.Fits.visits {fields fields' : CursorFields} (hfits : fields.Fits)
    {members : List (String × Value)}
    (h : members.foldlM CursorFields.visit fields = some fields') : fields'.Fits := by
  induction members generalizing fields with
  | nil =>
    cases h
    exact hfits
  | cons e members ih =>
    simp only [List.foldlM_cons, Option.bind_eq_bind, Option.bind_eq_some_iff] at h
    rcases h with ⟨next, hnext, hrest⟩
    exact ih (hfits.visit hnext) hrest

theorem Cursor.ofJson_fits {v : Value} {c : Cursor} (h : Cursor.ofJson v = some c) :
    ∀ e ∈ c.positions, FitsPosition e := by
  unfold Cursor.ofJson at h
  split at h
  · simp only [Option.bind_eq_bind, Option.bind_eq_some_iff, Option.pure_def] at h
    rcases h with ⟨fields, hfields, positions, hpositions, h⟩
    rw [← Option.some.inj h]
    have hnone : CursorFields.Fits ⟨none, none⟩ := by
      intro positions heq
      cases heq
    exact hnone.visits hfields positions hpositions
  · simp only [Option.bind_eq_bind, Option.bind_eq_some_iff, Option.pure_def] at h
    rcases h with ⟨direction, -, positions, hpositions, h⟩
    rw [← Option.some.inj h]
    exact positionsOfJson_fits hpositions
  · cases h

theorem Cursor.decode_fits {s : String} {c : Cursor} (h : Cursor.decode s = some c) :
    ∀ e ∈ c.positions, FitsPosition e := by
  simp only [Cursor.decode, Option.bind_eq_bind, Option.bind_eq_some_iff] at h
  rcases h with ⟨bytes, -, json, -, h⟩
  exact Cursor.ofJson_fits h

end Arne.Timeline
