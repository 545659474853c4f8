import Arne.Lib.Bytes

/-!
# Query strings

Names and values as bytes: a blank is a plus sign, letters, digits and four marks stand for
themselves, and every other byte is a percent sign and two digits.  The pairs that were written
are read back, whatever is in them.
-/

namespace Arne.FormUrlencoded

def hexDigit (n : Nat) : UInt8 := if n < 10 then UInt8.ofNat (48 + n) else UInt8.ofNat (55 + n)

def hexValue (b : UInt8) : Option Nat :=
  if 48 ≤ b ∧ b ≤ 57 then some (b.toNat - 48)
  else if 65 ≤ b ∧ b ≤ 70 then some (b.toNat - 55)
  else if 97 ≤ b ∧ b ≤ 102 then some (b.toNat - 87)
  else none

/-- Letters, digits, `*`, `-`, `.` and `_`. -/
def isPlain (b : UInt8) : Bool :=
  (48 ≤ b && b ≤ 57) || (65 ≤ b && b ≤ 90) || (97 ≤ b && b ≤ 122) || b == 42 || b == 45 ||
    b == 46 || b == 95

def encodeByte (b : UInt8) : List UInt8 :=
  if b = 32 then [43]
  else if isPlain b then [b]
  else [37, hexDigit (b.toNat / 16), hexDigit (b.toNat % 16)]

def encode (bytes : List UInt8) : List UInt8 := bytes.flatMap encodeByte

/-- A percent sign without two digits behind it stands for itself. -/
def decode : List UInt8 → List UInt8
  | [] => []
  | [b] => [if b = 43 then 32 else b]
  | [b, c] => (if b = 43 then 32 else b) :: decode [c]
  | b :: c :: d :: rest =>
      if b = 37 then
        match hexValue c, hexValue d with
        | some high, some low => UInt8.ofNat (high * 16 + low) :: decode rest
        | _, _ => b :: decode (c :: d :: rest)
      else (if b = 43 then 32 else b) :: decode (c :: d :: rest)

/-- `name=value`, joined with `&`. -/
def serialize (pairs : List (List UInt8 × List UInt8)) : List UInt8 :=
  [38].intercalate (pairs.map fun e => encode e.1 ++ 61 :: encode e.2)

/-- What stands between two `&`: the name ends at the first `=`. -/
def splitPair (piece : List UInt8) : List UInt8 × List UInt8 :=
  (decode (piece.takeWhile (· ≠ 61)), decode (piece.dropWhile (· ≠ 61)).tail)

/-- The pairs of a query string.  Pieces with nothing in them are none. -/
def parse (query : List UInt8) : List (List UInt8 × List UInt8) :=
  ((query.splitOn 38).filter fun piece => !piece.isEmpty).map splitPair

/-! ### What is written is read back -/

theorem decode_cons {b : UInt8} (h : b ≠ 37) (rest : List UInt8) :
    decode (b :: rest) = (if b = 43 then 32 else b) :: decode rest := by
  rcases rest with _ | ⟨c, _ | ⟨d, rest⟩⟩
  · simp only [decode]
  · simp only [decode]
  · rw [decode, if_neg h]

theorem hexValue_hexDigit : ∀ n : Fin 16, hexValue (hexDigit n) = some n.val := by decide

theorem decode_percent (b : UInt8) (rest : List UInt8) :
    decode (37 :: hexDigit (b.toNat / 16) :: hexDigit (b.toNat % 16) :: rest) =
      b :: decode rest := by
  have hb := b.toNat_lt
  have hhigh := hexValue_hexDigit ⟨b.toNat / 16, by omega⟩
  have hlow := hexValue_hexDigit ⟨b.toNat % 16, by omega⟩
  rw [decode, if_pos rfl]
  simp only [hhigh, hlow, Nat.div_add_mod' b.toNat 16, UInt8.ofNat_toNat]

theorem decode_encodeByte (b : UInt8) (rest : List UInt8) :
    decode (encodeByte b ++ rest) = b :: decode rest := by
  unfold encodeByte
  split
  · rename_i h
    rw [h, List.cons_append, decode_cons (by decide), if_pos rfl, List.nil_append]
  split
  · rename_i hplain
    have hpercent : b ≠ 37 := by
      rintro rfl
      exact absurd hplain (by decide)
    have hplus : b ≠ 43 := by
      rintro rfl
      exact absurd hplain (by decide)
    rw [List.cons_append, decode_cons hpercent, if_neg hplus, List.nil_append]
  · exact decode_percent b rest

theorem decode_encode (bytes : List UInt8) : decode (encode bytes) = bytes := by
  induction bytes with
  | nil => rfl
  | cons b bytes ih =>
    rw [encode, List.flatMap_cons, decode_encodeByte]
    exact congrArg _ ih

/-- Neither separator is written inside a name or a value. -/
theorem not_mem_encode {separator : UInt8} (h : separator = 38 ∨ separator = 61)
    (bytes : List UInt8) : separator ∉ encode bytes := by
  have hdigit : ∀ n : Fin 16, hexDigit n ≠ 38 ∧ hexDigit n ≠ 61 := by decide
  intro hmem
  rcases List.mem_flatMap.mp hmem with ⟨b, -, hb⟩
  unfold encodeByte at hb
  split at hb
  · rw [List.mem_singleton] at hb
    rcases h with rfl | rfl <;> exact absurd hb (by decide)
  split at hb
  · rename_i hplain
    rw [List.mem_singleton] at hb
    subst hb
    rcases h with rfl | rfl <;> exact absurd hplain (by decide)
  · have hlt := b.toNat_lt
    have hhigh := hdigit ⟨b.toNat / 16, by omega⟩
    have hlow := hdigit ⟨b.toNat % 16, by omega⟩
    simp only [List.mem_cons, List.not_mem_nil, or_false] at hb
    rcases hb with hb | hb | hb
    · rcases h with rfl | rfl <;> exact absurd hb (by decide)
    · rcases h with rfl | rfl
      · exact hhigh.1 hb.symm
      · exact hhigh.2 hb.symm
    · rcases h with rfl | rfl
      · exact hlow.1 hb.symm
      · exact hlow.2 hb.symm

theorem splitPair_piece (name value : List UInt8) :
    splitPair (encode name ++ 61 :: encode value) = (name, value) := by
  have hall : ∀ b ∈ encode name, decide (b ≠ 61) = true := by
    intro b hb
    rw [decide_eq_true_iff]
    rintro rfl
    exact not_mem_encode (Or.inr rfl) name hb
  rw [splitPair, List.takeWhile_append_of_pos hall, List.dropWhile_append_of_pos hall]
  simp [decode_encode]

theorem parse_serialize (pairs : List (List UInt8 × List UInt8)) :
    parse (serialize pairs) = pairs := by
  by_cases hne : pairs = []
  · subst hne
    rfl
  · have hpieces : ∀ piece ∈ pairs.map (fun e => encode e.1 ++ 61 :: encode e.2), 38 ∉ piece := by
      intro piece hpiece hmem
      rcases List.mem_map.mp hpiece with ⟨e, -, rfl⟩
      rcases List.mem_append.mp hmem with hmem | hmem
      · exact not_mem_encode (Or.inl rfl) e.1 hmem
      · rcases List.mem_cons.mp hmem with hmem | hmem
        · exact absurd hmem (by decide)
        · exact not_mem_encode (Or.inl rfl) e.2 hmem
    have hfull : ∀ piece ∈ pairs.map (fun e => encode e.1 ++ 61 :: encode e.2),
        (!piece.isEmpty) = true := by
      intro piece hpiece
      rcases List.mem_map.mp hpiece with ⟨e, -, rfl⟩
      simp
    rw [parse, serialize, List.splitOn_intercalate 38 hpieces (by simpa using hne),
      List.filter_eq_self.mpr hfull, List.map_map]
    conv_rhs => rw [← List.map_id pairs]
    apply List.map_congr_left
    intro e _
    exact splitPair_piece e.1 e.2

end Arne.FormUrlencoded
