import Mathlib.Data.List.Basic

/-!
# Base64

The standard alphabet, with padding: three bytes are four digits of six bits each, and a last
group of one or two bytes is filled up with `=`.  What was encoded is read back.
-/

namespace Arne.Base64

def alphabet : List Char :=
  "ABCDEFGHIJKLMNOPQRSTUVWXYZabcdefghijklmnopqrstuvwxyz0123456789+/".toList

def digit (n : Nat) : Char := alphabet.getD n '='

def digitValue (c : Char) : Nat := alphabet.idxOf c

def encode : List UInt8 → List Char
  | [] => []
  | [a] => [digit (a.toNat / 4), digit (a.toNat % 4 * 16), '=', '=']
  | [a, b] =>
      [digit (a.toNat / 4), digit (a.toNat % 4 * 16 + b.toNat / 16), digit (b.toNat % 16 * 4), '=']
  | a :: b :: c :: rest =>
      digit (a.toNat / 4) :: digit (a.toNat % 4 * 16 + b.toNat / 16) ::
        digit (b.toNat % 16 * 4 + c.toNat / 64) :: digit (c.toNat % 64) :: encode rest

/-- The bytes of a text that `encode` wrote. -/
def decode : List Char → List UInt8
  | c₀ :: c₁ :: c₂ :: c₃ :: rest =>
      UInt8.ofNat (digitValue c₀ * 4 + digitValue c₁ / 16) ::
        if c₂ = '=' then []
        else
          UInt8.ofNat (digitValue c₁ % 16 * 16 + digitValue c₂ / 4) ::
            if c₃ = '=' then []
            else UInt8.ofNat (digitValue c₂ % 4 * 64 + digitValue c₃) :: decode rest
  | _ => []

theorem digit_spec : ∀ n : Fin 64, digitValue (digit n) = n ∧ digit n ≠ '=' := by decide

theorem digitValue_digit {n : Nat} (h : n < 64) : digitValue (digit n) = n :=
  (digit_spec ⟨n, h⟩).1

theorem digit_ne_padding {n : Nat} (h : n < 64) : digit n ≠ '=' := (digit_spec ⟨n, h⟩).2

theorem ofNat_eq_of_toNat {n : Nat} {b : UInt8} (h : n = b.toNat) : UInt8.ofNat n = b := by
  rw [h, UInt8.ofNat_toNat]

theorem decode_encode (bytes : List UInt8) : decode (encode bytes) = bytes := by
  induction bytes using encode.induct with
  | case1 => rfl
  | case2 a =>
    have ha := a.toNat_lt
    rw [encode, decode, if_pos rfl, digitValue_digit (by omega), digitValue_digit (by omega),
      ofNat_eq_of_toNat (b := a) (by omega)]
  | case3 a b =>
    have ha := a.toNat_lt
    have hb := b.toNat_lt
    rw [encode, decode, if_neg (digit_ne_padding (by omega)), if_pos rfl,
      digitValue_digit (by omega), digitValue_digit (by omega), digitValue_digit (by omega),
      ofNat_eq_of_toNat (b := a) (by omega), ofNat_eq_of_toNat (b := b) (by omega)]
  | case4 a b c rest ih =>
    have ha := a.toNat_lt
    have hb := b.toNat_lt
    have hc := c.toNat_lt
    rw [encode, decode, if_neg (digit_ne_padding (by omega)),
      if_neg (digit_ne_padding (by omega)), digitValue_digit (by omega),
      digitValue_digit (by omega), digitValue_digit (by omega), digitValue_digit (by omega),
      ofNat_eq_of_toNat (b := a) (by omega), ofNat_eq_of_toNat (b := b) (by omega),
      ofNat_eq_of_toNat (b := c) (by omega), ih]

/-! ### The two readers -/

/-- A strict reader: a text is read if it is what the encoder writes, padding and all. -/
def decodeStrict (text : List Char) : Option (List UInt8) :=
  if encode (decode text) = text then some (decode text) else none

@[simp] theorem decodeStrict_encode (bytes : List UInt8) :
    decodeStrict (encode bytes) = some bytes := by
  rw [decodeStrict, decode_encode, if_pos rfl]

def isSpace (c : Char) : Bool :=
  c = ' ' || c = '\t' || c = '\n' || c = Char.ofNat 12 || c = '\r'

/-- One or two padding characters go, if they fill up a group. -/
def unpad (text : List Char) : List Char :=
  if text.length % 4 = 0 then
    match text.reverse with
    | '=' :: '=' :: rest => rest.reverse
    | '=' :: rest => rest.reverse
    | _ => text
  else text

/-- The bytes of the digits; bits that fill no byte are dropped. -/
def fromDigits : List Char → List UInt8
  | c₀ :: c₁ :: c₂ :: c₃ :: rest =>
      UInt8.ofNat (digitValue c₀ * 4 + digitValue c₁ / 16) ::
        UInt8.ofNat (digitValue c₁ % 16 * 16 + digitValue c₂ / 4) ::
          UInt8.ofNat (digitValue c₂ % 4 * 64 + digitValue c₃) :: fromDigits rest
  | [c₀, c₁, c₂] =>
      [UInt8.ofNat (digitValue c₀ * 4 + digitValue c₁ / 16),
        UInt8.ofNat (digitValue c₁ % 16 * 16 + digitValue c₂ / 4)]
  | [c₀, c₁] => [UInt8.ofNat (digitValue c₀ * 4 + digitValue c₁ / 16)]
  | _ => []

/-- A forgiving reader: spaces are skipped, and padding may be missing. -/
def decodeForgiving (text : List Char) : Option (List UInt8) :=
  let digits := unpad (text.filter fun c => !isSpace c)
  if digits.length % 4 = 1 ∨ !digits.all alphabet.contains then none else some (fromDigits digits)

/-- The digits that the encoder writes, without the padding. -/
def toDigits : List UInt8 → List Char
  | [] => []
  | [a] => [digit (a.toNat / 4), digit (a.toNat % 4 * 16)]
  | [a, b] => [digit (a.toNat / 4), digit (a.toNat % 4 * 16 + b.toNat / 16), digit (b.toNat % 16 * 4)]
  | a :: b :: c :: rest =>
      digit (a.toNat / 4) :: digit (a.toNat % 4 * 16 + b.toNat / 16) ::
        digit (b.toNat % 16 * 4 + c.toNat / 64) :: digit (c.toNat % 64) :: toDigits rest

theorem digit_mem {n : Nat} (h : n < 64) : digit n ∈ alphabet := by
  have hlength : n < alphabet.length := h
  rw [digit, List.getD_eq_getElem?_getD, List.getElem?_eq_getElem hlength, Option.getD_some]
  exact List.getElem_mem hlength

theorem mem_toDigits {bytes : List UInt8} {c : Char} (h : c ∈ toDigits bytes) : c ∈ alphabet := by
  induction bytes using toDigits.induct with
  | case1 => cases h
  | case2 a =>
    have ha := a.toNat_lt
    simp only [toDigits, List.mem_cons, List.not_mem_nil, or_false] at h
    rcases h with rfl | rfl <;> exact digit_mem (by omega)
  | case3 a b =>
    have ha := a.toNat_lt
    have hb := b.toNat_lt
    simp only [toDigits, List.mem_cons, List.not_mem_nil, or_false] at h
    rcases h with rfl | rfl | rfl <;> exact digit_mem (by omega)
  | case4 a b c rest ih =>
    have ha := a.toNat_lt
    have hb := b.toNat_lt
    have hc := c.toNat_lt
    simp only [toDigits, List.mem_cons] at h
    rcases h with rfl | rfl | rfl | rfl | h
    · exact digit_mem (by omega)
    · exact digit_mem (by omega)
    · exact digit_mem (by omega)
    · exact digit_mem (by omega)
    · exact ih h

theorem fromDigits_toDigits (bytes : List UInt8) : fromDigits (toDigits bytes) = bytes := by
  induction bytes using toDigits.induct with
  | case1 => rfl
  | case2 a =>
    have ha := a.toNat_lt
    rw [toDigits, fromDigits, digitValue_digit (by omega), digitValue_digit (by omega),
      ofNat_eq_of_toNat (b := a) (by omega)]
  | case3 a b =>
    have ha := a.toNat_lt
    have hb := b.toNat_lt
    rw [toDigits, fromDigits, digitValue_digit (by omega), digitValue_digit (by omega),
      digitValue_digit (by omega), ofNat_eq_of_toNat (b := a) (by omega),
      ofNat_eq_of_toNat (b := b) (by omega)]
  | case4 a b c rest ih =>
    have ha := a.toNat_lt
    have hb := b.toNat_lt
    have hc := c.toNat_lt
    rw [toDigits, fromDigits, digitValue_digit (by omega), digitValue_digit (by omega),
      digitValue_digit (by omega), digitValue_digit (by omega),
      ofNat_eq_of_toNat (b := a) (by omega), ofNat_eq_of_toNat (b := b) (by omega),
      ofNat_eq_of_toNat (b := c) (by omega), ih]

/-- The padding, and how many digits stand before it. -/
theorem encode_eq (bytes : List UInt8) :
    (encode bytes = toDigits bytes ∧ (toDigits bytes).length % 4 = 0) ∨
      (encode bytes = toDigits bytes ++ ['=', '='] ∧ (toDigits bytes).length % 4 = 2) ∨
      (encode bytes = toDigits bytes ++ ['='] ∧ (toDigits bytes).length % 4 = 3) := by
  induction bytes using toDigits.induct with
  | case1 => exact Or.inl ⟨rfl, rfl⟩
  | case2 a => exact Or.inr (Or.inl ⟨rfl, rfl⟩)
  | case3 a b => exact Or.inr (Or.inr ⟨rfl, rfl⟩)
  | case4 a b c rest ih =>
    simp only [encode, toDigits, List.length_cons, List.cons_append]
    rcases ih with ⟨htext, hlength⟩ | ⟨htext, hlength⟩ | ⟨htext, hlength⟩
    · exact Or.inl ⟨by rw [htext], by omega⟩
    · exact Or.inr (Or.inl ⟨by rw [htext], by omega⟩)
    · exact Or.inr (Or.inr ⟨by rw [htext], by omega⟩)

theorem padding_not_mem : '=' ∉ alphabet := by decide

theorem unpad_encode (bytes : List UInt8) : unpad (encode bytes) = toDigits bytes := by
  have hpadding : '=' ∉ toDigits bytes := fun h => padding_not_mem (mem_toDigits h)
  rcases encode_eq bytes with ⟨htext, hlength⟩ | ⟨htext, hlength⟩ | ⟨htext, hlength⟩
  · rw [htext, unpad, if_pos hlength]
    have hreverse : '=' ∉ (toDigits bytes).reverse := by simpa using hpadding
    split
    · rename_i heq
      exact absurd (heq ▸ List.mem_cons_self) hreverse
    · rename_i heq
      exact absurd (heq ▸ List.mem_cons_self) hreverse
    · rfl
  · rw [htext, unpad, if_pos (by simp; omega)]
    simp
  · rw [htext, unpad, if_pos (by simp; omega)]
    have hreverse : '=' ∉ (toDigits bytes).reverse := by simpa using hpadding
    rw [List.reverse_append]
    split
    · rename_i heq
      have hmem : '=' ∈ (toDigits bytes).reverse := by
        rw [show (toDigits bytes).reverse = '=' :: _ from List.tail_eq_of_cons_eq heq]
        exact List.mem_cons_self
      exact absurd hmem hreverse
    · rename_i heq
      rw [← List.tail_eq_of_cons_eq heq]
      simp
    · rename_i heq
      exact absurd rfl (heq _)

theorem isSpace_eq_false {c : Char} (h : c ∈ alphabet) : isSpace c = false := by
  have hall : (alphabet.all fun c => !isSpace c) = true := by decide
  simpa using List.all_eq_true.mp hall c h

/-- Both readers read what was encoded. -/
@[simp] theorem decodeForgiving_encode (bytes : List UInt8) :
    decodeForgiving (encode bytes) = some bytes := by
  have hspace : ∀ c ∈ encode bytes, isSpace c = false := by
    intro c hc
    have hmem : c ∈ toDigits bytes ∨ c = '=' := by
      rcases encode_eq bytes with ⟨htext, -⟩ | ⟨htext, -⟩ | ⟨htext, -⟩ <;> rw [htext] at hc
      · exact Or.inl hc
      · simpa using hc
      · simpa using hc
    rcases hmem with hmem | rfl
    · exact isSpace_eq_false (mem_toDigits hmem)
    · decide
  have hfilter : (encode bytes).filter (fun c => !isSpace c) = encode bytes := by
    rw [List.filter_eq_self]
    intro c hc
    rw [hspace c hc]
    rfl
  have hlength : (toDigits bytes).length % 4 ≠ 1 := by
    rcases encode_eq bytes with ⟨-, h⟩ | ⟨-, h⟩ | ⟨-, h⟩ <;> omega
  have hall : (toDigits bytes).all alphabet.contains = true := by
    rw [List.all_eq_true]
    intro c hc
    exact List.contains_iff_mem.mpr (mem_toDigits hc)
  simp only [decodeForgiving, hfilter, unpad_encode, fromDigits_toDigits]
  rw [if_neg (by simp [hlength, hall])]

end Arne.Base64
