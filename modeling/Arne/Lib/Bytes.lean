import Mathlib.Algebra.Order.Ring.Int
import Mathlib.Tactic.Linarith
import Mathlib.Tactic.Positivity
import Mathlib.Tactic.Ring

/-!
# Reading bytes

A reader takes what it needs from the front of a buffer and fails when the buffer is too
short.  Integers are big-endian, of a fixed width, in two's complement.  Each reader is
characterised by the buffers it accepts, so that a format made of such fields is decoded
exactly as it is laid out.
-/

namespace Arne.Bytes

/-- The next `n` bytes and the rest. -/
def take? (n : Nat) (buf : List UInt8) : Option (List UInt8 × List UInt8) :=
  if n ≤ buf.length then some (buf.take n, buf.drop n) else none

theorem take?_eq_some_iff {n : Nat} {buf bytes rest : List UInt8} :
    take? n buf = some (bytes, rest) ↔ buf = bytes ++ rest ∧ bytes.length = n := by
  unfold take?
  constructor
  · intro h
    split at h
    · rename_i hle
      simp only [Option.some.injEq, Prod.mk.injEq] at h
      obtain ⟨rfl, rfl⟩ := h
      exact ⟨(List.take_append_drop n buf).symm, List.length_take_of_le hle⟩
    · cases h
  · rintro ⟨rfl, rfl⟩
    simp

/-- The number that the bytes write, most significant first. -/
def ofBE (bytes : List UInt8) : Nat := bytes.foldl (fun acc b => acc * 256 + b.toNat) 0

theorem foldl_ofBE (bytes : List UInt8) (acc : Nat) :
    bytes.foldl (fun acc b => acc * 256 + b.toNat) acc = acc * 256 ^ bytes.length + ofBE bytes := by
  induction bytes generalizing acc with
  | nil => simp [ofBE]
  | cons b rest ih =>
    have hhead : ofBE (b :: rest) = b.toNat * 256 ^ rest.length + ofBE rest := by
      rw [ofBE, List.foldl_cons, ih]
      simp
    rw [List.foldl_cons, ih, hhead, List.length_cons, pow_succ]
    ring

theorem ofBE_cons (b : UInt8) (rest : List UInt8) :
    ofBE (b :: rest) = b.toNat * 256 ^ rest.length + ofBE rest := by
  rw [ofBE, List.foldl_cons, foldl_ofBE]
  simp

theorem ofBE_lt (bytes : List UInt8) : ofBE bytes < 256 ^ bytes.length := by
  induction bytes with
  | nil => simp [ofBE]
  | cons b rest ih =>
    have hb : b.toNat < 256 := b.toNat_lt
    have hstep : (b.toNat + 1) * 256 ^ rest.length ≤ 256 * 256 ^ rest.length :=
      Nat.mul_le_mul_right _ hb
    rw [ofBE_cons, List.length_cons, pow_succ]
    linarith

/-- `n` in `width` bytes. -/
def toBE : Nat → Nat → List UInt8
  | 0, _ => []
  | width + 1, n => UInt8.ofNat (n / 256 ^ width) :: toBE width (n % 256 ^ width)

@[simp] theorem length_toBE (width n : Nat) : (toBE width n).length = width := by
  induction width generalizing n with
  | zero => rfl
  | succ width ih => simp [toBE, ih]

theorem ofBE_toBE {width n : Nat} (h : n < 256 ^ width) : ofBE (toBE width n) = n := by
  induction width generalizing n with
  | zero =>
    rw [pow_zero, Nat.lt_one_iff] at h
    simp [toBE, ofBE, h]
  | succ width ih =>
    have hpos : 0 < 256 ^ width := by positivity
    have hdigit : n / 256 ^ width < 256 := by
      apply Nat.div_lt_of_lt_mul
      rw [pow_succ] at h
      linarith
    rw [toBE, ofBE_cons, length_toBE, ih (Nat.mod_lt n hpos), UInt8.toNat_ofNat_of_lt' hdigit]
    exact Nat.div_add_mod' n (256 ^ width)

/-- `i16::from_be_bytes` and its like. -/
def signed (width n : Nat) : Int := if 2 * n < 256 ^ width then n else n - 256 ^ width

/-- A signed integer of `width` bytes. -/
def int? (width : Nat) (buf : List UInt8) : Option (Int × List UInt8) :=
  (take? width buf).map fun p => (signed width (ofBE p.1), p.2)

/-- A length: a signed integer that may not be negative. -/
def length? (width : Nat) (buf : List UInt8) : Option (Nat × List UInt8) :=
  (int? width buf).bind fun p => if p.1 < 0 then none else some (p.1.toNat, p.2)

/-- A length field: `width` bytes that write `n`, below half of their range. -/
def IsLength (width n : Nat) (bytes : List UInt8) : Prop :=
  bytes.length = width ∧ ofBE bytes = n ∧ 2 * n < 256 ^ width

/-- A length is read where its bytes stand, and from no other bytes. -/
theorem length?_eq_some_iff {width n : Nat} {buf rest : List UInt8} :
    length? width buf = some (n, rest) ↔
      ∃ bytes, IsLength width n bytes ∧ buf = bytes ++ rest := by
  simp only [length?, int?, Option.bind_eq_some_iff, Option.map_eq_some_iff, Prod.exists]
  constructor
  · rintro ⟨value, rest', ⟨bytes, rest'', htake, hvalue⟩, h⟩
    obtain ⟨hbuf, hlength⟩ := take?_eq_some_iff.mp htake
    cases hvalue
    split at h
    · cases h
    · rename_i hnonneg
      cases h
      have hlt := ofBE_lt bytes
      rw [hlength] at hlt
      unfold signed at hnonneg ⊢
      split at hnonneg
      · rename_i hhalf
        rw [if_pos hhalf]
        exact ⟨bytes, ⟨hlength, rfl, hhalf⟩, hbuf⟩
      · have : (ofBE bytes : Int) < ((256 ^ width : Nat) : Int) := by exact_mod_cast hlt
        push_cast at this
        omega
  · rintro ⟨bytes, ⟨hlength, hvalue, hhalf⟩, rfl⟩
    refine ⟨n, rest, ⟨bytes, rest, take?_eq_some_iff.mpr ⟨rfl, hlength⟩, ?_⟩, ?_⟩
    · simp [signed, hvalue, hhalf]
    · simp

/-- Two length fields at the front of one buffer are the same field. -/
theorem IsLength.append_inj {width n n' : Nat} {bytes bytes' rest rest' : List UInt8}
    (h : IsLength width n bytes) (h' : IsLength width n' bytes')
    (heq : bytes ++ rest = bytes' ++ rest') : bytes = bytes' ∧ n = n' ∧ rest = rest' := by
  obtain ⟨hlength, hvalue, _⟩ := h
  obtain ⟨hlength', hvalue', _⟩ := h'
  obtain ⟨rfl, hrest⟩ := List.append_inj heq (hlength.trans hlength'.symm)
  exact ⟨rfl, hvalue.symm.trans hvalue', hrest⟩

theorem isLength_toBE {width n : Nat} (h : 2 * n < 256 ^ width) :
    IsLength width n (toBE width n) :=
  ⟨length_toBE width n, ofBE_toBE (by omega), h⟩

/-- The integer of a field gives the field's bits back. -/
theorem signed_emod {width n : Nat} (h : n < 256 ^ width) :
    signed width n % (256 ^ width : Nat) = n := by
  have hlt : (n : Int) < (256 ^ width : Nat) := by exact_mod_cast h
  unfold signed
  split
  · exact Int.emod_eq_of_lt (Int.natCast_nonneg n) hlt
  · push_cast at hlt ⊢
    rw [Int.sub_emod_right]
    exact Int.emod_eq_of_lt (Int.natCast_nonneg n) hlt

theorem toBE_ofBE (bytes : List UInt8) : toBE bytes.length (ofBE bytes) = bytes := by
  induction bytes with
  | nil => rfl
  | cons b rest ih =>
    have hlt := ofBE_lt rest
    have hpos : 0 < 256 ^ rest.length := by positivity
    rw [List.length_cons, toBE, ofBE_cons, Nat.mul_add_mod_self_right, Nat.mod_eq_of_lt hlt, ih,
      Nat.add_comm, Nat.add_mul_div_right _ _ hpos, Nat.div_eq_of_lt hlt, Nat.zero_add,
      UInt8.ofNat_toNat]

/-! ### Text -/

/-- `std::str::from_utf8`. -/
def fromUtf8 (bytes : List UInt8) : Option String := String.fromUTF8? ⟨bytes.toArray⟩

theorem fromUtf8_toUTF8 (name : String) : fromUtf8 name.toUTF8.data.toList = some name := by
  have hvalid : name.toUTF8.IsValidUTF8 := name.isValidUTF8
  unfold fromUtf8 String.fromUTF8?
  rw [Array.toArray_toList, dif_pos hvalid]
  rfl

theorem toUTF8_of_fromUtf8 {bytes : List UInt8} {text : String} (h : fromUtf8 bytes = some text) :
    text.toUTF8.data.toList = bytes := by
  unfold fromUtf8 String.fromUTF8? at h
  split at h
  · cases h
    rfl
  · cases h

/-- `str::as_bytes`. -/
def asBytes (text : List Char) : List UInt8 := (String.ofList text).toUTF8.data.toList

@[simp] theorem fromUtf8_asBytes (text : List Char) :
    fromUtf8 (asBytes text) = some (String.ofList text) :=
  fromUtf8_toUTF8 (String.ofList text)

/-- One character for each byte. -/
def asChars (bytes : List UInt8) : List Char := bytes.map fun b => Char.ofNat b.toNat

/-- The bytes of such characters. -/
def ofChars (chars : List Char) : List UInt8 := chars.map fun c => UInt8.ofNat c.toNat

/-- An ASCII character is its own byte. -/
theorem asChars_asBytes {text : List Char} (h : ∀ c ∈ text, c.toNat < 128) :
    asChars (asBytes text) = text := by
  have hbytes : asBytes text = text.map Char.toUInt8 := by
    simp only [asBytes, String.toUTF8_eq_toByteArray, String.toByteArray_ofList]
    induction text with
    | nil => rfl
    | cons c text ih =>
      obtain ⟨hc, htext⟩ := List.forall_mem_cons.mp h
      have hsize : c.utf8Size = 1 := by
        rw [Char.utf8Size_eq_one_iff, UInt32.le_iff_toNat_le]
        exact Nat.le_of_lt_succ hc
      rw [List.utf8Encode_cons, List.utf8Encode_singleton, String.utf8EncodeChar_eq_singleton hsize,
        ByteArray.data_append, Array.toList_append, ih htext]
      rfl
  rw [asChars, hbytes, List.map_map]
  conv_rhs => rw [← List.map_id text]
  apply List.map_congr_left
  intro c hc
  have hsmall : c.toNat % 256 = c.toNat := Nat.mod_eq_of_lt (by have := h c hc; omega)
  show Char.ofNat (c.toNat % 256) = c
  rw [hsmall, Char.ofNat_toNat]

end Arne.Bytes
