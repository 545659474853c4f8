import Arne.Lib.Varint
import Arne.Message.Types
import Mathlib.Data.Nat.Bitwise

/-!
# Protobuf message indexes

The front of a Confluent protobuf body (`message/proto.rs`): the path of the record's message
type in its schema, as a count and that many indexes, each a zig-zag varint.  A lone zero byte
stands for the path `[0]`.  A path that was written is read back; what bytes are read as a path
they do not write is settled for every byte string.
-/

namespace Arne.Message

open Varint

def truncatedVarint : String := "truncated varint in message indexes"

/-- `((result >> 1) as i64) ^ -((result & 1) as i64)`. -/
def zigzagDecode (result : UInt64) : Int64 :=
  (result >>> 1).toInt64 ^^^ -(result &&& 1).toInt64

/-- The loop of `read_zigzag_varint`, with the bits read so far. -/
def readZigzagVarintFrom (result : UInt64) (shift : Nat) :
    List UInt8 → Except String (Int64 × List UInt8)
  | [] => .error truncatedVarint
  | b :: rest =>
    let result := result ||| (b &&& 0x7f).toUInt64 <<< UInt64.ofNat shift
    if b &&& 0x80 = 0 then
      .ok (zigzagDecode result, rest)
    else if 64 ≤ shift + 7 then
      .error truncatedVarint
    else
      readZigzagVarintFrom result (shift + 7) rest

def readZigzagVarint (bytes : List UInt8) : Except String (Int64 × List UInt8) :=
  readZigzagVarintFrom 0 0 bytes

def maxMessageIndexCount : Int64 := 128

/-- The `for _ in 0..count` loop of `read_message_indexes`. -/
def readIndexes : Nat → List UInt8 → Except String (List Int32 × List UInt8)
  | 0, rest => .ok ([], rest)
  | count + 1, rest => do
    let (idx, r) ← readZigzagVarint rest
    let (indexes, rest) ← readIndexes count r
    return (idx.toInt32 :: indexes, rest)

def readMessageIndexes (bytes : List UInt8) : Except String (List Int32 × List UInt8) := do
  let (count, rest) ← readZigzagVarint bytes
  if count = 0 then
    return ([0], rest)
  else if ¬ (0 ≤ count ∧ count ≤ maxMessageIndexCount) then
    throw s!"invalid message index count {count} (must be between 0 and {maxMessageIndexCount})"
  else
    readIndexes count.toInt.toNat rest

/-- A parsed schema, as far as decoding asks it: how its first message type, if it declares
    one, turns a body into JSON text. -/
structure FileDescriptor where
  firstMessage : Option (List UInt8 → Except String String)

def decodeWithDescriptor (fd : FileDescriptor) (payloadAfterHeader : List UInt8) :
    Except String String := do
  let (indexes, body) ← readMessageIndexes payloadAfterHeader
  if indexes ≠ [0] then
    throw (s!"unsupported protobuf message index path {indexes} " ++
      "(v1 decodes only the first top-level message)")
  else
    match fd.firstMessage with
    | none => throw "proto schema declares no message"
    | some md => md body

/-! ### One varint -/

theorem toNat_low_bits (b : UInt8) : (b &&& 0x7f).toNat = b.toNat % 128 := by
  rw [UInt8.toNat_and]
  exact Nat.and_two_pow_sub_one_eq_mod b.toNat 7

theorem high_bit_clear_iff (b : UInt8) : b &&& 0x80 = 0 ↔ b.toNat < 128 := by
  have hand : (b &&& 0x80).toNat = b.toNat / 128 % 2 * 128 := by
    rw [UInt8.toNat_and, show (0x80 : UInt8).toNat = 2 ^ 7 from rfl, Nat.and_two_pow,
      Nat.toNat_testBit]
    norm_num
  have hlt := b.toNat_lt
  rw [← UInt8.toNat_inj, hand]
  change b.toNat / 128 % 2 * 128 = 0 ↔ b.toNat < 128
  omega

theorem toInt_toInt64 {n : UInt64} (h : n.toNat < 2 ^ 63) : n.toInt64.toInt = n.toNat := by
  rw [← UInt64.ofNat_toNat (x := n), UInt64.toInt64_ofNat', UInt64.ofNat_toNat]
  exact Int64.toInt_ofNat_of_lt h

theorem toInt_zigzagDecode (result : UInt64) :
    (zigzagDecode result).toInt = unzigzag result.toNat := by
  have hlt := result.toNat_lt
  have hhalf : (result >>> 1).toNat = result.toNat / 2 := by
    rw [UInt64.toNat_shiftRight]
    simp [Nat.shiftRight_eq_div_pow]
  have hint : ((result >>> 1).toInt64).toInt = (result.toNat / 2 : Nat) := by
    rw [toInt_toInt64 (by omega), hhalf]
  have hlow : (result &&& 1).toNat = result.toNat % 2 := by
    rw [UInt64.toNat_and]
    exact Nat.and_two_pow_sub_one_eq_mod result.toNat 1
  unfold zigzagDecode unzigzag
  by_cases heven : result.toNat % 2 = 0
  · have hbit : result &&& 1 = 0 := by
      rw [← UInt64.toNat_inj, hlow, heven]
      rfl
    rw [hbit, if_pos heven, ← hint]
    simp
  · have hbit : result &&& 1 = 1 := by
      rw [← UInt64.toNat_inj, hlow, Nat.mod_two_ne_zero.mp heven]
      rfl
    have hones : -(1 : UInt64).toInt64 = -1 := rfl
    rw [hbit, if_neg heven, hones, Int64.xor_neg_one, Int64.toInt_not, hint]
    apply Int.bmod_eq_of_le <;> omega

/-- One turn of the loop adds the byte's bits, and drops those from bit 64 on. -/
theorem toNat_joined {result : UInt64} {b : UInt8} {shift : Nat} (hshift : shift < 64)
    (hresult : result.toNat < 2 ^ shift) :
    (result ||| (b &&& 0x7f).toUInt64 <<< UInt64.ofNat shift).toNat =
      (result.toNat + 2 ^ shift * (b.toNat % 128)) % 2 ^ 64 := by
  have hamount : (UInt64.ofNat shift).toNat % 64 = shift := by
    rw [UInt64.toNat_ofNat']
    omega
  have hsplit : 2 ^ 64 = 2 ^ shift * 2 ^ (64 - shift) := by
    rw [← pow_add]
    congr 1
    omega
  have hor : (result ||| (b &&& 0x7f).toUInt64 <<< UInt64.ofNat shift).toNat =
      2 ^ shift * (b.toNat % 128 % 2 ^ (64 - shift)) + result.toNat := by
    rw [UInt64.toNat_or, UInt64.toNat_shiftLeft, UInt8.toNat_toUInt64, toNat_low_bits, hamount,
      Nat.shiftLeft_eq, hsplit, mul_comm _ (2 ^ shift), Nat.mul_mod_mul_left, Nat.or_comm,
      ← Nat.two_pow_add_eq_or_of_lt hresult]
  have hbound := (result ||| (b &&& 0x7f).toUInt64 <<< UInt64.ofNat shift).toNat_lt
  rw [hor] at hbound ⊢
  have hmod : 2 ^ shift * (b.toNat % 128 % 2 ^ (64 - shift)) =
      2 ^ shift * (b.toNat % 128) % 2 ^ 64 := by
    rw [hsplit, Nat.mul_mod_mul_left]
  rw [← Nat.mod_eq_of_lt hbound, hmod, Nat.mod_add_mod, Nat.add_comm]

/-- What the loop reads of a varint: all of it, up to ten bytes, and its value modulo `2 ^ 64`. -/
theorem readZigzagVarintFrom_eq_ok_iff {bytes rest : List UInt8} {n : Int64} {result : UInt64}
    {k : Nat} (hk : k ≤ 9) (hresult : result.toNat < 2 ^ (7 * k)) :
    readZigzagVarintFrom result (7 * k) bytes = .ok (n, rest) ↔
      ∃ w, bytes = w ++ rest ∧ IsVarint w ∧ w.length + k ≤ 10 ∧
        n.toInt = unzigzag ((result.toNat + 2 ^ (7 * k) * value w) % 2 ^ 64) := by
  induction bytes generalizing k result with
  | nil =>
    constructor
    · intro h
      cases h
    · rintro ⟨w, hw, hvarint, -, -⟩
      rw [(List.append_eq_nil_iff.mp hw.symm).1] at hvarint
      exact hvarint.elim
  | cons b bytes ih =>
    have hjoined := toNat_joined (b := b) (by omega : 7 * k < 64) hresult
    rw [readZigzagVarintFrom]
    by_cases hlast : b.toNat < 128
    · rw [if_pos ((high_bit_clear_iff b).mpr hlast), Except.ok.injEq, Prod.mk.injEq,
        ← Int64.toInt_inj, toInt_zigzagDecode, hjoined]
      constructor
      · rintro ⟨hn, rfl⟩
        exact ⟨[b], rfl, Or.inl ⟨hlast, rfl⟩, by rw [List.length_singleton]; omega, by
          rw [← hn, value, value, Nat.mul_zero, Nat.add_zero]⟩
      · rintro ⟨w, hw, hvarint, -, hn⟩
        obtain ⟨rfl, rfl⟩ := append_inj (w := [b]) (Or.inl ⟨hlast, rfl⟩) hvarint hw
        rw [value, value, Nat.mul_zero, Nat.add_zero] at hn
        exact ⟨hn.symm, rfl⟩
    · rw [if_neg (fun h => hlast ((high_bit_clear_iff b).mp h)), exists_continued hlast]
      by_cases hfull : 64 ≤ 7 * k + 7
      · rw [if_pos hfull]
        constructor
        · intro h
          cases h
        · rintro ⟨w, -, hvarint, hlength, -⟩
          have hpos := hvarint.length_pos
          rw [List.length_cons] at hlength
          omega
      · have hbound : (result ||| (b &&& 0x7f).toUInt64 <<< UInt64.ofNat (7 * k)).toNat <
            2 ^ (7 * (k + 1)) := by
          have hbits : 2 ^ (7 * k) * (b.toNat % 128) ≤ 2 ^ (7 * k) * 127 :=
            Nat.mul_le_mul_left _ (by omega)
          have hle := Nat.mod_le (result.toNat + 2 ^ (7 * k) * (b.toNat % 128)) (2 ^ 64)
          rw [hjoined, Nat.mul_succ, pow_add]
          omega
        have hvalue (w : List UInt8) :
            ((result ||| (b &&& 0x7f).toUInt64 <<< UInt64.ofNat (7 * k)).toNat +
                2 ^ (7 * (k + 1)) * value w) % 2 ^ 64 =
              (result.toNat + 2 ^ (7 * k) * value (b :: w)) % 2 ^ 64 := by
          rw [hjoined, Nat.mod_add_mod, value, Nat.mul_succ, pow_add]
          congr 1
          ring
        rw [if_neg hfull, ← Nat.mul_succ, ih (by omega) hbound]
        refine exists_congr fun w => and_congr_right' (and_congr_right' ?_)
        rw [hvalue w, List.length_cons, Nat.add_right_comm, Nat.add_assoc]

/-- A varint that the reader reads to its end. -/
def IsWord (w : List UInt8) : Prop := IsVarint w ∧ w.length ≤ 10

instance : DecidablePred IsWord :=
  fun w => inferInstanceAs (Decidable (IsVarint w ∧ w.length ≤ 10))

/-- What the reader has of a varint: its value, less the bits from bit 64 on. -/
def wordValue (w : List UInt8) : Int64 := Int64.ofInt (unzigzag (value w % 2 ^ 64))

theorem toInt_wordValue (w : List UInt8) :
    (wordValue w).toInt = unzigzag (value w % 2 ^ 64) := by
  have hfits := (unzigzag_mem_iff (value w % 2 ^ 64) 63).mpr (Nat.mod_lt _ (by decide))
  exact Int64.toInt_ofInt_of_le hfits.1 hfits.2

theorem readZigzagVarint_eq_ok_iff {bytes rest : List UInt8} {n : Int64} :
    readZigzagVarint bytes = .ok (n, rest) ↔
      ∃ w, bytes = w ++ rest ∧ IsWord w ∧ n = wordValue w := by
  have hread := @readZigzagVarintFrom_eq_ok_iff bytes rest n 0 0 (Nat.zero_le 9) (by decide)
  rw [readZigzagVarint, hread]
  simp [IsWord, and_assoc, ← Int64.toInt_inj, toInt_wordValue]

theorem readZigzagVarint_word {w : List UInt8} (hw : IsWord w) (rest : List UInt8) :
    readZigzagVarint (w ++ rest) = .ok (wordValue w, rest) :=
  readZigzagVarint_eq_ok_iff.mpr ⟨w, rfl, hw, rfl⟩

/-! ### The path -/

/-- `idx as i32`, of what the reader has of a varint. -/
def wrappedIndex (w : List UInt8) : Int32 := (wordValue w).toInt32

theorem readIndexes_words {ws : List (List UInt8)} (hws : ∀ w ∈ ws, IsWord w)
    (rest : List UInt8) :
    readIndexes ws.length (ws.flatten ++ rest) = .ok (ws.map wrappedIndex, rest) := by
  induction ws with
  | nil => rfl
  | cons w ws ih =>
    rw [List.forall_mem_cons] at hws
    rw [List.length_cons, List.flatten_cons, List.append_assoc, readIndexes,
      readZigzagVarint_word hws.1]
    change (do let (indexes, rest) ← readIndexes ws.length (ws.flatten ++ rest); _) = _
    rw [ih hws.2]
    rfl

theorem words_of_readIndexes {count : Nat} {bytes rest : List UInt8} {indexes : List Int32}
    (h : readIndexes count bytes = .ok (indexes, rest)) :
    ∃ ws : List (List UInt8), bytes = ws.flatten ++ rest ∧ ws.length = count ∧
      (∀ w ∈ ws, IsWord w) ∧ indexes = ws.map wrappedIndex := by
  induction count generalizing bytes indexes with
  | zero =>
    cases h
    exact ⟨[], by simp⟩
  | succ count ih =>
    obtain ⟨⟨idx, r⟩, hidx, h⟩ := except_bind_ok h
    obtain ⟨⟨tail, rest'⟩, htail, h⟩ := except_bind_ok h
    cases h
    obtain ⟨w, rfl, hword, rfl⟩ := readZigzagVarint_eq_ok_iff.mp hidx
    obtain ⟨ws, rfl, rfl, hws, rfl⟩ := ih htail
    refine ⟨w :: ws, ?_, rfl, List.forall_mem_cons.mpr ⟨hword, hws⟩, rfl⟩
    rw [List.flatten_cons, List.append_assoc]

theorem toInt_maxMessageIndexCount : maxMessageIndexCount.toInt = 128 := rfl

/-- The varints that a path is read from: the count's, and as many more as it counts. -/
structure Counts (w : List UInt8) (ws : List (List UInt8)) : Prop where
  word : IsWord w
  words : ∀ v ∈ ws, IsWord v
  count : unzigzag (value w % 2 ^ 64) = ws.length
  atMost : ws.length ≤ 128

/-- What is read of them.  Without an index, the path of the first message. -/
def pathOf (ws : List (List UInt8)) : List Int32 :=
  if ws = [] then [0] else ws.map wrappedIndex

theorem readMessageIndexes_counts {w : List UInt8} {ws : List (List UInt8)} (h : Counts w ws)
    (rest : List UInt8) :
    readMessageIndexes (w ++ ws.flatten ++ rest) = .ok (pathOf ws, rest) := by
  have hcount : (wordValue w).toInt = ws.length := by rw [toInt_wordValue, h.count]
  rw [readMessageIndexes, List.append_assoc, readZigzagVarint_word h.word]
  change (if wordValue w = 0 then _ else _) = _
  unfold pathOf
  by_cases hnil : ws = []
  · subst hnil
    have hzero : wordValue w = 0 := Int64.toInt_inj.mp hcount
    rw [if_pos hzero, if_pos rfl]
    rfl
  · have hpos : wordValue w ≠ 0 := by
      intro hzero
      rw [hzero] at hcount
      exact hnil (List.length_eq_zero_iff.mp (by simpa using hcount.symm))
    have hrange : 0 ≤ wordValue w ∧ wordValue w ≤ maxMessageIndexCount := by
      rw [Int64.le_iff_toInt_le, Int64.le_iff_toInt_le, hcount, toInt_maxMessageIndexCount]
      have hmax := h.atMost
      exact ⟨Int.natCast_nonneg _, by exact_mod_cast hmax⟩
    rw [if_neg hpos, if_neg (not_not_intro hrange), if_neg hnil, hcount, Int.toNat_natCast]
    exact readIndexes_words h.words rest

theorem counts_of_readMessageIndexes {bytes rest : List UInt8} {indexes : List Int32}
    (h : readMessageIndexes bytes = .ok (indexes, rest)) :
    ∃ w ws, bytes = w ++ ws.flatten ++ rest ∧ Counts w ws ∧ indexes = pathOf ws := by
  obtain ⟨⟨count, tail⟩, hcount, h⟩ := except_bind_ok h
  obtain ⟨w, rfl, hword, rfl⟩ := readZigzagVarint_eq_ok_iff.mp hcount
  change (if wordValue w = 0 then _ else _) = _ at h
  split at h
  · rename_i hzero
    cases h
    refine ⟨w, [], by simp, ⟨hword, by simp, ?_, by simp⟩, rfl⟩
    rw [← toInt_wordValue, hzero]
    rfl
  · rename_i hpos
    split at h
    · cases h
    · rename_i hrange
      obtain ⟨hnonneg, hmax⟩ := not_not.mp hrange
      rw [Int64.le_iff_toInt_le] at hnonneg hmax
      obtain ⟨ws, rfl, hlength, hws, rfl⟩ := words_of_readIndexes h
      have hcount : (wordValue w).toInt = ws.length := by
        rw [hlength, Int.toNat_of_nonneg hnonneg]
      refine ⟨w, ws, by simp, ⟨hword, hws, ?_, ?_⟩, ?_⟩
      · rw [← toInt_wordValue, hcount]
      · rw [hcount, toInt_maxMessageIndexCount] at hmax
        exact_mod_cast hmax
      · rw [pathOf, if_neg]
        rintro rfl
        exact hpos (Int64.toInt_inj.mp hcount)

/-! ### Written and read -/

/-- What a producer writes before a body: the number of indexes and then each of them. -/
def encodeIndexes (indexes : List Int32) : List UInt8 :=
  encode (zigzag indexes.length) ++ (indexes.map fun i => encode (zigzag i.toInt)).flatten

/-- `consumed` is the varints of a count and of that many indexes, each in full, and `indexes`
    is what they write.  A count of zero is the short form of the path `[0]`. -/
def SpellsIndexes (consumed : List UInt8) (indexes : List Int32) : Prop :=
  ∃ w ws, consumed = w ++ ws.flatten ∧ IsVarint w ∧ (∀ v ∈ ws, IsVarint v) ∧
    unzigzag (value w) = ws.length ∧
    if ws = [] then indexes = [0]
    else ws.map (fun v => unzigzag (value v)) = indexes.map Int32.toInt

/-- What is read of `bytes`, if anything is, is what the bytes spell. -/
def ReadExactly (bytes : List UInt8) : Prop :=
  ∀ indexes rest, readMessageIndexes bytes = .ok (indexes, rest) →
    ∃ consumed, bytes = consumed ++ rest ∧ SpellsIndexes consumed indexes

/-- The varints at the front of `bytes` fit what they are read into: the count's has no bit
    from bit 64 on, and each index is one of an `i32`. -/
def FrontFits (bytes : List UInt8) : Prop :=
  ∀ w ws rest, bytes = w ++ ws.flatten ++ rest → Counts w ws →
    value w < 2 ^ 64 ∧ ∀ v ∈ ws, -2 ^ 31 ≤ unzigzag (value v) ∧ unzigzag (value v) < 2 ^ 31

theorem isWord_encode {n : Nat} (h : n < 2 ^ 64) : IsWord (encode n) :=
  ⟨isVarint_encode n, length_encode_le 9 (by omega)⟩

theorem zigzag_index_lt (i : Int32) : zigzag i.toInt < 2 ^ 32 := by
  rw [← unzigzag_mem_iff, unzigzag_zigzag]
  exact ⟨i.le_toInt, i.toInt_lt⟩

theorem wrappedIndex_of_fits {v : List UInt8} (hlow : -2 ^ 31 ≤ unzigzag (value v))
    (hhigh : unzigzag (value v) < 2 ^ 31) : (wrappedIndex v).toInt = unzigzag (value v) := by
  have hlt := (unzigzag_mem_iff (value v) 31).mp ⟨hlow, hhigh⟩
  rw [wrappedIndex, Int64.toInt_toInt32, toInt_wordValue, Nat.mod_eq_of_lt (by omega)]
  apply Int.bmod_eq_of_le <;> omega

theorem counts_encode {indexes : List Int32} (h : indexes.length ≤ 128) :
    Counts (encode (zigzag indexes.length)) (indexes.map fun i => encode (zigzag i.toInt)) := by
  have hcount : zigzag indexes.length < 2 ^ 64 := by
    change 2 * indexes.length < 2 ^ 64
    omega
  refine ⟨isWord_encode hcount, ?_, ?_, by rwa [List.length_map]⟩
  · intro v hv
    obtain ⟨i, -, rfl⟩ := List.mem_map.mp hv
    have hlt := zigzag_index_lt i
    exact isWord_encode (by omega)
  · rw [value_encode, Nat.mod_eq_of_lt hcount, unzigzag_zigzag, List.length_map]

theorem wrappedIndex_encode (i : Int32) : wrappedIndex (encode (zigzag i.toInt)) = i := by
  have hvalue : unzigzag (value (encode (zigzag i.toInt))) = i.toInt := by
    rw [value_encode, unzigzag_zigzag]
  rw [← Int32.toInt_inj, wrappedIndex_of_fits, hvalue]
  · rw [hvalue]
    exact i.le_toInt
  · rw [hvalue]
    exact i.toInt_lt

theorem pathOf_encode (indexes : List Int32) :
    pathOf (indexes.map fun i => encode (zigzag i.toInt)) =
      if indexes = [] then [0] else indexes := by
  rw [pathOf]
  simp only [List.map_eq_nil_iff, List.map_map, Function.comp_def, wrappedIndex_encode,
    List.map_id']

/-- The varints at the front of the bytes fit where what was read is what they spell. -/
theorem frontFits_of_readExactly {bytes : List UInt8} (h : ReadExactly bytes) :
    FrontFits bytes := by
  rintro w ws rest rfl hcounts
  obtain ⟨consumed, hbytes, w', ws', rfl, hw', hws', hcount, hpath⟩ :=
    h _ _ (readMessageIndexes_counts hcounts rest)
  obtain ⟨rfl, htail⟩ := append_inj hcounts.word.1 hw' (List.append_cancel_right hbytes)
  obtain rfl := flatten_inj (fun v hv => (hcounts.words v hv).1) hws' htail
  have hmax := hcounts.atMost
  constructor
  · rw [← unzigzag_mem_iff, hcount]
    omega
  · intro v hv
    rw [if_neg (List.ne_nil_of_mem hv)] at hpath
    have hmem : unzigzag (value v) ∈ (pathOf ws).map Int32.toInt := by
      rw [← hpath]
      exact List.mem_map.mpr ⟨v, hv, rfl⟩
    obtain ⟨i, -, hi⟩ := List.mem_map.mp hmem
    rw [← hi]
    exact ⟨i.le_toInt, i.toInt_lt⟩

/-- Where they fit, nothing is lost between the bytes and what is read of them. -/
theorem readExactly_of_frontFits {bytes : List UInt8} (h : FrontFits bytes) :
    ReadExactly bytes := by
  intro indexes rest hread
  obtain ⟨w, ws, rfl, hcounts, rfl⟩ := counts_of_readMessageIndexes hread
  obtain ⟨hcount, hindexes⟩ := h w ws rest rfl hcounts
  refine ⟨w ++ ws.flatten, rfl, w, ws, rfl, hcounts.word.1, fun v hv => (hcounts.words v hv).1,
    ?_, ?_⟩
  · rw [← hcounts.count, Nat.mod_eq_of_lt hcount]
  · unfold pathOf
    split
    · rfl
    · rw [List.map_map]
      refine List.map_congr_left fun v hv => ?_
      exact (wrappedIndex_of_fits (hindexes v hv).1 (hindexes v hv).2).symm

/-- Where they fit, a body is decoded as the first message of its schema only if its path says
    that it is one. -/
theorem decoded_as_first {fd : FileDescriptor} {bytes : List UInt8} {text : String}
    (hfits : FrontFits bytes) (h : decodeWithDescriptor fd bytes = .ok text) :
    ∃ consumed body md, bytes = consumed ++ body ∧ SpellsIndexes consumed [0] ∧
      fd.firstMessage = some md ∧ md body = .ok text := by
  obtain ⟨⟨indexes, body⟩, hread, h⟩ := except_bind_ok h
  obtain ⟨consumed, hbytes, hspells⟩ := readExactly_of_frontFits hfits indexes body hread
  change (if indexes ≠ [0] then _ else _) = _ at h
  split at h
  · cases h
  · rename_i hfirst
    rw [not_not.mp hfirst] at hspells
    split at h
    · cases h
    · rename_i md hmd
      exact ⟨consumed, body, md, hbytes, hspells, hmd, h⟩

/-- **Message indexes are read as written.**  A path that was written is read back, with the
    body behind it.  Bytes are read as the path that they spell if and only if the varints of
    their front fit. -/
theorem message_indexes_exact_iff_fit (bytes : List UInt8) :
    (∀ (indexes : List Int32) (body : List UInt8), indexes.length ≤ 128 →
      readMessageIndexes (encodeIndexes indexes ++ body) =
        .ok (if indexes = [] then [0] else indexes, body)) ∧
    (ReadExactly bytes ↔ FrontFits bytes) := by
  constructor
  · intro indexes body hlength
    rw [encodeIndexes, readMessageIndexes_counts (counts_encode hlength), pathOf_encode]
  · exact ⟨frontFits_of_readExactly, readExactly_of_frontFits⟩

theorem short_message_indexes_read_back :
    readMessageIndexes (encodeIndexes [1, -2] ++ [0xbb]) = .ok ([1, -2], [0xbb]) :=
  (message_indexes_exact_iff_fit (encodeIndexes [1, -2] ++ [0xbb])).1 [1, -2] [0xbb] (by decide)

example : readMessageIndexes [0x82, 0x02] =
    .error "invalid message index count 129 (must be between 0 and 128)" := by rfl

/-- The index `2 ^ 32` is read as `0`, the path of the first message. -/
theorem wide_index_read_as_first :
    readMessageIndexes [0x02, 0x80, 0x80, 0x80, 0x80, 0x20, 0xbb] = .ok ([0], [0xbb]) ∧
      ¬ ReadExactly [0x02, 0x80, 0x80, 0x80, 0x80, 0x20, 0xbb] := by
  refine ⟨by rfl, fun h => ?_⟩
  have hfits := frontFits_of_readExactly h [0x02] [[0x80, 0x80, 0x80, 0x80, 0x20]] [0xbb] rfl
    ⟨by decide, by decide, by decide, by decide⟩
  have hindex := (hfits.2 _ List.mem_cons_self).2
  revert hindex
  decide

end Arne.Message
