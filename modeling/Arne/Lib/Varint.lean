import Mathlib.Algebra.Order.Ring.Int
import Mathlib.Algebra.Order.Ring.Nat
import Mathlib.Tactic.Linarith
import Mathlib.Tactic.Ring

/-!
# Variable-length numbers

A varint writes a number seven bits a byte, the least significant first, and every byte but
the last has its high bit set.  The bytes say themselves where they end, so a sequence of
varints is read back in one way only.  Zig-zag coding carries the integers on the naturals.
-/

namespace Arne.Varint

/-- The number that the bytes write, however large. -/
def value : List UInt8 → Nat
  | [] => 0
  | b :: rest => b.toNat % 128 + 128 * value rest

/-- One varint: a last byte below `0x80`, and only bytes from `0x80` on before it. -/
def IsVarint : List UInt8 → Prop
  | [] => False
  | b :: rest => b.toNat < 128 ∧ rest = [] ∨ 128 ≤ b.toNat ∧ IsVarint rest

instance decidableIsVarint : DecidablePred IsVarint
  | [] => .isFalse id
  | b :: rest =>
    have := decidableIsVarint rest
    inferInstanceAs (Decidable (b.toNat < 128 ∧ rest = [] ∨ 128 ≤ b.toNat ∧ IsVarint rest))

theorem IsVarint.length_pos {w : List UInt8} (h : IsVarint w) : 0 < w.length := by
  cases w with
  | nil => exact h.elim
  | cons b w => simp

/-- Behind a byte that is not the last, the rest of its varint is a varint. -/
theorem isVarint_continued {b : UInt8} (h : ¬ b.toNat < 128) {w : List UInt8} :
    IsVarint (b :: w) ↔ IsVarint w := by
  constructor
  · rintro (⟨hlast, -⟩ | ⟨-, hw⟩)
    · exact absurd hlast h
    · exact hw
  · intro hw
    exact Or.inr ⟨Nat.le_of_not_lt h, hw⟩

theorem exists_continued {b : UInt8} (h : ¬ b.toNat < 128) {bytes rest : List UInt8}
    {p : List UInt8 → Prop} :
    (∃ w, b :: bytes = w ++ rest ∧ IsVarint w ∧ p w) ↔
      ∃ w, bytes = w ++ rest ∧ IsVarint w ∧ p (b :: w) := by
  constructor
  · rintro ⟨w, hw, hvarint, hp⟩
    cases w with
    | nil => exact hvarint.elim
    | cons b' w =>
      rw [List.cons_append, List.cons.injEq] at hw
      obtain ⟨rfl, hw⟩ := hw
      exact ⟨w, hw, (isVarint_continued h).mp hvarint, hp⟩
  · rintro ⟨w, rfl, hvarint, hp⟩
    exact ⟨b :: w, rfl, (isVarint_continued h).mpr hvarint, hp⟩

/-- The shortest varint of `n`. -/
def encode (n : Nat) : List UInt8 :=
  if n < 128 then [UInt8.ofNat n]
  else UInt8.ofNat (n % 128 + 128) :: encode (n / 128)
termination_by n
decreasing_by omega

theorem isVarint_encode (n : Nat) : IsVarint (encode n) := by
  induction n using Nat.strongRecOn with
  | ind n ih =>
    rw [encode]
    split
    · rename_i hlt
      refine Or.inl ⟨?_, rfl⟩
      rw [UInt8.toNat_ofNat']
      omega
    · rename_i hge
      refine Or.inr ⟨?_, ih (n / 128) (by omega)⟩
      rw [UInt8.toNat_ofNat']
      omega

@[simp] theorem value_encode (n : Nat) : value (encode n) = n := by
  induction n using Nat.strongRecOn with
  | ind n ih =>
    rw [encode]
    split
    · rename_i hlt
      rw [value, value, UInt8.toNat_ofNat']
      omega
    · rename_i hge
      rw [value, ih (n / 128) (by omega), UInt8.toNat_ofNat']
      omega

/-- Each byte carries seven bits. -/
theorem length_encode_le {n : Nat} (k : Nat) (h : n < 128 ^ (k + 1)) :
    (encode n).length ≤ k + 1 := by
  induction k generalizing n with
  | zero =>
    rw [encode, if_pos (by simpa using h)]
    simp
  | succ k ih =>
    rw [encode]
    split
    · simp
    · have hquot : n / 128 < 128 ^ (k + 1) := by
        apply Nat.div_lt_of_lt_mul
        rw [pow_succ] at h
        linarith
      have hlen := ih hquot
      rw [List.length_cons]
      omega

/-- A varint is not the beginning of another one. -/
theorem append_inj {w w' rest rest' : List UInt8} (hw : IsVarint w) (hw' : IsVarint w')
    (h : w ++ rest = w' ++ rest') : w = w' ∧ rest = rest' := by
  induction w generalizing w' with
  | nil => exact hw.elim
  | cons b w ih =>
    cases w' with
    | nil => exact hw'.elim
    | cons b' w' =>
      rw [List.cons_append, List.cons_append, List.cons.injEq] at h
      obtain ⟨rfl, h⟩ := h
      rcases hw with ⟨hlast, rfl⟩ | ⟨hmore, hw⟩
      · rcases hw' with ⟨-, rfl⟩ | ⟨hmore', -⟩
        · exact ⟨rfl, h⟩
        · omega
      · rcases hw' with ⟨hlast', -⟩ | ⟨-, hw'⟩
        · omega
        · obtain ⟨rfl, hrest⟩ := ih hw hw' h
          exact ⟨rfl, hrest⟩

/-- A sequence of varints is read back in one way. -/
theorem flatten_inj {ws ws' : List (List UInt8)} (hws : ∀ w ∈ ws, IsVarint w)
    (hws' : ∀ w ∈ ws', IsVarint w) (h : ws.flatten = ws'.flatten) : ws = ws' := by
  induction ws generalizing ws' with
  | nil =>
    cases ws' with
    | nil => rfl
    | cons w' ws' =>
      have hempty := (List.append_eq_nil_iff.mp h.symm).1
      have hpos := (hws' w' List.mem_cons_self).length_pos
      rw [hempty] at hpos
      cases hpos
  | cons w ws ih =>
    rw [List.forall_mem_cons] at hws
    cases ws' with
    | nil =>
      have hempty := (List.append_eq_nil_iff.mp h).1
      have hpos := hws.1.length_pos
      rw [hempty] at hpos
      cases hpos
    | cons w' ws' =>
      rw [List.forall_mem_cons] at hws'
      obtain ⟨rfl, htail⟩ := append_inj hws.1 hws'.1 h
      rw [ih hws.2 hws'.2 htail]

/-! ### Zig-zag -/

/-- `0, -1, 1, -2, 2, …` in the order of the naturals. -/
def zigzag : Int → Nat
  | .ofNat n => 2 * n
  | .negSucc n => 2 * n + 1

def unzigzag (n : Nat) : Int := if n % 2 = 0 then (n / 2 : Nat) else -(n / 2 : Nat) - 1

@[simp] theorem unzigzag_zigzag (i : Int) : unzigzag (zigzag i) = i := by
  cases i with
  | ofNat n =>
    rw [zigzag, unzigzag, if_pos (by omega), Nat.mul_div_cancel_left n (by omega)]
    rfl
  | negSucc n =>
    rw [zigzag, unzigzag, if_neg (by omega)]
    omega

/-- The integers of `k + 1` bits, two's complement, are the naturals of `k + 1` bits. -/
theorem unzigzag_mem_iff (n k : Nat) :
    (-2 ^ k ≤ unzigzag n ∧ unzigzag n < 2 ^ k) ↔ n < 2 ^ (k + 1) := by
  have hpow : ((2 ^ k : Nat) : Int) = 2 ^ k := by push_cast; rfl
  rw [pow_succ, ← hpow]
  unfold unzigzag
  split <;> omega

end Arne.Varint
