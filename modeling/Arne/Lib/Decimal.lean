import Mathlib.Data.List.Basic

/-!
# Decimal integers

An integer is written without leading zeros, with a minus sign where it is negative, and what
was written is read back.
-/

namespace Arne.Decimal

def ofNat (n : Nat) : List Char := Nat.toDigits 10 n

def ofInt : Int → List Char
  | .ofNat n => ofNat n
  | .negSucc n => '-' :: ofNat (n + 1)

/-- What the digits stand for. -/
def toNat (digits : List Char) : Nat := Nat.ofDigitChars 10 digits 0

theorem isDigit_of_mem {n : Nat} {c : Char} (h : c ∈ ofNat n) : c.isDigit = true :=
  Nat.isDigit_of_mem_toDigits (by decide) (by decide) h

theorem ofNat_ne_nil (n : Nat) : ofNat n ≠ [] := Nat.toDigits_ne_nil

@[simp] theorem toNat_ofNat (n : Nat) : toNat (ofNat n) = n := Nat.ofDigitChars_ten_toDigits

/-- Only zero is written with a zero in front. -/
theorem head_ofNat (n : Nat) (h : (ofNat n).head? = some '0') : n = 0 := by
  induction n using Nat.strongRecOn with
  | ind n ih =>
    rcases Nat.lt_or_ge n 10 with hsmall | hlarge
    · rw [ofNat, Nat.toDigits_of_lt_base hsmall] at h
      have hdigit : ∀ k : Fin 10, Nat.digitChar k = '0' → k.val = 0 := by decide
      exact hdigit ⟨n, hsmall⟩ (Option.some.inj h)
    · rw [ofNat, Nat.toDigits_of_base_le (by decide) hlarge, List.head?_append] at h
      have hnonempty : (Nat.toDigits 10 (n / 10)).head? ≠ none := by
        rw [Ne, List.head?_eq_none_iff]
        exact Nat.toDigits_ne_nil
      have hhead : (ofNat (n / 10)).head? = some '0' := by
        rcases Option.ne_none_iff_exists'.mp hnonempty with ⟨c, hc⟩
        rw [hc, Option.some_or] at h
        rw [ofNat, hc, h]
      have hzero := ih (n / 10) (by omega) hhead
      omega

theorem ofNat_zero : ofNat 0 = ['0'] := Nat.toDigits_zero 10

end Arne.Decimal
