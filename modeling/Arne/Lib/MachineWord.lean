import Mathlib.Algebra.Order.Ring.Int

/-!
# Machine words

Signed 64-bit words as the integers that fit them.  A release build takes sums modulo
`2 ^ 64`; a debug build refuses a sum that is no word.
-/

namespace Arne.MachineWord

def FitsI64 (n : Int) : Prop := -2 ^ 63 ≤ n ∧ n ≤ 2 ^ 63 - 1

instance (n : Int) : Decidable (FitsI64 n) := inferInstanceAs (Decidable (_ ∧ _))

/-- An unsigned word, read as a signed one. -/
def asI64 (n : Nat) : Int := (n : Int).bmod (2 ^ 64)

/-- Addition, as a release build does it. -/
def wrappingAdd (a b : Int) : Int := (a + b).bmod (2 ^ 64)

/-- Subtraction, as a release build does it. -/
def wrappingSub (a b : Int) : Int := (a - b).bmod (2 ^ 64)

/-- Addition, as a debug build checks it. -/
def checkedAdd (a b : Int) : Option Int :=
  if -2 ^ 63 ≤ a + b ∧ a + b ≤ 2 ^ 63 - 1 then some (a + b) else none

theorem wrap_of_fits {n : Int} (h : FitsI64 n) : n.bmod (2 ^ 64) = n := by
  obtain ⟨hmin, hmax⟩ := h
  apply Int.bmod_eq_of_le
  · omega
  · omega

theorem wrappingAdd_of_fits {a b : Int} (h : FitsI64 (a + b)) : wrappingAdd a b = a + b :=
  wrap_of_fits h

theorem checkedAdd_one {n : Int} (h : FitsI64 n) :
    checkedAdd n 1 = if n = 2 ^ 63 - 1 then none else some (n + 1) := by
  obtain ⟨h1, h2⟩ := h
  unfold checkedAdd
  split
  · rw [if_neg (by omega)]
  · rw [if_pos (by omega)]

/-! ### Sums with an unsigned word -/

theorem wrappingAdd_asI64 (a : Int) (n : Nat) : wrappingAdd a (asI64 n) = (a + n).bmod (2 ^ 64) :=
  Int.add_bmod_bmod

theorem wrappingSub_asI64 (a : Int) (n : Nat) : wrappingSub a (asI64 n) = (a - n).bmod (2 ^ 64) :=
  Int.sub_bmod_bmod

/-- A sum past the greatest word comes out below where it started. -/
theorem wrappingAdd_asI64_lt {a : Int} (ha : FitsI64 a) {n : Nat} (hn : n < 2 ^ 64)
    (h : ¬ FitsI64 (a + n)) : wrappingAdd a (asI64 n) < a := by
  obtain ⟨hmin, hmax⟩ := ha
  unfold FitsI64 at h
  have hwrap : (a + n).bmod (2 ^ 64) = a + n - 2 ^ 64 := by
    rw [← Int.sub_bmod_right]
    apply Int.bmod_eq_of_le
    · omega
    · omega
  rw [wrappingAdd_asI64, hwrap]
  omega

/-- A difference past the smallest word comes out above where it started. -/
theorem lt_wrappingSub_asI64 {a : Int} (ha : FitsI64 a) {n : Nat} (hn : n < 2 ^ 64)
    (h : ¬ FitsI64 (a - n)) : a < wrappingSub a (asI64 n) := by
  obtain ⟨hmin, hmax⟩ := ha
  unfold FitsI64 at h
  have hwrap : (a - n).bmod (2 ^ 64) = a - n + 2 ^ 64 := by
    rw [← Int.add_bmod_right]
    apply Int.bmod_eq_of_le
    · omega
    · omega
  rw [wrappingSub_asI64, hwrap]
  omega

end Arne.MachineWord
