import Mathlib.Algebra.Order.Ring.Int
import Mathlib.Data.List.DropRight
import Arne.Lib.Decimal

/-!
# Integers read as doubles, and printed

A double has 53 significant bits.  An integer with more of them is read as the closest integer
that has not, and as the even one of two that are equally close.  It is printed with as few
digits as are read back as the same double, so a large one is not printed as what it is.
-/

namespace Arne.JsNumber

/-- The integers up to here are doubles, every one of them. -/
def maxExact : Nat := 2 ^ 53

def roundNat (n : Nat) : Nat :=
  if n ≤ maxExact then n
  else
    let unit := 2 ^ (n.log2 - 52)
    let whole := n / unit
    let part := n % unit
    if 2 * part < unit ∨ (2 * part = unit ∧ whole % 2 = 0) then whole * unit
    else (whole + 1) * unit

def round : Int → Int
  | .ofNat n => roundNat n
  | .negSucc n => -(roundNat (n + 1) : Int)

def Exact (n : Int) : Prop := n.natAbs ≤ maxExact

instance (n : Int) : Decidable (Exact n) := inferInstanceAs (Decidable (_ ≤ _))

@[simp] theorem round_exact {n : Int} (h : Exact n) : round n = n := by
  cases n with
  | ofNat n =>
    have hn : n ≤ maxExact := h
    rw [round, roundNat, if_pos hn]
    rfl
  | negSucc n =>
    have hn : n + 1 ≤ maxExact := h
    rw [round, roundNat, if_pos hn]
    rfl

example : round (2 ^ 53 + 1) = 2 ^ 53 := by decide

/-! ### Printing -/

/-- Of the two multiples of a power of ten around a number the one that is read as the number;
    of two such the closer one, and of two as close the one with the even quotient. -/
def multipleReadAs (n unit : Nat) : Option Nat :=
  let lower := n / unit * unit
  let upper := lower + unit
  let upperCloser := upper - n < n - lower ∨ (upper - n = n - lower ∧ n / unit % 2 = 1)
  if roundNat upper = n ∧ (roundNat lower ≠ n ∨ upperCloser) then some upper
  else if roundNat lower = n then some lower
  else none

/-- The first such multiple, from the powers below `10 ^ (k + 1)` down. -/
def shortestFrom (n : Nat) : Nat → Nat
  | 0 => n
  | k + 1 => (multipleReadAs n (10 ^ (k + 1))).getD (shortestFrom n k)

/-- The decimal with the fewest digits in front of its zeros that is read as this double. -/
def shortestNat (n : Nat) : Nat := shortestFrom n (Decimal.ofNat n).length

/-- What stands in the text of a number. -/
def shown : Int → Int
  | .ofNat n => shortestNat (roundNat n)
  | .negSucc n => -(shortestNat (roundNat (n + 1)) : Int)

/-- The layout of large numbers: a digit, a point before further ones, and the exponent. -/
def exponentText (n : Nat) : List Char :=
  let exponent := 'e' :: '+' :: Decimal.ofNat ((Decimal.ofNat n).length - 1)
  match (Decimal.ofNat n).rdropWhile (· == '0') with
  | [] => exponent
  | [digit] => digit :: exponent
  | digit :: digits => digit :: '.' :: (digits ++ exponent)

/-- `Number::toString` of an integer. -/
def text (n : Int) : List Char :=
  if (shown n).natAbs < 10 ^ 21 then Decimal.ofInt (shown n)
  else if n < 0 then '-' :: exponentText (shown n).natAbs
  else exponentText (shown n).natAbs

/-- Above the exact numbers nothing is read as one of them but its neighbour. -/
theorem maxExact_lt_roundNat {n : Nat} (h : maxExact + 1 < n) : maxExact < roundNat n := by
  have hne : n ≠ 0 := by omega
  have hlog : 53 ≤ n.log2 := (Nat.le_log2 hne).mpr (by unfold maxExact at h; omega)
  have hpow : 2 ^ n.log2 ≤ n := Nat.log2_self_le hne
  have hwhole : maxExact < n / 2 ^ (n.log2 - 52) * 2 ^ (n.log2 - 52) := by
    rcases Nat.eq_or_lt_of_le hlog with heq | hlt
    · rw [← heq]
      unfold maxExact at h ⊢
      omega
    · have hunit : 2 ^ n.log2 = 2 ^ 52 * 2 ^ (n.log2 - 52) := by
        rw [← pow_add]
        congr 1
        omega
      have hquotient : 2 ^ 52 ≤ n / 2 ^ (n.log2 - 52) := by
        apply (Nat.le_div_iff_mul_le (Nat.two_pow_pos _)).mpr
        rw [← hunit]
        exact hpow
      calc maxExact < 2 ^ 54 := by decide
        _ ≤ 2 ^ n.log2 := Nat.pow_le_pow_right (by decide) hlt
        _ = 2 ^ 52 * 2 ^ (n.log2 - 52) := hunit
        _ ≤ n / 2 ^ (n.log2 - 52) * 2 ^ (n.log2 - 52) := Nat.mul_le_mul_right _ hquotient
  rw [roundNat, if_neg (by omega)]
  dsimp only
  split
  · exact hwhole
  · exact hwhole.trans_le (Nat.mul_le_mul_right _ (Nat.le_succ _))

/-- Of the multiples of a power of ten only the number itself is read as an exact number. -/
theorem multipleReadAs_exact {n : Nat} (h : n ≤ maxExact) (k : Nat) :
    multipleReadAs n (10 ^ (k + 1)) = none ∨ multipleReadAs n (10 ^ (k + 1)) = some n := by
  have hten : 10 ^ (k + 1) = 10 * 10 ^ k := by rw [pow_succ, Nat.mul_comm]
  have hpos : 0 < 10 ^ k := Nat.pow_pos (by decide)
  have hlower : roundNat (n / 10 ^ (k + 1) * 10 ^ (k + 1)) = n / 10 ^ (k + 1) * 10 ^ (k + 1) := by
    rw [roundNat, if_pos ((Nat.div_mul_le_self n _).trans h)]
  have hupper : roundNat (n / 10 ^ (k + 1) * 10 ^ (k + 1) + 10 ^ (k + 1)) ≠ n := by
    have habove : n < n / 10 ^ (k + 1) * 10 ^ (k + 1) + 10 ^ (k + 1) :=
      Nat.lt_div_mul_add (Nat.pow_pos (by decide))
    by_cases hsmall : n / 10 ^ (k + 1) * 10 ^ (k + 1) + 10 ^ (k + 1) ≤ maxExact
    · rw [roundNat, if_pos hsmall]
      exact habove.ne'
    · -- a multiple of ten above `2 ^ 53` is not next to it
      have hmultiple : (n / 10 ^ (k + 1) * 10 ^ (k + 1) + 10 ^ (k + 1)) % 10 = 0 := by
        rw [hten, ← Nat.succ_mul, ← Nat.mul_assoc, Nat.mul_right_comm, Nat.mul_mod_left]
      have := maxExact_lt_roundNat
        (n := n / 10 ^ (k + 1) * 10 ^ (k + 1) + 10 ^ (k + 1)) (by unfold maxExact at *; omega)
      omega
  unfold multipleReadAs
  dsimp only
  rw [if_neg (fun h => hupper h.1), hlower]
  split
  · rename_i heq
    exact Or.inr (by rw [heq])
  · exact Or.inl rfl

theorem shortestNat_exact {n : Nat} (h : n ≤ maxExact) : shortestNat n = n := by
  unfold shortestNat
  generalize (Decimal.ofNat n).length = k
  induction k with
  | zero => rfl
  | succ k ih =>
    rcases multipleReadAs_exact h k with hnone | hsome
    · rw [shortestFrom, hnone, Option.getD_none, ih]
    · rw [shortestFrom, hsome, Option.getD_some]

@[simp] theorem shown_exact {n : Int} (h : Exact n) : shown n = n := by
  cases n with
  | ofNat n =>
    have hn : n ≤ maxExact := h
    rw [shown, roundNat, if_pos hn, shortestNat_exact hn]
    rfl
  | negSucc n =>
    have hn : n + 1 ≤ maxExact := h
    rw [shown, roundNat, if_pos hn, shortestNat_exact hn]
    rfl

example : shown (2 ^ 60) = 1152921504606847000 := by decide +kernel

end Arne.JsNumber
