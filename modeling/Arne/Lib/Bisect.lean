import Mathlib.Data.List.Basic
import Mathlib.Data.List.Sort

/-!
# Bisection of a sorted list

The lower-bound loop over a list sorted by an integer key, the ordered insertion
and the membership search built on it.  `bisect_eq` says what the loop finds; the
two operations are then read off it.
-/

namespace Arne.Bisect

variable {α : Type _}

/-- The loop `while lo < hi`: halve the interval, keep the half that still holds
    the first entry whose key is not below `x`.  `fuel` bounds the rounds. -/
def bisectLoop (key : α → Int) (arr : List α) (x : Int) : Nat → Nat → Nat → Nat
  | 0, lo, _ => lo
  | fuel + 1, lo, hi =>
      if lo < hi then
        let mid := (lo + hi) / 2
        match arr[mid]? with
        | some a =>
            if key a < x then bisectLoop key arr x fuel (mid + 1) hi
            else bisectLoop key arr x fuel lo mid
        | none => lo
      else lo

/-- First index whose key is not below `x`; the length when every key is. -/
def bisect (key : α → Int) (arr : List α) (x : Int) : Nat :=
  bisectLoop key arr x arr.length 0 arr.length

/-- Splice `a` in front of the first entry not below it. -/
def insert (key : α → Int) (arr : List α) (a : α) : List α :=
  arr.take (bisect key arr (key a)) ++ a :: arr.drop (bisect key arr (key a))

/-- Index of the entry with key `x`, if there is one. -/
def findIndex (key : α → Int) (arr : List α) (x : Int) : Option Nat :=
  let lo := bisect key arr x
  match arr[lo]? with
  | some a => if key a = x then some lo else none
  | none => none

/-- The lower bound of `x`: everything before it is below, nothing from it on is. -/
structure IsLowerBound (key : α → Int) (arr : List α) (x : Int) (i : Nat) : Prop where
  le_length : i ≤ arr.length
  below : ∀ a ∈ arr.take i, key a < x
  above : ∀ a ∈ arr.drop i, x ≤ key a

variable {key : α → Int} {arr : List α}

theorem bisectLoop_isLowerBound (hs : arr.Pairwise fun a b => key a < key b) (x : Int)
    (fuel lo hi : Nat) (hlohi : lo ≤ hi) (hhi : hi ≤ arr.length) (hfuel : hi - lo ≤ fuel)
    (hbelow : ∀ a ∈ arr.take lo, key a < x) (habove : ∀ a ∈ arr.drop hi, x ≤ key a) :
    IsLowerBound key arr x (bisectLoop key arr x fuel lo hi) := by
  induction fuel generalizing lo hi with
  | zero =>
    have hlh : lo = hi := by omega
    exact ⟨by simp only [bisectLoop]; omega, by simpa [bisectLoop] using hbelow,
      by simpa [bisectLoop, hlh] using habove⟩
  | succ fuel ih =>
    simp only [bisectLoop]
    split
    · rename_i hlt
      have hmid : (lo + hi) / 2 < arr.length := by omega
      rw [List.getElem?_eq_getElem hmid]
      simp only
      have hsorted := List.pairwise_iff_getElem.mp hs
      split
      · -- the middle entry is below: so is everything before it
        rename_i hkey
        refine ih _ _ (by omega) hhi (by omega) ?_ habove
        intro a ha
        obtain ⟨n, hn, rfl⟩ := List.mem_take_iff_getElem.mp ha
        rcases Nat.lt_or_ge n ((lo + hi) / 2) with hnm | hnm
        · exact lt_trans (hsorted n _ (by omega) hmid hnm) hkey
        · have : n = (lo + hi) / 2 := by omega
          subst this
          exact hkey
      · -- the middle entry is not below: neither is anything after it
        rename_i hkey
        refine ih _ _ (by omega) (by omega) (by omega) hbelow ?_
        intro a ha
        obtain ⟨n, hn, rfl⟩ := List.mem_drop_iff_getElem.mp ha
        rcases Nat.eq_zero_or_pos n with rfl | hpos
        · simpa using not_lt.mp hkey
        · exact le_of_lt (lt_of_le_of_lt (not_lt.mp hkey)
            (hsorted _ _ hmid (by omega) (by omega)))
    · rename_i hge
      have hlh : lo = hi := by omega
      exact ⟨by omega, hbelow, hlh ▸ habove⟩

theorem bisect_isLowerBound (hs : arr.Pairwise fun a b => key a < key b) (x : Int) :
    IsLowerBound key arr x (bisect key arr x) :=
  bisectLoop_isLowerBound hs x _ 0 _ (Nat.zero_le _) le_rfl (by omega) (by simp) (by simp)

/-- Inserting adds exactly one entry. -/
theorem insert_perm (a : α) : (insert key arr a).Perm (a :: arr) := by
  have h : (insert key arr a).Perm
      (a :: (arr.take (bisect key arr (key a)) ++ arr.drop (bisect key arr (key a)))) :=
    List.perm_middle
  rwa [List.take_append_drop] at h

/-- Inserting an entry with a new key keeps the list strictly sorted. -/
theorem insert_pairwise (hs : arr.Pairwise fun a b => key a < key b) (a : α)
    (hnew : ∀ b ∈ arr, key b ≠ key a) :
    (insert key arr a).Pairwise fun a b => key a < key b := by
  have hb := bisect_isLowerBound hs (key a)
  rw [insert, List.pairwise_append, List.pairwise_cons]
  refine ⟨hs.sublist (List.take_sublist _ _), ⟨?_, hs.sublist (List.drop_sublist _ _)⟩, ?_⟩
  · intro b hbmem
    exact lt_of_le_of_ne (hb.above b hbmem)
      (hnew b (List.mem_of_mem_drop hbmem)).symm
  · intro b hbmem c hcmem
    have hba := hb.below b hbmem
    rcases List.mem_cons.mp hcmem with rfl | hcmem
    · exact hba
    · exact lt_of_lt_of_le hba (hb.above c hcmem)

/-- The search finds the entry with the key when there is one. -/
theorem findIndex_eq_some (hs : arr.Pairwise fun a b => key a < key b) {a : α} (ha : a ∈ arr) :
    ∃ i, findIndex key arr (key a) = some i ∧ arr[i]? = some a := by
  have hb := bisect_isLowerBound hs (key a)
  have hdrop : a ∈ arr.drop (bisect key arr (key a)) := by
    rw [← List.take_append_drop (bisect key arr (key a)) arr, List.mem_append] at ha
    rcases ha with ha | ha
    · exact absurd (hb.below a ha) (lt_irrefl _)
    · exact ha
  -- the first entry not below `a` is `a` itself, for `a` sits at or after it
  cases hsplit : arr.drop (bisect key arr (key a)) with
  | nil => rw [hsplit] at hdrop; cases hdrop
  | cons b rest =>
    have hget : arr[bisect key arr (key a)]? = some b := by
      rw [← Nat.add_zero (bisect key arr (key a)), ← List.getElem?_drop, hsplit]
      rfl
    have hsorted : (b :: rest).Pairwise fun a b => key a < key b :=
      hsplit ▸ hs.sublist (List.drop_sublist _ _)
    rw [hsplit] at hdrop
    have hba : b = a := by
      rcases List.mem_cons.mp hdrop with h | h
      · exact h.symm
      · have h1 := (List.pairwise_cons.mp hsorted).1 a h
        have h2 := hb.above b (by rw [hsplit]; exact List.mem_cons_self)
        omega
    subst hba
    exact ⟨_, by simp [findIndex, hget], hget⟩

/-- Splicing out the entry the search found removes exactly the entries with
    that key. -/
theorem eraseIdx_of_getElem? (hs : arr.Pairwise fun a b => key a < key b) {a : α} {i : Nat}
    (h : arr[i]? = some a) : arr.eraseIdx i = arr.filter fun b => decide (key b ≠ key a) := by
  induction arr generalizing i with
  | nil => simp at h
  | cons b arr ih =>
    rw [List.pairwise_cons] at hs
    cases i with
    | zero =>
      obtain rfl : b = a := by simpa using h
      have hall : ∀ c ∈ arr, decide (key c ≠ key b) = true := by
        intro c hc
        have := hs.1 c hc
        simp only [decide_eq_true_eq]
        omega
      rw [List.eraseIdx_cons_zero, List.filter_cons_of_neg (by simp), List.filter_eq_self.mpr hall]
    | succ i =>
      have hmem : a ∈ arr := List.mem_of_getElem? (by simpa using h)
      have hlt := hs.1 a hmem
      have hne : key b ≠ key a := by omega
      have htail := ih hs.2 (i := i) (by simpa using h)
      simp only [List.eraseIdx_cons_succ, htail, List.filter_cons, ne_eq, hne, not_false_eq_true,
        decide_true, if_true]

end Arne.Bisect
