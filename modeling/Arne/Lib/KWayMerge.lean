import Mathlib.Algebra.Order.Ring.Int
import Mathlib.Data.List.Basic
import Mathlib.Data.List.Perm.Basic
import Mathlib.Order.Defs.LinearOrder

/-!
# K-way merge by repeated selection

A merge over streams that repeatedly scans every stream's head, keeps the one a
preference relation settles on, and pops it.  `pick` is one scan, `popAt` the
removal, and `merge` runs the two until every stream is empty.  The results are
the ones a client of such a loop needs: nothing is lost (`merge_perm`), a stream
comes out in its own order (`merge_filter`), a merge of sorted streams is sorted
(`merge_pairwise`), and any partial run is a prefix of the full one (`merge_eq`).
-/

namespace Arne.KWayMerge

variable {α : Type _}

/-! ### One scan over the heads -/

/-- Scan the heads from index `i` on, with `best` the choice so far; a later head
    replaces it only when `prefers` says so. -/
def pickFrom (prefers : α → α → Bool) : Option (Nat × α) → Nat → List (List α) → Option (Nat × α)
  | best, _, [] => best
  | best, i, [] :: streams => pickFrom prefers best (i + 1) streams
  | none, i, (candidate :: _) :: streams =>
      pickFrom prefers (some (i, candidate)) (i + 1) streams
  | some (bi, current), i, (candidate :: _) :: streams =>
      if prefers candidate current then
        pickFrom prefers (some (i, candidate)) (i + 1) streams
      else
        pickFrom prefers (some (bi, current)) (i + 1) streams

/-- The stream index and head one full scan settles on. -/
def pick (prefers : α → α → Bool) (streams : List (List α)) : Option (Nat × α) :=
  pickFrom prefers none 0 streams

/-- Drop the head of stream `i`. -/
def popAt (i : Nat) (streams : List (List α)) : List (List α) :=
  streams.modify i List.tail

/-- Records left over all streams. -/
def size (streams : List (List α)) : Nat := (streams.map List.length).sum

/-- `x` is the head of stream `i`. -/
def IsHead (streams : List (List α)) (i : Nat) (x : α) : Prop :=
  ∃ tl, streams[i]? = some (x :: tl)

theorem pickFrom_some_eq_some (prefers : α → α → Bool) (b : Nat × α) (i : Nat)
    (streams : List (List α)) : ∃ c, pickFrom prefers (some b) i streams = some c := by
  induction streams generalizing b i with
  | nil => exact ⟨b, rfl⟩
  | cons s streams ih =>
    cases s with
    | nil => exact ih b (i + 1)
    | cons candidate tl =>
      simp only [pickFrom]
      split
      · exact ih _ _
      · exact ih _ _

/-- What a scan from `i` returns is the incumbent or the head of one of the
    streams still ahead of it. -/
theorem pickFrom_isHead {prefers : α → α → Bool} {best : Option (Nat × α)} {i : Nat}
    {streams : List (List α)} {c : Nat × α} (h : pickFrom prefers best i streams = some c) :
    best = some c ∨ ∃ j, c.1 = i + j ∧ IsHead streams j c.2 := by
  induction streams generalizing best i with
  | nil => exact Or.inl h
  | cons s streams ih =>
    have shift : (∃ j, c.1 = i + 1 + j ∧ IsHead streams j c.2) →
        ∃ j, c.1 = i + j ∧ IsHead (s :: streams) j c.2 := by
      rintro ⟨j, hj, tl, htl⟩
      exact ⟨j + 1, by omega, tl, by simpa using htl⟩
    cases s with
    | nil =>
      rcases ih h with hb | hj
      · exact Or.inl hb
      · exact Or.inr (shift hj)
    | cons candidate tl =>
      have here : some (i, candidate) = some c →
          ∃ j, c.1 = i + j ∧ IsHead ((candidate :: tl) :: streams) j c.2 := by
        intro hc
        cases hc
        exact ⟨0, rfl, tl, rfl⟩
      cases best with
      | none =>
        rcases ih h with hb | hj
        · exact Or.inr (here hb)
        · exact Or.inr (shift hj)
      | some b =>
        simp only [pickFrom] at h
        split at h
        · rcases ih h with hb | hj
          · exact Or.inr (here hb)
          · exact Or.inr (shift hj)
        · rcases ih h with hb | hj
          · exact Or.inl hb
          · exact Or.inr (shift hj)

theorem pick_isHead {prefers : α → α → Bool} {streams : List (List α)} {i : Nat} {x : α}
    (h : pick prefers streams = some (i, x)) : IsHead streams i x := by
  rcases pickFrom_isHead h with hb | ⟨j, hj, hhead⟩
  · cases hb
  · have : i = j := by simpa using hj
    exact this ▸ hhead

theorem pickFrom_eq_none {prefers : α → α → Bool} {best : Option (Nat × α)} {i : Nat}
    {streams : List (List α)} :
    pickFrom prefers best i streams = none ↔ best = none ∧ ∀ s ∈ streams, s = [] := by
  induction streams generalizing best i with
  | nil => simp [pickFrom]
  | cons s streams ih =>
    cases s with
    | nil => simp only [pickFrom, ih, List.mem_cons, forall_eq_or_imp, true_and]
    | cons candidate tl =>
      have hne : ∀ b, pickFrom prefers (some b) (i + 1) streams ≠ none := by
        intro b
        obtain ⟨c, hc⟩ := pickFrom_some_eq_some prefers b (i + 1) streams
        simp [hc]
      cases best with
      | none => simp [pickFrom, hne]
      | some b =>
        simp only [pickFrom]
        split <;> simp [hne]

/-- A scan comes back empty-handed only when every stream is empty. -/
theorem pick_eq_none {prefers : α → α → Bool} {streams : List (List α)} :
    pick prefers streams = none ↔ ∀ s ∈ streams, s = [] := by
  simp [pick, pickFrom_eq_none]

/-- A strict weak order, as a selection loop uses it: never both ways round, and
    "not preferred" composes. -/
structure StrictWeak (prefers : α → α → Bool) : Prop where
  asymm : ∀ x y, prefers x y = true → prefers y x = false
  negTrans : ∀ x y z, prefers x y = false → prefers y z = false → prefers x z = false

theorem StrictWeak.irrefl {prefers : α → α → Bool} (h : StrictWeak prefers) (x : α) :
    prefers x x = false := by
  by_contra hx
  have hpref : prefers x x = true := by simpa using hx
  exact hx (h.asymm x x hpref)

/-- Comparing by a key of a linear order is a strict weak order. -/
theorem strictWeak_of_key {κ : Type _} [LinearOrder κ] (key : α → κ) {prefers : α → α → Bool}
    (h : ∀ x y, prefers x y = true ↔ key x < key y) : StrictWeak prefers where
  asymm x y hxy := by
    have hlt := (h x y).mp hxy
    exact Bool.eq_false_iff.mpr fun hyx => lt_asymm hlt ((h y x).mp hyx)
  negTrans x y z hxy hyz := by
    have hyx : key y ≤ key x := not_lt.mp fun hlt => Bool.eq_false_iff.mp hxy ((h x y).mpr hlt)
    have hzy : key z ≤ key y := not_lt.mp fun hlt => Bool.eq_false_iff.mp hyz ((h y z).mpr hlt)
    exact Bool.eq_false_iff.mpr fun hxz =>
      absurd ((h x z).mp hxz) (not_lt.mpr (le_trans hzy hyx))

/-- No head of the scanned streams, nor the incumbent, is preferred to the one
    the scan returns. -/
theorem pickFrom_not_beaten {prefers : α → α → Bool} (hp : StrictWeak prefers)
    {best : Option (Nat × α)} {i : Nat} {streams : List (List α)} {c : Nat × α}
    (h : pickFrom prefers best i streams = some c) :
    (∀ b, best = some b → prefers b.2 c.2 = false) ∧
      ∀ j y, IsHead streams j y → prefers y c.2 = false := by
  induction streams generalizing best i with
  | nil =>
    cases h
    constructor
    · rintro b ⟨⟩; exact hp.irrefl _
    · rintro j y ⟨tl, htl⟩; simp at htl
  | cons s streams ih =>
    have split_head : ∀ {j y}, IsHead (s :: streams) j y →
        (∃ tl, s = y :: tl) ∨ ∃ j, IsHead streams j y := by
      rintro j y ⟨tl, htl⟩
      cases j with
      | zero => exact Or.inl ⟨tl, by simpa using htl⟩
      | succ j => exact Or.inr ⟨j, tl, by simpa using htl⟩
    cases s with
    | nil =>
      obtain ⟨hbest, hheads⟩ := ih h
      refine ⟨hbest, ?_⟩
      intro j y hy
      rcases split_head hy with ⟨tl, htl⟩ | ⟨j', hj'⟩
      · cases htl
      · exact hheads j' y hj'
    | cons candidate tl =>
      cases best with
      | none =>
        obtain ⟨hbest, hheads⟩ := ih h
        refine ⟨by simp, ?_⟩
        intro j y hy
        rcases split_head hy with ⟨tl', htl'⟩ | ⟨j', hj'⟩
        · cases htl'; exact hbest _ rfl
        · exact hheads j' y hj'
      | some b =>
        simp only [pickFrom] at h
        split at h
        · -- the candidate took over: the old incumbent loses through it
          rename_i hpref
          obtain ⟨hbest, hheads⟩ := ih h
          have hcand : prefers candidate c.2 = false := hbest _ rfl
          constructor
          · rintro b' ⟨⟩
            exact hp.negTrans _ _ _ (hp.asymm _ _ hpref) hcand
          · intro j y hy
            rcases split_head hy with ⟨tl', htl'⟩ | ⟨j', hj'⟩
            · cases htl'; exact hcand
            · exact hheads j' y hj'
        · -- the incumbent stayed: the candidate loses through it
          rename_i hpref
          obtain ⟨hbest, hheads⟩ := ih h
          have hinc : prefers b.2 c.2 = false := hbest _ rfl
          constructor
          · rintro b' ⟨⟩; exact hinc
          · intro j y hy
            rcases split_head hy with ⟨tl', htl'⟩ | ⟨j', hj'⟩
            · cases htl'
              exact hp.negTrans _ _ _ (by simpa using hpref) hinc
            · exact hheads j' y hj'

theorem pick_not_beaten {prefers : α → α → Bool} (hp : StrictWeak prefers)
    {streams : List (List α)} {i j : Nat} {x y : α}
    (h : pick prefers streams = some (i, x)) (hy : IsHead streams j y) :
    prefers y x = false :=
  (pickFrom_not_beaten hp h).2 j y hy

/-! ### Popping -/

@[simp] theorem popAt_length (i : Nat) (streams : List (List α)) :
    (popAt i streams).length = streams.length := by
  simp [popAt]

theorem popAt_getElem? (i j : Nat) (streams : List (List α)) :
    (popAt i streams)[j]? = if i = j then streams[j]?.map List.tail else streams[j]? := by
  simp only [popAt, List.getElem?_modify]
  split <;> simp

/-- A pop leaves the end of every stream. -/
theorem popAt_suffix {streams : List (List α)} {i k : Nat} {s : List α}
    (h : (popAt i streams)[k]? = some s) : ∃ s', streams[k]? = some s' ∧ s <:+ s' := by
  rw [popAt_getElem?] at h
  split at h
  · obtain ⟨s', hs', rfl⟩ := Option.map_eq_some_iff.mp h
    exact ⟨s', hs', List.tail_suffix s'⟩
  · exact ⟨s, h, List.suffix_refl s⟩

theorem popAt_size {streams : List (List α)} {i : Nat} {x : α} (h : IsHead streams i x) :
    size streams = size (popAt i streams) + 1 := by
  obtain ⟨tl, htl⟩ := h
  induction streams generalizing i with
  | nil => simp at htl
  | cons s streams ih =>
    cases i with
    | zero =>
      have hs : s = x :: tl := by simpa using htl
      subst hs
      simp [popAt, size, List.modify_cons]
      omega
    | succ i =>
      have := ih (i := i) (by simpa using htl)
      simp only [popAt, size, List.modify_succ_cons, List.map_cons, List.sum_cons] at this ⊢
      omega

/-- Popping moves exactly one record out of the streams. -/
theorem popAt_perm {streams : List (List α)} {i : Nat} {x : α} (h : IsHead streams i x) :
    streams.flatten.Perm (x :: (popAt i streams).flatten) := by
  obtain ⟨tl, htl⟩ := h
  induction streams generalizing i with
  | nil => simp at htl
  | cons s streams ih =>
    cases i with
    | zero =>
      have hs : s = x :: tl := by simpa using htl
      subst hs
      simp [popAt, List.modify_cons]
    | succ i =>
      have := ih (i := i) (by simpa using htl)
      simp only [popAt, List.modify_succ_cons, List.flatten_cons] at this ⊢
      exact (this.append_left s).trans List.perm_middle

/-! ### The merge -/

/-- At most `fuel` rounds of the merge. -/
def mergeFuel (prefers : α → α → Bool) : Nat → List (List α) → List α
  | 0, _ => []
  | fuel + 1, streams =>
      match pick prefers streams with
      | none => []
      | some (i, x) => x :: mergeFuel prefers fuel (popAt i streams)

/-- The whole merge: each round empties one record, so `size` rounds suffice. -/
def merge (prefers : α → α → Bool) (streams : List (List α)) : List α :=
  mergeFuel prefers (size streams) streams

theorem mergeFuel_of_empty {prefers : α → α → Bool} {streams : List (List α)}
    (h : ∀ s ∈ streams, s = []) (fuel : Nat) : mergeFuel prefers fuel streams = [] := by
  cases fuel with
  | zero => rfl
  | succ fuel => simp [mergeFuel, pick_eq_none.mpr h]

theorem size_eq_zero {streams : List (List α)} : size streams = 0 ↔ ∀ s ∈ streams, s = [] := by
  induction streams with
  | nil => simp [size]
  | cons s streams ih =>
    have hcons : size (s :: streams) = s.length + size streams := by simp [size]
    rw [hcons, Nat.add_eq_zero_iff, ih, List.length_eq_zero_iff]
    simp only [List.mem_cons, forall_eq_or_imp]

/-- One round of the full merge. -/
theorem merge_eq (prefers : α → α → Bool) (streams : List (List α)) :
    merge prefers streams =
      match pick prefers streams with
      | none => []
      | some (i, x) => x :: merge prefers (popAt i streams) := by
  cases h : pick prefers streams with
  | none => exact mergeFuel_of_empty (pick_eq_none.mp h) _
  | some c =>
    have hsize := popAt_size (pick_isHead (i := c.1) (x := c.2) h)
    simp only [merge, hsize, mergeFuel, h]

theorem merge_of_pick {prefers : α → α → Bool} {streams : List (List α)} {i : Nat} {x : α}
    (h : pick prefers streams = some (i, x)) :
    merge prefers streams = x :: merge prefers (popAt i streams) := by
  rw [merge_eq, h]

theorem merge_of_empty {prefers : α → α → Bool} {streams : List (List α)}
    (h : ∀ s ∈ streams, s = []) : merge prefers streams = [] :=
  mergeFuel_of_empty h _

/-- Induction along the rounds of a merge. -/
theorem merge_induction (prefers : α → α → Bool) {motive : List (List α) → Prop}
    (empty : ∀ streams, (∀ s ∈ streams, s = []) → motive streams)
    (round : ∀ streams i x, pick prefers streams = some (i, x) →
      motive (popAt i streams) → motive streams)
    (streams : List (List α)) : motive streams := by
  induction hn : size streams generalizing streams with
  | zero => exact empty streams (size_eq_zero.mp hn)
  | succ n ih =>
    cases h : pick prefers streams with
    | none => exact empty streams (pick_eq_none.mp h)
    | some c =>
      have hsize := popAt_size (pick_isHead (i := c.1) (x := c.2) h)
      exact round streams c.1 c.2 h (ih _ (by omega))

/-- The merge is a rearrangement of the streams' records. -/
theorem merge_perm (prefers : α → α → Bool) (streams : List (List α)) :
    (merge prefers streams).Perm streams.flatten := by
  induction streams using merge_induction prefers with
  | empty streams h =>
    rw [merge_of_empty h, List.flatten_eq_nil_iff.mpr h]
  | round streams i x h ih =>
    rw [merge_of_pick h]
    exact (ih.cons x).trans (popAt_perm (pick_isHead h)).symm

/-- Records told apart by stream come out of the merge in their stream's order. -/
theorem merge_filter (prefers : α → α → Bool) (p : α → Bool) (j : Nat)
    (streams : List (List α))
    (hp : ∀ (i : Nat) (s : List α), streams[i]? = some s → ∀ x ∈ s, (p x = true ↔ i = j)) :
    (merge prefers streams).filter p = streams[j]?.getD [] := by
  induction streams using merge_induction prefers with
  | empty streams h =>
    rw [merge_of_empty h]
    cases hj : streams[j]? with
    | none => rfl
    | some s => simp [h s (List.mem_of_getElem? hj)]
  | round streams i x h ih =>
    obtain ⟨tl, htl⟩ := pick_isHead h
    have hpop : ∀ (k : Nat) (s : List α), (popAt i streams)[k]? = some s →
        ∀ y ∈ s, (p y = true ↔ k = j) := by
      intro k s hs y hy
      rw [popAt_getElem?] at hs
      split at hs
      · rename_i hik
        subst hik
        rw [htl] at hs
        obtain rfl : tl = s := by simpa using hs
        exact hp i _ htl y (List.mem_cons_of_mem _ hy)
      · exact hp k s hs y hy
    have hx := hp i _ htl x List.mem_cons_self
    rw [merge_of_pick h]
    by_cases hij : i = j
    · subst hij
      rw [List.filter_cons_of_pos (hx.mpr rfl), ih hpop, popAt_getElem?, if_pos rfl, htl]
      rfl
    · rw [List.filter_cons_of_neg (fun hpx => hij (hx.mp hpx)), ih hpop, popAt_getElem?,
        if_neg hij]

/-- If each stream is sorted and the preference refines the order, the merge is
    sorted: what is popped later was behind some head that lost. -/
theorem merge_pairwise {prefers : α → α → Bool} (hp : StrictWeak prefers) (le : α → α → Prop)
    (trans : ∀ {x y z}, le x y → le y z → le x z)
    (href : ∀ x y, prefers y x = false → le x y)
    (streams : List (List α)) (hs : ∀ s ∈ streams, s.Pairwise le) :
    (merge prefers streams).Pairwise le := by
  induction streams using merge_induction prefers with
  | empty streams h => rw [merge_of_empty h]; exact List.Pairwise.nil
  | round streams i x h ih =>
    obtain ⟨tl, htl⟩ := pick_isHead h
    have hsorted := List.pairwise_cons.mp (hs _ (List.mem_of_getElem? htl))
    have hpop : ∀ s ∈ popAt i streams, s.Pairwise le := by
      intro s hmem
      obtain ⟨k, hk⟩ := List.mem_iff_getElem?.mp hmem
      rw [popAt_getElem?] at hk
      split at hk
      · rename_i hik
        subst hik
        rw [htl] at hk
        obtain rfl : tl = s := by simpa using hk
        exact hsorted.2
      · exact hs s (List.mem_of_getElem? hk)
    rw [merge_of_pick h, List.pairwise_cons]
    refine ⟨?_, ih hpop⟩
    intro z hz
    have hz' := (merge_perm prefers (popAt i streams)).mem_iff.mp hz
    obtain ⟨s, hs', hzs⟩ := List.mem_flatten.mp hz'
    obtain ⟨k, hk⟩ := List.mem_iff_getElem?.mp hs'
    rw [popAt_getElem?] at hk
    split at hk
    · rename_i hik
      subst hik
      rw [htl] at hk
      obtain rfl : tl = s := by simpa using hk
      exact hsorted.1 z hzs
    · -- `z` is at or behind the head of another stream, and that head lost to `x`
      cases s with
      | nil => cases hzs
      | cons y rest =>
        have hxy : le x y := href x y (pick_not_beaten hp h ⟨rest, hk⟩)
        rcases List.mem_cons.mp hzs with rfl | hzr
        · exact hxy
        · have hsort := List.pairwise_cons.mp (hs _ (List.mem_of_getElem? hk))
          exact trans hxy (hsort.1 z hzr)

/-! ### The order of a merge -/

theorem StrictWeak.trans {prefers : α → α → Bool} (hp : StrictWeak prefers) {x y z : α}
    (hxy : prefers x y = true) (hyz : prefers y z = true) : prefers x z = true := by
  by_contra hxz
  have hno : prefers x y = false :=
    hp.negTrans x z y (Bool.eq_false_iff.mpr hxz) (hp.asymm y z hyz)
  rw [hno] at hxy
  cases hxy

/-- The head a scan returns is strictly preferred to every head before it. -/
theorem pickFrom_beats_before {prefers : α → α → Bool} (hp : StrictWeak prefers)
    {best : Option (Nat × α)} {i : Nat} {streams : List (List α)} {c : Nat × α}
    (hbest : ∀ b, best = some b → b.1 < i) (h : pickFrom prefers best i streams = some c) :
    (∀ b, best = some b → b.1 < c.1 → prefers c.2 b.2 = true) ∧
      ∀ j y, IsHead streams j y → i + j < c.1 → prefers c.2 y = true := by
  induction streams generalizing best i with
  | nil =>
    constructor
    · intro b hb hlt
      cases hb.symm.trans h
      exact absurd hlt (Nat.lt_irrefl _)
    · rintro j y ⟨tl, htl⟩
      simp at htl
  | cons s streams ih =>
    -- the heads behind the one of `s`
    have behind : (∀ j y, IsHead streams j y → i + 1 + j < c.1 →
        prefers c.2 y = true) → (∀ y tl, s = y :: tl → i < c.1 → prefers c.2 y = true) →
        ∀ j y, IsHead (s :: streams) j y → i + j < c.1 → prefers c.2 y = true := by
      rintro hrest hhere j y ⟨tl, htl⟩ hlt
      cases j with
      | zero => exact hhere y tl (by simpa using htl) hlt
      | succ j => exact hrest j y ⟨tl, by simpa using htl⟩ (by omega)
    cases s with
    | nil =>
      obtain ⟨hinc, hheads⟩ := ih (fun b hb => Nat.lt_succ_of_lt (hbest b hb)) h
      refine ⟨hinc, behind hheads ?_⟩
      rintro y tl ⟨⟩
    | cons candidate tl =>
      cases best with
      | none =>
        obtain ⟨hinc, hheads⟩ := ih (by
          rintro b ⟨⟩
          exact Nat.lt_succ_self i) h
        refine ⟨by simp, behind hheads ?_⟩
        rintro y tl' ⟨⟩ hlt
        exact hinc _ rfl hlt
      | some b =>
        have hb : b.1 < i := hbest b rfl
        simp only [pickFrom] at h
        split at h
        · -- the candidate took over: what beats it beats the old incumbent
          rename_i hpref
          obtain ⟨hinc, hheads⟩ := ih (by
            rintro b' ⟨⟩
            exact Nat.lt_succ_self i) h
          refine ⟨?_, behind hheads ?_⟩
          · rintro b' ⟨⟩ hlt
            rcases pickFrom_isHead h with hc | ⟨j, hj, -⟩
            · cases hc
              exact hpref
            · exact hp.trans (hinc _ rfl (by omega)) hpref
          · rintro y tl' ⟨⟩ hlt
            exact hinc _ rfl hlt
        · -- the incumbent stayed: what beats it beats the candidate
          rename_i hpref
          obtain ⟨hinc, hheads⟩ := ih (by
            rintro b' ⟨⟩
            exact Nat.lt_succ_of_lt hb) h
          refine ⟨hinc, behind hheads ?_⟩
          rintro y tl' ⟨⟩ hlt
          by_contra hno
          have hlose : prefers c.2 b.2 = false :=
            hp.negTrans _ _ _ (Bool.eq_false_iff.mpr hno) (Bool.eq_false_iff.mpr hpref)
          rw [hinc b rfl (Nat.lt_trans hb hlt)] at hlose
          cases hlose

theorem pick_beats_before {prefers : α → α → Bool} (hp : StrictWeak prefers)
    {streams : List (List α)} {i j : Nat} {x y : α} (h : pick prefers streams = some (i, x))
    (hy : IsHead streams j y) (hlt : j < i) : prefers x y = true := by
  refine (pickFrom_beats_before hp (by simp) h).2 j y hy ?_
  simpa using hlt

section Greedy

variable {κ : Type _} [LinearOrder κ] (key : α → κ) (prefers : α → α → Bool)

/-- `x` goes before `y`: of the earlier stream and not less preferred, or of the later one
    and preferred. -/
def Beats (x y : α) : Prop :=
  if key x < key y then prefers y x = false else prefers x y = true

/-- Every record beats the next record of any other stream. -/
def Greedy (merged : List α) : Prop :=
  ∀ front x back y rest, merged = front ++ x :: (back ++ y :: rest) → key x ≠ key y →
    (∀ z ∈ back, key z ≠ key y) → Beats key prefers x y

/-- The streams are listed by ascending key. -/
def Keyed (streams : List (List α)) : Prop :=
  ∀ (i j : Nat) (s t : List α), streams[i]? = some s → streams[j]? = some t →
    ∀ x ∈ s, ∀ y ∈ t, (key x < key y ↔ i < j)

/-- Two records have the same key when they come from the same stream. -/
def Apart (streams : List (List α)) : Prop :=
  ∀ (i j : Nat) (s t : List α), streams[i]? = some s → streams[j]? = some t →
    ∀ x ∈ s, ∀ y ∈ t, (key x = key y ↔ i = j)

variable {key prefers}

theorem Beats.asymm {x y : α} (h : Beats key prefers x y) (hne : key x ≠ key y) :
    ¬ Beats key prefers y x := by
  unfold Beats at h ⊢
  rcases lt_or_gt_of_ne hne with hlt | hgt
  · rw [if_pos hlt] at h
    rw [if_neg (not_lt_of_gt hlt), h]
    exact Bool.false_ne_true
  · rw [if_neg (not_lt_of_gt hgt)] at h
    rw [if_pos hgt, h]
    exact fun hno => Bool.false_ne_true hno.symm

/-- A stretch of a greedy list is greedy. -/
theorem Greedy.of_append (front back : List α) {merged : List α}
    (h : Greedy key prefers (front ++ merged ++ back)) : Greedy key prefers merged := by
  intro front' x between y rest heq hne hbetween
  apply h (front ++ front') x between y (rest ++ back) _ hne hbetween
  rw [heq]
  simp only [List.append_assoc, List.cons_append]

theorem Greedy.drop {merged : List α} (h : Greedy key prefers merged) (n : Nat) :
    Greedy key prefers (merged.drop n) := by
  apply Greedy.of_append (merged.take n) []
  rwa [List.append_nil, List.take_append_drop]

theorem Greedy.take {merged : List α} (h : Greedy key prefers merged) (n : Nat) :
    Greedy key prefers (merged.take n) := by
  apply Greedy.of_append [] (merged.drop n)
  rwa [List.nil_append, List.take_append_drop]

/-- Two greedy lists with the same records of every key are one list. -/
theorem Greedy.ext {merged merged' : List α} (h : Greedy key prefers merged)
    (h' : Greedy key prefers merged')
    (hsame : ∀ k, merged.filter (fun x => decide (key x = k)) =
      merged'.filter fun x => decide (key x = k)) : merged = merged' := by
  induction merged generalizing merged' with
  | nil =>
    cases merged' with
    | nil => rfl
    | cons x' rest' =>
      have hx' := hsame (key x')
      rw [List.filter_nil, List.filter_cons_of_pos (by simp)] at hx'
      cases hx'
  | cons x rest ih =>
    cases merged' with
    | nil =>
      have hx := hsame (key x)
      rw [List.filter_nil, List.filter_cons_of_pos (by simp)] at hx
      cases hx
    | cons x' rest' =>
      by_cases hkey : key x = key x'
      · have hx := hsame (key x)
        rw [List.filter_cons_of_pos (by simp), List.filter_cons_of_pos (by simp [hkey])] at hx
        obtain ⟨rfl, -⟩ := List.cons.inj hx
        congr 1
        apply ih
        · exact h.drop 1
        · exact h'.drop 1
        · intro k
          have hk := hsame k
          rw [List.filter_cons, List.filter_cons] at hk
          split at hk
          · exact (List.cons.inj hk).2
          · exact hk
      · -- each head waits for the other in its own list
        have hwait := hsame (key x')
        rw [List.filter_cons_of_neg (by simpa using hkey), List.filter_cons_of_pos (by simp),
          List.filter_eq_cons_iff] at hwait
        obtain ⟨back, after, hrest, hback, -, -⟩ := hwait
        have hwait' := hsame (key x)
        rw [List.filter_cons_of_pos (by simp),
          List.filter_cons_of_neg (by simpa using Ne.symm hkey), eq_comm, List.filter_eq_cons_iff] at hwait'
        obtain ⟨back', after', hrest', hback', -, -⟩ := hwait'
        have hbeats : Beats key prefers x x' :=
          h [] x back x' after (by rw [hrest]; rfl) hkey fun z hz => by simpa using hback z hz
        have hbeats' : Beats key prefers x' x :=
          h' [] x' back' x after' (by rw [hrest']; rfl) (Ne.symm hkey) fun z hz => by
            simpa using hback' z hz
        exact absurd hbeats' (hbeats.asymm hkey)

theorem Keyed.popAt {streams : List (List α)} (h : Keyed key streams) (i : Nat) :
    Keyed key (popAt i streams) := by
  intro j k s t hs ht x hx y hy
  obtain ⟨s', hs', hsub⟩ := popAt_suffix hs
  obtain ⟨t', ht', hsub'⟩ := popAt_suffix ht
  exact h j k s' t' hs' ht' x (hsub.subset hx) y (hsub'.subset hy)

theorem Keyed.key_eq_iff {streams : List (List α)} (h : Keyed key streams) {i j : Nat}
    {s t : List α} (hs : streams[i]? = some s) (ht : streams[j]? = some t) {x y : α} (hx : x ∈ s)
    (hy : y ∈ t) : key x = key y ↔ i = j := by
  have hlt := h i j s t hs ht x hx y hy
  have hgt := h j i t s ht hs y hy x hx
  constructor
  · intro heq
    rcases Nat.lt_trichotomy i j with hij | hij | hij
    · exact absurd (hlt.mpr hij) (heq ▸ lt_irrefl _)
    · exact hij
    · exact absurd (hgt.mpr hij) (heq ▸ lt_irrefl _)
  · rintro rfl
    apply le_antisymm
    · exact not_lt.mp fun hyx => Nat.lt_irrefl i (hgt.mp hyx)
    · exact not_lt.mp fun hxy => Nat.lt_irrefl i (hlt.mp hxy)

theorem Keyed.apart {streams : List (List α)} (h : Keyed key streams) : Apart key streams :=
  fun _ _ _ _ hs ht _ hx _ hy => h.key_eq_iff hs ht hx hy

/-- Streams made from sorted labels, each of records with its label for a key. -/
theorem keyed_map {ι : Type _} {labels : List ι} (label : ι → κ) (stream : ι → List α)
    (hsorted : labels.Pairwise fun a b => label a < label b)
    (hkey : ∀ a ∈ labels, ∀ x ∈ stream a, key x = label a) : Keyed key (labels.map stream) := by
  have hlt : ∀ (i j : Nat) (a b : ι), labels[i]? = some a → labels[j]? = some b → i < j →
      label a < label b := by
    intro i j a b hi hj hij
    obtain ⟨hi', rfl⟩ := List.getElem?_eq_some_iff.mp hi
    obtain ⟨hj', rfl⟩ := List.getElem?_eq_some_iff.mp hj
    exact List.pairwise_iff_getElem.mp hsorted i j hi' hj' hij
  intro i j s t hs ht x hx y hy
  rw [List.getElem?_map] at hs ht
  obtain ⟨a, ha, rfl⟩ := Option.map_eq_some_iff.mp hs
  obtain ⟨b, hb, rfl⟩ := Option.map_eq_some_iff.mp ht
  rw [hkey a (List.mem_of_getElem? ha) x hx, hkey b (List.mem_of_getElem? hb) y hy]
  constructor
  · intro hab
    rcases Nat.lt_trichotomy i j with hij | rfl | hij
    · exact hij
    · rw [ha] at hb
      cases hb
      exact absurd hab (lt_irrefl _)
    · exact absurd hab (not_lt_of_gt (hlt j i b a hb ha hij))
  · exact hlt i j a b ha hb

omit [LinearOrder κ] in
theorem Apart.popAt {streams : List (List α)} (h : Apart key streams) (i : Nat) :
    Apart key (popAt i streams) := by
  intro j k s t hs ht x hx y hy
  obtain ⟨s', hs', hsub⟩ := popAt_suffix hs
  obtain ⟨t', ht', hsub'⟩ := popAt_suffix ht
  exact h j k s' t' hs' ht' x (hsub.subset hx) y (hsub'.subset hy)

omit [LinearOrder κ] in
theorem Apart.cons {k : κ} {s : List α} {streams : List (List α)} (h : Apart key streams)
    (hfirst : ∀ x ∈ s, key x = k) (hlater : ∀ t ∈ streams, ∀ y ∈ t, key y ≠ k) :
    Apart key (s :: streams) := by
  intro i j s' t hs' ht x hx y hy
  cases i with
  | zero =>
    obtain rfl : s = s' := by simpa using hs'
    cases j with
    | zero =>
      obtain rfl : s = t := by simpa using ht
      simp [hfirst x hx, hfirst y hy]
    | succ j =>
      have hne := hlater t (List.mem_of_getElem? ht) y hy
      simpa [hfirst x hx] using Ne.symm hne
  | succ i =>
    cases j with
    | zero =>
      obtain rfl : s = t := by simpa using ht
      have hne := hlater s' (List.mem_of_getElem? hs') x hx
      simpa [hfirst y hy] using hne
    | succ j =>
      have hij := h i j s' t hs' ht x hx y hy
      simpa using hij

omit [LinearOrder κ] in
/-- What holds along every stream holds in the merge between records of one key. -/
theorem merge_pairwise_same {r : α → α → Prop} {streams : List (List α)}
    (hk : Apart key streams) (hs : ∀ s ∈ streams, s.Pairwise r) :
    (merge prefers streams).Pairwise fun x y => key x = key y → r x y := by
  induction streams using merge_induction prefers with
  | empty streams h =>
    rw [merge_of_empty h]
    exact List.Pairwise.nil
  | round streams i x h ih =>
    obtain ⟨tl, htl⟩ := pick_isHead h
    have hpop : ∀ s ∈ KWayMerge.popAt i streams, s.Pairwise r := by
      intro s hmem
      obtain ⟨k, hk⟩ := List.mem_iff_getElem?.mp hmem
      obtain ⟨s', hs', hsub⟩ := popAt_suffix hk
      exact (hs s' (List.mem_of_getElem? hs')).sublist hsub.sublist
    rw [merge_of_pick h, List.pairwise_cons]
    refine ⟨?_, ih (hk.popAt i) hpop⟩
    intro z hz hkey
    obtain ⟨s, hmem, hzs⟩ := List.mem_flatten.mp ((merge_perm prefers _).subset hz)
    obtain ⟨k, hks⟩ := List.mem_iff_getElem?.mp hmem
    obtain ⟨s', hs', hsub⟩ := popAt_suffix hks
    -- a record of the key of `x` is behind `x` in its stream
    obtain rfl : i = k :=
      (hk i k _ s' htl hs' x List.mem_cons_self z (hsub.subset hzs)).mp hkey
    rw [popAt_getElem?, if_pos rfl, htl] at hks
    obtain rfl : tl = s := by simpa using hks
    exact (List.pairwise_cons.mp (hs _ (List.mem_of_getElem? htl))).1 z hzs

/-- A merge whose every pick beats the other heads is greedy, whichever comparison picks.
    `I` is what the streams keep while they are popped. -/
theorem greedy_of_beats {I : List (List α) → Prop} {picks : α → α → Bool}
    (hpop : ∀ streams i, I streams → I (popAt i streams))
    (hapart : ∀ streams, I streams → Apart key streams)
    (hbeats : ∀ streams i x j y, I streams → pick picks streams = some (i, x) →
      IsHead streams j y → i ≠ j → Beats key prefers x y)
    {streams : List (List α)} (hI : I streams) : Greedy key prefers (merge picks streams) := by
  induction streams using merge_induction picks with
  | empty streams h =>
    intro front x back y rest heq
    rw [merge_of_empty h] at heq
    exact absurd heq (by simp)
  | round streams i x h ih =>
    intro front x' back y rest heq hne hback
    rw [merge_of_pick h] at heq
    cases front with
    | cons f front =>
      exact ih (hpop streams i hI) front x' back y rest (List.cons.inj heq).2 hne hback
    | nil =>
      obtain ⟨hx, hrest⟩ := List.cons.inj heq
      subst hx
      obtain ⟨tl, htl⟩ := pick_isHead h
      -- `y` is the head of its stream
      have hy : y ∈ (popAt i streams).flatten := by
        apply (merge_perm picks _).subset
        rw [hrest]
        simp
      obtain ⟨s, hs, hys⟩ := List.mem_flatten.mp hy
      obtain ⟨j, hj⟩ := List.mem_iff_getElem?.mp hs
      have hfilter := merge_filter picks (fun z => decide (key z = key y)) j (popAt i streams)
        (fun k t ht z hz => by
          rw [decide_eq_true_eq]
          exact hapart _ (hpop streams i hI) k j t s ht hj z hz y hys)
      rw [hrest, List.filter_append, List.filter_eq_nil_iff.mpr (by simpa using hback),
        List.nil_append, List.filter_cons_of_pos (by simp), hj, Option.getD_some] at hfilter
      have hij : i ≠ j := by
        rintro rfl
        rw [popAt_getElem?, if_pos rfl, htl] at hj
        obtain rfl : tl = s := by simpa using hj
        exact hne ((hapart streams hI i i _ _ htl htl x List.mem_cons_self y
          (List.mem_cons_of_mem _ hys)).mpr rfl)
      rw [popAt_getElem?, if_neg hij] at hj
      exact hbeats streams i x j y hI h ⟨_, hfilter ▸ hj⟩ hij

theorem merge_greedy (hp : StrictWeak prefers) {streams : List (List α)} (hk : Keyed key streams) :
    Greedy key prefers (merge prefers streams) := by
  apply greedy_of_beats (I := Keyed key) (fun _ i h => h.popAt i) (fun _ h => h.apart) _ hk
  intro streams i x j y hk h hy hij
  obtain ⟨tl, htl⟩ := pick_isHead h
  obtain ⟨tl', htl'⟩ := hy
  have hlt := hk i j _ _ htl htl' x List.mem_cons_self y List.mem_cons_self
  unfold Beats
  split
  · exact pick_not_beaten hp h ⟨tl', htl'⟩
  · rename_i hge
    exact pick_beats_before hp h ⟨tl', htl'⟩
      (Nat.lt_of_le_of_ne (Nat.not_lt.mp fun hij => hge (hlt.mpr hij)) (Ne.symm hij))

/-- With the tie rule in the comparison itself, the order of the streams is indifferent. -/
theorem merge_greedy_of_ties {picks : α → α → Bool} (hp : StrictWeak picks)
    (hpicks : ∀ x y, picks x y = true ↔
      prefers x y = true ∨ (prefers y x = false ∧ key x < key y))
    {streams : List (List α)} (hk : Apart key streams) :
    Greedy key prefers (merge picks streams) := by
  apply greedy_of_beats (I := Apart key) (fun _ i h => h.popAt i) (fun _ h => h) _ hk
  intro streams i x j y hk h hy hij
  obtain ⟨tl, htl⟩ := pick_isHead h
  have hnot := pick_not_beaten hp h hy
  obtain ⟨tl', htl'⟩ := hy
  have hne : key x ≠ key y := fun heq =>
    hij ((hk i j _ _ htl htl' x List.mem_cons_self y List.mem_cons_self).mp heq)
  have hno := mt (hpicks y x).mpr (Bool.eq_false_iff.mp hnot)
  rw [not_or, not_and] at hno
  unfold Beats
  split
  · exact Bool.eq_false_iff.mpr hno.1
  · rename_i hge
    by_contra hxy
    exact hno.2 (Bool.eq_false_iff.mpr hxy) (lt_of_le_of_ne (not_lt.mp hge) (Ne.symm hne))

/-- The order of a list decides, so two comparisons that agree on its records will do. -/
theorem Greedy.congr {prefers' : α → α → Bool} {merged : List α}
    (h : Greedy key prefers merged)
    (hsame : ∀ x ∈ merged, ∀ y ∈ merged, prefers x y = prefers' x y) :
    Greedy key prefers' merged := by
  intro front x back y rest heq hne hback
  have hx : x ∈ merged := by rw [heq]; simp
  have hy : y ∈ merged := by rw [heq]; simp
  have hbeats := h front x back y rest heq hne hback
  unfold Beats at hbeats ⊢
  rwa [← hsame x hx y hy, ← hsame y hy x hx]

theorem Greedy.map {β : Type _} {key' : β → κ} {prefers' : β → β → Bool} {f : β → α}
    (hkey : ∀ b, key (f b) = key' b) (hprefers : ∀ b c, prefers (f b) (f c) = prefers' b c)
    {merged : List β} (h : Greedy key' prefers' merged) : Greedy key prefers (merged.map f) := by
  intro front x back y rest heq hne hback
  obtain ⟨front', after, rfl, -, hafter⟩ := List.map_eq_append_iff.mp heq
  obtain ⟨x', after', rfl, rfl, hafter'⟩ := List.map_eq_cons_iff.mp hafter
  obtain ⟨back', last, rfl, rfl, hlast⟩ := List.map_eq_append_iff.mp hafter'
  obtain ⟨y', rest', rfl, rfl, -⟩ := List.map_eq_cons_iff.mp hlast
  have hbeats := h front' x' back' y' rest' rfl (by rwa [hkey, hkey] at hne) (by
    intro z hz
    have hz' := hback (f z) (List.mem_map_of_mem hz)
    rwa [hkey, hkey] at hz')
  unfold Beats at hbeats ⊢
  rwa [hkey, hkey, hprefers, hprefers]

/-- The order within the keys and the greedy rule between them settle a list. -/
theorem Greedy.eq_of_perm {r : α → α → Prop} (hasymm : ∀ x y, r x y → ¬ r y x)
    {merged merged' : List α} (h : Greedy key prefers merged) (h' : Greedy key prefers merged')
    (hperm : merged.Perm merged') (hr : merged.Pairwise fun x y => key x = key y → r x y)
    (hr' : merged'.Pairwise fun x y => key x = key y → r x y) : merged = merged' := by
  have hof : ∀ (k : κ) (l : List α), (l.Pairwise fun x y => key x = key y → r x y) →
      (l.filter fun x => decide (key x = k)).Pairwise r := by
    intro k l hl
    refine (hl.filter _).imp_of_mem fun {x y} hx hy hxy => hxy ?_
    have hxk : key x = k := by simpa using (List.mem_filter.mp hx).2
    have hyk : key y = k := by simpa using (List.mem_filter.mp hy).2
    rw [hxk, hyk]
  apply h.ext h'
  intro k
  exact (hperm.filter _).eq_of_pairwise (fun x y _ _ hxy hyx => absurd hyx (hasymm x y hxy))
    (hof k merged hr) (hof k merged' hr')

end Greedy

end Arne.KWayMerge
