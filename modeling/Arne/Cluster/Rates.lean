import Arne.Cluster.Sampler
import Mathlib.Algebra.BigOperators.Group.List.Basic
import Mathlib.Algebra.Order.Field.Rat
import Mathlib.Tactic.FieldSimp
import Mathlib.Tactic.Linarith
import Mathlib.Tactic.Positivity

/-!
# Rates from samples (`cluster/sampler.rs`)

The chart of a topic has a point for each pair of adjacent samples: the messages between the
two totals over the time between the two stamps.  The samples that are kept are in order, so
the points account for what the topic grew by, up to what came in between two samples of one
stamp: these have no window to be drawn over.

Rates are exact rationals here.  Stamps and totals count from zero in an `i64`, so that no
difference of two of them overflows.
-/

namespace Arne.Cluster

structure RatePoint where
  tsMs : Int
  msgsPerSec : ℚ
  windowMs : Int
  continuous : Bool
  bytesPerSec : Option ℚ
deriving DecidableEq

/-- `JITTER_MS`. -/
def jitterMs : Int := 5000

def ratePoint? (intervalMs : Int) (p : TopicSample × TopicSample) : Option RatePoint :=
  let windowMs := p.2.tsMs - p.1.tsMs
  if windowMs ≤ 0 then none
  else
    let delta := p.2.totalMsgs - p.1.totalMsgs
    some
      { tsMs := p.2.tsMs
        msgsPerSec := delta / (windowMs / 1000)
        windowMs := windowMs
        continuous := decide (windowMs ≤ intervalMs * 2 + jitterMs)
        bytesPerSec := none }

/-- `buf.iter().zip(buf.iter().skip(1))`. -/
def adjacentSamples (buf : List TopicSample) : List (TopicSample × TopicSample) :=
  buf.zip (buf.drop 1)

def ratePoints (buf : List TopicSample) (intervalMs : Int) : List RatePoint :=
  (adjacentSamples buf).filterMap (ratePoint? intervalMs)

/-- The calls of `record` on a topic, in turn, each with its stamp and its total. -/
def recordAll (calls : List (Int × Int)) : List TopicSample :=
  calls.foldl (fun buf c => recordSample buf c.1 c.2) []

/-! ### The samples that are kept -/

/-- Stamps and totals do not fall, and no sample is older than the horizon. -/
structure InOrder (buf : List TopicSample) (newestMs : Int) : Prop where
  stamps : buf.Pairwise fun a b => a.tsMs ≤ b.tsMs
  totals : buf.Pairwise fun a b => a.totalMsgs ≤ b.totalMsgs
  past : ∀ s ∈ buf, s.tsMs ≤ newestMs
  near : ∀ s ∈ buf, newestMs - s.tsMs ≤ sampleHorizonMs

theorem InOrder.kept {buf : List TopicSample} {newestMs tsMs : Int}
    (h : InOrder buf newestMs) (hts : newestMs ≤ tsMs) : InOrder (withinHorizon buf tsMs) tsMs where
  stamps := h.stamps.filter _
  totals := h.totals.filter _
  past := fun s hs => le_trans (h.past s (List.mem_of_mem_filter hs)) hts
  near := fun _ hs => of_decide_eq_true (List.mem_filter.mp hs).2

/-- Totals that do not fall are at most the last one. -/
theorem InOrder.total_le {buf : List TopicSample} {newestMs : Int} (h : InOrder buf newestMs)
    {last : TopicSample} (hlast : buf.getLast? = some last) {s : TopicSample} (hs : s ∈ buf) :
    s.totalMsgs ≤ last.totalMsgs := by
  obtain ⟨front, rfl⟩ := List.getLast?_eq_some_iff.mp hlast
  rcases List.mem_append.mp hs with hs | hs
  · exact (List.pairwise_append.mp h.totals).2.2 s hs last List.mem_cons_self
  · rw [List.mem_singleton.mp hs]

theorem InOrder.push {buf : List TopicSample} {tsMs totalMsgs : Int} (h : InOrder buf tsMs)
    (htotals : ∀ s ∈ buf, s.totalMsgs ≤ totalMsgs) : InOrder (buf ++ [⟨tsMs, totalMsgs⟩]) tsMs where
  stamps := List.pairwise_append.mpr ⟨h.stamps, List.pairwise_singleton _ _, fun s hs new hnew => by
    rw [List.mem_singleton.mp hnew]
    exact h.past s hs⟩
  totals := List.pairwise_append.mpr ⟨h.totals, List.pairwise_singleton _ _, fun s hs new hnew => by
    rw [List.mem_singleton.mp hnew]
    exact htotals s hs⟩
  past := fun s hs => by
    rcases List.mem_append.mp hs with hs | hs
    · exact h.past s hs
    · rw [List.mem_singleton.mp hs]
  near := fun s hs => by
    rcases List.mem_append.mp hs with hs | hs
    · exact h.near s hs
    · rw [List.mem_singleton.mp hs, sub_self]
      decide

theorem inOrder_nil (newestMs : Int) : InOrder [] newestMs where
  stamps := List.Pairwise.nil
  totals := List.Pairwise.nil
  past := by simp
  near := by simp

theorem InOrder.record {buf : List TopicSample} {newestMs tsMs : Int} (h : InOrder buf newestMs)
    (hts : newestMs ≤ tsMs) (totalMsgs : Int) :
    InOrder (recordSample buf tsMs totalMsgs) tsMs := by
  unfold recordSample
  split
  · exact (inOrder_nil tsMs).push (by simp)
  · rename_i hshrank
    have hkept := h.kept hts
    refine hkept.push fun s hs => ?_
    cases hlast : (withinHorizon buf tsMs).getLast? with
    | none =>
      rw [List.getLast?_eq_none_iff.mp hlast] at hs
      cases hs
    | some last =>
      have hle := hkept.total_le hlast hs
      unfold shrank at hshrank
      rw [hlast, Option.any_some, decide_eq_true_eq] at hshrank
      omega

/-- Calls whose stamps do not fall leave samples in order, the newest one last. -/
theorem recordAll_concat_inOrder {calls : List (Int × Int)} {newest : Int × Int}
    (hstamps : (calls ++ [newest]).Pairwise fun a b => a.1 ≤ b.1) :
    InOrder (recordAll (calls ++ [newest])) newest.1 := by
  induction calls using List.reverseRecOn generalizing newest with
  | nil => exact (inOrder_nil newest.1).record (le_refl _) newest.2
  | append_singleton calls previous ih =>
    obtain ⟨hbefore, -, hle⟩ := List.pairwise_append.mp hstamps
    rw [recordAll, List.foldl_append]
    exact (ih hbefore).record (hle previous (by simp) newest List.mem_cons_self) newest.2

theorem recordAll_inOrder {calls : List (Int × Int)}
    (hstamps : calls.Pairwise fun a b => a.1 ≤ b.1) :
    ∃ newestMs, InOrder (recordAll calls) newestMs ∧
      ∀ newest ∈ (recordAll calls).getLast?, newest.tsMs = newestMs := by
  rcases List.eq_nil_or_concat calls with rfl | ⟨front, newest, rfl⟩
  · exact ⟨0, inOrder_nil 0, by simp [recordAll]⟩
  · rw [List.concat_eq_append] at hstamps ⊢
    refine ⟨newest.1, recordAll_concat_inOrder hstamps, fun last hlast => ?_⟩
    rw [recordAll, List.foldl_append, List.foldl_cons, List.foldl_nil,
      recordSample_getLast?] at hlast
    cases hlast
    rfl

/-! ### What the points account for -/

/-- The growth of the topic between the oldest and the newest sample. -/
def grown (buf : List TopicSample) : Int :=
  (buf.getLast?.elim 0 TopicSample.totalMsgs) - (buf.head?.elim 0 TopicSample.totalMsgs)

/-- The growth between adjacent samples of one stamp. -/
def grownInstantly (buf : List TopicSample) : Int :=
  (((adjacentSamples buf).filter fun p => p.1.tsMs = p.2.tsMs).map
    fun p => p.2.totalMsgs - p.1.totalMsgs).sum

/-- The messages that a point stands for. -/
def RatePoint.messages (r : RatePoint) : ℚ := r.msgsPerSec * (r.windowMs / 1000)

theorem ratePoint?_messages {intervalMs : Int} {p : TopicSample × TopicSample} {r : RatePoint}
    (h : ratePoint? intervalMs p = some r) :
    0 < r.windowMs ∧ p.1.tsMs < p.2.tsMs ∧
      r.messages = (p.2.totalMsgs - p.1.totalMsgs : Int) ∧
      (p.1.totalMsgs ≤ p.2.totalMsgs → 0 ≤ r.msgsPerSec) := by
  unfold ratePoint? at h
  dsimp only at h
  split at h
  · cases h
  · rename_i hwindow
    cases h
    have hpos : 0 < p.2.tsMs - p.1.tsMs := by omega
    have hposRat : (0 : ℚ) < ((p.2.tsMs - p.1.tsMs : Int) : ℚ) := by exact_mod_cast hpos
    refine ⟨hpos, by omega, ?_, ?_⟩
    · rw [RatePoint.messages]
      field_simp
    · intro hle
      have hdelta : (0 : ℚ) ≤ ((p.2.totalMsgs - p.1.totalMsgs : Int) : ℚ) := by
        exact_mod_cast sub_nonneg.mpr hle
      exact div_nonneg hdelta (by positivity)

theorem exists_ratePoint (intervalMs : Int) {p : TopicSample × TopicSample}
    (h : p.1.tsMs < p.2.tsMs) : ∃ r, ratePoint? intervalMs p = some r := by
  unfold ratePoint?
  rw [if_neg (by omega)]
  exact ⟨_, rfl⟩

theorem ratePoint?_eq_none {intervalMs : Int} {p : TopicSample × TopicSample}
    (h : p.1.tsMs = p.2.tsMs) : ratePoint? intervalMs p = none := by
  unfold ratePoint?
  rw [if_pos (by omega)]

/-- Each pair of samples with a window stands for its growth, and the others for nothing. -/
theorem sum_messages {intervalMs : Int} {pairs : List (TopicSample × TopicSample)}
    (hstamps : ∀ p ∈ pairs, p.1.tsMs ≤ p.2.tsMs) :
    ((pairs.filterMap (ratePoint? intervalMs)).map RatePoint.messages).sum +
        (((pairs.filter fun p => p.1.tsMs = p.2.tsMs).map
          fun p => p.2.totalMsgs - p.1.totalMsgs).sum : Int) =
      ((pairs.map fun p => p.2.totalMsgs - p.1.totalMsgs).sum : Int) := by
  induction pairs with
  | nil => simp
  | cons p pairs ih =>
    rw [List.forall_mem_cons] at hstamps
    have htail := ih hstamps.2
    by_cases hsame : p.1.tsMs = p.2.tsMs
    · rw [List.filterMap_cons_none (ratePoint?_eq_none hsame),
        List.filter_cons_of_pos (by simpa using hsame), List.map_cons, List.sum_cons,
        List.map_cons, List.sum_cons]
      push_cast at htail ⊢
      linarith
    · obtain ⟨r, hr⟩ := exists_ratePoint intervalMs (lt_of_le_of_ne hstamps.1 hsame)
      rw [List.filterMap_cons_some hr, List.filter_cons_of_neg (by simpa using hsame),
        List.map_cons, List.sum_cons, List.map_cons, List.sum_cons, (ratePoint?_messages hr).2.2.1]
      push_cast at htail ⊢
      linarith

/-- The growths between adjacent samples add up to the growth from the first to the last. -/
theorem sum_adjacentSamples (buf : List TopicSample) :
    ((adjacentSamples buf).map fun p => p.2.totalMsgs - p.1.totalMsgs).sum = grown buf := by
  induction buf with
  | nil => rfl
  | cons a buf ih =>
    cases buf with
    | nil => simp [adjacentSamples, grown]
    | cons b buf =>
      have htail : adjacentSamples (a :: b :: buf) = (a, b) :: adjacentSamples (b :: buf) := rfl
      rw [htail, List.map_cons, List.sum_cons, ih]
      simp only [grown, List.getLast?_cons_cons, List.head?_cons, Option.elim_some]
      omega

theorem pairwise_adjacent {r : TopicSample → TopicSample → Prop} {buf : List TopicSample}
    (h : buf.Pairwise r) : ∀ p ∈ adjacentSamples buf, r p.1 p.2 := by
  induction buf with
  | nil => simp [adjacentSamples]
  | cons a buf ih =>
    cases buf with
    | nil => simp [adjacentSamples]
    | cons b buf =>
      obtain ⟨ha, htail⟩ := List.pairwise_cons.mp h
      have hcons : adjacentSamples (a :: b :: buf) = (a, b) :: adjacentSamples (b :: buf) := rfl
      rw [hcons, List.forall_mem_cons]
      exact ⟨ha b List.mem_cons_self, ih htail⟩

theorem InOrder.instant_nonneg {buf : List TopicSample} {newestMs : Int}
    (h : InOrder buf newestMs) :
    ∀ n ∈ ((adjacentSamples buf).filter fun p => p.1.tsMs = p.2.tsMs).map
      fun p => p.2.totalMsgs - p.1.totalMsgs, 0 ≤ n := by
  intro n hn
  obtain ⟨p, hp, rfl⟩ := List.mem_map.mp hn
  exact sub_nonneg.mpr (pairwise_adjacent h.totals p (List.mem_of_mem_filter hp))

theorem InOrder.grownInstantly_eq_zero_iff {buf : List TopicSample} {newestMs : Int}
    (h : InOrder buf newestMs) :
    grownInstantly buf = 0 ↔
      ∀ p ∈ adjacentSamples buf, p.1.tsMs = p.2.tsMs → p.1.totalMsgs = p.2.totalMsgs := by
  constructor
  · intro hzero p hp hstamp
    have hmem : p.2.totalMsgs - p.1.totalMsgs ∈
        ((adjacentSamples buf).filter fun p => p.1.tsMs = p.2.tsMs).map
          fun p => p.2.totalMsgs - p.1.totalMsgs :=
      List.mem_map.mpr ⟨p, List.mem_filter.mpr ⟨hp, decide_eq_true hstamp⟩, rfl⟩
    have hle := List.single_le_sum h.instant_nonneg _ hmem
    have hnonneg := h.instant_nonneg _ hmem
    unfold grownInstantly at hzero
    omega
  · intro hsame
    refine List.sum_eq_zero fun n hn => ?_
    obtain ⟨p, hp, rfl⟩ := List.mem_map.mp hn
    obtain ⟨hmem, hstamp⟩ := List.mem_filter.mp hp
    rw [hsame p hmem (of_decide_eq_true hstamp), sub_self]

/-- **The points account for what was produced.**  After any calls of `record` whose stamps do
    not fall, the samples that are kept are in order and within the horizon of the newest one,
    every point has a window and a rate that is not negative, and the points stand for the
    growth from the first sample to the last, less that between samples of one stamp. -/
theorem rates_account_for_growth (calls : List (Int × Int)) (intervalMs : Int)
    (hstamps : calls.Pairwise fun a b => a.1 ≤ b.1) :
    ((recordAll calls).Pairwise fun a b => a.tsMs ≤ b.tsMs ∧ a.totalMsgs ≤ b.totalMsgs) ∧
      (∀ newest ∈ (recordAll calls).getLast?, ∀ s ∈ recordAll calls,
        newest.tsMs - s.tsMs ≤ sampleHorizonMs) ∧
      (∀ r ∈ ratePoints (recordAll calls) intervalMs, 0 < r.windowMs ∧ 0 ≤ r.msgsPerSec) ∧
      ((ratePoints (recordAll calls) intervalMs).map RatePoint.messages).sum =
        (grown (recordAll calls) - grownInstantly (recordAll calls) : Int) ∧
      (((ratePoints (recordAll calls) intervalMs).map RatePoint.messages).sum =
          grown (recordAll calls) ↔
        ∀ p ∈ adjacentSamples (recordAll calls),
          p.1.tsMs = p.2.tsMs → p.1.totalMsgs = p.2.totalMsgs) := by
  obtain ⟨newestMs, hinOrder, hnewest⟩ := recordAll_inOrder hstamps
  generalize recordAll calls = buf at hinOrder hnewest ⊢
  have hsum : ((ratePoints buf intervalMs).map RatePoint.messages).sum =
      (grown buf - grownInstantly buf : Int) := by
    have hmessages := @sum_messages intervalMs _ (pairwise_adjacent hinOrder.stamps)
    rw [sum_adjacentSamples] at hmessages
    rw [Int.cast_sub, ← hmessages]
    exact (add_sub_cancel_right _ _).symm
  refine ⟨hinOrder.stamps.and hinOrder.totals, fun newest hlast s hs => ?_, fun r hr => ?_, hsum,
    ?_⟩
  · rw [hnewest newest hlast]
    exact hinOrder.near s hs
  · obtain ⟨p, hp, hpoint⟩ := List.mem_filterMap.mp hr
    obtain ⟨hwindow, -, -, hrate⟩ := ratePoint?_messages hpoint
    exact ⟨hwindow, hrate (pairwise_adjacent hinOrder.totals p hp)⟩
  · rw [hsum, ← hinOrder.grownInstantly_eq_zero_iff, Int.cast_inj]
    exact sub_eq_self

theorem two_samples_account :
    ((ratePoints (recordAll [(0, 10), (10000, 60)]) 10000).map RatePoint.messages).sum = 50 := by
  have haccount := (rates_account_for_growth [(0, 10), (10000, 60)] 10000 (by decide)).2.2.2.1
  have hgrown : grown (recordAll [(0, 10), (10000, 60)]) -
      grownInstantly (recordAll [(0, 10), (10000, 60)]) = 50 := by decide
  rw [hgrown] at haccount
  exact haccount

/-- Two samples of one stamp have no point, and the messages between them are in none. -/
theorem one_stamp_not_accounted :
    recordAll [(0, 10), (0, 15)] = [⟨0, 10⟩, ⟨0, 15⟩] ∧
      ((ratePoints (recordAll [(0, 10), (0, 15)]) 10000).map RatePoint.messages).sum ≠
        grown (recordAll [(0, 10), (0, 15)]) := by
  have hbuf : recordAll [(0, 10), (0, 15)] = [⟨0, 10⟩, ⟨0, 15⟩] := by decide
  have hpoints : ratePoints [⟨0, 10⟩, ⟨0, 15⟩] 10000 = [] := by decide
  refine ⟨hbuf, ?_⟩
  rw [hbuf, hpoints]
  decide

end Arne.Cluster
