import Arne.Lib.MachineWord
import Arne.Message.Types

/-!
# Cursors and window arithmetic (`timeline/cursor.rs`, `timeline/window.rs`)

For `Back` a position is the exclusive upper bound of what is read next, for
`Forward` the inclusive lower bound.  Positions and watermarks are lists of
entries, looked up by partition; nothing forces a partition to occur once.  Offsets
are words, and the far end of a window is a sum of them.
-/

namespace Arne.Timeline

open Arne.Message MachineWord

inductive Direction where
  | back
  | forward
deriving DecidableEq, Repr

/-- An entry `(partition, position)` of a cursor. -/
abbrev Position := Int × Int

/-- An entry `(partition, low, high)` of a watermarks reading. -/
abbrev Watermark := Int × Int × Int

/-- The decoded cursor.  The wire form is base64 of its JSON. -/
structure Cursor where
  direction : Direction
  positions : List Position
deriving DecidableEq, Repr

/-- `Ord::clamp`. -/
def clamp (pos lo hi : Int) : Int :=
  if pos < lo then lo else if hi < pos then hi else pos

theorem clamp_mem (pos : Int) {lo hi : Int} (h : lo ≤ hi) :
    lo ≤ clamp pos lo hi ∧ clamp pos lo hi ≤ hi := by
  unfold clamp
  split
  · omega
  · split <;> omega

theorem clamp_of_mem {pos lo hi : Int} (h1 : lo ≤ pos) (h2 : pos ≤ hi) : clamp pos lo hi = pos := by
  unfold clamp
  rw [if_neg (by omega), if_neg (by omega)]

/-- `watermarks.iter().find(|(wp, _, _)| *wp == p)`. -/
def findWatermark (watermarks : List Watermark) (p : Int) : Option (Int × Int) :=
  (watermarks.find? fun w => w.1 == p).map Prod.snd

theorem findWatermark_mem {watermarks : List Watermark} {p : Int} {w : Int × Int}
    (h : findWatermark watermarks p = some w) : (p, w) ∈ watermarks := by
  obtain ⟨v, hfind, rfl⟩ := Option.map_eq_some_iff.mp h
  have hp : v.1 = p := by simpa using List.find?_some hfind
  exact hp ▸ List.mem_of_find?_eq_some hfind

/-- Every low watermark is at or below its high watermark. -/
def Ordered (watermarks : List Watermark) : Prop :=
  ∀ p lo hi, findWatermark watermarks p = some (lo, hi) → lo ≤ hi

/-- Per position, a window of up to `span` offsets adjacent to it in `direction`;
    a position with nothing on that side has none, nor has one whose sum wraps. -/
def pageWindow (watermarks : List Watermark) (direction : Direction) (span : Nat)
    (position : Position) : Option PartitionRange :=
  match findWatermark watermarks position.1 with
  | none => none
  | some (lo, hi) =>
      let span := asI64 span
      let pos := clamp position.2 lo hi
      let (start, end_) := match direction with
        | .back => (max (wrappingSub pos span) lo, pos)
        | .forward => (pos, min (wrappingAdd pos span) hi)
      if start < end_ then some ⟨position.1, start, end_⟩ else none

def pageWindows (positions : List Position) (watermarks : List Watermark) (direction : Direction)
    (span : Nat) : List PartitionRange :=
  positions.filterMap (pageWindow watermarks direction span)

def atEdge (pos lo hi : Int) (direction : Direction) : Bool :=
  match direction with
  | .back => pos == lo
  | .forward => pos == hi

/-- Clamp every position into its watermarks; drop a partition that has none. -/
def clampPosition (watermarks : List Watermark) (position : Position) : Option Position :=
  (findWatermark watermarks position.1).map fun w => (position.1, clamp position.2 w.1 w.2)

def clampPositions (positions : List Position) (watermarks : List Watermark) : List Position :=
  positions.filterMap (clampPosition watermarks)

/-- The offset of a window next to the position it was planned from. -/
def adjacentOffset (w : PartitionRange) (direction : Direction) : Int :=
  match direction with
  | .back => w.end_ - 1
  | .forward => w.start

/-- The loop of `cap_windows_to_budget`, with the span of the windows kept so far. -/
def capWindowsLoop (budgetCap : Nat) : Nat → List PartitionRange → List PartitionRange
  | _, [] => []
  | total, w :: windows =>
      if budgetCap < total + w.span then []
      else w :: capWindowsLoop budgetCap (total + w.span) windows

/-- The longest prefix of the windows whose total span fits the budget. -/
def capWindowsToBudget (windows : List PartitionRange) (budgetCap : Nat) : List PartitionRange :=
  capWindowsLoop budgetCap 0 windows

/-! ### What the window functions return -/

theorem capWindowsLoop_front (budgetCap total : Nat) (windows : List PartitionRange) :
    capWindowsLoop budgetCap total windows <+: windows := by
  induction windows generalizing total with
  | nil => exact List.nil_prefix
  | cons w windows ih =>
    simp only [capWindowsLoop]
    split
    · exact List.nil_prefix
    · exact List.prefix_cons_inj w |>.mpr (ih _)

theorem capWindowsToBudget_front (windows : List PartitionRange) (budgetCap : Nat) :
    capWindowsToBudget windows budgetCap <+: windows :=
  capWindowsLoop_front _ _ _

theorem capWindowsLoop_total {budgetCap total : Nat} (h : total ≤ budgetCap)
    (windows : List PartitionRange) :
    total + Message.total (capWindowsLoop budgetCap total windows) ≤ budgetCap := by
  induction windows generalizing total with
  | nil => simpa [capWindowsLoop] using h
  | cons w windows ih =>
    simp only [capWindowsLoop]
    split
    · simpa using h
    · have hfits : total + w.span ≤ budgetCap := by omega
      have := ih hfits
      rw [total_cons]
      omega

/-- The windows of a chunk never span more than what is left of the budget. -/
theorem capWindowsToBudget_total (windows : List PartitionRange) (budgetCap : Nat) :
    Message.total (capWindowsToBudget windows budgetCap) ≤ budgetCap := by
  have h := capWindowsLoop_total (Nat.zero_le budgetCap) windows
  simpa [capWindowsToBudget] using h

/-- The cap only empties a non-empty plan when its first window alone is too wide. -/
theorem capWindowsToBudget_ne_nil {windows : List PartitionRange} {budgetCap : Nat}
    (hne : windows ≠ []) (hfit : ∀ w ∈ windows, w.span ≤ budgetCap) :
    capWindowsToBudget windows budgetCap ≠ [] := by
  cases windows with
  | nil => exact absurd rfl hne
  | cons w windows =>
    have := hfit w List.mem_cons_self
    simp only [capWindowsToBudget, capWindowsLoop, Nat.zero_add]
    rw [if_neg (by omega)]
    exact List.cons_ne_nil _ _

/-- A planned window, read off the position it was planned from. -/
structure Planned (watermarks : List Watermark) (direction : Direction)
    (position : Position) (w : PartitionRange) : Prop where
  partition_eq : w.partition = position.1
  nonempty : w.start < w.end_
  bounds : ∀ lo hi, findWatermark watermarks position.1 = some (lo, hi) →
    lo ≤ w.start ∧ w.end_ ≤ hi
  near : ∀ lo hi, findWatermark watermarks position.1 = some (lo, hi) →
    match direction with
    | .back => w.end_ = clamp position.2 lo hi
    | .forward => w.start = clamp position.2 lo hi

theorem pageWindow_planned {watermarks : List Watermark} {direction : Direction} {span : Nat}
    {position : Position} {w : PartitionRange}
    (h : pageWindow watermarks direction span position = some w) :
    Planned watermarks direction position w := by
  unfold pageWindow at h
  cases hw : findWatermark watermarks position.1 with
  | none => rw [hw] at h; cases h
  | some bounds =>
    obtain ⟨lo, hi⟩ := bounds
    rw [hw] at h
    -- a window only fits between watermarks in order, where `clamp` stays inside
    have hclamp : lo ≤ hi → clamp position.2 lo hi ≤ hi ∧ lo ≤ clamp position.2 lo hi :=
      fun hle => (clamp_mem _ hle).symm
    have hout : hi < lo → clamp position.2 lo hi ≤ lo ∧ hi ≤ clamp position.2 lo hi := by
      intro hlt
      unfold clamp
      split
      · omega
      · split <;> omega
    cases direction with
    | back | forward =>
      simp only [Option.ite_none_right_eq_some] at h
      obtain ⟨hlt, hw'⟩ := h
      cases hw'
      refine ⟨rfl, hlt, ?_, ?_⟩
      · intro lo' hi' hsome
        rw [hw] at hsome
        cases hsome
        simp only
        omega
      · intro lo' hi' hsome
        rw [hw] at hsome
        cases hsome
        rfl

/-- The far end of a window of `span` offsets is a word. -/
def InWords (direction : Direction) (span : Nat) (pos : Int) : Prop :=
  match direction with
  | .back => FitsI64 (pos - span)
  | .forward => FitsI64 (pos + span)

instance (direction : Direction) (span : Nat) (pos : Int) :
    Decidable (InWords direction span pos) :=
  match direction with
  | .back => inferInstanceAs (Decidable (FitsI64 (pos - span)))
  | .forward => inferInstanceAs (Decidable (FitsI64 (pos + span)))

section

variable {watermarks : List Watermark} {direction : Direction} {span : Nat} {p pos lo hi : Int}

/-- A window is as long as the span, or ends at the edge of the topic. -/
theorem pageWindow_back (hw : findWatermark watermarks p = some (lo, hi)) (hlo : lo ≤ pos)
    (hhi : pos ≤ hi) (h : FitsI64 (pos - span)) :
    pageWindow watermarks .back span (p, pos) =
      if lo < pos ∧ 0 < span then some ⟨p, max (pos - span) lo, pos⟩ else none := by
  unfold pageWindow
  simp only [hw, clamp_of_mem hlo hhi, wrappingSub_asI64, wrap_of_fits h]
  apply if_congr _ rfl rfl
  omega

theorem pageWindow_forward (hw : findWatermark watermarks p = some (lo, hi)) (hlo : lo ≤ pos)
    (hhi : pos ≤ hi) (h : FitsI64 (pos + span)) :
    pageWindow watermarks .forward span (p, pos) =
      if pos < hi ∧ 0 < span then some ⟨p, pos, min (pos + span) hi⟩ else none := by
  unfold pageWindow
  simp only [hw, clamp_of_mem hlo hhi, wrappingAdd_asI64, wrap_of_fits h]
  apply if_congr _ rfl rfl
  omega

/-- A sum that is no word leaves a position without a window. -/
theorem pageWindow_of_not_inWords (hw : findWatermark watermarks p = some (lo, hi))
    (hlo : lo ≤ pos) (hhi : pos ≤ hi) (hpos : FitsI64 pos) (hspan : span < 2 ^ 64)
    (h : ¬ InWords direction span pos) : pageWindow watermarks direction span (p, pos) = none := by
  unfold pageWindow
  cases direction with
  | back =>
    have := lt_wrappingSub_asI64 hpos hspan h
    simp only [hw, clamp_of_mem hlo hhi, ite_eq_right_iff, reduceCtorEq, imp_false]
    omega
  | forward =>
    have := wrappingAdd_asI64_lt hpos hspan h
    simp only [hw, clamp_of_mem hlo hhi, ite_eq_right_iff, reduceCtorEq, imp_false]
    omega

/-- A position inside the topic has a window exactly when it is away from the edge and the
    window ends at a word. -/
theorem pageWindow_eq_none (hpositive : 0 < span) (hspan : span < 2 ^ 64)
    (hw : findWatermark watermarks p = some (lo, hi)) (hlo : lo ≤ pos) (hhi : pos ≤ hi)
    (hpos : FitsI64 pos) :
    pageWindow watermarks direction span (p, pos) = none ↔
      (atEdge pos lo hi direction = false → ¬ InWords direction span pos) := by
  by_cases h : InWords direction span pos
  · simp only [h, not_true_eq_false, imp_false, Bool.not_eq_false]
    cases direction with
    | back =>
      rw [pageWindow_back hw hlo hhi h]
      simp only [atEdge, ite_eq_right_iff, reduceCtorEq, imp_false, beq_iff_eq]
      omega
    | forward =>
      rw [pageWindow_forward hw hlo hhi h]
      simp only [atEdge, ite_eq_right_iff, reduceCtorEq, imp_false, beq_iff_eq]
      omega
  · simp only [pageWindow_of_not_inWords hw hlo hhi hpos hspan h, h, not_false_iff, implies_true]

theorem pageWindow_span_le (hspan : span < 2 ^ 64)
    (hw : findWatermark watermarks p = some (lo, hi)) (hlo : lo ≤ pos) (hhi : pos ≤ hi)
    (hpos : FitsI64 pos) {w : PartitionRange}
    (h : pageWindow watermarks direction span (p, pos) = some w) : w.span ≤ span := by
  by_cases hin : InWords direction span pos
  · cases direction with
    | back =>
      rw [pageWindow_back hw hlo hhi hin] at h
      obtain ⟨-, h⟩ := Option.ite_none_right_eq_some.mp h
      cases h
      simp only [PartitionRange.span]
      omega
    | forward =>
      rw [pageWindow_forward hw hlo hhi hin] at h
      obtain ⟨-, h⟩ := Option.ite_none_right_eq_some.mp h
      cases h
      simp only [PartitionRange.span]
      omega
  · rw [pageWindow_of_not_inWords hw hlo hhi hpos hspan hin] at h
    cases h

end

theorem mem_clampPositions {positions : List Position} {watermarks : List Watermark} {p pos : Int} :
    (p, pos) ∈ clampPositions positions watermarks ↔
      ∃ listed lo hi, (p, listed) ∈ positions ∧ findWatermark watermarks p = some (lo, hi) ∧
        pos = clamp listed lo hi := by
  simp only [clampPositions, List.mem_filterMap, clampPosition, Option.map_eq_some_iff]
  constructor
  · rintro ⟨⟨p', listed⟩, hmem, ⟨lo, hi⟩, hw, heq⟩
    cases heq
    exact ⟨listed, lo, hi, hmem, hw, rfl⟩
  · rintro ⟨listed, lo, hi, hmem, hw, rfl⟩
    exact ⟨(p, listed), hmem, (lo, hi), hw, rfl⟩

/-- Clamping keeps the order of the entries and drops only whole entries. -/
theorem clampPositions_fst_sublist (positions : List Position) (watermarks : List Watermark) :
    ((clampPositions positions watermarks).map Prod.fst).Sublist (positions.map Prod.fst) := by
  induction positions with
  | nil => exact List.Sublist.slnil
  | cons e positions ih =>
    cases hc : clampPosition watermarks e with
    | none =>
      have : clampPositions (e :: positions) watermarks = clampPositions positions watermarks := by
        simp [clampPositions, hc]
      rw [this, List.map_cons]
      exact ih.cons _
    | some c =>
      have hfst : c.1 = e.1 := by
        simp only [clampPosition, Option.map_eq_some_iff] at hc
        obtain ⟨_, -, rfl⟩ := hc
        rfl
      have : clampPositions (e :: positions) watermarks =
          c :: clampPositions positions watermarks := by
        simp [clampPositions, hc]
      rw [this, List.map_cons, List.map_cons, hfst]
      exact ih.cons_cons _

end Arne.Timeline
