import Arne.Timeline.Accounting

/-!
# Room for the windows

A position away from its edge has a window unless the window's far end is no word.  A chunk
is planned without a window at the edge, then, or where every window wraps; a page that ends
with `page_end` tells the truth of its edge exactly when it plans no chunk of the second kind.
-/

namespace Arne.Timeline

open Arne.Message MachineWord

/-- Where some partition is away from its edge, one such has a window that ends at a word. -/
def PageState.Roomy (call : PageCall) (s : PageState) : Prop :=
  (∃ e ∈ s.curPositions, isActive call.req.watermarks call.req.direction e = true) →
    ∃ e ∈ s.curPositions, isActive call.req.watermarks call.req.direction e = true ∧
      InWords call.req.direction (s.span call) e.2

/-- Every chunk the page plans has room. -/
def PageCall.Roomy (call : PageCall) : Prop :=
  ∀ s, Running call s → Planning call s → s.Roomy call

def AllAtEdge (watermarks : List Watermark) (direction : Direction) (positions : List Position) :
    Prop :=
  ∀ e ∈ positions, ∀ lo hi, findWatermark watermarks e.1 = some (lo, hi) →
    atEdge e.2 lo hi direction = true

theorem allPartitionsAtEdge_iff {positions : List Position} {watermarks : List Watermark}
    {direction : Direction}
    (hknown : ∀ e ∈ positions, ∃ w, findWatermark watermarks e.1 = some w) :
    allPartitionsAtEdge positions watermarks direction = true ↔
      AllAtEdge watermarks direction positions := by
  simp only [allPartitionsAtEdge, List.all_eq_true, AllAtEdge]
  refine forall_congr' fun e => forall_congr' fun he => ?_
  obtain ⟨⟨lo, hi⟩, hw⟩ := hknown e he
  simp [hw]

theorem allAtEdge_iff {watermarks : List Watermark} {direction : Direction}
    {positions : List Position} : AllAtEdge watermarks direction positions ↔
      ¬ ∃ e ∈ positions, isActive watermarks direction e = true := by
  simp only [AllAtEdge, not_exists, not_and]
  refine forall_congr' fun e => forall_congr' fun he => ?_
  unfold isActive
  cases findWatermark watermarks e.1 with
  | none => simp
  | some w => simp [Prod.ext_iff]

section

variable {call : PageCall} {s : PageState}

theorem span_lt (htyped : call.req.Typed) (s : PageState) : s.span call < 2 ^ 64 := by
  have hle := chunkSpan_le_max call.req.filter s.chunkIndex call.req.limit (s.remainingBudget call)
    s.curPositions call.req.watermarks call.req.direction
  have hlimit := htyped.limit
  simp only [PageState.span]
  unfold chunkSpanMax at hle
  omega

/-- A position between the watermarks is a word, as they are. -/
theorem fits_of_inBounds (htyped : call.req.Typed) (hordered : Ordered call.req.watermarks)
    (hb : InBounds call.req.watermarks s.curPositions) {e : Position} (he : e ∈ s.curPositions)
    {lo hi : Int} (hw : findWatermark call.req.watermarks e.1 = some (lo, hi)) :
    lo ≤ e.2 ∧ e.2 ≤ hi ∧ FitsI64 e.2 := by
  obtain ⟨hlo, hhi⟩ := hb e he lo hi hw (hordered _ _ _ hw)
  obtain ⟨⟨hmin, -⟩, -, hmax⟩ := htyped.watermarks _ (findWatermark_mem hw)
  exact ⟨hlo, hhi, hmin.trans hlo, hhi.trans hmax⟩

/-- A position has no window at its edge, and where its window wraps. -/
theorem windowOf_eq_none (htyped : call.req.Typed) (hordered : Ordered call.req.watermarks)
    (hb : InBounds call.req.watermarks s.curPositions) {e : Position} (he : e ∈ s.curPositions) :
    s.windowOf call e = none ↔
      (isActive call.req.watermarks call.req.direction e = true →
        ¬ InWords call.req.direction (s.span call) e.2) := by
  cases hw : findWatermark call.req.watermarks e.1 with
  | none => simp [PageState.windowOf, pageWindow, isActive, hw]
  | some w =>
    obtain ⟨lo, hi⟩ := w
    obtain ⟨hlo, hhi, hfits⟩ := fits_of_inBounds htyped hordered hb he hw
    have hnone : pageWindow call.req.watermarks call.req.direction (s.span call) (e.1, e.2) = none ↔
        (atEdge e.2 lo hi call.req.direction = false →
          ¬ InWords call.req.direction (s.span call) e.2) :=
      pageWindow_eq_none (chunkSpan_pos _ _ _ _ _ _ _) (span_lt htyped s) hw hlo hhi hfits
    simp only [isActive, hw, Bool.not_eq_true']
    exact hnone

/-- The budget leaves a chunk a window if there is one. -/
theorem windows_eq_nil (htyped : call.req.Typed) (hordered : Ordered call.req.watermarks)
    (hb : InBounds call.req.watermarks s.curPositions) (hbudget : s.totalScanned < call.budget) :
    s.windows call = [] ↔
      ∀ e ∈ s.curPositions, isActive call.req.watermarks call.req.direction e = true →
        ¬ InWords call.req.direction (s.span call) e.2 := by
  have hplans : s.windows call = [] ↔ s.curPositions.filterMap (s.windowOf call) = [] := by
    constructor
    · intro hnil
      by_contra hne
      refine capWindowsToBudget_ne_nil hne (fun w hw => ?_) hnil
      obtain ⟨e, he, hplan⟩ := List.mem_filterMap.mp hw
      have hspan : w.span ≤ s.span call := by
        cases hfound : findWatermark call.req.watermarks e.1 with
        | none => simp [PageState.windowOf, pageWindow, hfound] at hplan
        | some bounds =>
          obtain ⟨hlo, hhi, hfits⟩ := fits_of_inBounds htyped hordered hb he hfound
          exact pageWindow_span_le (span_lt htyped s) hfound hlo hhi hfits hplan
      refine hspan.trans (chunkSpan_le ?_ _ _ _ _ _ _)
      simp only [PageState.remainingBudget]
      omega
    · intro hnil
      exact List.prefix_nil.mp (hnil ▸ windows_isPrefix call s)
  rw [hplans, List.filterMap_eq_nil_iff]
  exact forall_congr' fun e => forall_congr' fun he => windowOf_eq_none htyped hordered hb he

/-- A chunk planned with a window had room for it. -/
theorem roomy_of_windows (htyped : call.req.Typed) (hordered : Ordered call.req.watermarks)
    (hb : InBounds call.req.watermarks s.curPositions) (hbudget : s.totalScanned < call.budget)
    (hne : s.windows call ≠ []) : s.Roomy call := by
  intro _
  by_contra hnone
  apply hne
  rw [windows_eq_nil htyped hordered hb hbudget]
  intro e he hactive hin
  exact hnone ⟨e, he, hactive, hin⟩

/-- Without a window, there is room only at the edge. -/
theorem roomy_iff_atEdge (htyped : call.req.Typed) (hordered : Ordered call.req.watermarks)
    (hb : InBounds call.req.watermarks s.curPositions) (hbudget : s.totalScanned < call.budget)
    (hnil : s.windows call = []) :
    s.Roomy call ↔ AllAtEdge call.req.watermarks call.req.direction s.curPositions := by
  have hnone := (windows_eq_nil htyped hordered hb hbudget).mp hnil
  rw [allAtEdge_iff]
  constructor
  · rintro hroomy hactive
    obtain ⟨e, he, hactive, hin⟩ := hroomy hactive
    exact hnone e he hactive hin
  · intro hedge hactive
    exact absurd hactive hedge

end

/-! ### How a page ends -/

theorem running_not_exhausted {call : PageCall} {s : PageState} (h : Running call s) :
    s.exhausted = false := by
  induction h with
  | start => rfl
  | @next s s' _ hstep _ =>
    cases chunkStep_result hstep with
    | committed outcome taken hc hcommit =>
      have hflow := commit_flow call s outcome taken
      have hexhausted := commit_exhausted call s outcome taken
      rw [hcommit] at hflow hexhausted
      simp only at hflow hexhausted
      rw [hexhausted]
      by_contra hedge
      simp only [Bool.not_eq_false] at hedge
      simp only [hedge, if_true] at hflow
      split at hflow <;> cases hflow

/-- A page that is not cut short ends at the edge, if it says so, exactly when every chunk it
    planned had room. -/
theorem pageEnd_roomy {call : PageCall} (htyped : call.req.Typed)
    (hordered : Ordered call.req.watermarks)
    (hb : ∀ s, Running call s → InBounds call.req.watermarks s.curPositions)
    {run : PageRun} (hrun : runPage call = some run) {cursor : Option Cursor} {exhausted : Bool}
    (hend : run.ending = .pageEnd cursor exhausted)
    (hknown : ∀ e ∈ run.last.curPositions, ∃ w, findWatermark call.req.watermarks e.1 = some w) :
    (exhausted = true →
      AllAtEdge call.req.watermarks call.req.direction run.last.curPositions) ↔ call.Roomy := by
  obtain ⟨s₀, s, hs₀, hstep, -, rfl, hlast⟩ := runPage_pageEnd hrun hend
  have hpositions : run.last.curPositions = s.curPositions := by
    rw [hlast]
    rfl
  rw [hpositions] at hknown ⊢
  constructor
  · intro hedge t ht hplanning
    by_cases hnil : t.windows call = []
    · -- the page ends here
      have hsame := runPage_of_left hrun ht (chunkStep_no_windows hplanning hnil) Flow.noConfusion
      rw [hlast] at hsame
      obtain rfl : s = { t with exhausted := true } := congrArg PageRun.last hsame
      exact (roomy_iff_atEdge htyped hordered (hb t ht) hplanning.budget hnil).mpr (hedge rfl)
    · exact roomy_of_windows htyped hordered (hb t ht) hplanning.budget hnil
  · intro hroomy hexhausted
    cases chunkStep_result hstep with
    | finished =>
      rw [running_not_exhausted hs₀] at hexhausted
      cases hexhausted
    | atEdge planning hnil =>
      exact (roomy_iff_atEdge htyped hordered (hb s₀ hs₀) planning.budget hnil).mp
        (hroomy s₀ hs₀ planning)
    | committed outcome taken hc hcommit =>
      obtain rfl : s = (s₀.commit call outcome taken).1 := by rw [hcommit]
      rw [commit_exhausted] at hexhausted
      exact (allPartitionsAtEdge_iff hknown).mp hexhausted

/-- Watermarks that leave a span to the ends of the words leave every chunk room. -/
theorem roomy_of_le {call : PageCall} (hordered : Ordered call.req.watermarks)
    (hb : ∀ s, Running call s → InBounds call.req.watermarks s.curPositions)
    (hroom : ∀ w ∈ call.req.watermarks,
      -2 ^ 63 + (max call.req.limit chunkSpanMax : Nat) ≤ w.2.1 ∧
        w.2.2 + (max call.req.limit chunkSpanMax : Nat) ≤ 2 ^ 63 - 1) : call.Roomy := by
  rintro s hs - ⟨e, he, hactive⟩
  refine ⟨e, he, hactive, ?_⟩
  have hspan : s.span call ≤ max call.req.limit chunkSpanMax := chunkSpan_le_max _ _ _ _ _ _ _
  cases hw : findWatermark call.req.watermarks e.1 with
  | none => simp [isActive, hw] at hactive
  | some w =>
    obtain ⟨lo, hi⟩ := w
    obtain ⟨hlo, hhi⟩ := hb s hs e he lo hi hw (hordered _ _ _ hw)
    obtain ⟨hmin, hmax⟩ := hroom _ (findWatermark_mem hw)
    simp only at hmin hmax
    unfold InWords FitsI64
    split <;> omega

end Arne.Timeline
