import Arne.Timeline.Page
import Mathlib.Algebra.Order.BigOperators.Group.List
import Mathlib.Algebra.Order.Group.Nat

/-!
# The accounting of a chunk

A committed chunk charges the distance its positions moved.  The charge is at most
what its windows span, at least the number of records it took, and never zero
unless the scan was cancelled.
-/

namespace Arne.Timeline

open Arne.Message Arne.SortedLog

section Commit

variable (call : PageCall) (s : PageState) (outcome : FetchOutcome) (taken : ChunkTaken)

@[simp] theorem commit_curPositions :
    (s.commit call outcome taken).1.curPositions = s.advance call outcome taken := rfl

@[simp] theorem commit_totalMatches :
    (s.commit call outcome taken).1.totalMatches = s.totalMatches + taken.matches_.length := rfl

@[simp] theorem commit_totalScanned :
    (s.commit call outcome taken).1.totalScanned =
      s.totalScanned + chargeBudget s.curPositions (s.advance call outcome taken) := rfl

@[simp] theorem commit_chunkIndex :
    (s.commit call outcome taken).1.chunkIndex = s.chunkIndex + 1 := rfl

@[simp] theorem commit_exhausted :
    (s.commit call outcome taken).1.exhausted =
      allPartitionsAtEdge (s.advance call outcome taken) call.req.watermarks
        call.req.direction := rfl

@[simp] theorem commit_chunks :
    (s.commit call outcome taken).1.chunks = s.chunks ++
      [⟨s.windows call, taken.popped, s.curPositions, s.advance call outcome taken⟩] := rfl

/-- The events a committed chunk ends with. -/
def chunkEvents : List TimelineEvent :=
  (chunkDisplayOrder taken.matches_ call.req.direction).map TimelineEvent.match ++
    [.progress (s.totalScanned + chargeBudget s.curPositions (s.advance call outcome taken))
      (s.totalMatches + taken.matches_.length) call.budget]

@[simp] theorem commit_sent :
    (s.commit call outcome taken).1.sent =
      (sendAll call.client taken.sent (chunkEvents call s outcome taken)).1 := rfl

theorem commit_flow :
    (s.commit call outcome taken).2 =
      if !(sendAll call.client taken.sent (chunkEvents call s outcome taken)).2 then .clientGone
      else if allPartitionsAtEdge (s.advance call outcome taken) call.req.watermarks
        call.req.direction then .broke else .next := rfl

end Commit

/-! ### Moves -/

theorem EntryMove.onward {call : PageCall} {s : PageState} {outcome : FetchOutcome}
    {popped : List RawRecord} {e e' : Position} (h : EntryMove call s outcome popped e e') :
    Onward call.req.direction e.2 e'.2 := by
  rcases h.stays_or_moves with ⟨rfl, -⟩ | ⟨w, -, -, hnear, h1, h2⟩
  · exact Onward.refl _ _
  · rw [← hnear]
    cases call.req.direction with
    | back => exact h2
    | forward => exact h1

theorem span_le_total {windows : List PartitionRange} {w : PartitionRange} (h : w ∈ windows) :
    w.span ≤ total windows :=
  List.le_sum_of_mem (List.mem_map_of_mem h)

/-- The distance moved fits the window. -/
theorem nearEdge_dist {w : PartitionRange} {direction : Direction} {pos : Int} (h1 : w.start ≤ pos)
    (h2 : pos ≤ w.end_) : (nearEdge w direction - pos).natAbs ≤ w.span := by
  unfold PartitionRange.span
  cases direction with
  | back => simp only [nearEdge]; omega
  | forward => simp only [nearEdge]; omega

theorem EntryMove.charge_le {call : PageCall} {s : PageState} {outcome : FetchOutcome}
    {popped : List RawRecord} {e e' : Position} (h : EntryMove call s outcome popped e e') :
    (e.2 - e'.2).natAbs ≤ total ((s.windows call).filter (·.partition == e.1)) := by
  rcases h.stays_or_moves with ⟨rfl, -⟩ | ⟨w, hw, hplan, hnear, h1, h2⟩
  · simp
  · have hmem : w ∈ (s.windows call).filter (·.partition == e.1) :=
      List.mem_filter.mpr ⟨hw, by simp [(pageWindow_planned hplan).partition_eq]⟩
    rw [← hnear]
    exact (nearEdge_dist h1 h2).trans (span_le_total hmem)

theorem EntryMove.popped_le {call : PageCall} {s : PageState} {outcome : FetchOutcome}
    {popped : List RawRecord} {e e' : Position} (h : EntryMove call s outcome popped e e') :
    (popped.filter (·.partition == e.1)).length ≤ (e.2 - e'.2).natAbs := by
  have honward := h.onward
  have hcov := h.covers
  cases hdir : call.req.direction with
  | back =>
    rw [hdir] at honward hcov
    have := length_le_span (a := e'.2) (b := e.2) h.distinct hcov
    simp only [Onward] at honward
    omega
  | forward =>
    rw [hdir] at honward hcov
    have := length_le_span (a := e.2) (b := e'.2) h.distinct hcov
    simp only [Onward] at honward
    omega

theorem chargeBudget_map (positions : List Position) (f : Position → Position) :
    chargeBudget positions (positions.map f) =
      (positions.map fun e => (e.2 - (f e).2).natAbs).sum := by
  induction positions with
  | nil => rfl
  | cons e positions ih =>
    simp only [chargeBudget, List.map_cons, List.zipWith_cons_cons, List.sum_cons] at ih ⊢
    rw [ih]

section Charge

variable {call : PageCall} {s : PageState} {outcome : FetchOutcome} {taken : ChunkTaken}

/-- The chunk charges no more than its windows span. -/
theorem Committed.charge_le (h : Committed call s outcome taken)
    (honce : NamedOnce s.curPositions (s.windows call))
    (hin : Inside (s.windows call) outcome) (hb : InBounds call.req.watermarks s.curPositions) :
    chargeBudget s.curPositions (s.advance call outcome taken) ≤
      call.budget - s.totalScanned := by
  have hmoves : ∀ e ∈ s.curPositions,
      (e.2 - (advancePosition (s.windows call) (s.isComplete call outcome) taken
        call.req.direction e).2).natAbs ≤
        (((s.windows call).filter (·.partition == e.1)).map PartitionRange.span).sum :=
    fun e he => (h.entryMove honce hin hb he).charge_le
  rw [PageState.advance, advancePositions, chargeBudget_map]
  apply (List.sum_le_sum hmoves).trans
  rw [sum_groups Prod.fst PartitionRange.partition PartitionRange.span]
  refine le_trans (le_of_eq ?_) (windows_total call s)
  rw [total]
  refine congrArg List.sum (List.map_congr_left fun w hw => ?_)
  rw [honce w hw, Nat.mul_one]

/-- Every record taken costs at least one unit of the charge. -/
theorem Committed.popped_le_charge (h : Committed call s outcome taken)
    (honce : NamedOnce s.curPositions (s.windows call))
    (hin : Inside (s.windows call) outcome) (hb : InBounds call.req.watermarks s.curPositions) :
    taken.popped.length ≤ chargeBudget s.curPositions (s.advance call outcome taken) := by
  have hnamed : ∀ r ∈ taken.popped, r.partition ∈ s.curPositions.map Prod.fst := by
    intro r hr
    obtain ⟨w, hw, hp⟩ := popped_has_window honce.distinct h.inv hr
    obtain ⟨e, he, hplan⟩ := mem_windows hw
    rw [hp, (pageWindow_planned hplan).partition_eq]
    exact List.mem_map_of_mem he
  have hgroups := length_le_groups RawRecord.partition (s.curPositions.map Prod.fst) hnamed
  rw [List.map_map] at hgroups
  rw [PageState.advance, advancePositions, chargeBudget_map]
  exact hgroups.trans (List.sum_le_sum fun e he => (h.entryMove honce hin hb he).popped_le)

/-- A committed chunk of a scan that was not cancelled moves some position. -/
theorem Committed.moves (h : Committed call s outcome taken)
    (honce : NamedOnce s.curPositions (s.windows call))
    (hin : Inside (s.windows call) outcome) (hb : InBounds call.req.watermarks s.curPositions)
    (hpresent : call.client.cancelledAfterMerge s.chunkIndex = false) :
    ∃ e ∈ s.curPositions, (advancePosition (s.windows call) (s.isComplete call outcome) taken
      call.req.direction e).2 ≠ e.2 := by
  by_cases hpopped : taken.popped = []
  · -- nothing taken: every window is complete and drained, and the first one jumps
    obtain ⟨w, hw⟩ := List.exists_mem_of_ne_nil _ h.going.windows_ne
    obtain ⟨e, he, hplan⟩ := mem_windows hw
    have hp := (pageWindow_planned hplan).partition_eq
    obtain ⟨rest, v⟩ := entryView honce.distinct h.inv hw hp (windowOf_near hb he hplan)
    have hcomplete : w.partition ∈ outcome.complete := by
      have hstall := h.progressed
      simp only [pageMadeNoProgress, ChunkTaken.anyTaken, hpopped, hpresent, List.isEmpty_nil,
        Bool.not_true, Bool.not_false, Bool.and_true, Bool.true_and, List.any_eq_false] at hstall
      have := hstall (outcome.complete.contains w.partition)
        (List.mem_map.mpr ⟨w, hw, rfl⟩)
      simpa using this
    have hdrained : rest = [] := by
      obtain ⟨i, -, hrest⟩ := v.left
      rcases h.done with hlimit | hempty
      · have hgoing := h.going.limit
        have hkept := h.inv.kept
        rw [hpopped] at hkept
        have hnil : taken.matches_ = [] := hkept
        simp only [hnil, List.length_nil, Nat.add_zero] at hlimit
        omega
      · exact hempty rest (List.mem_of_getElem? hrest)
    refine ⟨e, he, ?_⟩
    have hnew := v.new_eq
    rw [if_pos ⟨hcomplete, hdrained⟩] at hnew
    have hnear := v.near
    have hne := (pageWindow_planned hplan).nonempty
    have heq : (advancePosition (s.windows call) (s.isComplete call outcome) taken
        call.req.direction e).2 = windowEdge w call.req.direction := congrArg Prod.snd hnew
    rw [heq, ← hnear]
    cases call.req.direction with
    | back => simp only [windowEdge, nearEdge]; omega
    | forward => simp only [windowEdge, nearEdge]; omega
  · obtain ⟨r, hr⟩ := List.exists_mem_of_ne_nil _ hpopped
    obtain ⟨w, hw, hp⟩ := popped_has_window honce.distinct h.inv hr
    obtain ⟨e, he, hplan⟩ := mem_windows hw
    have hpe : r.partition = e.1 := hp.trans (pageWindow_planned hplan).partition_eq
    have hmove := h.entryMove honce hin hb he
    exact ⟨e, he, (hmove.covers r (List.mem_filter.mpr ⟨hr, by simp [hpe]⟩)).ne⟩

/-- So it charges something. -/
theorem Committed.charge_pos (h : Committed call s outcome taken)
    (honce : NamedOnce s.curPositions (s.windows call))
    (hin : Inside (s.windows call) outcome) (hb : InBounds call.req.watermarks s.curPositions)
    (hpresent : call.client.cancelledAfterMerge s.chunkIndex = false) :
    0 < chargeBudget s.curPositions (s.advance call outcome taken) := by
  obtain ⟨e, he, hne⟩ := h.moves honce hin hb hpresent
  rw [PageState.advance, advancePositions, chargeBudget_map]
  refine Nat.lt_of_lt_of_le (m := (e.2 - (advancePosition (s.windows call)
    (s.isComplete call outcome) taken call.req.direction e).2).natAbs) (by omega) ?_
  exact List.le_sum_of_mem (List.mem_map.mpr ⟨e, he, rfl⟩)

/-! ### What a chunk keeps -/

theorem Committed.inBounds (h : Committed call s outcome taken)
    (honce : NamedOnce s.curPositions (s.windows call))
    (hin : Inside (s.windows call) outcome) (hb : InBounds call.req.watermarks s.curPositions) :
    InBounds call.req.watermarks (s.advance call outcome taken) := by
  intro e' he' lo hi hw hle
  obtain ⟨e, he, rfl⟩ := List.mem_map.mp he'
  have hmove := h.entryMove honce hin hb he
  rw [hmove.partition_eq] at hw
  rcases hmove.stays_or_moves with ⟨heq, -⟩ | ⟨w, -, hplan, -, h1, h2⟩
  · rw [heq]
    exact hb e he lo hi hw hle
  · have := (pageWindow_planned hplan).bounds lo hi hw
    omega

theorem advancePosition_fst (windows : List PartitionRange) (isComplete : List Bool)
    (taken : ChunkTaken) (direction : Direction) (e : Position) :
    (advancePosition windows isComplete taken direction e).1 = e.1 := by
  unfold advancePosition
  split
  · rfl
  · split
    · rfl
    · split
      · rfl
      · split <;> split <;> rfl

theorem advance_map_fst (call : PageCall) (s : PageState) (outcome : FetchOutcome)
    (taken : ChunkTaken) :
    (s.advance call outcome taken).map Prod.fst = s.curPositions.map Prod.fst := by
  rw [PageState.advance, advancePositions, List.map_map]
  exact List.map_congr_left fun e _ => advancePosition_fst _ _ _ _ e

end Charge

end Arne.Timeline
