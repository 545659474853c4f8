import Arne.Timeline.Chunk

/-!
# Running a page

The states a page goes through, what one iteration can do (`chunkStep_result`), and
what a committed chunk does to the positions, stated once for every kind of scan
and cursor: each position either stays, or moves inside the window planned from it.
-/

namespace Arne.Timeline

open Arne.Message Arne.SortedLog

/-! ### The iterations of the loop -/

/-- The loop plans a chunk: limit and budget are open and the client is there. -/
structure Planning (call : PageCall) (s : PageState) : Prop where
  limit : s.totalMatches < call.req.limit
  budget : s.totalScanned < call.budget
  present : call.client.cancelledAtHead s.chunkIndex = false

/-- The loop goes into a chunk: some partition has a window. -/
structure Going (call : PageCall) (s : PageState) : Prop extends Planning call s where
  windows_ne : s.windows call ≠ []

/-- A chunk that is committed: scanned, merged with the client still there, and not
    stalled. -/
structure Committed (call : PageCall) (s : PageState) (outcome : FetchOutcome)
    (taken : ChunkTaken) : Prop where
  going : Going call s
  scanned : call.scanChunk s.chunkIndex (s.windows call) = .ok outcome
  merged : s.merge call outcome = (taken, true)
  progressed : pageMadeNoProgress (!taken.anyTaken) ((s.isComplete call outcome).any (!·))
    (call.client.cancelledAfterMerge s.chunkIndex) = false

/-- Everything one iteration can do. -/
inductive StepResult (call : PageCall) (s : PageState) : PageState → Flow → Prop
  | finished (h : call.req.limit ≤ s.totalMatches ∨ call.budget ≤ s.totalScanned) :
      StepResult call s s .broke
  | cancelled (h : call.client.cancelledAtHead s.chunkIndex = true) :
      StepResult call s s .clientGone
  | atEdge (planning : Planning call s) (h : s.windows call = []) :
      StepResult call s { s with exhausted := true } .broke
  | scanFailed (e : ApiError) (scanned : call.scanChunk s.chunkIndex (s.windows call) = .error e) :
      StepResult call s s (.failed e)
  | lost (going : Going call s) (outcome : FetchOutcome) (taken : ChunkTaken)
      (scanned : call.scanChunk s.chunkIndex (s.windows call) = .ok outcome)
      (h : s.merge call outcome = (taken, false)) :
      StepResult call s { s with sent := taken.sent } .clientGone
  | stalled (going : Going call s) (outcome : FetchOutcome) (taken : ChunkTaken)
      (scanned : call.scanChunk s.chunkIndex (s.windows call) = .ok outcome)
      (h : s.merge call outcome = (taken, true)) (hnone : taken.popped = [])
      (hincomplete : (s.isComplete call outcome).any (!·) = true) :
      StepResult call s { s with sent := taken.sent }
        (.failed (noProgressError call.handle.name))
  | committed (outcome : FetchOutcome) (taken : ChunkTaken)
      (h : Committed call s outcome taken) {s' : PageState} {flow : Flow}
      (hcommit : s.commit call outcome taken = (s', flow)) : StepResult call s s' flow

theorem chunkStep_result {call : PageCall} {s s' : PageState} {flow : Flow}
    (hstep : chunkStep call s = (s', flow)) : StepResult call s s' flow := by
  unfold chunkStep at hstep
  by_cases hfinished : call.req.limit ≤ s.totalMatches ∨ call.budget ≤ s.totalScanned
  · rw [if_pos hfinished] at hstep
    cases hstep
    exact .finished hfinished
  · rw [if_neg hfinished] at hstep
    cases hcancel : call.client.cancelledAtHead s.chunkIndex with
    | true =>
      rw [hcancel, if_pos rfl] at hstep
      cases hstep
      exact .cancelled hcancel
    | false =>
      rw [hcancel, if_neg Bool.false_ne_true] at hstep
      have planning : Planning call s := ⟨by omega, by omega, hcancel⟩
      by_cases hwindows : s.windows call = []
      · rw [if_pos (by simpa using hwindows)] at hstep
        cases hstep
        exact .atEdge planning hwindows
      · rw [if_neg (by simpa using hwindows)] at hstep
        have going : Going call s := ⟨planning, hwindows⟩
        cases hscan : call.scanChunk s.chunkIndex (s.windows call) with
        | error e =>
          rw [hscan] at hstep
          cases hstep
          exact .scanFailed e hscan
        | ok outcome =>
          rcases hmerge : s.merge call outcome with ⟨taken, there⟩
          simp only [hscan, hmerge] at hstep
          cases there with
          | false =>
            cases hstep
            exact .lost going outcome taken hscan hmerge
          | true =>
            by_cases hstall : pageMadeNoProgress (!taken.anyTaken)
                ((s.isComplete call outcome).any (!·))
                (call.client.cancelledAfterMerge s.chunkIndex) = true
            · simp only [if_pos hstall] at hstep
              cases hstep
              simp only [pageMadeNoProgress, ChunkTaken.anyTaken, Bool.and_eq_true,
                Bool.not_not, List.isEmpty_iff] at hstall
              exact .stalled going outcome taken hscan hmerge hstall.1.1 hstall.1.2
            · simp only [if_neg hstall] at hstep
              exact .committed outcome taken ⟨going, hscan, hmerge, by simpa using hstall⟩ hstep

/-- Planned without a window, a chunk ends the page. -/
theorem chunkStep_no_windows {call : PageCall} {s : PageState} (h : Planning call s)
    (hnil : s.windows call = []) : chunkStep call s = ({ s with exhausted := true }, .broke) := by
  have hlimit := h.limit
  have hbudget := h.budget
  unfold chunkStep
  rw [if_neg (by omega), h.present, if_neg Bool.false_ne_true, if_pos (by simp [hnil])]

/-- The states at the head of the loop. -/
inductive Running (call : PageCall) : PageState → Prop
  | start : Running call (PageState.start call)
  | next {s s' : PageState} (h : Running call s) (hstep : chunkStep call s = (s', .next)) :
      Running call s'

/-- The loop returns where one iteration from the head left it. -/
theorem chunkLoop_spec {call : PageCall} {fuel : Nat} {s : PageState} {left : PageState × Flow}
    (hs : Running call s) (h : chunkLoop call fuel s = some left) :
    ∃ s₀, Running call s₀ ∧ chunkStep call s₀ = left ∧ left.2 ≠ .next := by
  induction fuel generalizing s with
  | zero => cases h
  | succ fuel ih =>
    simp only [chunkLoop] at h
    split at h
    · rename_i s' hstep
      exact ih (hs.next hstep) h
    · rename_i hne
      cases h
      exact ⟨s, hs, rfl, fun heq => hne _ (Prod.ext rfl heq)⟩

/-- A run passes through every state at the head of its loop. -/
theorem chunkLoop_passes {call : PageCall} {fuel : Nat} {left : PageState × Flow}
    (h : chunkLoop call fuel (PageState.start call) = some left) {s : PageState}
    (hs : Running call s) : ∃ rest, chunkLoop call rest s = some left := by
  induction hs with
  | start => exact ⟨fuel, h⟩
  | next _ hstep ih =>
    obtain ⟨rest, hrest⟩ := ih
    cases rest with
    | zero => cases hrest
    | succ rest =>
      simp only [chunkLoop, hstep] at hrest
      exact ⟨rest, hrest⟩

/-- Where an iteration leaves the loop, the run ends. -/
theorem runPage_of_left {call : PageCall} {run : PageRun} (h : runPage call = some run)
    {s s' : PageState} {flow : Flow} (hs : Running call s) (hstep : chunkStep call s = (s', flow))
    (hne : flow ≠ .next) : run = finishPage call s' flow := by
  obtain ⟨left, hloop, rfl⟩ := Option.map_eq_some_iff.mp h
  obtain ⟨rest, hrest⟩ := chunkLoop_passes hloop hs
  cases rest with
  | zero => cases hrest
  | succ rest =>
    simp only [chunkLoop, hstep] at hrest
    cases flow with
    | next => exact absurd rfl hne
    | broke | failed | clientGone =>
      cases hrest
      rfl

theorem runPage_spec {call : PageCall} {run : PageRun} (h : runPage call = some run) :
    ∃ s₀ s flow, Running call s₀ ∧ chunkStep call s₀ = (s, flow) ∧ flow ≠ .next ∧
      run = finishPage call s flow := by
  obtain ⟨⟨s, flow⟩, hloop, rfl⟩ := Option.map_eq_some_iff.mp h
  obtain ⟨s₀, hs₀, hstep, hne⟩ := chunkLoop_spec .start hloop
  exact ⟨s₀, s, flow, hs₀, hstep, hne, rfl⟩

/-- A page ends with `page_end` where its loop breaks. -/
theorem runPage_pageEnd {call : PageCall} {run : PageRun} (h : runPage call = some run)
    {cursor : Option Cursor} {exhausted : Bool} (hend : run.ending = .pageEnd cursor exhausted) :
    ∃ s₀ s, Running call s₀ ∧ chunkStep call s₀ = (s, .broke) ∧ resumeCursor call s = cursor ∧
      s.exhausted = exhausted ∧ run = finishPage call s .broke := by
  obtain ⟨s₀, s, flow, hs₀, hstep, hne, rfl⟩ := runPage_spec h
  cases flow with
  | next => exact absurd rfl hne
  | broke =>
    cases hend
    exact ⟨s₀, s, hs₀, hstep, rfl, rfl, rfl⟩
  | failed e => cases hend
  | clientGone => cases hend

/-- The states of a page: the heads of its loop and the one it is left in. -/
inductive Reached (call : PageCall) : PageState → Prop
  | head {s : PageState} (h : Running call s) : Reached call s
  | left {s s' : PageState} {flow : Flow} (h : Running call s)
      (hstep : chunkStep call s = (s', flow)) : Reached call s'

theorem runPage_reached {call : PageCall} {run : PageRun} (h : runPage call = some run) :
    Reached call run.last := by
  obtain ⟨s₀, s, flow, hs₀, hstep, -, rfl⟩ := runPage_spec h
  have hlast : (finishPage call s flow).last = s := by cases flow <;> rfl
  rw [hlast]
  exact .left hs₀ hstep

/-! ### The windows of a chunk -/

theorem chunkSpan_pos (filter : Option Filter) (chunkIndex limit remainingBudget : Nat)
    (positions : List Position) (watermarks : List Watermark) (direction : Direction) :
    0 < chunkSpan filter chunkIndex limit remainingBudget positions watermarks direction := by
  simp only [chunkSpan]
  omega

/-- One partition's span fits what is left of the budget. -/
theorem chunkSpan_le {remainingBudget : Nat} (h : 0 < remainingBudget) (filter : Option Filter)
    (chunkIndex limit : Nat) (positions : List Position) (watermarks : List Watermark)
    (direction : Direction) :
    chunkSpan filter chunkIndex limit remainingBudget positions watermarks direction ≤
      remainingBudget := by
  simp only [chunkSpan]
  have := Nat.div_le_self remainingBudget (max (positions.countP (isActive watermarks direction)) 1)
  omega

/-- The span is the limit's or the chunk's at most. -/
theorem chunkSpan_le_max (filter : Option Filter) (chunkIndex limit remainingBudget : Nat)
    (positions : List Position) (watermarks : List Watermark) (direction : Direction) :
    chunkSpan filter chunkIndex limit remainingBudget positions watermarks direction ≤
      max limit chunkSpanMax := by
  simp only [chunkSpan, chunkSpanMax]
  split <;> omega

/-- The window planned from a position in this chunk. -/
def PageState.windowOf (call : PageCall) (s : PageState) (e : Position) : Option PartitionRange :=
  pageWindow call.req.watermarks call.req.direction (s.span call) e

theorem windows_isPrefix (call : PageCall) (s : PageState) :
    s.windows call <+: s.curPositions.filterMap (s.windowOf call) :=
  capWindowsToBudget_front _ _

theorem mem_windows {call : PageCall} {s : PageState} {w : PartitionRange}
    (h : w ∈ s.windows call) : ∃ e ∈ s.curPositions, s.windowOf call e = some w :=
  List.mem_filterMap.mp ((windows_isPrefix call s).subset h)

theorem windows_partition_sublist (call : PageCall) (s : PageState) :
    ((s.windows call).map PartitionRange.partition).Sublist (s.curPositions.map Prod.fst) := by
  apply ((windows_isPrefix call s).sublist.map _).trans
  generalize s.curPositions = positions
  induction positions with
  | nil => exact List.Sublist.slnil
  | cons e positions ih =>
    cases hw : s.windowOf call e with
    | none =>
      rw [List.filterMap_cons_none hw]
      exact ih.cons _
    | some w =>
      rw [List.filterMap_cons_some hw, List.map_cons, List.map_cons,
        (pageWindow_planned hw).partition_eq]
      exact ih.cons_cons _

theorem windows_total (call : PageCall) (s : PageState) :
    total (s.windows call) ≤ call.budget - s.totalScanned :=
  capWindowsToBudget_total _ _

/-- Every planned window's partition is named by a single entry of the positions. -/
def NamedOnce (positions : List Position) (windows : List PartitionRange) : Prop :=
  ∀ w ∈ windows, positions.countP (·.1 == w.partition) = 1

instance (positions : List Position) (windows : List PartitionRange) :
    Decidable (NamedOnce positions windows) :=
  inferInstanceAs (Decidable (∀ w ∈ windows, positions.countP (·.1 == w.partition) = 1))

theorem namedOnce_of_nodup (call : PageCall) {s : PageState}
    (h : (s.curPositions.map Prod.fst).Nodup) : NamedOnce s.curPositions (s.windows call) := by
  intro w hw
  obtain ⟨e, he, hwin⟩ := mem_windows hw
  have hcount : (s.curPositions.map Prod.fst).count w.partition = 1 := by
    apply List.count_eq_one_of_mem h
    rw [(pageWindow_planned hwin).partition_eq]
    exact List.mem_map_of_mem he
  rwa [List.count_eq_countP, List.countP_map] at hcount

theorem NamedOnce.distinct {call : PageCall} {s : PageState}
    (h : NamedOnce s.curPositions (s.windows call)) : Distinct (s.windows call) := by
  apply List.nodup_iff_count_le_one.mpr
  intro p
  by_cases hp : p ∈ (s.windows call).map PartitionRange.partition
  · obtain ⟨w, hw, rfl⟩ := List.mem_map.mp hp
    have hle := (windows_partition_sublist call s).count_le w.partition
    apply hle.trans_eq
    rw [List.count_eq_countP, List.countP_map]
    exact h w hw
  · rw [List.count_eq_zero_of_not_mem hp]
    exact Nat.zero_le 1

/-- The entry that names a window's partition is the one it was planned from. -/
theorem NamedOnce.planned {call : PageCall} {s : PageState}
    (h : NamedOnce s.curPositions (s.windows call)) {w : PartitionRange}
    (hw : w ∈ s.windows call) {e : Position} (he : e ∈ s.curPositions)
    (hp : w.partition = e.1) : s.windowOf call e = some w := by
  obtain ⟨e₀, he₀, hwin⟩ := mem_windows hw
  have hone := h w hw
  rw [List.countP_eq_length_filter, List.length_eq_one_iff] at hone
  obtain ⟨x, hx⟩ := hone
  have mem : ∀ e' ∈ s.curPositions, w.partition = e'.1 → e' = x := by
    intro e' he' hp'
    have : e' ∈ s.curPositions.filter (·.1 == w.partition) :=
      List.mem_filter.mpr ⟨he', by simp [hp']⟩
    rw [hx] at this
    exact List.mem_singleton.mp this
  rw [mem e he hp, ← mem e₀ he₀ (pageWindow_planned hwin).partition_eq]
  exact hwin

/-! ### What a committed chunk does to a position -/

/-- Positions lie between their watermarks. -/
def InBounds (watermarks : List Watermark) (positions : List Position) : Prop :=
  ∀ e ∈ positions, ∀ lo hi, findWatermark watermarks e.1 = some (lo, hi) → lo ≤ hi →
    lo ≤ e.2 ∧ e.2 ≤ hi

theorem inBounds_clampPositions (watermarks : List Watermark) (positions : List Position) :
    InBounds watermarks (clampPositions positions watermarks) := by
  rintro ⟨p, pos⟩ he lo hi hw hle
  obtain ⟨listed, lo', hi', -, hw', rfl⟩ := mem_clampPositions.mp he
  rw [hw] at hw'
  cases hw'
  exact clamp_mem _ hle

/-- The near edge of a window is the position it was planned from. -/
theorem windowOf_near {call : PageCall} {s : PageState}
    (hb : InBounds call.req.watermarks s.curPositions) {e : Position} (he : e ∈ s.curPositions)
    {w : PartitionRange} (hw : s.windowOf call e = some w) :
    nearEdge w call.req.direction = e.2 := by
  have hplan := pageWindow_planned hw
  cases hf : findWatermark call.req.watermarks e.1 with
  | none => simp [PageState.windowOf, pageWindow, hf] at hw
  | some bounds =>
    obtain ⟨lo, hi⟩ := bounds
    have hin := hplan.bounds lo hi hf
    have hne := hplan.nonempty
    have hpos := hb e he lo hi hf (by omega)
    have hnear := hplan.near lo hi hf
    rw [clamp_of_mem hpos.1 hpos.2] at hnear
    cases hdir : call.req.direction with
    | back => rw [hdir] at hnear; exact hnear
    | forward => rw [hdir] at hnear; exact hnear

/-- A committed chunk, seen from one position: `e` before, `e'` after. -/
structure EntryMove (call : PageCall) (s : PageState) (outcome : FetchOutcome)
    (popped : List RawRecord) (e e' : Position) : Prop where
  partition_eq : e'.1 = e.1
  stays_or_moves : (e' = e ∧ popped.filter (·.partition == e.1) = []) ∨
    ∃ w ∈ s.windows call, s.windowOf call e = some w ∧ nearEdge w call.req.direction = e.2 ∧
      w.start ≤ e'.2 ∧ e'.2 ≤ w.end_
  distinct : ((popped.filter (·.partition == e.1)).map RawRecord.offset).Nodup
  covers : ∀ r ∈ popped.filter (·.partition == e.1), Covers call.req.direction e.2 e'.2 r.offset
  read : ∀ topic, Documented topic (s.windows call) outcome →
    popped.filter (·.partition == e.1) =
      passed call.req.direction (topic.log e.1) e.2 e'.2

theorem EntryView.distinct {outcome : FetchOutcome} {windows : List PartitionRange}
    {taken : ChunkTaken} {direction : Direction} {e : Position} {w : PartitionRange}
    {rest : List RawRecord} (v : EntryView outcome windows taken direction e w rest)
    (hin : Inside windows outcome) :
    ((taken.popped.filter (·.partition == e.1)).map RawRecord.offset).Nodup := by
  have hnodup := hin.distinct w.partition
  obtain ⟨l, hl, heq⟩ := trustedStream_eq_adjacentFirst outcome.complete direction w hnodup
  have hstream := v.stream_eq
  rw [heq] at hstream
  have hall : ((adjacentFirst direction l).map RawRecord.offset).Nodup :=
    (((adjacentFirst_perm direction l).map _).nodup_iff).mpr (Ascending.map_nodup hl)
  rw [hstream, List.map_append] at hall
  exact hall.of_append_left

/-- The invariant of the chunk's merge, at the streams of its windows. -/
theorem Committed.inv {call : PageCall} {s : PageState} {outcome : FetchOutcome}
    {taken : ChunkTaken} (h : Committed call s outcome taken) :
    MergeInv call (partitionStreams outcome.complete call.req.direction outcome.records
      (s.windows call)) taken := by
  have hinv := mergeChunkRecords_inv call ⟨s.totalMatches, s.totalScanned⟩
    (selectPartitionStreams outcome (s.windows call) call.req.direction).1 s.sent
  have hmerged := h.merged
  rw [PageState.merge] at hmerged
  rwa [hmerged] at hinv

/-- The merge of a committed chunk ended at the limit or with drained streams. -/
theorem Committed.done {call : PageCall} {s : PageState} {outcome : FetchOutcome}
    {taken : ChunkTaken} (h : Committed call s outcome taken) :
    call.req.limit ≤ s.totalMatches + taken.matches_.length ∨ ∀ src ∈ taken.streams, src = [] := by
  have hmerged : mergeChunkRecords call ⟨s.totalMatches, s.totalScanned⟩
      (selectPartitionStreams outcome (s.windows call) call.req.direction).1 s.sent =
      (taken, true) := h.merged
  have hdone := mergeChunkRecords_done (congrArg Prod.snd hmerged)
  rwa [hmerged] at hdone

theorem Committed.entryMove {call : PageCall} {s : PageState} {outcome : FetchOutcome}
    {taken : ChunkTaken} (h : Committed call s outcome taken)
    (honce : NamedOnce s.curPositions (s.windows call))
    (hin : Inside (s.windows call) outcome) (hb : InBounds call.req.watermarks s.curPositions)
    {e : Position} (he : e ∈ s.curPositions) :
    EntryMove call s outcome taken.popped e
      (advancePosition (s.windows call) (s.isComplete call outcome) taken
        call.req.direction e) := by
  have hd := honce.distinct
  by_cases hw : ∃ w ∈ s.windows call, w.partition = e.1
  · obtain ⟨w, hw, hp⟩ := hw
    have hplan := honce.planned hw he hp
    have hnear := windowOf_near hb he hplan
    obtain ⟨rest, v⟩ := entryView hd h.inv hw hp hnear
    obtain ⟨hfst, hrange, hcov⟩ := v.moved hd hin (pageWindow_planned hplan).nonempty rfl
    exact ⟨hfst, Or.inr ⟨w, hw, hplan, hnear, hrange⟩, v.distinct hin, hcov,
      fun topic hdoc => v.read hdoc rfl⟩
  · have hno : ∀ w ∈ s.windows call, w.partition ≠ e.1 := fun w hw' hp => hw ⟨w, hw', hp⟩
    have hnil : taken.popped.filter (·.partition == e.1) = [] := by
      apply List.filter_eq_nil_iff.mpr
      intro r hr hrp
      obtain ⟨w, hw', hwp⟩ := popped_has_window hd h.inv hr
      exact hno w hw' (by rw [← hwp]; simpa using hrp)
    rw [advancePosition_of_no_window hno]
    exact ⟨rfl, Or.inl ⟨rfl, hnil⟩, by simp [hnil], by simp [hnil], by simp [hnil]⟩

end Arne.Timeline
