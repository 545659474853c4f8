import Arne.Timeline.Budget

/-!
# Following the cursors ends

A page charges exactly the distance its positions moved, and one that ends with a
cursor charged something.  Page after page therefore reaches the edge: from any
positions there is a reading to the end.
-/

namespace Arne.Timeline

open Arne.Message Arne.SortedLog MachineWord

/-- How far the positions still are from the edge. -/
def distance (watermarks : List Watermark) (direction : Direction) (positions : List Position) :
    Nat :=
  (positions.map fun e => (e.2 - edgeOf watermarks direction e.1).natAbs).sum

/-- Moving on towards the edge charges the difference of the distances. -/
theorem distance_advance {watermarks : List Watermark} {direction : Direction}
    {positions : List Position} (f : Position → Position) (hfst : ∀ e ∈ positions, (f e).1 = e.1)
    (honward : ∀ e ∈ positions, Onward direction e.2 (f e).2)
    (hedge : ∀ e ∈ positions, Onward direction (f e).2 (edgeOf watermarks direction e.1)) :
    distance watermarks direction (positions.map f) +
      chargeBudget positions (positions.map f) = distance watermarks direction positions := by
  rw [chargeBudget_map, distance, distance, List.map_map]
  induction positions with
  | nil => rfl
  | cons e positions ih =>
    have ih := ih (fun x hx => hfst x (List.mem_cons_of_mem _ hx))
      (fun x hx => honward x (List.mem_cons_of_mem _ hx))
      (fun x hx => hedge x (List.mem_cons_of_mem _ hx))
    have h1 := honward e List.mem_cons_self
    have h2 := hedge e List.mem_cons_self
    simp only [List.map_cons, List.sum_cons, Function.comp_apply] at ih ⊢
    rw [hfst e List.mem_cons_self]
    cases direction with
    | back => simp only [Onward] at h1 h2; omega
    | forward => simp only [Onward] at h1 h2; omega

section Connected

variable {topic : Topic} {call : PageCall}

/-- A page has scanned exactly as far as it moved. -/
theorem running_distance (hdoc : ScansDocumented topic call)
    (hordered : Ordered call.req.watermarks) (hnodup : (call.req.positions.map Prod.fst).Nodup)
    {s : PageState} (h : Running call s) :
    distance call.req.watermarks call.req.direction s.curPositions + s.totalScanned =
      distance call.req.watermarks call.req.direction
        (clampPositions call.req.positions call.req.watermarks) := by
  induction h with
  | start => rfl
  | @next s s' hs hstep ih =>
    cases chunkStep_result hstep with
    | committed outcome taken hc hcommit =>
      have hinv := running_readInv hdoc hnodup hs
      have honce := namedOnce_of_nodup call hinv.nodup
      have hin := (hdoc _ _ _ honce.distinct hc.scanned).inside
      have hmove := fun e he => hc.entryMove (e := e) honce hin hinv.bounds he
      have hnew := hinv.commit hc (hdoc _ _ _ honce.distinct hc.scanned)
        (commit_delivered (by simp [hcommit]))
      have hedge : ∀ e ∈ s.curPositions, Onward call.req.direction
          (advancePosition (s.windows call) (s.isComplete call outcome) taken
            call.req.direction e).2
          (edgeOf call.req.watermarks call.req.direction e.1) := by
        intro e he
        have hmem : advancePosition (s.windows call) (s.isComplete call outcome) taken
            call.req.direction e ∈ (s.commit call outcome taken).1.curPositions :=
          List.mem_map_of_mem he
        obtain ⟨w, hw⟩ := hnew.known hmem
        rw [← (hmove e he).partition_eq]
        exact onward_edgeOf hordered hnew.bounds hmem hw
      have hadvance := distance_advance
        (advancePosition (s.windows call) (s.isComplete call outcome) taken call.req.direction)
        (fun e he => (hmove e he).partition_eq) (fun e he => (hmove e he).onward) hedge
      have hcur := commit_curPositions call s outcome taken
      have hscanned := commit_totalScanned call s outcome taken
      rw [hcommit] at hcur hscanned
      simp only at hcur hscanned
      rw [hcur, hscanned, ← ih, ← hadvance]
      rw [PageState.advance, advancePositions]
      omega

end Connected

/-! ### A page for every position -/

/-- A page that asks for one message at a budget of one, of a client that stays. -/
def Reading.step (rd : Reading) (positions : List Position) : PageCall where
  handle := rd.handle
  req := ⟨positions, rd.watermarks, rd.direction, 1, rd.filter, 1⟩
  scanChunk := scanAll rd.topic
  client := .connected

/-- The watermarks are words. -/
def Reading.Fits (rd : Reading) : Prop := ∀ w ∈ rd.watermarks, FitsI64 w.2.1 ∧ FitsI64 w.2.2

theorem Reading.step_reads {rd : Reading} (hfits : rd.Fits) (positions : List Position) :
    rd.Reads positions (rd.step positions) :=
  ⟨⟨hfits, by simp [Reading.step]⟩, rfl, rfl, rfl, rfl, rfl, scanAll_documented rd.topic⟩

/-- A window of one offset ends no further than the edge. -/
theorem Reading.step_serves {rd : Reading} (hfits : rd.Fits) (hordered : Ordered rd.watermarks)
    {positions : List Position} (hnodup : (positions.map Prod.fst).Nodup) :
    rd.Serves positions (rd.step positions) := by
  have hreads := rd.step_reads hfits positions
  refine ⟨hreads, ?_⟩
  rintro s hs planning ⟨e, he, hactive⟩
  refine ⟨e, he, hactive, ?_⟩
  have hleft : s.remainingBudget (rd.step positions) = 1 := by
    have hbudget : s.totalScanned < 1 := planning.budget
    show 1 - s.totalScanned = 1
    omega
  have hone : s.span (rd.step positions) ≤ 1 := by
    rw [← hleft]
    exact chunkSpan_le (by omega) _ _ _ _ _ _
  cases hw : findWatermark rd.watermarks e.1 with
  | none => simp [isActive, Reading.step, hw] at hactive
  | some w =>
    obtain ⟨lo, hi⟩ := w
    have hbounds := (running_readInv hreads.documented hnodup hs).bounds
    obtain ⟨hlo, hhi⟩ := hbounds e he lo hi hw (hordered _ _ _ hw)
    obtain ⟨⟨hmin, -⟩, -, hmax⟩ := hfits _ (findWatermark_mem hw)
    simp only [isActive, Reading.step, hw, Bool.not_eq_true'] at hactive
    simp only at hmin hmax
    show InWords rd.direction _ _
    cases hdirection : rd.direction with
    | back =>
      simp only [hdirection, atEdge, beq_eq_false_iff_ne] at hactive
      exact ⟨by omega, by omega⟩
    | forward =>
      simp only [hdirection, atEdge, beq_eq_false_iff_ne] at hactive
      exact ⟨by omega, by omega⟩

theorem scanAll_no_incomplete {rd : Reading} {positions : List Position} {s : PageState}
    {outcome : FetchOutcome} (h : scanAll rd.topic s.chunkIndex (s.windows (rd.step positions)) =
      .ok outcome) : (s.isComplete (rd.step positions) outcome).any (!·) = false := by
  cases h
  apply List.any_eq_false.mpr
  intro b hb
  obtain ⟨w, hw, rfl⟩ := List.mem_map.mp hb
  simp only [Bool.not_eq_true', Bool.not_eq_false, List.contains_eq_mem, decide_eq_true_eq]
  exact List.mem_map_of_mem hw

/-- The page ends with `page_end`; unless it is exhausted it came closer to the edge. -/
theorem Reading.step_pageEnd {rd : Reading} (hfits : rd.Fits) (hordered : Ordered rd.watermarks)
    {positions : List Position} (hnodup : (positions.map Prod.fst).Nodup) :
    ∃ run cursor exhausted, runPage (rd.step positions) = some run ∧
      run.ending = .pageEnd cursor exhausted ∧
      (exhausted = false → distance rd.watermarks rd.direction run.last.curPositions <
        distance rd.watermarks rd.direction (clampPositions positions rd.watermarks)) := by
  have hreads := rd.step_reads hfits positions
  have hinside := hreads.documented.inside
  obtain ⟨run, hrun⟩ : ∃ run, runPage (rd.step positions) = some run :=
    runPage_isSome hinside hnodup
  obtain ⟨s₀, s, flow, hs₀, hstep, hne, rfl⟩ := runPage_spec hrun
  have hthere := (left_budgetInv rfl hinside hnodup hs₀ hstep).2
  have hdist := running_distance hreads.documented hordered hnodup hs₀
  -- past the first chunk something has been scanned
  have hmoved : s₀.totalScanned = 0 → s₀ = PageState.start (rd.step positions) := by
    intro hzero
    cases hs₀ with
    | start => rfl
    | @next s₁ _ hs hnext =>
      have hinv : BudgetInv (rd.step positions) _ :=
        running_budgetInv rfl hinside hnodup (.next hs hnext)
      cases chunkStep_result hnext with
      | committed outcome taken hc hcommit =>
        have hchunks := commit_chunks (rd.step positions) s₁ outcome taken
        rw [hcommit] at hchunks
        have hle := hinv.chunks_le
        simp only at hchunks
        rw [hchunks, List.length_append, List.length_singleton] at hle
        omega
  cases chunkStep_result hstep with
  | finished hfinished =>
    refine ⟨_, _, _, hrun, rfl, ?_⟩
    intro _
    show distance rd.watermarks rd.direction s₀.curPositions < _
    have hpos : 0 < s₀.totalScanned := by
      rcases Nat.eq_zero_or_pos s₀.totalScanned with hzero | hpos
      · have hstart := hmoved hzero
        rcases hfinished with h | h
        · rw [hstart] at h
          exact absurd h (by simp [Reading.step, PageState.start])
        · rw [hzero] at h
          exact absurd h (by simp [Reading.step, PageCall.budget])
      · exact hpos
    have : distance rd.watermarks rd.direction s₀.curPositions + s₀.totalScanned =
        distance rd.watermarks rd.direction (clampPositions positions rd.watermarks) := hdist
    omega
  | cancelled h => cases h
  | atEdge => exact ⟨_, _, _, hrun, rfl, by simp⟩
  | scanFailed e h => cases h
  | lost => exact absurd rfl hthere
  | stalled going outcome taken scanned h hnone hincomplete =>
    rw [scanAll_no_incomplete scanned] at hincomplete
    cases hincomplete
  | committed outcome taken hc hcommit =>
    have hflow := commit_flow (rd.step positions) s₀ outcome taken
    have hend := commit_exhausted (rd.step positions) s₀ outcome taken
    rw [hcommit] at hflow hend
    simp only at hflow hend
    rw [← hend] at hflow
    cases flow with
    | next => exact absurd rfl hne
    | clientGone => exact absurd rfl hthere
    | failed e =>
      split at hflow
      · cases hflow
      · split at hflow <;> cases hflow
    | broke =>
      refine ⟨_, _, _, hrun, rfl, ?_⟩
      intro hfalse
      rw [hfalse] at hflow
      split at hflow <;> cases hflow

/-- From any positions the cursors can be followed to an exhausted page. -/
theorem Reading.exists_follows {rd : Reading} (hfits : rd.Fits) (hordered : Ordered rd.watermarks)
    {positions : List Position} (hnodup : (positions.map Prod.fst).Nodup) :
    ∃ messages, Follows rd positions messages := by
  induction hn : distance rd.watermarks rd.direction (clampPositions positions rd.watermarks)
    using Nat.strongRecOn generalizing positions with
  | ind n ih =>
    obtain ⟨run, cursor, exhausted, hrun, hend, hcloser⟩ := rd.step_pageEnd hfits hordered hnodup
    have hserves := rd.step_serves hfits hordered hnodup
    obtain ⟨hended, -⟩ := hserves.page hordered hnodup hrun hend
    have hcursor := hended.cursor_eq
    cases exhausted with
    | true =>
      rw [if_pos rfl] at hcursor
      subst hcursor
      exact ⟨_, .last hserves hrun hend⟩
    | false =>
      rw [if_neg Bool.false_ne_true] at hcursor
      subst hcursor
      have hclamp : clampPositions run.last.curPositions rd.watermarks = run.last.curPositions :=
        clampPositions_of_inBounds hordered hended.inv.bounds fun e he => hended.inv.known he
      obtain ⟨rest, hrest⟩ := ih _ (hn ▸ hcloser rfl) hended.inv.nodup (by rw [hclamp])
      exact ⟨_, .next hserves hrun hend hrest⟩

end Arne.Timeline
