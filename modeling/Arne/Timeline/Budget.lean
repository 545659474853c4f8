import Arne.Timeline.Paging

/-!
# A page ends, within its budget, with honest progress

The charge of a committed chunk is positive and fits what is left of the budget,
so the number of chunks is bounded by the budget.  Mid-chunk progress counts the
records taken, which the charge of the chunk bounds from above: progress reported
inside a chunk never runs ahead of what the chunk reports at its end.
-/

namespace Arne.Timeline

open Arne.Message Arne.SortedLog

/-! ### The loop ends -/

/-- What the accounting needs of a state: partitions named once, positions inside
    the topic. -/
structure Tracked (call : PageCall) (s : PageState) : Prop where
  nodup : (s.curPositions.map Prod.fst).Nodup
  bounds : InBounds call.req.watermarks s.curPositions

theorem Tracked.start {call : PageCall} (h : (call.req.positions.map Prod.fst).Nodup) :
    Tracked call (PageState.start call) :=
  ⟨h.sublist (clampPositions_fst_sublist _ _), inBounds_clampPositions _ _⟩

theorem Tracked.namedOnce {call : PageCall} {s : PageState} (h : Tracked call s) :
    NamedOnce s.curPositions (s.windows call) :=
  namedOnce_of_nodup call h.nodup

theorem Tracked.inside {call : PageCall} {s : PageState} (h : Tracked call s)
    (hinside : ScansInside call) {outcome : FetchOutcome} {taken : ChunkTaken}
    (hc : Committed call s outcome taken) : Inside (s.windows call) outcome :=
  hinside _ _ _ h.namedOnce.distinct hc.scanned

theorem Tracked.commit {call : PageCall} {s : PageState} {outcome : FetchOutcome}
    {taken : ChunkTaken} (h : Tracked call s) (hinside : ScansInside call)
    (hc : Committed call s outcome taken) :
    Tracked call (s.commit call outcome taken).1 := by
  refine ⟨?_, hc.inBounds h.namedOnce (h.inside hinside hc) h.bounds⟩
  rw [commit_curPositions, advance_map_fst]
  exact h.nodup

/-- Enough rounds: two more than what is left of the budget, or one if the client
    has already gone. -/
theorem chunkLoop_isSome {call : PageCall} (hinside : ScansInside call) (fuel : Nat)
    {s : PageState} (h : Tracked call s)
    (hfuel : call.budget - s.totalScanned + 2 ≤ fuel ∨
      (call.client.cancelledAtHead s.chunkIndex = true ∧ 1 ≤ fuel)) :
    ∃ left, chunkLoop call fuel s = some left := by
  induction fuel generalizing s with
  | zero => omega
  | succ fuel ih =>
    simp only [chunkLoop]
    rcases hstep : chunkStep call s with ⟨s', flow⟩
    cases flow with
    | broke => exact ⟨_, rfl⟩
    | failed e => exact ⟨_, rfl⟩
    | clientGone => exact ⟨_, rfl⟩
    | next =>
      cases chunkStep_result hstep with
      | committed outcome taken hc hcommit =>
        have htracked := h.commit hinside hc
        have hscanned := commit_totalScanned call s outcome taken
        have hindex := commit_chunkIndex call s outcome taken
        rw [hcommit] at htracked hscanned hindex
        simp only at htracked hscanned hindex
        apply ih htracked
        have hbudget := hc.going.budget
        rcases hfuel with hfuel | ⟨hgone, -⟩
        · cases hcancel : call.client.cancelledAfterMerge s.chunkIndex with
          | false =>
            have := hc.charge_pos h.namedOnce (h.inside hinside hc) h.bounds hcancel
            left
            omega
          | true =>
            right
            rw [hindex]
            exact ⟨call.client.sticky _ hcancel, by omega⟩
        · rw [hc.going.present] at hgone
          cases hgone

/-- Whatever the scans return inside their windows, the task of a page ends. -/
theorem runPage_isSome {call : PageCall} (hinside : ScansInside call)
    (hnodup : (call.req.positions.map Prod.fst).Nodup) : ∃ run, runPage call = some run := by
  obtain ⟨left, hleft⟩ := chunkLoop_isSome hinside (call.budget + 2) (.start hnodup)
    (Or.inl (by simp [PageState.start]))
  exact ⟨_, by rw [runPage, hleft, Option.map_some]⟩

/-! ### Progress events -/

/-- The `scanned` and `matches` of the progress events, in order. -/
def progressOf (events : List TimelineEvent) : List (Nat × Nat) :=
  events.filterMap fun e => match e with
    | .progress scanned matches_ _ => some (scanned, matches_)
    | _ => none

theorem progressOf_append (es fs : List TimelineEvent) :
    progressOf (es ++ fs) = progressOf es ++ progressOf fs := by
  simp [progressOf]

theorem progressOf_matches (ms : List MessageOut) : progressOf (ms.map .match) = [] := by
  rw [progressOf, List.filterMap_map]
  exact List.filterMap_eq_nil_iff.mpr fun m _ => rfl

/-- The progress reported never goes down, and is no further than the page is. -/
structure Honest (events : List TimelineEvent) (scanned matches_ : Nat) : Prop where
  ordered : (progressOf events).Pairwise fun a b => a.1 ≤ b.1 ∧ a.2 ≤ b.2
  reached : ∀ x ∈ progressOf events, x.1 ≤ scanned ∧ x.2 ≤ matches_

theorem Honest.mono {events : List TimelineEvent} {scanned matches_ scanned' matches' : Nat}
    (h : Honest events scanned matches_) (hs : scanned ≤ scanned') (hm : matches_ ≤ matches') :
    Honest events scanned' matches' := by
  refine ⟨h.ordered, ?_⟩
  intro x hx
  have := h.reached x hx
  omega

/-- Reporting where the page is. -/
theorem Honest.report {events : List TimelineEvent} {scanned matches_ : Nat}
    (h : Honest events scanned matches_) (budget : Nat) :
    Honest (events ++ [.progress scanned matches_ budget]) scanned matches_ := by
  constructor
  · rw [progressOf_append]
    refine List.pairwise_append.mpr ⟨h.ordered, List.pairwise_singleton _ _, ?_⟩
    rintro x hx y hy
    obtain rfl : y = (scanned, matches_) := by simpa [progressOf] using hy
    exact h.reached x hx
  · rw [progressOf_append]
    intro x hx
    rcases List.mem_append.mp hx with hx | hx
    · exact h.reached x hx
    · obtain rfl : x = (scanned, matches_) := by simpa [progressOf] using hx
      exact ⟨Nat.le_refl _, Nat.le_refl _⟩

theorem Honest.append_matches {events : List TimelineEvent} {scanned matches_ : Nat}
    (h : Honest events scanned matches_) (ms : List MessageOut) :
    Honest (events ++ ms.map .match) scanned matches_ := by
  have hsame : progressOf (events ++ ms.map .match) = progressOf events := by
    rw [progressOf_append, progressOf_matches, List.append_nil]
  exact ⟨hsame ▸ h.ordered, hsame ▸ h.reached⟩

theorem midChunkProgress_eq {totalScanned popped scanned : Nat}
    (h : midChunkProgress totalScanned popped = some scanned) :
    scanned = totalScanned + popped := by
  unfold midChunkProgress at h
  split at h
  · exact (Option.some.inj h).symm
  · cases h

/-- Inside a chunk progress counts the records taken so far. -/
theorem mergeChunkRecords_honest (call : PageCall) (args : MergeChunkArgs)
    (streams : List (List RawRecord)) {sent : List TimelineEvent}
    (h : Honest sent args.totalScanned args.totalMatches) :
    Honest (mergeChunkRecords call args streams sent).1.sent
      (args.totalScanned + (mergeChunkRecords call args streams sent).1.popped.length)
      (args.totalMatches + (mergeChunkRecords call args streams sent).1.matches_.length) := by
  refine mergeLoop_induction (P := fun t => Honest t.sent (args.totalScanned + t.popped.length)
    (args.totalMatches + t.matches_.length)) (fun t i rec ht _ _ => ?_)
    (fun t scanned ht hmid => ?_) _ h
  · refine ht.mono ?_ ?_
    · simp [ChunkTaken.pop]
    · simp only [ChunkTaken.pop]
      split
      · simp only [List.length_append, List.length_singleton]
        omega
      · exact Nat.le_refl _
  · rw [midChunkProgress_eq hmid]
    exact ht.report call.budget

/-! ### A page with its client -/

def TimelineEvent.isTerminal : TimelineEvent → Bool
  | .pageEnd _ _ => true
  | .error _ _ _ _ => true
  | _ => false

/-- `new` lies strictly beyond `old`. -/
def StrictlyOnward (direction : Direction) (old new : Int) : Prop :=
  match direction with
  | .back => new < old
  | .forward => old < new

theorem Onward.strict {direction : Direction} {old new : Int} (h : Onward direction old new)
    (hne : new ≠ old) : StrictlyOnward direction old new := by
  cases direction with
  | back => exact lt_of_le_of_ne h hne
  | forward => exact lt_of_le_of_ne h (Ne.symm hne)

/-- A chunk moved no position back and one strictly on. -/
def ChunkLog.Advanced (direction : Direction) (c : ChunkLog) : Prop :=
  List.Forall₂ (fun old new : Position => new.1 = old.1 ∧ Onward direction old.2 new.2)
      c.oldPositions c.newPositions ∧
    ∃ x ∈ c.oldPositions.zip c.newPositions, StrictlyOnward direction x.1.2 x.2.2

/-- The invariant of a page whose client stays. -/
structure BudgetInv (call : PageCall) (s : PageState) : Prop where
  tracked : Tracked call s
  scanned_le : s.totalScanned ≤ call.budget
  chunks_le : s.chunks.length ≤ s.totalScanned
  advanced : ∀ c ∈ s.chunks, c.Advanced call.req.direction
  honest : Honest s.sent s.totalScanned s.totalMatches
  open_ : ∀ e ∈ s.sent, e.isTerminal = false

theorem sendAll_connected {client : Client} (h : ∀ n, client.accepts n = true)
    (sent events : List TimelineEvent) : sendAll client sent events = (sent ++ events, true) := by
  induction events generalizing sent with
  | nil => rw [sendAll, List.append_nil]
  | cons e events ih =>
    rw [sendAll, if_pos (h _), ih, List.append_assoc, List.singleton_append]

theorem mergeLoop_connected {call : PageCall} (h : ∀ n, call.client.accepts n = true)
    (args : MergeChunkArgs) (fuel : Nat) (t : ChunkTaken) :
    (mergeLoop call args fuel t).2 = true := by
  induction fuel generalizing t with
  | zero => rfl
  | succ fuel ih =>
    simp only [mergeLoop]
    split
    · rfl
    · cases KWayMerge.pick (mergePrefers call.req.direction) t.streams with
      | none => rfl
      | some head =>
        simp only
        split
        · exact ih _
        · rw [if_pos (h _)]
          exact ih _

/-- The merge sends no terminal event. -/
theorem mergeChunkRecords_open (call : PageCall) (args : MergeChunkArgs)
    (streams : List (List RawRecord)) {sent : List TimelineEvent}
    (h : ∀ e ∈ sent, e.isTerminal = false) :
    ∀ e ∈ (mergeChunkRecords call args streams sent).1.sent, e.isTerminal = false := by
  refine mergeLoop_induction (P := fun t => ∀ e ∈ t.sent, e.isTerminal = false)
    (fun t i rec ht _ _ => ht) (fun t scanned ht _ => ?_) _ h
  intro e he
  rcases List.mem_append.mp he with he | he
  · exact ht e he
  · obtain rfl := List.mem_singleton.mp he
    rfl

theorem Committed.advanced {call : PageCall} {s : PageState} {outcome : FetchOutcome}
    {taken : ChunkTaken} (h : Committed call s outcome taken)
    (honce : NamedOnce s.curPositions (s.windows call))
    (hin : Inside (s.windows call) outcome) (hb : InBounds call.req.watermarks s.curPositions)
    (hpresent : call.client.cancelledAfterMerge s.chunkIndex = false) :
    (ChunkLog.mk (s.windows call) taken.popped s.curPositions
      (s.advance call outcome taken)).Advanced call.req.direction := by
  have hmove := fun e he => h.entryMove (e := e) honce hin hb he
  constructor
  · refine forall₂_map_right (List.forall₂_same.mpr fun e _ => rfl) fun a b hb hab => ?_
    subst hab
    exact ⟨(hmove a hb).partition_eq, (hmove a hb).onward⟩
  · obtain ⟨e, he, hne⟩ := h.moves honce hin hb hpresent
    refine ⟨(e, advancePosition (s.windows call) (s.isComplete call outcome) taken
      call.req.direction e), ?_, (hmove e he).onward.strict hne⟩
    obtain ⟨i, hi, rfl⟩ := List.mem_iff_getElem.mp he
    exact List.mem_iff_getElem.mpr ⟨i, by simpa [PageState.advance, advancePositions] using hi,
      by simp [PageState.advance, advancePositions]⟩

section Connected

variable {call : PageCall} (hclient : call.client = .connected)

include hclient

theorem BudgetInv.commit {s : PageState} {outcome : FetchOutcome} {taken : ChunkTaken}
    (h : BudgetInv call s) (hinside : ScansInside call) (hc : Committed call s outcome taken) :
    BudgetInv call (s.commit call outcome taken).1 := by
  have honce := h.tracked.namedOnce
  have hin := h.tracked.inside hinside hc
  have hb := h.tracked.bounds
  have hpresent : call.client.cancelledAfterMerge s.chunkIndex = false := by rw [hclient]; rfl
  have hcharge := hc.charge_le honce hin hb
  have hpos := hc.charge_pos honce hin hb hpresent
  have hpopped := hc.popped_le_charge honce hin hb
  have hbudget := hc.going.budget
  have hmerged : mergeChunkRecords call ⟨s.totalMatches, s.totalScanned⟩
      (selectPartitionStreams outcome (s.windows call) call.req.direction).1 s.sent =
      (taken, true) := hc.merged
  have hsent : (s.commit call outcome taken).1.sent =
      taken.sent ++ chunkEvents call s outcome taken := by
    rw [commit_sent, sendAll_connected (by rw [hclient]; intro n; rfl)]
  refine ⟨h.tracked.commit hinside hc, ?_, ?_, ?_, ?_, ?_⟩
  · rw [commit_totalScanned]
    omega
  · rw [commit_chunks, commit_totalScanned, List.length_append, List.length_singleton]
    have := h.chunks_le
    omega
  · rw [commit_chunks]
    intro c hmem
    rcases List.mem_append.mp hmem with hmem | hmem
    · exact h.advanced c hmem
    · obtain rfl := List.mem_singleton.mp hmem
      exact hc.advanced honce hin hb hpresent
  · -- the chunk's own progress comes after its mid-chunk progress
    have hmid := mergeChunkRecords_honest call ⟨s.totalMatches, s.totalScanned⟩
      (selectPartitionStreams outcome (s.windows call) call.req.direction).1 h.honest
    rw [hmerged] at hmid
    rw [hsent, chunkEvents, ← List.append_assoc]
    exact ((hmid.mono (Nat.add_le_add_left hpopped _) (Nat.le_refl _)).append_matches _).report _
  · have hmid := mergeChunkRecords_open call ⟨s.totalMatches, s.totalScanned⟩
      (selectPartitionStreams outcome (s.windows call) call.req.direction).1 h.open_
    rw [hmerged] at hmid
    rw [hsent, chunkEvents]
    intro e he
    rcases List.mem_append.mp he with he | he
    · exact hmid e he
    · rcases List.mem_append.mp he with he | he
      · obtain ⟨m, -, rfl⟩ := List.mem_map.mp he
        rfl
      · obtain rfl := List.mem_singleton.mp he
        rfl

theorem running_budgetInv (hinside : ScansInside call)
    (hnodup : (call.req.positions.map Prod.fst).Nodup) {s : PageState} (h : Running call s) :
    BudgetInv call s := by
  induction h with
  | start =>
    exact ⟨.start hnodup, Nat.zero_le _, Nat.le_refl _, by simp [PageState.start],
      ⟨List.Pairwise.nil, by simp [PageState.start, progressOf]⟩, by simp [PageState.start]⟩
  | @next s s' _ hstep ih =>
    cases chunkStep_result hstep with
    | committed outcome taken hc hcommit =>
      have := ih.commit hclient hinside hc
      rwa [hcommit] at this

/-- How the loop of a connected page is left: by a break or by an error. -/
theorem left_budgetInv (hinside : ScansInside call)
    (hnodup : (call.req.positions.map Prod.fst).Nodup) {s₀ s : PageState} {flow : Flow}
    (h : Running call s₀) (hstep : chunkStep call s₀ = (s, flow)) :
    BudgetInv call s ∧ flow ≠ .clientGone := by
  have hinv := running_budgetInv hclient hinside hnodup h
  have haccepts : ∀ n, call.client.accepts n = true := by rw [hclient]; intro n; rfl
  cases chunkStep_result hstep with
  | finished => exact ⟨hinv, by simp⟩
  | cancelled hgone =>
    rw [hclient] at hgone
    cases hgone
  | atEdge =>
    exact ⟨⟨⟨hinv.tracked.nodup, hinv.tracked.bounds⟩, hinv.scanned_le, hinv.chunks_le,
      hinv.advanced, hinv.honest, hinv.open_⟩, by simp⟩
  | scanFailed e => exact ⟨hinv, by simp⟩
  | lost going outcome taken scanned hlost =>
    have hthere : (s₀.merge call outcome).2 = true := mergeLoop_connected haccepts _ _ _
    rw [hlost] at hthere
    cases hthere
  | stalled going outcome taken scanned hmerge hnone =>
    have hmerged : mergeChunkRecords call ⟨s₀.totalMatches, s₀.totalScanned⟩
        (selectPartitionStreams outcome (s₀.windows call) call.req.direction).1 s₀.sent =
        (taken, true) := hmerge
    have hkept := (mergeChunkRecords_inv call ⟨s₀.totalMatches, s₀.totalScanned⟩
      (selectPartitionStreams outcome (s₀.windows call) call.req.direction).1 s₀.sent).kept
    have hhonest := mergeChunkRecords_honest call ⟨s₀.totalMatches, s₀.totalScanned⟩
      (selectPartitionStreams outcome (s₀.windows call) call.req.direction).1 hinv.honest
    have hopen := mergeChunkRecords_open call ⟨s₀.totalMatches, s₀.totalScanned⟩
      (selectPartitionStreams outcome (s₀.windows call) call.req.direction).1 hinv.open_
    rw [hmerged] at hkept hhonest hopen
    have hnil : taken.matches_ = [] := by
      simp only at hkept
      rw [hkept, hnone]
      rfl
    simp only [hnone, hnil, List.length_nil, Nat.add_zero] at hhonest
    exact ⟨⟨⟨hinv.tracked.nodup, hinv.tracked.bounds⟩, hinv.scanned_le, hinv.chunks_le,
      hinv.advanced, hhonest, hopen⟩, by simp⟩
  | committed outcome taken hc hcommit =>
    have := hinv.commit hclient hinside hc
    rw [hcommit] at this
    refine ⟨this, ?_⟩
    intro hgone
    have hflow := commit_flow call s₀ outcome taken
    rw [hcommit, sendAll_connected haccepts] at hflow
    simp only [Bool.not_true, Bool.false_eq_true, if_false] at hflow
    rw [hgone] at hflow
    split at hflow <;> cases hflow

/-- A page of a client that stays commits at most `budget` chunks, each moving some
    position strictly on, scans at most the budget, ends with one terminal event,
    and reports progress that never goes down and never exceeds the budget. -/
theorem page_ends_within_budget (hinside : ScansInside call)
    (hnodup : (call.req.positions.map Prod.fst).Nodup) :
    ∃ run, runPage call = some run ∧
      run.last.chunks.length ≤ call.budget ∧
      (∀ c ∈ run.last.chunks, c.Advanced call.req.direction) ∧
      run.last.totalScanned ≤ call.budget ∧
      (∃ before last, run.events = before ++ [last] ∧ last.isTerminal = true ∧
        ∀ e ∈ before, e.isTerminal = false) ∧
      (progressOf run.events).Pairwise (fun a b => a.1 ≤ b.1 ∧ a.2 ≤ b.2) ∧
      ∀ x ∈ progressOf run.events, x.1 ≤ call.budget := by
  obtain ⟨run, hrun⟩ := runPage_isSome hinside hnodup
  obtain ⟨s₀, s, flow, hs₀, hstep, hne, rfl⟩ := runPage_spec hrun
  obtain ⟨hinv, hthere⟩ := left_budgetInv hclient hinside hnodup hs₀ hstep
  have haccepts : ∀ n, call.client.accepts n = true := by rw [hclient]; intro n; rfl
  -- whatever the flow, one terminal event follows what was sent
  obtain ⟨last, hterminal, hlast, hevents⟩ : ∃ last, last.isTerminal = true ∧
      (finishPage call s flow).last = s ∧ (finishPage call s flow).events = s.sent ++ [last] := by
    cases flow with
    | next => exact absurd rfl hne
    | clientGone => exact absurd rfl hthere
    | failed e =>
      exact ⟨.ofApiError e, rfl, rfl, by simp only [finishPage, sendAll_connected haccepts]⟩
    | broke =>
      exact ⟨.pageEnd (resumeCursor call s) s.exhausted, rfl, rfl,
        by simp only [finishPage, sendAll_connected haccepts]⟩
  have hprogress : progressOf (finishPage call s flow).events = progressOf s.sent := by
    rw [hevents, progressOf_append]
    cases last <;> first | exact List.append_nil _ | cases hterminal
  refine ⟨_, hrun, ?_, ?_, ?_, ⟨_, _, hevents, hterminal, hinv.open_⟩, ?_, ?_⟩
  · rw [hlast]
    exact hinv.chunks_le.trans hinv.scanned_le
  · rw [hlast]
    exact hinv.advanced
  · rw [hlast]
    exact hinv.scanned_le
  · rw [hprogress]
    exact hinv.honest.ordered
  · rw [hprogress]
    exact fun x hx => (hinv.honest.reached x hx).1.trans hinv.scanned_le

end Connected

/-- The small topic's first page, held to its budget of 100. -/
theorem small_page_ends_within_budget :
    ∃ run, runPage (smallCall [(0, 5), (1, 1)] 2) = some run ∧ run.last.chunks.length ≤ 100 ∧
      run.last.totalScanned ≤ 100 ∧ ∀ x ∈ progressOf run.events, x.1 ≤ 100 := by
  have hinside : ScansInside (smallCall [(0, 5), (1, 1)] 2) :=
    ScansDocumented.inside (scanAll_documented smallTopic)
  obtain ⟨run, hrun, hchunks, -, hscanned, -, -, hprogress⟩ :=
    page_ends_within_budget rfl hinside (by decide)
  exact ⟨run, hrun, hchunks, hscanned, hprogress⟩

/-! ### A page with any client -/

theorem sendAll_open {client : Client} {sent events : List TimelineEvent}
    (hsent : ∀ e ∈ sent, e.isTerminal = false) (h : ∀ e ∈ events, e.isTerminal = false) :
    ∀ e ∈ (sendAll client sent events).1, e.isTerminal = false := by
  induction events generalizing sent with
  | nil => exact hsent
  | cons e events ih =>
    rcases List.forall_mem_cons.mp h with ⟨he, hrest⟩
    simp only [sendAll]
    split
    · apply ih _ hrest
      intro e' he'
      rcases List.mem_append.mp he' with he' | he'
      · exact hsent e' he'
      · rw [List.mem_singleton.mp he']
        exact he
    · exact hsent

theorem chunkEvents_open (call : PageCall) (s : PageState) (outcome : FetchOutcome)
    (taken : ChunkTaken) : ∀ e ∈ chunkEvents call s outcome taken, e.isTerminal = false := by
  intro e he
  rcases List.mem_append.mp he with he | he
  · rcases List.mem_map.mp he with ⟨m, -, rfl⟩
    rfl
  · rw [List.mem_singleton.mp he]
    rfl

theorem merge_open {call : PageCall} {s : PageState} {outcome : FetchOutcome} {taken : ChunkTaken}
    {going : Bool} (h : ∀ e ∈ s.sent, e.isTerminal = false)
    (hmerge : s.merge call outcome = (taken, going)) : ∀ e ∈ taken.sent, e.isTerminal = false := by
  have hopen := mergeChunkRecords_open call ⟨s.totalMatches, s.totalScanned⟩
    (selectPartitionStreams outcome (s.windows call) call.req.direction).1 h
  have hmerged : mergeChunkRecords call ⟨s.totalMatches, s.totalScanned⟩
      (selectPartitionStreams outcome (s.windows call) call.req.direction).1 s.sent =
      (taken, going) := hmerge
  rwa [hmerged] at hopen

/-- Whatever the client does, no iteration sends a terminal event. -/
theorem step_open {call : PageCall} {s s' : PageState} {flow : Flow}
    (h : ∀ e ∈ s.sent, e.isTerminal = false) (hstep : chunkStep call s = (s', flow)) :
    ∀ e ∈ s'.sent, e.isTerminal = false := by
  cases chunkStep_result hstep with
  | finished => exact h
  | cancelled => exact h
  | atEdge => exact h
  | scanFailed => exact h
  | lost _ outcome taken _ hmerge => exact merge_open h hmerge
  | stalled _ outcome taken _ hmerge => exact merge_open h hmerge
  | committed outcome taken hc hcommit =>
    have hsent : s'.sent =
        (sendAll call.client taken.sent (chunkEvents call s outcome taken)).1 := by
      rw [← commit_sent, hcommit]
    rw [hsent]
    exact sendAll_open (merge_open h hc.merged) (chunkEvents_open call s outcome taken)

theorem running_open {call : PageCall} {s : PageState} (h : Running call s) :
    ∀ e ∈ s.sent, e.isTerminal = false := by
  induction h with
  | start => simp [PageState.start]
  | next _ hstep ih => exact step_open ih hstep

/-- A page whose stream has a `page_end` in it ended with this one, and sent nothing after it. -/
theorem runPage_sent_pageEnd {call : PageCall} {run : PageRun} (hrun : runPage call = some run)
    {cursor : Option Cursor} {exhausted : Bool} (h : .pageEnd cursor exhausted ∈ run.events) :
    run.ending = .pageEnd cursor exhausted ∧
      ∃ sent, run.events = sent ++ [.pageEnd cursor exhausted] ∧
        ∀ e ∈ sent, e.isTerminal = false := by
  rcases runPage_spec hrun with ⟨s₀, s, flow, hs₀, hstep, hne, rfl⟩
  have hopen := step_open (running_open hs₀) hstep
  have hnone : .pageEnd cursor exhausted ∉ s.sent := by
    intro hmem
    have hfalse := hopen _ hmem
    cases hfalse
  -- what is sent last, if it still finds the client
  have hlast : ∀ last, .pageEnd cursor exhausted ∈ (sendAll call.client s.sent [last]).1 →
      last = .pageEnd cursor exhausted ∧
        (sendAll call.client s.sent [last]).1 = s.sent ++ [.pageEnd cursor exhausted] := by
    intro last hmem
    simp only [sendAll] at hmem ⊢
    split at hmem
    · rename_i haccepts
      rw [if_pos haccepts]
      rcases List.mem_append.mp hmem with hmem | hmem
      · exact absurd hmem hnone
      · rw [List.mem_singleton.mp hmem]
        exact ⟨rfl, rfl⟩
    · exact absurd hmem hnone
  cases flow with
  | next => exact absurd rfl hne
  | clientGone => exact absurd h hnone
  | failed e =>
    have heq := (hlast _ h).1
    cases heq
  | broke =>
    rcases hlast _ h with ⟨heq, hsent⟩
    cases heq
    exact ⟨rfl, s.sent, hsent, hopen⟩

end Arne.Timeline
