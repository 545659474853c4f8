import Arne.Timeline.Budget

/-!
# Cursors that list a partition twice

A cursor is client input: nothing keeps it from naming a partition more than once.
Windows and watermarks are looked up by partition, so an entry without a window of
its own follows another entry's.  As long as every partition that gets a window is
named by one entry, a chunk accounts for every entry.
-/

namespace Arne.Timeline

open Arne.Message Arne.SortedLog

/-- What a chunk owes to one listed position: it moves in the page's direction, no
    further than a window planned from it, and leaves no real record behind. -/
structure EntryAccounted (topic : Topic) (call : PageCall) (c : ChunkLog) (old new : Position) :
    Prop where
  partition_eq : new.1 = old.1
  onward : Onward call.req.direction old.2 new.2
  within : new.2 = old.2 ∨ ∃ span w, w ∈ c.windows ∧
    pageWindow call.req.watermarks call.req.direction span old = some w ∧
      (old.2 - new.2).natAbs ≤ w.span
  scanned : ∀ r ∈ topic.log old.1, Covers call.req.direction old.2 new.2 r.offset → r ∈ c.popped

def ChunkAccounted (topic : Topic) (call : PageCall) (c : ChunkLog) : Prop :=
  List.Forall₂ (EntryAccounted topic call c) c.oldPositions c.newPositions

/-- Every committed chunk accounts for every entry, and the budget holds. -/
def Accounted (topic : Topic) (call : PageCall) (s : PageState) : Prop :=
  (∀ c ∈ s.chunks, ChunkAccounted topic call c) ∧ s.totalScanned ≤ call.budget

/-- No partition a chunk planned a window for is listed twice. -/
def ListedOnce (s : PageState) : Prop :=
  ∀ c ∈ s.chunks, NamedOnce c.oldPositions c.windows

theorem Committed.accounted {topic : Topic} {call : PageCall} {s : PageState}
    {outcome : FetchOutcome} {taken : ChunkTaken} (h : Committed call s outcome taken)
    (honce : NamedOnce s.curPositions (s.windows call))
    (hdoc : Documented topic (s.windows call) outcome)
    (hb : InBounds call.req.watermarks s.curPositions) :
    ChunkAccounted topic call
      ⟨s.windows call, taken.popped, s.curPositions, s.advance call outcome taken⟩ := by
  refine forall₂_map_right (List.forall₂_same.mpr fun e _ => rfl) fun e e' he heq => ?_
  subst heq
  have hmove := h.entryMove honce hdoc.inside hb he
  refine ⟨hmove.partition_eq, hmove.onward, ?_, ?_⟩
  · rcases hmove.stays_or_moves with ⟨heq, -⟩ | ⟨w, hw, hplan, hnear, h1, h2⟩
    · exact Or.inl (congrArg Prod.snd heq)
    · exact Or.inr ⟨s.span call, w, hw, hplan, hnear ▸ nearEdge_dist h1 h2⟩
  · intro r hr hcov
    have hmem : r ∈ passed call.req.direction (topic.log e.1) e.2 _ := mem_passed.mpr ⟨hr, hcov⟩
    rw [← hmove.read topic hdoc] at hmem
    exact (List.mem_filter.mp hmem).1

/-- One committed chunk keeps the account. -/
theorem Accounted.commit {topic : Topic} {call : PageCall} (hdoc : ScansDocumented topic call)
    {s : PageState} {outcome : FetchOutcome} {taken : ChunkTaken}
    (hc : Committed call s outcome taken) (hb : InBounds call.req.watermarks s.curPositions)
    (hacc : ListedOnce s → Accounted topic call s)
    (honce : ListedOnce (s.commit call outcome taken).1) :
    InBounds call.req.watermarks (s.commit call outcome taken).1.curPositions ∧
      Accounted topic call (s.commit call outcome taken).1 := by
  rw [ListedOnce, commit_chunks] at honce
  have hnow : NamedOnce s.curPositions (s.windows call) :=
    honce _ (List.mem_append_right _ (List.mem_singleton_self _))
  have hd := hdoc _ _ _ hnow.distinct hc.scanned
  obtain ⟨hchunks, -⟩ := hacc fun c hmem => honce c (List.mem_append_left _ hmem)
  have hcharge := hc.charge_le hnow hd.inside hb
  have hbudget := hc.going.budget
  refine ⟨hc.inBounds hnow hd.inside hb, ?_, ?_⟩
  · rw [commit_chunks]
    intro c hmem
    rcases List.mem_append.mp hmem with hmem | hmem
    · exact hchunks c hmem
    · obtain rfl := List.mem_singleton.mp hmem
      exact hc.accounted hnow hd hb
  · rw [commit_totalScanned]
    omega

theorem running_accounted {topic : Topic} {call : PageCall} (hdoc : ScansDocumented topic call)
    {s : PageState} (h : Running call s) (honce : ListedOnce s) :
    InBounds call.req.watermarks s.curPositions ∧ Accounted topic call s := by
  induction h with
  | start =>
    exact ⟨inBounds_clampPositions _ _, by simp [PageState.start], Nat.zero_le _⟩
  | @next s s' _ hstep ih =>
    cases chunkStep_result hstep with
    | committed outcome taken hc hcommit =>
      have hs' : s' = (s.commit call outcome taken).1 := by rw [hcommit]
      subst hs'
      have hbefore : ListedOnce s := fun c hmem =>
        honce c (by rw [commit_chunks]; exact List.mem_append_left _ hmem)
      exact Accounted.commit hdoc hc (ih hbefore).1 (fun h => (ih h).2) honce

/-- In every run whose committed chunks never plan a window for a partition that is
    listed twice, every chunk accounts for every entry and the budget holds. -/
theorem page_accounted_of_listed_once {topic : Topic} {call : PageCall}
    (hdoc : ScansDocumented topic call) {s : PageState} (h : Reached call s)
    (honce : ListedOnce s) : Accounted topic call s := by
  cases h with
  | head h => exact (running_accounted hdoc h honce).2
  | @left s₀ s' flow h hstep =>
    cases chunkStep_result hstep with
    | finished => exact (running_accounted hdoc h honce).2
    | cancelled => exact (running_accounted hdoc h honce).2
    | atEdge => exact (running_accounted hdoc h honce).2
    | scanFailed => exact (running_accounted hdoc h honce).2
    | lost => exact (running_accounted hdoc h honce).2
    | stalled => exact (running_accounted hdoc h honce).2
    | committed outcome taken hc hcommit =>
      have hs' : s = (s₀.commit call outcome taken).1 := by rw [hcommit]
      subst hs'
      have hbefore : ListedOnce s₀ := fun c hmem =>
        honce c (by rw [commit_chunks]; exact List.mem_append_left _ hmem)
      have hrun := fun hbefore => running_accounted hdoc h hbefore
      exact (Accounted.commit hdoc hc (hrun hbefore).1 (fun h => (hrun h).2) honce).2

/-- The small topic's first page lists its partitions once. -/
theorem small_page_accounted :
    ∃ run, runPage (smallCall [(0, 5), (1, 1)] 2) = some run ∧
      Accounted smallTopic (smallCall [(0, 5), (1, 1)] 2) run.last := by
  have hrun := (Option.some_get (x := runPage (smallCall [(0, 5), (1, 1)] 2)) (by decide)).symm
  have hdoc : ScansDocumented smallTopic (smallCall [(0, 5), (1, 1)] 2) :=
    scanAll_documented smallTopic
  refine ⟨_, hrun, page_accounted_of_listed_once hdoc (runPage_reached hrun) ?_⟩
  unfold ListedOnce
  decide

/-- Offsets 0 to 3 of one partition. -/
def shortTopic : Topic :=
  Topic.ofEntries (fun p => if p = 0 then [(0, some 0), (1, some 1), (2, some 2), (3, some 3)] else [])
    fun p => by split <;> decide

/-- A cursor that lists partition 0 at its low watermark and again above it. -/
def repeatedCall : PageCall where
  handle := .plain "short"
  req := ⟨[(0, 0), (0, 3)], [(0, 0, 4)], .back, 1, none, 2⟩
  scanChunk := scanAll shortTopic
  client := .connected

/-- The entry at the edge has no window of its own and jumps up to where the other
    entry's window left off; both distances are charged. -/
theorem repeated_entry_breaks_accounting :
    ScansDocumented shortTopic repeatedCall ∧ ∃ run, runPage repeatedCall = some run ∧
      run.last.curPositions = [(0, 2), (0, 2)] ∧ repeatedCall.req.budget < run.last.totalScanned ∧
        ¬ Accounted shortTopic repeatedCall run.last := by
  have hrun := (Option.some_get (x := runPage repeatedCall) (by decide)).symm
  refine ⟨scanAll_documented shortTopic, _, hrun, by decide, by decide, ?_⟩
  intro hacc
  exact absurd hacc.2 (by decide)

end Arne.Timeline
