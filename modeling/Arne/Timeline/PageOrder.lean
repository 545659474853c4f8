import Arne.Timeline.Nearest

/-!
# Over a page

The chunks of a page are in time one by one.  The page is, with nothing nearer left unread,
when no chunk takes a record while a nearer one lies unread beyond its windows: always for a
single partition, and for a page that fills its limit from ample first windows.
-/

namespace Arne.Timeline

open Arne.Message Arne.SortedLog

/-- The messages of a chunk, as they went out. -/
def ChunkLog.emitted (decoder : Decoder) (direction : Direction) (c : ChunkLog) :
    List MessageOut :=
  chunkDisplayOrder (c.popped.map (toOneMessageOut decoder)) direction

theorem ChunkLog.mem_emitted {decoder : Decoder} {direction : Direction} {c : ChunkLog}
    {m : MessageOut} :
    m ∈ c.emitted decoder direction ↔ ∃ r ∈ c.popped, toOneMessageOut decoder r = m := by
  rw [ChunkLog.emitted, (chunkDisplayOrder_perm _ _).mem_iff, List.mem_map]

/-- A chunk took a record while a strictly nearer one lay unread beyond its windows. -/
def ChunkLog.Outruns (rd : Reading) (c : ChunkLog) : Prop :=
  ∃ m ∈ c.popped, ∃ r ∈ rd.remaining c.oldPositions,
    (∀ w ∈ c.windows, r ∉ rd.topic.slice w.partition w.start w.end_) ∧
      ¬ InTime rd.direction m r

instance (direction : Direction) (a b : RawRecord) : Decidable (InTime direction a b) :=
  inferInstanceAs (Decidable (Onward direction _ _))

instance (rd : Reading) (c : ChunkLog) : Decidable (c.Outruns rd) :=
  inferInstanceAs (Decidable (∃ m ∈ c.popped, ∃ r ∈ rd.remaining c.oldPositions,
    (∀ w ∈ c.windows, r ∉ rd.topic.slice w.partition w.start w.end_) ∧
      ¬ InTime rd.direction m r))

/-- What the page emitted is in time, and of what it left unread nothing is strictly nearer
    than a record it emitted. -/
structure PageInTime (rd : Reading) (positions : List Position) (run : PageRun) : Prop where
  ordered : (messagesOf run.events).Pairwise fun a b =>
    Onward rd.direction (messageTime a) (messageTime b)
  unread : ∀ r ∈ rd.remaining positions, r ∉ run.popped → ∀ m ∈ run.popped,
    InTime rd.direction m r

/-! ### The chunks of a page -/

/-- A chunk of a page that took `before` on the way to it. -/
structure ChunkOf (rd : Reading) (positions : List Position) (before : List ChunkLog)
    (c : ChunkLog) : Prop where
  nearest : ∃ left, ChunkNearest rd.topic rd.direction c.windows c.popped left
  planned : ∀ w ∈ c.windows, ∃ e ∈ c.oldPositions,
    w.partition = e.1 ∧ nearEdge w rd.direction = e.2
  named : c.oldPositions.map Prod.fst = (clampPositions positions rd.watermarks).map Prod.fst
  clamped : clampPositions c.oldPositions rd.watermarks = c.oldPositions
  remaining : (rd.remaining positions).Perm
    (before.flatMap ChunkLog.popped ++ rd.remaining c.oldPositions)

theorem Reading.remaining_nodup {rd : Reading} {positions : List Position}
    (hnodup : (positions.map Prod.fst).Nodup) : (rd.remaining positions).Nodup := by
  have hstart : ((clampPositions positions rd.watermarks).map Prod.fst).Nodup :=
    hnodup.sublist (clampPositions_fst_sublist _ _)
  apply List.nodup_flatMap.mpr
  refine ⟨fun e _ => passed_nodup (rd.topic.ascending _) _ _ _, ?_⟩
  apply (List.pairwise_map.mp hstart).imp
  intro e e' hne r hr hr'
  have hp := rd.topic.partition_eq _ r (mem_passed.mp hr).1
  have hp' := rd.topic.partition_eq _ r (mem_passed.mp hr').1
  exact hne (hp.symm.trans hp')

section

variable {rd : Reading} {positions : List Position} {before : List ChunkLog} {c : ChunkLog}

/-- What remained at a chunk is what remained at the start less what was taken since. -/
theorem ChunkOf.mem_remaining (h : ChunkOf rd positions before c)
    (hnodup : (positions.map Prod.fst).Nodup) {r : RawRecord} :
    r ∈ rd.remaining c.oldPositions ↔
      r ∈ rd.remaining positions ∧ r ∉ before.flatMap ChunkLog.popped := by
  have hall := h.remaining.nodup_iff.mp (Reading.remaining_nodup hnodup)
  rw [h.remaining.mem_iff, List.mem_append]
  constructor
  · intro hr
    exact ⟨Or.inr hr, fun hbefore => (List.disjoint_of_nodup_append hall) hbefore hr⟩
  · rintro ⟨hbefore | hr, hnot⟩
    · exact absurd hbefore hnot
    · exact hr

/-- What a chunk did not take of what remained is no earlier than what it took, in its
    windows always, and beyond them unless it outruns. -/
theorem ChunkOf.inTime (h : ChunkOf rd positions before c) (hnot : ¬ c.Outruns rd) {r : RawRecord}
    (hr : r ∈ rd.remaining c.oldPositions) (hleft : r ∉ c.popped) {m : RawRecord}
    (hm : m ∈ c.popped) : InTime rd.direction m r := by
  obtain ⟨left, hnear⟩ := h.nearest
  by_cases hin : ∃ w ∈ c.windows, r ∈ rd.topic.slice w.partition w.start w.end_
  · obtain ⟨w, hw, hin⟩ := hin
    exact hnear.unread hw hin hleft hm
  · by_contra hearlier
    apply hnot
    refine ⟨m, hm, r, hr, ?_, hearlier⟩
    intro w hw hr
    exact hin ⟨w, hw, hr⟩

/-- What lies beyond a partition's window is farther than what the window holds. -/
theorem beyond_inTime {topic : Topic} (ht : Timed topic) {direction : Direction}
    {w : PartitionRange} {edge : Int} {r m : RawRecord}
    (hr : r ∈ passed direction (topic.log w.partition) (nearEdge w direction) edge)
    (hbeyond : r ∉ topic.slice w.partition w.start w.end_)
    (hm : m ∈ topic.slice w.partition w.start w.end_) : InTime direction m r := by
  obtain ⟨hlog, hcovers⟩ := mem_passed.mp hr
  obtain ⟨hmlog, hlow, hhigh⟩ := Topic.mem_slice.mp hm
  have hout : ¬ (w.start ≤ r.offset ∧ r.offset < w.end_) :=
    fun hin => hbeyond (Topic.mem_slice.mpr ⟨hlog, hin⟩)
  cases direction with
  | back =>
    simp only [Covers, nearEdge] at hcovers
    exact time_le_of_offset_le ht hlog hmlog (by omega)
  | forward =>
    simp only [Covers, nearEdge] at hcovers
    exact time_le_of_offset_le ht hmlog hlog (by omega)

/-- A page of one partition never outruns. -/
theorem ChunkOf.of_one {e : Position} (h : ChunkOf rd [e] before c) (ht : Timed rd.topic) :
    ¬ c.Outruns rd := by
  rintro ⟨m, hm, r, hr, hbeyond, hearlier⟩
  obtain ⟨left, hnear⟩ := h.nearest
  obtain ⟨w, hw, hmw⟩ := hnear.from_window m hm
  obtain ⟨f, hf, hpart, hedge⟩ := h.planned w hw
  rw [Reading.remaining, h.clamped] at hr
  obtain ⟨f', hf', hr⟩ := List.mem_flatMap.mp hr
  have hone : c.oldPositions.length ≤ 1 := by
    rw [← List.length_map (f := Prod.fst), h.named, List.length_map]
    exact List.length_filterMap_le _ _
  obtain rfl : f' = f := by
    rcases hpositions : c.oldPositions with _ | ⟨x, rest⟩
    · rw [hpositions] at hf
      cases hf
    · rw [hpositions, List.length_cons] at hone
      obtain rfl : rest = [] := List.length_eq_zero_iff.mp (by omega)
      rw [hpositions] at hf hf'
      exact (List.mem_singleton.mp hf').trans (List.mem_singleton.mp hf).symm
  rw [← hpart, ← hedge] at hr
  exact hearlier (beyond_inTime ht hr (hbeyond w hw) hmw)

theorem pairwise_of_splits {α : Type*} {R : α → α → Prop} {l : List α}
    (h : ∀ before a after, l = before ++ a :: after → ∀ b ∈ after, R a b) : l.Pairwise R := by
  induction l with
  | nil => exact .nil
  | cons a l ih =>
    apply List.Pairwise.cons (h [] a l rfl)
    apply ih
    intro before b after hsplit
    exact h (a :: before) b after (by rw [hsplit, List.cons_append])

/-- The order over the page, put together from the order within its chunks. -/
theorem pageInTime_iff {run : PageRun} (hnodup : (positions.map Prod.fst).Nodup)
    (hemitted : messagesOf run.events =
      run.last.chunks.flatMap (ChunkLog.emitted rd.handle.decoder rd.direction))
    (hinTime : ∀ c ∈ run.last.chunks, (c.emitted rd.handle.decoder rd.direction).Pairwise
      fun a b => Onward rd.direction (messageTime a) (messageTime b))
    (hchunks : ∀ before c after, run.last.chunks = before ++ c :: after →
      ChunkOf rd positions before c)
    {rest : List RawRecord} (hall : (rd.remaining positions).Perm (run.popped ++ rest)) :
    PageInTime rd positions run ↔ ∀ c ∈ run.last.chunks, ¬ c.Outruns rd := by
  have hpopped : run.popped = run.last.chunks.flatMap ChunkLog.popped := rfl
  have hdistinct : run.popped.Nodup :=
    (hall.nodup_iff.mp (Reading.remaining_nodup hnodup)).of_append_left
  constructor
  · rintro ⟨hordered, hunread⟩ c hc ⟨m, hm, r, hr, hbeyond, hearlier⟩
    obtain ⟨before, after, hsplit⟩ := List.append_of_mem hc
    have hof := hchunks before c after hsplit
    obtain ⟨hside, hnot⟩ := (hof.mem_remaining hnodup).mp hr
    have hmpopped : m ∈ run.popped := hpopped ▸ List.mem_flatMap.mpr ⟨c, hc, hm⟩
    by_cases hread : r ∈ run.popped
    · -- a later chunk took it
      rw [hpopped, hsplit, List.flatMap_append, List.flatMap_cons] at hread
      rcases List.mem_append.mp hread with hbefore | hread
      · exact hnot hbefore
      rcases List.mem_append.mp hread with hsame | hafter
      · obtain ⟨left, hnear⟩ := hof.nearest
        obtain ⟨w, hw, hin⟩ := hnear.from_window r hsame
        exact hbeyond w hw hin
      · obtain ⟨d, hd, hrd⟩ := List.mem_flatMap.mp hafter
        rw [hemitted, hsplit, List.flatMap_append, List.flatMap_cons] at hordered
        have hpair := (List.pairwise_append.mp (List.pairwise_append.mp hordered).2.1).2.2
        exact hearlier (hpair _ (ChunkLog.mem_emitted.mpr ⟨m, hm, rfl⟩) _
          (List.mem_flatMap.mpr ⟨d, hd, ChunkLog.mem_emitted.mpr ⟨r, hrd, rfl⟩⟩))
    · exact hearlier (hunread r hside hread m hmpopped)
  · intro hnone
    refine ⟨?_, ?_⟩
    · rw [hemitted, List.pairwise_flatMap]
      refine ⟨hinTime, pairwise_of_splits ?_⟩
      intro before c after hsplit d hd x hx y hy
      obtain ⟨m, hm, rfl⟩ := ChunkLog.mem_emitted.mp hx
      obtain ⟨r, hr, rfl⟩ := ChunkLog.mem_emitted.mp hy
      have hof := hchunks before c after hsplit
      have hc : c ∈ run.last.chunks := hsplit ▸ List.mem_append_right _ List.mem_cons_self
      -- what a later chunk takes remained at this one and was not taken by it
      have hafter : r ∈ after.flatMap ChunkLog.popped := List.mem_flatMap.mpr ⟨d, hd, hr⟩
      rw [hpopped, hsplit, List.flatMap_append, List.flatMap_cons] at hdistinct
      have hbefore : r ∉ before.flatMap ChunkLog.popped := fun hmem =>
        List.disjoint_of_nodup_append hdistinct hmem (List.mem_append_right _ hafter)
      have hhere : r ∉ c.popped := fun hmem =>
        List.disjoint_of_nodup_append hdistinct.of_append_right hmem hafter
      have hside : r ∈ rd.remaining positions := by
        apply hall.mem_iff.mpr
        rw [hpopped, hsplit, List.flatMap_append, List.flatMap_cons]
        exact List.mem_append_left _ (List.mem_append_right _ (List.mem_append_right _ hafter))
      exact hof.inTime (hnone c hc) ((hof.mem_remaining hnodup).mpr ⟨hside, hbefore⟩) hhere hm
    · intro r hr hleft m hm
      obtain ⟨c, hc, hm⟩ := List.mem_flatMap.mp (hpopped ▸ hm)
      obtain ⟨before, after, hsplit⟩ := List.append_of_mem hc
      have hof := hchunks before c after hsplit
      rw [hpopped, hsplit, List.flatMap_append, List.flatMap_cons, List.mem_append,
        List.mem_append, not_or, not_or] at hleft
      exact hof.inTime (hnone c hc) ((hof.mem_remaining hnodup).mpr ⟨hr, hleft.1⟩) hleft.2.1 hm

end

/-! ### The page -/

/-- What is known of the chunks of a page. -/
structure TimeInv (rd : Reading) (positions : List Position) (s : PageState) : Prop where
  emitted : messagesOf s.sent = s.chunks.flatMap (ChunkLog.emitted rd.handle.decoder rd.direction)
  chunks : ∀ before c after, s.chunks = before ++ c :: after → ChunkOf rd positions before c
  counted : s.totalMatches = s.popped.length

theorem keptMessages_none (handle : ClusterHandle) (records : List RawRecord) :
    keptMessages handle none records = records.map (toOneMessageOut handle.decoder) :=
  List.filter_eq_self.mpr fun _ _ => rfl

theorem ScansComplete.documented {topic : Topic} {call : PageCall} (h : ScansComplete topic call) :
    ScansDocumented topic call :=
  fun n windows outcome hd hok => (h n windows outcome hd hok).1

section Page

variable {rd : Reading} {positions : List Position} {call : PageCall}
  (ht : Timed rd.topic) (hfilter : rd.filter = none) (hordered : Ordered rd.watermarks)
  (hnodup : (positions.map Prod.fst).Nodup)
  (hcall : rd.Reads positions call) (hcomplete : ScansComplete rd.topic call)

include ht hcall hcomplete

section Chunks

include hordered hnodup

/-- A committed chunk, as it is logged. -/
theorem ChunkOf.commit {s : PageState} {outcome : FetchOutcome} {taken : ChunkTaken}
    (hread : ReadInv rd.topic call s) (h : Committed call s outcome taken)
    {newPositions : List Position} : ChunkOf rd positions s.chunks
      ⟨s.windows call, taken.popped, s.curPositions, newPositions⟩ := by
  have hd := (namedOnce_of_nodup call hread.nodup).distinct
  obtain ⟨hdoc, hwhole⟩ := hcomplete _ _ _ hd h.scanned
  have hnear := h.nearest ht hd hdoc hwhole
  rw [hcall.direction] at hnear
  have hbounds := hread.bounds
  have hknown := fun e he => hread.known (e := e) he
  have hfst := readTo_map_fst hread.read
  rw [hcall.watermarks] at hbounds hknown
  rw [hcall.positions, hcall.watermarks] at hfst
  refine ⟨⟨_, hnear⟩, ?_, hfst, clampPositions_of_inBounds hordered hbounds hknown,
    hcall.remaining_perm hordered hnodup hread⟩
  intro w hw
  obtain ⟨e, he, hplan⟩ := mem_windows hw
  have hedge := windowOf_near hread.bounds he hplan
  rw [hcall.direction] at hedge
  exact ⟨e, he, (pageWindow_planned hplan).partition_eq, hedge⟩

include hfilter

theorem TimeInv.commit {s : PageState} {outcome : FetchOutcome} {taken : ChunkTaken}
    (hinv : TimeInv rd positions s) (hread : ReadInv rd.topic call s)
    (h : Committed call s outcome taken)
    (hsent : (sendAll call.client taken.sent (chunkEvents call s outcome taken)).2 = true) :
    TimeInv rd positions (s.commit call outcome taken).1 := by
  have hkept := h.inv.kept
  rw [hcall.filter, hfilter, keptMessages_none, hcall.handle] at hkept
  refine ⟨?_, ?_, ?_⟩
  · rw [commit_sent, sendAll_delivered hsent, messagesOf_append, h.messagesOf_sent, hinv.emitted,
      messagesOf_chunkEvents, commit_chunks, List.flatMap_append, hkept, hcall.direction]
    simp [ChunkLog.emitted]
  · rw [commit_chunks]
    intro before c after hsplit
    rcases List.eq_nil_or_concat after with rfl | ⟨after, last, rfl⟩
    · obtain ⟨rfl, hlast⟩ := List.append_inj' hsplit rfl
      obtain rfl := List.singleton_inj.mp hlast
      exact ChunkOf.commit ht hordered hnodup hcall hcomplete hread h
    · rw [List.concat_eq_append, ← List.cons_append, ← List.append_assoc] at hsplit
      exact hinv.chunks before c after (List.append_inj' hsplit rfl).1
  · rw [commit_totalMatches, hinv.counted, hkept, List.length_map]
    simp [PageState.popped]

theorem running_timeInv {s : PageState} (h : Running call s) : TimeInv rd positions s := by
  have hpos : (call.req.positions.map Prod.fst).Nodup := hcall.positions ▸ hnodup
  induction h with
  | start => exact ⟨rfl, by simp [PageState.start], rfl⟩
  | @next s s' hs hstep ih =>
    cases chunkStep_result hstep with
    | committed outcome taken hc hcommit =>
      have := TimeInv.commit ht hfilter hordered hnodup hcall hcomplete ih
        (running_readInv hcomplete.documented hpos hs) hc (commit_delivered (by simp [hcommit]))
      rwa [hcommit] at this

end Chunks

include hfilter

/-- Everything taken so far is in time, and before everything that remains unread:
    either the limit is reached or nothing remains. -/
structure NearestInv (rd : Reading) (positions : List Position) (call : PageCall) (s : PageState) :
    Prop where
  ordered : (messagesOf s.sent).Pairwise fun a b =>
    Onward rd.direction (messageTime a) (messageTime b)
  unread : ∀ r ∈ rd.remaining positions, r ∉ s.popped → ∀ m ∈ s.popped, InTime rd.direction m r
  done : call.req.limit ≤ s.totalMatches ∨ ∀ r ∈ rd.remaining positions, r ∈ s.popped

/-- Before the first chunk, or in time. -/
def StartOrNearest (rd : Reading) (positions : List Position) (call : PageCall) (s : PageState) :
    Prop :=
  s = PageState.start call ∨ NearestInv rd positions call s

theorem StartOrNearest.commit (hordered : Ordered rd.watermarks)
    (hnodup : (positions.map Prod.fst).Nodup) (hlimit : 1 ≤ call.req.limit)
    (hample : Ample rd call) {s : PageState} {outcome : FetchOutcome} {taken : ChunkTaken}
    (hinv : StartOrNearest rd positions call s) (hread : ReadInv rd.topic call s)
    (h : Committed call s outcome taken)
    (hsent : (sendAll call.client taken.sent (chunkEvents call s outcome taken)).2 = true) :
    NearestInv rd positions call (s.commit call outcome taken).1 := by
  have hd := (namedOnce_of_nodup call hread.nodup).distinct
  obtain ⟨hdoc, hwhole⟩ := hcomplete _ _ _ hd h.scanned
  have hnear := h.nearest ht hd hdoc hwhole
  rw [hcall.direction] at hnear
  have hkept := h.inv.kept
  rw [hcall.filter, hfilter, keptMessages_none, hcall.handle] at hkept
  have hpopped : (s.commit call outcome taken).1.popped = s.popped ++ taken.popped := by
    simp [PageState.popped]
  have hemitted : messagesOf (s.commit call outcome taken).1.sent =
      messagesOf s.sent ++ chunkDisplayOrder (taken.popped.map
        (toOneMessageOut rd.handle.decoder)) rd.direction := by
    rw [commit_sent, sendAll_delivered hsent, messagesOf_append, h.messagesOf_sent,
      messagesOf_chunkEvents, hkept, hcall.direction]
  have hmatches : taken.matches_.length = taken.popped.length := by rw [hkept, List.length_map]
  have hdone := h.done
  rcases hinv with rfl | hinv
  · -- the first chunk: ample windows decide
    have hmerged : mergeChunkRecords call ⟨0, 0⟩ (selectPartitionStreams outcome
        ((PageState.start call).windows call) call.req.direction).1 [] = (taken, true) := h.merged
    have hlimited := mergeChunkRecords_limit call ⟨0, 0⟩ (selectPartitionStreams outcome
      ((PageState.start call).windows call) call.req.direction).1 [] (Nat.zero_le _)
    rw [hmerged] at hlimited
    have hended : call.req.limit ≤ taken.popped.length ∨
        KWayMerge.merge (mergePrefers rd.direction) taken.streams = [] := by
      rcases hdone with hfull | hempty
      · left
        simp only [PageState.start] at hfull
        omega
      · exact Or.inr (KWayMerge.merge_of_empty hempty)
    obtain ⟨hunread, hall⟩ := hnear.ample ht hcall hlimit hnodup hample
      (by simp only at hlimited; omega) hended
    have hpopped : ((PageState.start call).commit call outcome taken).1.popped =
        taken.popped := hpopped
    refine ⟨?_, hpopped ▸ hunread, ?_⟩
    · rw [hemitted]
      exact hnear.emitted ht rd.handle.decoder
    · rw [commit_totalMatches, hmatches, hpopped]
      simpa [PageState.start] using hall
  · -- a later chunk: nothing remained, so it took nothing
    have hall : ∀ r ∈ rd.remaining positions, r ∈ s.popped := by
      rcases hinv.done with hfull | hall
      · have := h.going.limit
        omega
      · exact hall
    have hnext := hread.commit h hdoc hsent
    have hnone : taken.popped = [] := by
      apply List.eq_nil_iff_forall_not_mem.mpr
      intro r hr
      have hmem : r ∈ rd.remaining positions :=
        (hcall.remaining_perm hordered hnodup hnext).mem_iff.mpr
          (List.mem_append_left _ (hpopped ▸ List.mem_append_right _ hr))
      have hdisjoint := List.disjoint_of_nodup_append (hpopped ▸ hnext.popped_nodup)
      exact hdisjoint (hall r hmem) hr
    rw [hnone, List.append_nil] at hpopped
    refine ⟨?_, ?_, Or.inr (by rw [hpopped]; exact hall)⟩
    · rw [hemitted, hnone]
      exact (List.append_nil _).symm ▸ hinv.ordered
    · rw [hpopped]
      exact hinv.unread

theorem running_nearest (hordered : Ordered rd.watermarks) (hnodup : (positions.map Prod.fst).Nodup)
    (hlimit : 1 ≤ call.req.limit) (hample : Ample rd call) {s : PageState} (h : Running call s) :
    StartOrNearest rd positions call s := by
  have hpos : (call.req.positions.map Prod.fst).Nodup := hcall.positions ▸ hnodup
  induction h with
  | start => exact Or.inl rfl
  | @next s s' hs hstep ih =>
    cases chunkStep_result hstep with
    | committed outcome taken hc hcommit =>
      have := StartOrNearest.commit ht hfilter hcall hcomplete hordered hnodup hlimit hample ih
        (running_readInv hcomplete.documented hpos hs) hc
        (commit_delivered (by simp [hcommit]))
      rw [hcommit] at this
      exact Or.inr this

/-- How a page with a full answer ends: in time chunk by chunk; over the page exactly when no
    chunk outruns what lies beyond its windows, and so for a single partition, and when its first
    windows were ample and it reached its limit. -/
theorem page_in_time (hordered : Ordered rd.watermarks) (hnodup : (positions.map Prod.fst).Nodup)
    (hlimit : 1 ≤ call.req.limit) {run : PageRun} (hrun : runPage call = some run)
    {cursor : Option Cursor} {exhausted : Bool} (hend : run.ending = .pageEnd cursor exhausted) :
    messagesOf run.events =
        run.last.chunks.flatMap (ChunkLog.emitted rd.handle.decoder rd.direction) ∧
      (∀ c ∈ run.last.chunks,
        ((c.emitted rd.handle.decoder rd.direction).Pairwise fun a b =>
          Onward rd.direction (messageTime a) (messageTime b)) ∧
        ∀ w ∈ c.windows, ∀ r ∈ rd.topic.slice w.partition w.start w.end_, r ∉ c.popped →
          ∀ m ∈ c.popped, InTime rd.direction m r) ∧
      (PageInTime rd positions run ↔ ∀ c ∈ run.last.chunks, ¬ c.Outruns rd) ∧
      (∀ e, positions = [e] → PageInTime rd positions run) ∧
      (Ample rd call → call.req.limit ≤ run.last.totalMatches →
        PageInTime rd positions run) := by
  have hpos : (call.req.positions.map Prod.fst).Nodup := hcall.positions ▸ hnodup
  have hended := pageEnded hcomplete.documented hcall.typed (hcall.watermarks ▸ hordered) hpos
    hrun hend
  obtain ⟨s₀, s, hs₀, hstep, -, -, rfl⟩ := runPage_pageEnd hrun hend
  have hread₀ := running_readInv hcomplete.documented hpos hs₀
  have htime₀ := running_timeInv ht hfilter hordered hnodup hcall hcomplete hs₀
  have hlast : TimeInv rd positions s ∧ (Ample rd call → StartOrNearest rd positions call s ∨
      s.totalMatches < call.req.limit) := by
    cases chunkStep_result hstep with
    | finished =>
      exact ⟨htime₀, fun hample => Or.inl
        (running_nearest ht hfilter hcall hcomplete hordered hnodup hlimit hample hs₀)⟩
    | atEdge _ _ =>
      refine ⟨⟨htime₀.emitted, htime₀.chunks, htime₀.counted⟩, ?_⟩
      intro hample
      rcases running_nearest ht hfilter hcall hcomplete hordered hnodup hlimit hample hs₀ with
        rfl | hinv
      · exact Or.inr hlimit
      · exact Or.inl (Or.inr ⟨hinv.ordered, hinv.unread, hinv.done⟩)
    | committed outcome taken hc hcommit =>
      have hs : s = (s₀.commit call outcome taken).1 := by rw [hcommit]
      have hsent := @commit_delivered call s₀ outcome taken (by simp [hcommit])
      subst hs
      refine ⟨TimeInv.commit ht hfilter hordered hnodup hcall hcomplete htime₀ hread₀ hc hsent,
        fun hample => Or.inl (Or.inr ?_)⟩
      exact StartOrNearest.commit ht hfilter hcall hcomplete hordered hnodup hlimit hample
        (running_nearest ht hfilter hcall hcomplete hordered hnodup hlimit hample hs₀) hread₀
        hc hsent
  obtain ⟨htime, hnearest⟩ := hlast
  have hreceived : messagesOf (finishPage call s .broke).events = messagesOf s.sent :=
    hended.received
  have hemitted := hreceived.trans htime.emitted
  have hinTime : ∀ c ∈ s.chunks, ((c.emitted rd.handle.decoder rd.direction).Pairwise
      fun a b => Onward rd.direction (messageTime a) (messageTime b)) ∧
      ∀ w ∈ c.windows, ∀ r ∈ rd.topic.slice w.partition w.start w.end_, r ∉ c.popped →
        ∀ m ∈ c.popped, InTime rd.direction m r := by
    intro c hc
    obtain ⟨before, after, hsplit⟩ := List.append_of_mem hc
    obtain ⟨left, hnear⟩ := (htime.chunks before c after hsplit).nearest
    exact ⟨hnear.emitted ht rd.handle.decoder,
      fun w hw r hr hnot m hm => hnear.unread hw hr hnot hm⟩
  have hiff := pageInTime_iff hnodup hemitted (fun c hc => (hinTime c hc).1) htime.chunks
    (hcall.remaining_perm hordered hnodup hended.inv)
  refine ⟨hemitted, hinTime, hiff, ?_, ?_⟩
  · rintro e rfl
    apply hiff.mpr
    intro c hc
    obtain ⟨before, after, hsplit⟩ := List.append_of_mem hc
    exact (htime.chunks before c after hsplit).of_one ht
  · intro hample hfull
    have hfull : call.req.limit ≤ s.totalMatches := hfull
    rcases hnearest hample with (rfl | hinv) | hless
    · simp only [PageState.start] at hfull
      omega
    · exact ⟨hreceived ▸ hinv.ordered, hinv.unread⟩
    · omega

end Page

theorem Timed.ofEntries {entries : Int → List (Int × Option Int)}
    {h : ∀ p, (entries p).Pairwise fun a b => a.1 < b.1}
    (ht : ∀ p, (entries p).Pairwise fun a b => mergeTimestamp a.2 ≤ mergeTimestamp b.2) :
    Timed (Topic.ofEntries entries h) :=
  fun p => List.pairwise_map.mpr (ht p)

/-- Partition 0 has records at 10, 90 and 99, partition 1 one at 99, written at `ts`. -/
def sparseTopic (ts : Int) : Topic :=
  Topic.ofEntries
    (fun p => if p = 0 then [(10, some 10), (90, some 90), (99, some 100)]
      else if p = 1 then [(99, some ts)] else [])
    fun p => by
      split
      · decide
      · split <;> simp

theorem sparseTopic_timed (ts : Int) : Timed (sparseTopic ts) := by
  apply Timed.ofEntries
  intro p
  split
  · decide
  · split <;> simp

def sparseReading (ts : Int) : Reading :=
  ⟨sparseTopic ts, .plain "sparse", [(0, 0, 100), (1, 0, 100)], .back, none⟩

def sparseCall (ts : Int) : PageCall where
  handle := (sparseReading ts).handle
  req := ⟨[(0, 100), (1, 100)], (sparseReading ts).watermarks, .back, 3, none, 50000⟩
  scanChunk := scanAll (sparseTopic ts)
  client := .connected

theorem sparseCall_reads (ts : Int) :
    (sparseReading ts).Reads [(0, 100), (1, 100)] (sparseCall ts) :=
  ⟨⟨(by decide : ∀ w ∈ [((0 : Int), (0 : Int), (100 : Int)), (1, 0, 100)], _),
    (by decide : 3 < 2 ^ 64)⟩, rfl, rfl, rfl, rfl, rfl, scanAll_documented (sparseTopic ts)⟩

theorem sparseReading_ordered (ts : Int) : Ordered (sparseReading ts).watermarks := by
  intro p lo hi h
  have hmem := findWatermark_mem h
  simp only [sparseReading, List.mem_cons, Prod.mk.injEq, List.not_mem_nil, or_false] at hmem
  omega

/-- The first windows, three offsets each, hold one record of each partition; the one behind
    them is no newer than either. -/
theorem sparse_page_in_time :
    ∃ run, runPage (sparseCall 95) = some run ∧
      (messagesOf run.events).map messageTime = [100, 95, 90] ∧
      PageInTime (sparseReading 95) [(0, 100), (1, 100)] run := by
  have hrun := (Option.some_get (x := runPage (sparseCall 95)) (by decide)).symm
  have hend : ((runPage (sparseCall 95)).get (by decide)).ending =
      .pageEnd (some ⟨.back, [(0, 90), (1, 0)]⟩) false := by decide +kernel
  have hiff := (page_in_time (sparseTopic_timed 95) rfl (sparseCall_reads 95)
    (scanAll_complete (sparseTopic 95)) (sparseReading_ordered 95) (by decide) (by decide) hrun
    hend).2.2.1
  exact ⟨_, hrun, by decide +kernel, hiff.mpr (by decide +kernel)⟩

/-- With the record of partition 1 written before the one behind the windows, the second chunk
    emits a newer record after an older one. -/
theorem sparse_page_out_of_time :
    Timed (sparseTopic 12) ∧ ScansComplete (sparseTopic 12) (sparseCall 12) ∧
    ∃ run cursor, runPage (sparseCall 12) = some run ∧
      run.ending = .pageEnd (some cursor) false ∧
      run.last.totalMatches = (sparseCall 12).req.limit ∧
      (messagesOf run.events).map messageTime = [100, 12, 90] ∧
      ¬ (messagesOf run.events).Pairwise fun a b => messageTime b ≤ messageTime a := by
  have hrun := (Option.some_get (x := runPage (sparseCall 12)) (by decide)).symm
  exact ⟨sparseTopic_timed 12, scanAll_complete (sparseTopic 12),
    _, ⟨.back, [(0, 90), (1, 0)]⟩, hrun, by decide +kernel, by decide +kernel, by decide +kernel,
    by decide +kernel⟩

end Arne.Timeline
