import Arne.Timeline.Untrusted

/-!
# How near a chunk is in time

A chunk takes records by timestamp, but only out of windows of bounded offset span.
Within a chunk the time order holds for every topic.  The first chunk takes the nearest
records of the whole side when its windows are wide enough: each with `limit` records of
its partition, or all.
-/

namespace Arne.Timeline

open Arne.Message Arne.SortedLog

/-- The time a record is merged by. -/
def recordTime (r : RawRecord) : Int := mergeTimestamp r.timestampMs

def messageTime (m : MessageOut) : Int := mergeTimestamp m.timestampMs

/-- `b` comes no earlier than `a` when the page reads on: no newer for `Back`, no
    older for `Forward`. -/
def InTime (direction : Direction) (a b : RawRecord) : Prop :=
  Onward direction (recordTime a) (recordTime b)

/-- Timestamps never decrease with the offset. -/
def Timed (topic : Topic) : Prop :=
  ∀ p, (topic.log p).Pairwise fun a b => recordTime a ≤ recordTime b

/-- Every scan answers as documented and completes every window. -/
def ScansComplete (topic : Topic) (call : PageCall) : Prop :=
  ∀ n windows outcome, Distinct windows → call.scanChunk n windows = .ok outcome →
    Documented topic windows outcome ∧ ∀ w ∈ windows, w.partition ∈ outcome.complete

theorem scanAll_complete (topic : Topic) (n : Nat) (windows : List PartitionRange)
    (outcome : FetchOutcome) (hd : Distinct windows) (h : scanAll topic n windows = .ok outcome) :
    Documented topic windows outcome ∧ ∀ w ∈ windows, w.partition ∈ outcome.complete := by
  refine ⟨scanAll_documented topic n windows outcome hd h, ?_⟩
  intro w hw
  cases h
  exact List.mem_map_of_mem hw

/-! ### Sorted streams -/

theorem mergePrefers_inTime {direction : Direction} {x y : RawRecord}
    (h : mergePrefers direction y x = false) : InTime direction x y := by
  have hkey : ¬ mergeKey direction y < mergeKey direction x := by
    rw [← mergePrefers_iff]
    simp [h]
  cases direction with
  | back =>
    simp only [mergeKey, Prod.Lex.toLex_lt_toLex, not_or] at hkey
    have := hkey.1
    simp only [InTime, Onward, recordTime]
    omega
  | forward =>
    simp only [mergeKey, Prod.Lex.toLex_lt_toLex, not_or] at hkey
    have := hkey.1
    simp only [InTime, Onward, recordTime]
    omega

/-- What a page reads of one partition is in time. -/
theorem passed_inTime {topic : Topic} (ht : Timed topic) (direction : Direction) (p a b : Int) :
    (passed direction (topic.log p) a b).Pairwise (InTime direction) := by
  cases direction with
  | back => exact List.pairwise_reverse.mpr ((ht p).filter _)
  | forward => exact (ht p).filter _

/-- In a list sorted both ways, a smaller offset means no later a time. -/
theorem time_le_of_offset_le {topic : Topic} (ht : Timed topic) {p : Int} {a b : RawRecord}
    (ha : a ∈ topic.log p) (hb : b ∈ topic.log p) (h : a.offset ≤ b.offset) :
    recordTime a ≤ recordTime b := by
  have hboth := (topic.ascending p).and (ht p)
  obtain ⟨i, hi, rfl⟩ := List.mem_iff_getElem.mp ha
  obtain ⟨j, hj, rfl⟩ := List.mem_iff_getElem.mp hb
  rcases Nat.lt_trichotomy i j with hij | hij | hij
  · exact (List.pairwise_iff_getElem.mp hboth i j hi hj hij).2
  · subst hij
    exact le_rfl
  · have := (List.pairwise_iff_getElem.mp hboth j i hj hi hij).1
    omega

theorem displayPrefers_onward {direction : Direction} {x y : MessageOut}
    (h : displayPrefers direction y x = false) :
    Onward direction (messageTime x) (messageTime y) := by
  cases direction with
  | back => simpa [displayPrefers, Onward, messageTime] using h
  | forward => simpa [displayPrefers, Onward, messageTime] using h

theorem displayStream_onward {messages : List MessageOut}
    (h : ∀ a ∈ messages, ∀ b ∈ messages, a.partition = b.partition → a.offset ≤ b.offset →
      messageTime a ≤ messageTime b) (direction : Direction) (p : Int) :
    (displayStream messages direction p).Pairwise fun a b =>
      Onward direction (messageTime a) (messageTime b) := by
  have hsorted : ((messages.filter (·.partition == p)).insertionSort
      fun a b => a.offset ≤ b.offset).Pairwise fun a b => messageTime a ≤ messageTime b := by
    apply (byOffset_pairwise _).imp_of_mem
    intro a b ha hb hle
    obtain ⟨ha, hap⟩ := List.mem_filter.mp ((List.mem_insertionSort _).mp ha)
    obtain ⟨hb, hbp⟩ := List.mem_filter.mp ((List.mem_insertionSort _).mp hb)
    simp only [beq_iff_eq] at hap hbp
    exact h _ ha _ hb (hap.trans hbp.symm) hle
  cases direction with
  | back => exact List.pairwise_reverse.mpr hsorted
  | forward => exact hsorted

/-- The display order of a chunk is in time when each partition is. -/
theorem chunkDisplayOrder_onward {messages : List MessageOut}
    (h : ∀ a ∈ messages, ∀ b ∈ messages, a.partition = b.partition → a.offset ≤ b.offset →
      messageTime a ≤ messageTime b) (direction : Direction) :
    (chunkDisplayOrder messages direction).Pairwise fun a b =>
      Onward direction (messageTime a) (messageTime b) := by
  refine KWayMerge.merge_pairwise (displayPrefers_strictWeak direction)
    (fun a b => Onward direction (messageTime a) (messageTime b))
    (fun hxy hyz => hxy.trans hyz) (fun x y hpref => displayPrefers_onward hpref) _ ?_
  intro stream hstream
  obtain ⟨p, -, rfl⟩ := List.mem_map.mp hstream
  exact displayStream_onward h direction p

/-! ### One chunk -/

/-- A chunk over complete windows: what it took, what it left of its windows, and
    the order between them. -/
structure ChunkNearest (topic : Topic) (direction : Direction) (windows : List PartitionRange)
    (popped left : List RawRecord) : Prop where
  from_window : ∀ r ∈ popped, ∃ w ∈ windows, r ∈ topic.slice w.partition w.start w.end_
  taken_or_left : ∀ w ∈ windows, ∀ r ∈ topic.slice w.partition w.start w.end_,
    r ∈ popped ∨ r ∈ left
  inTime : (popped ++ left).Pairwise (InTime direction)

theorem Committed.nearest {topic : Topic} (ht : Timed topic) {call : PageCall} {s : PageState}
    {outcome : FetchOutcome} {taken : ChunkTaken} (h : Committed call s outcome taken)
    (hd : Distinct (s.windows call)) (hdoc : Documented topic (s.windows call) outcome)
    (hcomplete : ∀ w ∈ s.windows call, w.partition ∈ outcome.complete) :
    ChunkNearest topic call.req.direction (s.windows call) taken.popped
      (KWayMerge.merge (mergePrefers call.req.direction) taken.streams) := by
  have hinv := h.inv
  -- every stream is its whole window in reading order
  have hstream : ∀ (i : Nat) (src : List RawRecord),
      (partitionStreams outcome.complete call.req.direction outcome.records
        (s.windows call))[i]? = some src →
      ∃ w, (s.windows call)[i]? = some w ∧
        src = adjacentFirst call.req.direction (topic.slice w.partition w.start w.end_) := by
    intro i src hsrc
    have hlt : i < (s.windows call).length := by
      have := (List.getElem?_eq_some_iff.mp hsrc).1
      rwa [partitionStreams_length] at this
    have hw := List.getElem?_eq_getElem hlt
    rw [partitionStreams_getElem? hd hw] at hsrc
    refine ⟨_, hw, ?_⟩
    rw [← trustedStream_complete hdoc _ (List.getElem_mem hlt)
      (hcomplete _ (List.getElem_mem hlt))]
    exact (Option.some.inj hsrc).symm
  have hperm := KWayMerge.merge_perm (mergePrefers call.req.direction)
    (partitionStreams outcome.complete call.req.direction outcome.records (s.windows call))
  rw [hinv.merged] at hperm
  refine ⟨?_, ?_, ?_⟩
  · intro r hr
    have hmem := hperm.mem_iff.mp (List.mem_append_left _ hr)
    obtain ⟨src, hsrc, hrsrc⟩ := List.mem_flatten.mp hmem
    obtain ⟨i, hi⟩ := List.mem_iff_getElem?.mp hsrc
    obtain ⟨w, hw, rfl⟩ := hstream i src hi
    exact ⟨w, List.mem_of_getElem? hw, mem_adjacentFirst.mp hrsrc⟩
  · intro w hw r hr
    obtain ⟨i, hi⟩ := List.mem_iff_getElem?.mp hw
    have hsrc := @partitionStreams_getElem? outcome.complete call.req.direction outcome.records
      _ hd i w hi
    obtain ⟨w', hw', heq⟩ := hstream i _ hsrc
    obtain rfl : w = w' := by simpa [hi] using hw'
    rw [heq] at hsrc
    refine List.mem_append.mp (hperm.mem_iff.mpr (List.mem_flatten.mpr
      ⟨_, List.mem_of_getElem? hsrc, mem_adjacentFirst.mpr hr⟩))
  · rw [← hinv.merged]
    refine KWayMerge.merge_pairwise (mergePrefers_strictWeak call.req.direction)
      (InTime call.req.direction) (fun hxy hyz => Onward.trans hxy hyz)
      (fun x y hpref => mergePrefers_inTime hpref) _ ?_
    intro src hsrc
    obtain ⟨i, hi⟩ := List.mem_iff_getElem?.mp hsrc
    obtain ⟨w, -, rfl⟩ := hstream i src hi
    rw [Topic.slice, adjacentFirst_window]
    exact passed_inTime ht _ _ _ _

/-- So the chunk goes out in time order, and nothing it left in its windows comes
    before anything it took. -/
theorem ChunkNearest.emitted {topic : Topic} (ht : Timed topic) {direction : Direction}
    {windows : List PartitionRange} {popped left : List RawRecord}
    (h : ChunkNearest topic direction windows popped left) (decoder : Decoder) :
    (chunkDisplayOrder (popped.map (toOneMessageOut decoder)) direction).Pairwise fun a b =>
      Onward direction (messageTime a) (messageTime b) := by
  refine chunkDisplayOrder_onward (fun a ha b hb hp hle => ?_) direction
  obtain ⟨ra, hra, rfl⟩ := List.mem_map.mp ha
  obtain ⟨rb, hrb, rfl⟩ := List.mem_map.mp hb
  obtain ⟨wa, -, hwa⟩ := h.from_window ra hra
  obtain ⟨wb, -, hwb⟩ := h.from_window rb hrb
  have hla := (Topic.mem_slice.mp hwa).1
  have hlb := (Topic.mem_slice.mp hwb).1
  have hsame : wa.partition = wb.partition := by
    rw [← topic.partition_eq _ ra hla, ← topic.partition_eq _ rb hlb]
    exact hp
  exact time_le_of_offset_le ht (hsame ▸ hla) hlb hle

theorem ChunkNearest.unread {topic : Topic} {direction : Direction}
    {windows : List PartitionRange} {popped left : List RawRecord}
    (h : ChunkNearest topic direction windows popped left) {w : PartitionRange} (hw : w ∈ windows)
    {r : RawRecord} (hr : r ∈ topic.slice w.partition w.start w.end_) (hnot : r ∉ popped)
    {m : RawRecord} (hm : m ∈ popped) : InTime direction m r := by
  rcases h.taken_or_left w hw r hr with h' | hleft
  · exact absurd h' hnot
  · exact (List.pairwise_append.mp h.inTime).2.2 m hm r hleft

/-! ### The first chunk -/

/-- How many records of a partition the windows hold. -/
def countIn (topic : Topic) (windows : List PartitionRange) (p : Int) : Nat :=
  ((windows.filter (·.partition == p)).flatMap fun w =>
    topic.slice w.partition w.start w.end_).length

theorem countIn_of_mem {topic : Topic} {windows : List PartitionRange} (hd : Distinct windows)
    {w : PartitionRange} (hw : w ∈ windows) :
    countIn topic windows w.partition = (topic.slice w.partition w.start w.end_).length := by
  have hone : windows.filter (·.partition == w.partition) = [w] := by
    induction windows with
    | nil => cases hw
    | cons v windows ih =>
      obtain ⟨hfresh, hd⟩ := List.nodup_cons.mp hd
      rcases List.mem_cons.mp hw with rfl | hw
      · rw [List.filter_cons_of_pos (by simp), List.filter_eq_nil_iff.mpr]
        intro u hu heq
        simp only [beq_iff_eq] at heq
        exact hfresh (heq ▸ List.mem_map_of_mem hu)
      · have hne : v.partition ≠ w.partition := fun heq =>
          hfresh (heq ▸ List.mem_map_of_mem hw)
        rw [List.filter_cons_of_neg (by simpa using hne)]
        exact ih hd hw
  rw [countIn, hone]
  simp

/-- Each partition's first window holds `limit` of its records, or all there are. -/
def Ample (rd : Reading) (call : PageCall) : Prop :=
  ∀ e ∈ clampPositions call.req.positions rd.watermarks,
    min call.req.limit (passed rd.direction (rd.topic.log e.1) e.2
      (edgeOf rd.watermarks rd.direction e.1)).length ≤
        countIn rd.topic ((PageState.start call).windows call) e.1

/-- The part of a page's side that its first window of a partition covers, and the
    rest. -/
theorem remaining_of_window {rd : Reading} {call : PageCall}
    (hwm : call.req.watermarks = rd.watermarks) (hdir : call.req.direction = rd.direction)
    {s : PageState} (hb : InBounds rd.watermarks s.curPositions) {e : Position}
    (he : e ∈ s.curPositions) {w : PartitionRange} (hplan : s.windowOf call e = some w) :
    passed rd.direction (rd.topic.log e.1) e.2 (edgeOf rd.watermarks rd.direction e.1) =
      adjacentFirst rd.direction (rd.topic.slice w.partition w.start w.end_) ++
        passed rd.direction (rd.topic.log e.1) (windowEdge w rd.direction)
          (edgeOf rd.watermarks rd.direction e.1) := by
  have hb' : InBounds call.req.watermarks s.curPositions := by
    rw [hwm]
    exact hb
  have hnear := windowOf_near hb' he hplan
  have hplanned := pageWindow_planned hplan
  rw [hdir] at hnear
  rw [Topic.slice, adjacentFirst_window, hnear, hplanned.partition_eq]
  cases hw : findWatermark rd.watermarks e.1 with
  | none =>
    rw [PageState.windowOf, hwm, pageWindow, hw] at hplan
    cases hplan
  | some bounds =>
    have hin := hplanned.bounds bounds.1 bounds.2 (by rw [hwm, hw])
    have hne := hplanned.nonempty
    refine passed_trans (rd.topic.ascending _) ?_ ?_
    · rw [← hnear]
      cases rd.direction with
      | back => simp only [Onward, nearEdge, windowEdge]; omega
      | forward => simp only [Onward, nearEdge, windowEdge]; omega
    · simp only [edgeOf, hw]
      cases rd.direction with
      | back => exact hin.1
      | forward => exact hin.2

/-- What a window holds, in the order of reading. -/
def Reading.near (rd : Reading) (w : PartitionRange) : List RawRecord :=
  adjacentFirst rd.direction (rd.topic.slice w.partition w.start w.end_)

/-- A record of the side by the window of its partition: it lies in the window or in `far`
    behind it, all in time, and the window holds the limit or all there is. -/
structure Sided (rd : Reading) (limit : Nat) (w : PartitionRange) (far : List RawRecord)
    (r : RawRecord) : Prop where
  mem : r ∈ rd.near w ++ far
  inTime : (rd.near w ++ far).Pairwise (InTime rd.direction)
  nodup : (rd.near w).Nodup
  enough : min limit ((rd.near w).length + far.length) ≤ (rd.near w).length

/-- With ample windows every record of the side has its window. -/
theorem Ample.sided {rd : Reading} (ht : Timed rd.topic) {call : PageCall}
    {positions : List Position} (hcall : rd.Reads positions call)
    (hlimit : 1 ≤ call.req.limit) (hnodup : (positions.map Prod.fst).Nodup)
    (hample : Ample rd call) {r : RawRecord} (hr : r ∈ rd.remaining positions) :
    ∃ w ∈ (PageState.start call).windows call, ∃ far, Sided rd call.req.limit w far r := by
  have hstart : (PageState.start call).curPositions = clampPositions positions rd.watermarks := by
    simp only [PageState.start, hcall.positions, hcall.watermarks]
  have hbounds : InBounds rd.watermarks (PageState.start call).curPositions := by
    rw [hstart]
    exact inBounds_clampPositions _ _
  have honce : NamedOnce (PageState.start call).curPositions
      ((PageState.start call).windows call) := by
    apply namedOnce_of_nodup call
    rw [hstart]
    exact hnodup.sublist (clampPositions_fst_sublist _ _)
  obtain ⟨e, he, hr⟩ := List.mem_flatMap.mp hr
  have hcount := hample e (by rwa [hcall.positions])
  by_cases hw : ∃ w ∈ (PageState.start call).windows call, w.partition = e.1
  · obtain ⟨w, hw, hp⟩ := hw
    have hplan := honce.planned hw (hstart ▸ he) hp
    have hsplit := remaining_of_window hcall.watermarks hcall.direction hbounds
      (hstart ▸ he) hplan
    have hheld := (congrArg (countIn rd.topic _) hp.symm).trans
      (countIn_of_mem honce.distinct hw)
    have hnear : (rd.near w).length = (rd.topic.slice w.partition w.start w.end_).length :=
      (adjacentFirst_perm _ _).length_eq
    rw [hheld, hsplit, List.length_append, (adjacentFirst_perm _ _).length_eq] at hcount
    have hpair := passed_inTime ht rd.direction e.1 e.2 (edgeOf rd.watermarks rd.direction e.1)
    rw [hsplit] at hpair hr
    refine ⟨w, hw, _, hr, hpair, ?_, ?_⟩
    · exact ((adjacentFirst_perm _ _).nodup_iff).mpr (rd.topic.slice_ascending _ _ _).nodup
    · rw [hnear]
      exact hcount
  · -- without a window nothing can remain
    have hzero : countIn rd.topic ((PageState.start call).windows call) e.1 = 0 := by
      rw [countIn, List.filter_eq_nil_iff.mpr fun w hw' heq => hw ⟨w, hw', by simpa using heq⟩]
      rfl
    have hpos := List.length_pos_of_mem hr
    omega

/-- What a chunk did not take of the side is no earlier than what it took. -/
theorem Sided.not_earlier {rd : Reading} {limit : Nat} {windows : List PartitionRange}
    {w : PartitionRange} {far popped left : List RawRecord} {r m : RawRecord}
    (hsided : Sided rd limit w far r) (hw : w ∈ windows)
    (h : ChunkNearest rd.topic rd.direction windows popped left) (hle : popped.length ≤ limit)
    (hnot : r ∉ popped) (hm : m ∈ popped) : InTime rd.direction m r := by
  have hunread : ∀ x ∈ rd.near w, x ∉ popped → InTime rd.direction m x := by
    intro x hx hxn
    exact h.unread hw (mem_adjacentFirst.mp hx) hxn hm
  have hcross := (List.pairwise_append.mp hsided.inTime).2.2
  rcases List.mem_append.mp hsided.mem with hrn | hrf
  · exact hunread r hrn hnot
  · by_cases hall : ∀ x ∈ rd.near w, x ∈ popped
    · -- the limit was filled from this window alone
      have hpos := List.length_pos_of_mem hrf
      have henough := hsided.enough
      have hsub : (rd.near w).Subperm popped := List.subperm_of_subset hsided.nodup hall
      have hperm := hsub.perm_of_length_le (by omega)
      exact hcross m (hperm.mem_iff.mpr hm) r hrf
    · obtain ⟨x, hx⟩ := not_forall.mp hall
      obtain ⟨hx, hxn⟩ := Classical.not_imp.mp hx
      exact Onward.trans (hunread x hx hxn) (hcross x hx r hrf)

/-- A chunk that left nothing of its windows and stayed under the limit took all. -/
theorem Sided.taken {rd : Reading} {limit : Nat} {windows : List PartitionRange}
    {w : PartitionRange} {far popped : List RawRecord} {r : RawRecord}
    (hsided : Sided rd limit w far r) (hw : w ∈ windows)
    (h : ChunkNearest rd.topic rd.direction windows popped []) (hlt : popped.length < limit) :
    r ∈ popped := by
  have hall : ∀ x ∈ rd.near w, x ∈ popped := by
    intro x hx
    rcases h.taken_or_left w hw x (mem_adjacentFirst.mp hx) with hx | hx
    · exact hx
    · cases hx
  have hlen := (List.subperm_of_subset hsided.nodup hall).length_le
  have henough := hsided.enough
  have hfar : far = [] := List.length_eq_zero_iff.mp (by omega)
  have hmem := hsided.mem
  rw [hfar, List.append_nil] at hmem
  exact hall r hmem

/-- Ample windows make the first chunk's order the order of the whole side. -/
theorem ChunkNearest.ample {rd : Reading} (ht : Timed rd.topic) {call : PageCall}
    {positions : List Position}
    (hcall : rd.Reads positions call) (hlimit : 1 ≤ call.req.limit)
    (hnodup : (positions.map Prod.fst).Nodup) (hample : Ample rd call)
    {popped left : List RawRecord}
    (h : ChunkNearest rd.topic rd.direction ((PageState.start call).windows call) popped left)
    (hle : popped.length ≤ call.req.limit)
    (hdone : call.req.limit ≤ popped.length ∨ left = []) :
    (∀ r ∈ rd.remaining positions, r ∉ popped → ∀ m ∈ popped, InTime rd.direction m r) ∧
      (call.req.limit ≤ popped.length ∨ ∀ r ∈ rd.remaining positions, r ∈ popped) := by
  constructor
  · intro r hr hnot m hm
    obtain ⟨w, hw, far, hsided⟩ := hample.sided ht hcall hlimit hnodup hr
    exact hsided.not_earlier hw h hle hnot hm
  · rcases Nat.lt_or_ge popped.length call.req.limit with hlt | hfull
    · obtain rfl := hdone.resolve_left (Nat.not_le.mpr hlt)
      apply Or.inr
      intro r hr
      obtain ⟨w, hw, far, hsided⟩ := hample.sided ht hcall hlimit hnodup hr
      exact hsided.taken hw h hlt
    · exact Or.inl hfull

end Arne.Timeline
