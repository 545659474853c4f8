import Arne.Timeline.Engine

/-!
# What a scan gives and what its merge takes

The topic a page reads, what a scan of it may answer, the streams that come out
of such an answer, and the invariant of the merge loop: the records popped so far
are a front part of the full merge, and of every stream a prefix.
-/

namespace Arne.Timeline

open Arne.Message Arne.SortedLog

/-! ### Topics and scans -/

/-- The records of a topic.  Offsets that occur in no record are holes. -/
structure Topic where
  log : Int → List RawRecord
  partition_eq : ∀ p, ∀ r ∈ log p, r.partition = p
  ascending : ∀ p, Ascending RawRecord.offset (log p)

/-- The real records of a partition with an offset in `[a, b)`. -/
def Topic.slice (topic : Topic) (p a b : Int) : List RawRecord :=
  between RawRecord.offset a b (topic.log p)

/-- The topic of empty messages with the given offsets and timestamps. -/
def Topic.ofEntries (entries : Int → List (Int × Option Int))
    (h : ∀ p, (entries p).Pairwise fun a b => a.1 < b.1) : Topic where
  log p := (entries p).map fun e => ⟨p, e.1, e.2, none, none, []⟩
  partition_eq p r hr := by
    obtain ⟨e, -, rfl⟩ := List.mem_map.mp hr
    rfl
  ascending p := List.pairwise_map.mpr (h p)

/-- A handle that decodes nothing and parses nothing. -/
def ClusterHandle.plain (name : String) : ClusterHandle :=
  ⟨name, ⟨fun _ => none, fun _ => ""⟩, ⟨fun _ => none, id⟩⟩

/-- The records a scan delivered for one partition. -/
def FetchOutcome.of (outcome : FetchOutcome) (p : Int) : List RawRecord :=
  outcome.records.filter (·.partition == p)

/-- A scan that delivered distinct records of its windows. -/
structure Inside (windows : List PartitionRange) (outcome : FetchOutcome) : Prop where
  requested : ∀ r ∈ outcome.records,
    ∃ w ∈ windows, r.partition = w.partition ∧ w.start ≤ r.offset ∧ r.offset < w.end_
  distinct : ∀ p, ((FetchOutcome.of outcome p).map RawRecord.offset).Nodup

/-- A scan that answers as `FetchOutcome` documents: all of a complete window, an
    ascending prefix of any other. -/
structure Documented (topic : Topic) (windows : List PartitionRange) (outcome : FetchOutcome) :
    Prop where
  requested : ∀ r ∈ outcome.records, ∃ w ∈ windows, r.partition = w.partition
  delivered : ∀ w ∈ windows, ∃ k,
    (FetchOutcome.of outcome w.partition).Perm ((topic.slice w.partition w.start w.end_).take k)
  complete : ∀ w ∈ windows, w.partition ∈ outcome.complete →
    (FetchOutcome.of outcome w.partition).Perm (topic.slice w.partition w.start w.end_)

/-- The windows name every partition once. -/
def Distinct (windows : List PartitionRange) : Prop :=
  (windows.map PartitionRange.partition).Nodup

/-- Every scan of the call stays inside its windows. -/
def ScansInside (call : PageCall) : Prop :=
  ∀ n windows outcome, Distinct windows → call.scanChunk n windows = .ok outcome →
    Inside windows outcome

/-- Every scan of the call answers as documented. -/
def ScansDocumented (topic : Topic) (call : PageCall) : Prop :=
  ∀ n windows outcome, Distinct windows → call.scanChunk n windows = .ok outcome →
    Documented topic windows outcome

theorem Topic.mem_slice {topic : Topic} {p a b : Int} {r : RawRecord} :
    r ∈ topic.slice p a b ↔ r ∈ topic.log p ∧ a ≤ r.offset ∧ r.offset < b :=
  mem_between

theorem Topic.slice_ascending (topic : Topic) (p a b : Int) :
    Ascending RawRecord.offset (topic.slice p a b) :=
  (topic.ascending p).between a b

theorem Documented.inside {topic : Topic} {windows : List PartitionRange}
    {outcome : FetchOutcome} (h : Documented topic windows outcome) : Inside windows outcome where
  requested r hr := by
    obtain ⟨w, hw, hp⟩ := h.requested r hr
    obtain ⟨k, hk⟩ := h.delivered w hw
    have hmem : r ∈ FetchOutcome.of outcome w.partition :=
      List.mem_filter.mpr ⟨hr, by simp [hp]⟩
    have hslice := List.mem_of_mem_take (hk.mem_iff.mp hmem)
    exact ⟨w, hw, hp, (Topic.mem_slice.mp hslice).2⟩
  distinct p := by
    by_cases hp : ∃ w ∈ windows, w.partition = p
    · obtain ⟨w, hw, rfl⟩ := hp
      obtain ⟨k, hk⟩ := h.delivered w hw
      refine ((hk.map _).nodup_iff).mpr (Ascending.map_nodup ?_)
      exact List.Pairwise.sublist (List.take_sublist _ _) (topic.slice_ascending _ _ _)
    · have : FetchOutcome.of outcome p = [] := by
        apply List.eq_nil_iff_forall_not_mem.mpr
        intro r hr
        obtain ⟨hr, hrp⟩ := List.mem_filter.mp hr
        obtain ⟨w, hw, hwp⟩ := h.requested r hr
        exact hp ⟨w, hw, by simpa [← hwp] using hrp⟩
      rw [this]
      exact List.nodup_nil

theorem ScansDocumented.inside {topic : Topic} {call : PageCall}
    (h : ScansDocumented topic call) : ScansInside call :=
  fun n windows outcome hd hok => (h n windows outcome hd hok).inside

/-- The scan that answers in full. -/
def scanAll (topic : Topic) (_ : Nat) (windows : List PartitionRange) :
    Except ApiError FetchOutcome :=
  .ok ⟨windows.flatMap fun w => topic.slice w.partition w.start w.end_,
    windows.map PartitionRange.partition⟩

theorem scanAll_of (topic : Topic) {windows : List PartitionRange} (hd : Distinct windows)
    {w : PartitionRange} (hw : w ∈ windows) :
    (windows.flatMap fun w => topic.slice w.partition w.start w.end_).filter
      (·.partition == w.partition) = topic.slice w.partition w.start w.end_ := by
  have hslice : ∀ v : PartitionRange, ∀ r ∈ topic.slice v.partition v.start v.end_,
      r.partition = v.partition :=
    fun v r hr => topic.partition_eq _ r (Topic.mem_slice.mp hr).1
  have hother : ∀ v : PartitionRange, v.partition ≠ w.partition →
      (topic.slice v.partition v.start v.end_).filter (·.partition == w.partition) = [] := by
    intro v hne
    refine List.filter_eq_nil_iff.mpr fun r hr hrw => hne ?_
    rw [← hslice v r hr]
    simpa using hrw
  induction windows with
  | nil => cases hw
  | cons v windows ih =>
    obtain ⟨hfresh, hd⟩ := List.nodup_cons.mp hd
    rw [List.flatMap_cons, List.filter_append]
    rcases List.mem_cons.mp hw with rfl | hw
    · rw [List.filter_eq_self.mpr fun r hr => by simp [hslice w r hr], List.filter_flatMap,
        List.flatMap_eq_nil_iff.mpr, List.append_nil]
      exact fun u hu => hother u fun heq => hfresh (heq ▸ List.mem_map_of_mem hu)
    · rw [hother v fun heq => hfresh (heq ▸ List.mem_map_of_mem hw), List.nil_append]
      exact ih hd hw

theorem scanAll_documented (topic : Topic) (n : Nat) (windows : List PartitionRange)
    (outcome : FetchOutcome) (hd : Distinct windows) (h : scanAll topic n windows = .ok outcome) :
    Documented topic windows outcome := by
  cases h
  refine ⟨?_, ?_, ?_⟩
  · intro r hr
    obtain ⟨w, hw, hr⟩ := List.mem_flatMap.mp hr
    exact ⟨w, hw, topic.partition_eq _ r (Topic.mem_slice.mp hr).1⟩
  · intro w hw
    refine ⟨(topic.slice w.partition w.start w.end_).length, ?_⟩
    rw [List.take_length]
    exact List.Perm.of_eq (scanAll_of topic hd hw)
  · intro w hw _
    exact List.Perm.of_eq (scanAll_of topic hd hw)

/-! ### The streams of a chunk -/

theorem mem_adjacentFirst {α : Type} {direction : Direction} {l : List α} {x : α} :
    x ∈ adjacentFirst direction l ↔ x ∈ l := by
  cases direction with
  | back => exact List.mem_reverse
  | forward => exact Iff.rfl

theorem adjacentFirst_perm {α : Type} (direction : Direction) (l : List α) :
    (adjacentFirst direction l).Perm l := by
  cases direction with
  | back => exact List.reverse_perm l
  | forward => exact List.Perm.refl l

theorem sortByOffset_perm (records : List RawRecord) : (sortByOffset records).Perm records :=
  List.perm_insertionSort _ _

theorem sortByOffset_pairwise (records : List RawRecord) :
    (sortByOffset records).Pairwise fun a b => a.offset ≤ b.offset := by
  have htotal : Std.Total fun a b : RawRecord => a.offset ≤ b.offset := ⟨fun a b => by omega⟩
  have htrans : IsTrans RawRecord fun a b => a.offset ≤ b.offset := ⟨fun a b c => by omega⟩
  exact List.pairwise_insertionSort _ _

theorem sortByOffset_ascending {records : List RawRecord}
    (h : (records.map RawRecord.offset).Nodup) :
    Ascending RawRecord.offset (sortByOffset records) := by
  have hle := sortByOffset_pairwise records
  have hne : (sortByOffset records).Pairwise fun a b => a.offset ≠ b.offset :=
    List.pairwise_map.mp ((((sortByOffset_perm records).map _).nodup_iff).mpr h)
  exact (hle.and hne).imp fun hab => by omega

/-- Sorting what a scan delivered of a sorted list gives back that list. -/
theorem sortByOffset_eq {records l : List RawRecord} (h : records.Perm l)
    (hl : Ascending RawRecord.offset l) : sortByOffset records = l :=
  eq_of_perm_of_ascending ((sortByOffset_perm records).trans h)
    (sortByOffset_ascending (((h.map _).nodup_iff).mpr (Ascending.map_nodup hl))) hl

theorem partitionStreams_length (complete : List Int) (direction : Direction)
    (records : List RawRecord) (windows : List PartitionRange) :
    (partitionStreams complete direction records windows).length = windows.length := by
  induction windows generalizing records with
  | nil => rfl
  | cons w windows ih => simp [partitionStreams, ih]

/-- When no partition has two windows, a window's stream is made of all that was
    fetched for its partition. -/
theorem partitionStreams_getElem? {complete : List Int} {direction : Direction}
    {records : List RawRecord} {windows : List PartitionRange} (hd : Distinct windows) {i : Nat}
    {w : PartitionRange} (hw : windows[i]? = some w) :
    (partitionStreams complete direction records windows)[i]? =
      some (trustedStream complete direction w (records.filter (·.partition == w.partition))) := by
  induction windows generalizing records i with
  | nil => simp at hw
  | cons w₀ windows ih =>
    obtain ⟨hfresh, hd⟩ := List.nodup_cons.mp hd
    cases i with
    | zero =>
      obtain rfl : w₀ = w := by simpa using hw
      rfl
    | succ i =>
      have hw : windows[i]? = some w := by simpa using hw
      have hne : w.partition ≠ w₀.partition := by
        intro heq
        exact hfresh (heq ▸ List.mem_map_of_mem (List.mem_of_getElem? hw))
      simp only [partitionStreams, List.getElem?_cons_succ]
      rw [ih hd hw, List.filter_filter]
      congr 2
      apply List.filter_congr
      intro r _
      by_cases hr : r.partition = w.partition
      · simp [hr, hne]
      · simp [hr]

theorem trustedStream_mem {complete : List Int} {direction : Direction} {w : PartitionRange}
    {fetched : List RawRecord} {r : RawRecord}
    (h : r ∈ trustedStream complete direction w fetched) : r ∈ fetched := by
  unfold trustedStream at h
  split at h
  · exact (sortByOffset_perm fetched).mem_iff.mp (mem_adjacentFirst.mp h)
  · cases h

/-- The records of a stream are records of its window's partition, also when a
    partition has several windows. -/
theorem mem_partitionStreams {complete : List Int} {direction : Direction}
    {records : List RawRecord} {windows : List PartitionRange} {i : Nat} {w : PartitionRange}
    {src : List RawRecord} (hw : windows[i]? = some w)
    (hsrc : (partitionStreams complete direction records windows)[i]? = some src) {r : RawRecord}
    (hr : r ∈ src) : r ∈ records ∧ r.partition = w.partition := by
  induction windows generalizing records i with
  | nil => cases hw
  | cons v windows ih =>
    cases i with
    | zero =>
      obtain rfl : v = w := by simpa using hw
      obtain rfl : trustedStream complete direction v
          (records.filter (·.partition == v.partition)) = src := by
        simpa [partitionStreams] using hsrc
      simpa using List.mem_filter.mp (trustedStream_mem hr)
    | succ i =>
      have hrest : (partitionStreams complete direction
          (records.filter (·.partition != v.partition)) windows)[i]? = some src := by
        simpa [partitionStreams] using hsrc
      obtain ⟨hmem, hp⟩ := ih (by simpa using hw) hrest
      exact ⟨(List.mem_filter.mp hmem).1, hp⟩

/-- A stream serves distinct offsets, nearest to the position first. -/
theorem trustedStream_eq_adjacentFirst (complete : List Int) (direction : Direction)
    (w : PartitionRange) {fetched : List RawRecord} (h : (fetched.map RawRecord.offset).Nodup) :
    ∃ l, Ascending RawRecord.offset l ∧
      trustedStream complete direction w fetched = adjacentFirst direction l := by
  unfold trustedStream
  split
  · exact ⟨_, sortByOffset_ascending h, rfl⟩
  · exact ⟨[], List.Pairwise.nil, by cases direction <;> rfl⟩

/-- The stream of a complete window is the whole window. -/
theorem trustedStream_complete {topic : Topic} {windows : List PartitionRange}
    {outcome : FetchOutcome} (h : Documented topic windows outcome) (direction : Direction)
    {w : PartitionRange} (hw : w ∈ windows) (hc : w.partition ∈ outcome.complete) :
    trustedStream outcome.complete direction w (FetchOutcome.of outcome w.partition) =
      adjacentFirst direction (topic.slice w.partition w.start w.end_) := by
  have hsort := sortByOffset_eq (h.complete w hw hc) (topic.slice_ascending _ _ _)
  have htrust : trustAsIs outcome.complete direction w
      (sortByOffset (FetchOutcome.of outcome w.partition)) = true := by
    simp [trustAsIs, hc]
  rw [trustedStream, if_pos htrust, hsort]

/-- Any stream is what a page reads of its window up to some point: all of it or
    nothing for `Back`, a front part for `Forward`. -/
theorem trustedStream_documented {topic : Topic} {windows : List PartitionRange}
    {outcome : FetchOutcome} (h : Documented topic windows outcome) (direction : Direction)
    {w : PartitionRange} (hw : w ∈ windows) :
    trustedStream outcome.complete direction w (FetchOutcome.of outcome w.partition) <+:
      adjacentFirst direction (topic.slice w.partition w.start w.end_) := by
  have hslice := topic.slice_ascending w.partition w.start w.end_
  obtain ⟨k, hk⟩ := h.delivered w hw
  have hsort : sortByOffset (FetchOutcome.of outcome w.partition) =
      (topic.slice w.partition w.start w.end_).take k :=
    sortByOffset_eq hk (List.Pairwise.sublist (List.take_sublist _ _) hslice)
  unfold trustedStream
  split
  · rename_i htrust
    cases direction with
    | forward =>
      rw [hsort]
      exact List.take_prefix _ _
    | back =>
      rcases (Bool.or_eq_true _ _).mp htrust with hc | hadj
      · rw [sortByOffset_eq (h.complete w hw (by simpa using hc)) hslice]
      · -- the adjacent record is the window's last, so nothing was cut off
        obtain ⟨r, hr, hoff⟩ := List.any_eq_true.mp hadj
        have hoff : r.offset = w.end_ - 1 := by simpa [adjacentOffset] using hoff
        have hr : r ∈ (topic.slice w.partition w.start w.end_).take k := hsort ▸ hr
        have hsplit := List.take_append_drop k (topic.slice w.partition w.start w.end_)
        have hdrop : (topic.slice w.partition w.start w.end_).drop k = [] := by
          apply List.eq_nil_iff_forall_not_mem.mpr
          intro y hy
          rw [← hsplit] at hslice
          have hlt := (List.pairwise_append.mp hslice).2.2 r hr y hy
          have hy' := (Topic.mem_slice.mp (List.mem_of_mem_drop hy)).2.2
          omega
        rw [hdrop, List.append_nil] at hsplit
        rw [hsort, hsplit]
  · exact List.nil_prefix

/-! ### The invariant of the merge loop -/

/-- The messages of the records that pass the filter. -/
def keptMessages (handle : ClusterHandle) (filter : Option Filter) (records : List RawRecord) :
    List MessageOut :=
  (records.map (toOneMessageOut handle.decoder)).filter (keeps handle filter)

theorem keptMessages_append (handle : ClusterHandle) (filter : Option Filter)
    (rs ss : List RawRecord) :
    keptMessages handle filter (rs ++ ss) =
      keptMessages handle filter rs ++ keptMessages handle filter ss := by
  simp [keptMessages]

theorem keptMessages_perm (handle : ClusterHandle) (filter : Option Filter)
    {rs ss : List RawRecord} (h : rs.Perm ss) :
    (keptMessages handle filter rs).Perm (keptMessages handle filter ss) :=
  (h.map _).filter _

/-- What has been taken, against the streams the merge started from. -/
structure MergeInv (call : PageCall) (streams₀ : List (List RawRecord)) (t : ChunkTaken) :
    Prop where
  length_eq : t.streams.length = streams₀.length
  merged : KWayMerge.merge (mergePrefers call.req.direction) streams₀ =
    t.popped ++ KWayMerge.merge (mergePrefers call.req.direction) t.streams
  drawn : ∀ (i : Nat) (src : List RawRecord), streams₀[i]? = some src →
    ∃ pre rest : List RawRecord, src = pre ++ rest ∧
    t.streams[i]? = some rest ∧
    t.takenMin[i]? = some (pre.map RawRecord.offset).min? ∧
    t.takenMax[i]? = some (pre.map RawRecord.offset).max?
  kept : t.matches_ = keptMessages call.handle call.req.filter t.popped

theorem min?_concat (l : List Int) (a : Int) :
    (l ++ [a]).min? = some (l.min?.elim a (min · a)) := by
  cases l with
  | nil => rfl
  | cons x xs =>
    rw [List.cons_append, List.min?_cons', List.min?_cons', List.foldl_append]
    rfl

theorem max?_concat (l : List Int) (a : Int) :
    (l ++ [a]).max? = some (l.max?.elim a (max · a)) := by
  cases l with
  | nil => rfl
  | cons x xs =>
    rw [List.cons_append, List.max?_cons', List.max?_cons', List.foldl_append]
    rfl

theorem MergeInv.start (call : PageCall) (streams : List (List RawRecord))
    (sent : List TimelineEvent) :
    MergeInv call streams
      { streams := streams
        popped := []
        matches_ := []
        takenMin := List.replicate streams.length none
        takenMax := List.replicate streams.length none
        sent := sent } where
  length_eq := rfl
  merged := rfl
  drawn i src hsrc := by
    have hlt : i < streams.length := (List.getElem?_eq_some_iff.mp hsrc).1
    exact ⟨[], src, rfl, hsrc, by simp [hlt], by simp [hlt]⟩
  kept := rfl

theorem MergeInv.pop {call : PageCall} {streams₀ : List (List RawRecord)} {t : ChunkTaken}
    {i : Nat} {rec : RawRecord} (h : MergeInv call streams₀ t)
    (hpick : KWayMerge.pick (mergePrefers call.req.direction) t.streams = some (i, rec)) :
    MergeInv call streams₀ (t.pop call i rec) where
  length_eq := by simpa [ChunkTaken.pop] using h.length_eq
  merged := by
    rw [h.merged, KWayMerge.merge_of_pick hpick]
    simp [ChunkTaken.pop]
  drawn j src hsrc := by
    obtain ⟨pre, rest, rfl, hrest, hmin, hmax⟩ := h.drawn j src hsrc
    obtain ⟨tl, htl⟩ := KWayMerge.pick_isHead hpick
    by_cases hij : i = j
    · -- the popped record moves from the stream to its taken part
      subst hij
      rw [htl] at hrest
      obtain rfl : rec :: tl = rest := by simpa using hrest
      refine ⟨pre ++ [rec], tl, by simp, ?_, ?_, ?_⟩
      · simp [ChunkTaken.pop, KWayMerge.popAt_getElem?, htl]
      · simp [ChunkTaken.pop, hmin, min?_concat]
      · simp [ChunkTaken.pop, hmax, max?_concat]
    · refine ⟨pre, rest, rfl, ?_, ?_, ?_⟩
      · simp [ChunkTaken.pop, KWayMerge.popAt_getElem?, hij, hrest]
      · simp [ChunkTaken.pop, hij, hmin]
      · simp [ChunkTaken.pop, hij, hmax]
  kept := by
    have hone : keptMessages call.handle call.req.filter [rec] =
        if keeps call.handle call.req.filter (toOneMessageOut call.handle.decoder rec) then
          [toOneMessageOut call.handle.decoder rec] else [] := by
      simp [keptMessages, List.filter_cons]
    simp only [ChunkTaken.pop, keptMessages_append, hone, h.kept]
    split
    · rfl
    · rw [List.append_nil]

/-- Induction along the merge loop: one case for a pop, one for a progress event
    that follows it. -/
theorem mergeLoop_induction {call : PageCall} {args : MergeChunkArgs} {P : ChunkTaken → Prop}
    (pop : ∀ t i rec, P t → args.totalMatches + t.matches_.length < call.req.limit →
      KWayMerge.pick (mergePrefers call.req.direction) t.streams = some (i, rec) →
      P (t.pop call i rec))
    (send : ∀ t scanned, P t → midChunkProgress args.totalScanned t.popped.length = some scanned →
      P { t with sent := t.sent ++
        [.progress scanned (args.totalMatches + t.matches_.length) call.budget] })
    (fuel : Nat) {t : ChunkTaken} (h : P t) : P (mergeLoop call args fuel t).1 := by
  induction fuel generalizing t with
  | zero => exact h
  | succ fuel ih =>
    simp only [mergeLoop]
    split
    · exact h
    · rename_i hlimit
      cases hpick : KWayMerge.pick (mergePrefers call.req.direction) t.streams with
      | none => exact h
      | some head =>
        obtain ⟨i, rec⟩ := head
        have hpop := pop t i rec h (by omega) hpick
        cases hmid : midChunkProgress args.totalScanned (t.pop call i rec).popped.length with
        | none =>
          simp only [hmid]
          exact ih hpop
        | some scanned =>
          simp only [hmid]
          split
          · exact ih (send _ scanned hpop hmid)
          · exact hpop

theorem MergeInv.send {call : PageCall} {streams₀ : List (List RawRecord)} {t : ChunkTaken}
    (h : MergeInv call streams₀ t) (sent : List TimelineEvent) :
    MergeInv call streams₀ { t with sent := sent } :=
  ⟨h.length_eq, h.merged, h.drawn, h.kept⟩

theorem mergeChunkRecords_inv (call : PageCall) (args : MergeChunkArgs)
    (streams : List (List RawRecord)) (sent : List TimelineEvent) :
    MergeInv call streams (mergeChunkRecords call args streams sent).1 :=
  mergeLoop_induction (fun _ _ _ h _ hpick => h.pop hpick) (fun _ _ h _ => h.send _) _
    (MergeInv.start call streams sent)

/-- The loop ends for one of two reasons: the limit, or empty streams. -/
theorem mergeLoop_done {call : PageCall} {args : MergeChunkArgs} {fuel : Nat} {t : ChunkTaken}
    (hfuel : KWayMerge.size t.streams ≤ fuel) (h : (mergeLoop call args fuel t).2 = true) :
    call.req.limit ≤ args.totalMatches + (mergeLoop call args fuel t).1.matches_.length ∨
      ∀ s ∈ (mergeLoop call args fuel t).1.streams, s = [] := by
  induction fuel generalizing t with
  | zero => exact Or.inr (KWayMerge.size_eq_zero.mp (Nat.le_zero.mp hfuel))
  | succ fuel ih =>
    simp only [mergeLoop] at h ⊢
    by_cases hlimit : call.req.limit ≤ args.totalMatches + t.matches_.length
    · rw [if_pos hlimit]
      exact Or.inl hlimit
    · rw [if_neg hlimit] at h ⊢
      cases hpick : KWayMerge.pick (mergePrefers call.req.direction) t.streams with
      | none => exact Or.inr (KWayMerge.pick_eq_none.mp hpick)
      | some head =>
        obtain ⟨i, rec⟩ := head
        have hsize : KWayMerge.size (t.pop call i rec).streams ≤ fuel := by
          have := KWayMerge.popAt_size (KWayMerge.pick_isHead hpick)
          simp only [ChunkTaken.pop]
          omega
        simp only [hpick] at h ⊢
        cases hmid : midChunkProgress args.totalScanned (t.pop call i rec).popped.length with
        | none =>
          simp only [hmid] at h ⊢
          exact ih hsize h
        | some scanned =>
          simp only [hmid] at h ⊢
          by_cases hacc : call.client.accepts (t.pop call i rec).sent.length = true
          · rw [if_pos hacc] at h ⊢
            exact ih hsize h
          · rw [if_neg hacc] at h
            cases h

theorem mergeChunkRecords_done {call : PageCall} {args : MergeChunkArgs}
    {streams : List (List RawRecord)} {sent : List TimelineEvent}
    (h : (mergeChunkRecords call args streams sent).2 = true) :
    call.req.limit ≤ args.totalMatches +
        (mergeChunkRecords call args streams sent).1.matches_.length ∨
      ∀ s ∈ (mergeChunkRecords call args streams sent).1.streams, s = [] :=
  mergeLoop_done (Nat.le_refl _) h

/-- A chunk stops at the limit, never past it. -/
theorem mergeChunkRecords_limit (call : PageCall) (args : MergeChunkArgs)
    (streams : List (List RawRecord)) (sent : List TimelineEvent)
    (h : args.totalMatches ≤ call.req.limit) :
    args.totalMatches + (mergeChunkRecords call args streams sent).1.matches_.length ≤
      call.req.limit := by
  refine mergeLoop_induction (P := fun t => args.totalMatches + t.matches_.length ≤ call.req.limit)
    (fun t i rec _ hlt _ => ?_) (fun _ _ h _ => h) _ (by simpa using h)
  simp only [ChunkTaken.pop]
  split
  · simp only [List.length_append, List.length_singleton]
    omega
  · omega

end Arne.Timeline
