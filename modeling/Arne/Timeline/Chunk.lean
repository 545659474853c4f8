import Arne.Timeline.Advance

/-!
# One chunk

What a chunk does to each position, for windows that name every partition once:
the position stays where it is, or moves inside the window planned from it, and
the records taken from its partition are exactly those it moved past.
-/

namespace Arne.Timeline

open Arne.Message Arne.SortedLog

variable {call : PageCall} {windows : List PartitionRange} {outcome : FetchOutcome}
  {taken : ChunkTaken} {direction : Direction}

/-- The streams of a chunk are told apart by partition. -/
theorem partitionStreams_told (hd : Distinct windows) {i j : Nat} {w : PartitionRange}
    (hw : windows[i]? = some w) {src : List RawRecord}
    (hsrc : (partitionStreams outcome.complete direction outcome.records windows)[j]? = some src)
    {r : RawRecord} (hr : r ∈ src) : r.partition = w.partition ↔ j = i := by
  have hj : j < windows.length := by
    have := (List.getElem?_eq_some_iff.mp hsrc).1
    rwa [partitionStreams_length] at this
  have hv : windows[j]? = some windows[j] := List.getElem?_eq_getElem hj
  rw [partitionStreams_getElem? hd hv] at hsrc
  cases hsrc
  have hrv : r.partition = windows[j].partition := by
    have := (List.mem_filter.mp (trustedStream_mem hr)).2
    simpa using this
  obtain ⟨hi, rfl⟩ := List.getElem?_eq_some_iff.mp hw
  rw [hrv]
  have hinj := (List.nodup_iff_injective_getElem.mp hd).eq_iff
    (a := ⟨j, by simpa using hj⟩) (b := ⟨i, by simpa using hi⟩)
  simpa using hinj

/-- The records taken from a stream are those of the window's partition. -/
theorem drawn_eq_popped (hd : Distinct windows)
    (hinv : MergeInv call
      (partitionStreams outcome.complete direction outcome.records windows) taken)
    {i : Nat} {w : PartitionRange} (hw : windows[i]? = some w) {pre rest : List RawRecord}
    (hsrc : (partitionStreams outcome.complete direction outcome.records windows)[i]? =
      some (pre ++ rest))
    (hrest : taken.streams[i]? = some rest) :
    pre = taken.popped.filter (·.partition == w.partition) := by
  have hfull := KWayMerge.merge_filter (mergePrefers call.req.direction)
    (·.partition == w.partition) i
    (partitionStreams outcome.complete direction outcome.records windows)
    fun j src hj r hr => by simpa using partitionStreams_told hd hw hj hr
  have hleft := KWayMerge.merge_filter (mergePrefers call.req.direction)
    (·.partition == w.partition) i taken.streams fun j src hj r hr => by
      have hlt : j < taken.streams.length := (List.getElem?_eq_some_iff.mp hj).1
      rw [hinv.length_eq] at hlt
      obtain ⟨pre', rest', hsplit, hrest', -, -⟩ :=
        hinv.drawn j _ (List.getElem?_eq_getElem hlt)
      obtain rfl : rest' = src := by simpa [hj] using hrest'.symm
      have hr' : r ∈ (partitionStreams outcome.complete direction outcome.records windows)[j] :=
        hsplit ▸ List.mem_append_right _ hr
      simpa using partitionStreams_told hd hw (List.getElem?_eq_getElem hlt) hr'
  rw [hinv.merged, List.filter_append, hleft, hrest, hsrc] at hfull
  exact (List.append_cancel_right hfull).symm

/-- Nothing is taken from a partition without a window. -/
theorem popped_has_window (hd : Distinct windows)
    (hinv : MergeInv call
      (partitionStreams outcome.complete direction outcome.records windows) taken)
    {r : RawRecord} (hr : r ∈ taken.popped) : ∃ w ∈ windows, r.partition = w.partition := by
  have hmem : r ∈ KWayMerge.merge (mergePrefers call.req.direction)
      (partitionStreams outcome.complete direction outcome.records windows) :=
    hinv.merged ▸ List.mem_append_left _ hr
  obtain ⟨src, hsrc, hrsrc⟩ := List.mem_flatten.mp ((KWayMerge.merge_perm _ _).mem_iff.mp hmem)
  obtain ⟨j, hj⟩ := List.mem_iff_getElem?.mp hsrc
  have hlt : j < windows.length := by
    have := (List.getElem?_eq_some_iff.mp hj).1
    rwa [partitionStreams_length] at this
  exact ⟨windows[j], List.getElem_mem hlt,
    (partitionStreams_told hd (List.getElem?_eq_getElem hlt) hj hrsrc).mpr rfl⟩

/-- The position `e` of a chunk, the window planned from it, and what the chunk
    took of that window. -/
structure EntryView (outcome : FetchOutcome) (windows : List PartitionRange) (taken : ChunkTaken)
    (direction : Direction) (e : Position) (w : PartitionRange) (rest : List RawRecord) : Prop where
  partition_eq : w.partition = e.1
  near : nearEdge w direction = e.2
  stream_eq : trustedStream outcome.complete direction w (FetchOutcome.of outcome w.partition) =
    taken.popped.filter (·.partition == e.1) ++ rest
  left : ∃ i : Nat, windows[i]? = some w ∧ taken.streams[i]? = some rest
  new_eq : advancePosition windows (windows.map fun w => outcome.complete.contains w.partition)
      taken direction e =
    (e.1, if w.partition ∈ outcome.complete ∧ rest = [] then windowEdge w direction
      else (stopAfter direction (taken.popped.filter (·.partition == e.1))).getD e.2)

theorem entryView (hd : Distinct windows)
    (hinv : MergeInv call
      (partitionStreams outcome.complete direction outcome.records windows) taken)
    {e : Position} {w : PartitionRange} (hw : w ∈ windows) (hp : w.partition = e.1)
    (hnear : nearEdge w direction = e.2) :
    ∃ rest, EntryView outcome windows taken direction e w rest := by
  obtain ⟨i, hi⟩ := List.mem_iff_getElem?.mp hw
  have hstream := @partitionStreams_getElem? outcome.complete direction outcome.records _ hd i w hi
  obtain ⟨pre, rest, hsplit, hrest, hmin, hmax⟩ := hinv.drawn i _ hstream
  have hpre : pre = taken.popped.filter (·.partition == e.1) :=
    hp ▸ drawn_eq_popped hd hinv hi (hsplit ▸ hstream) hrest
  subst hpre
  exact ⟨rest, hp, hnear, hsplit, ⟨i, hi, hrest⟩,
    advancePosition_eq hd hi hp outcome.complete direction hrest hmin hmax⟩

variable {e : Position} {w : PartitionRange} {rest : List RawRecord}

theorem EntryView.taken_inside (v : EntryView outcome windows taken direction e w rest)
    (hd : Distinct windows) (hin : Inside windows outcome) {r : RawRecord}
    (hr : r ∈ taken.popped.filter (·.partition == e.1)) :
    w.start ≤ r.offset ∧ r.offset < w.end_ := by
  have hmem : r ∈ FetchOutcome.of outcome w.partition :=
    trustedStream_mem (v.stream_eq ▸ List.mem_append_left _ hr)
  obtain ⟨hrec, hrp⟩ := List.mem_filter.mp hmem
  obtain ⟨w', hw', hp', hoff⟩ := hin.requested r hrec
  obtain ⟨i, hi, -⟩ := v.left
  have hw : w ∈ windows := List.mem_of_getElem? hi
  have heq : w' = w := by
    apply List.inj_on_of_nodup_map hd hw' hw
    rw [← hp']
    simpa using hrp
  exact heq ▸ hoff

/-- A moved position stays in its window, and covers what was taken. -/
theorem EntryView.moved (v : EntryView outcome windows taken direction e w rest)
    (hd : Distinct windows) (hin : Inside windows outcome) (hw : w.start < w.end_) {e' : Position}
    (he' : e' = advancePosition windows
      (windows.map fun w => outcome.complete.contains w.partition) taken direction e) :
    e'.1 = e.1 ∧ (w.start ≤ e'.2 ∧ e'.2 ≤ w.end_) ∧
      ∀ r ∈ taken.popped.filter (·.partition == e.1), Covers direction e.2 e'.2 r.offset := by
  have hinside := fun r (hr : r ∈ taken.popped.filter (·.partition == e.1)) =>
    v.taken_inside hd hin hr
  rw [v.new_eq] at he'
  subst he'
  refine ⟨rfl, ?_⟩
  simp only
  split
  · -- drained: the far edge lies beyond every record of the window
    rw [← v.near]
    cases direction with
    | back => exact ⟨by simp only [windowEdge]; omega, hinside⟩
    | forward => exact ⟨by simp only [windowEdge]; omega, hinside⟩
  · cases hstop : stopAfter direction (taken.popped.filter (·.partition == e.1)) with
    | none =>
      have hnear := v.near
      have hnil := stopAfter_eq_none.mp hstop
      rw [hnil]
      refine ⟨?_, by simp⟩
      cases direction <;> simp only [nearEdge] at hnear <;> simp only [Option.getD_none] <;> omega
    | some m =>
      obtain ⟨h1, h2, hcov⟩ := stopAfter_covers hstop hinside
      exact ⟨⟨h1, h2⟩, v.near ▸ hcov⟩

/-- What was taken of a partition is exactly what its position moved past. -/
theorem EntryView.read (v : EntryView outcome windows taken direction e w rest) {topic : Topic}
    (hdoc : Documented topic windows outcome) {e' : Position}
    (he' : e' = advancePosition windows
      (windows.map fun w => outcome.complete.contains w.partition) taken direction e) :
    taken.popped.filter (·.partition == e.1) = passed direction (topic.log e.1) e.2 e'.2 := by
  obtain ⟨i, hi, -⟩ := v.left
  have hw : w ∈ windows := List.mem_of_getElem? hi
  rw [v.new_eq] at he'
  subst he'
  simp only
  split
  · -- complete and drained: the whole window was taken
    rename_i hjump
    have hstream := v.stream_eq
    rw [trustedStream_complete hdoc direction hw hjump.1, hjump.2, List.append_nil,
      Topic.slice, adjacentFirst_window, v.near, v.partition_eq] at hstream
    exact hstream.symm
  · cases hstop : stopAfter direction (taken.popped.filter (·.partition == e.1)) with
    | none =>
      rw [stopAfter_eq_none.mp hstop, Option.getD_none, passed_self]
    | some m =>
      have hpre : taken.popped.filter (·.partition == e.1) <+:
          adjacentFirst direction (topic.slice w.partition w.start w.end_) :=
        (List.prefix_append _ rest).trans
          (v.stream_eq ▸ trustedStream_documented hdoc direction hw)
      rw [v.partition_eq] at hpre
      have := eq_passed_of_front (topic.ascending e.1) hpre hstop
      rwa [v.near] at this

end Arne.Timeline
