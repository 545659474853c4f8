import Arne.Timeline.Scan

/-!
# How far a chunk moves a position

A chunk moves a position from `old` to `new`, and takes of its partition what the
topic has between the two: no more, because the records taken are a front part of
the window in reading order, and no less, because a position only jumps to the far
edge of a window that was read to its end.
-/

namespace Arne.Timeline

open Arne.Message Arne.SortedLog

/-! ### Reading from one position to another -/

/-- `new` is reached from `old` by reading in `direction`. -/
def Onward (direction : Direction) (old new : Int) : Prop :=
  match direction with
  | .back => new ≤ old
  | .forward => old ≤ new

instance (direction : Direction) (old new : Int) : Decidable (Onward direction old new) :=
  match direction with
  | .back => inferInstanceAs (Decidable (new ≤ old))
  | .forward => inferInstanceAs (Decidable (old ≤ new))

/-- The offsets read on the way from `old` to `new`. -/
def Covers (direction : Direction) (old new offset : Int) : Prop :=
  match direction with
  | .back => new ≤ offset ∧ offset < old
  | .forward => old ≤ offset ∧ offset < new

/-- What a partition has on the way from `old` to `new`, in reading order. -/
def passed (direction : Direction) (log : List RawRecord) (old new : Int) : List RawRecord :=
  match direction with
  | .back => (between RawRecord.offset new old log).reverse
  | .forward => between RawRecord.offset old new log

theorem mem_passed {direction : Direction} {log : List RawRecord} {old new : Int} {r : RawRecord} :
    r ∈ passed direction log old new ↔ r ∈ log ∧ Covers direction old new r.offset := by
  cases direction with
  | back => simp only [passed, List.mem_reverse, mem_between, Covers]
  | forward => exact mem_between

theorem passed_nodup {log : List RawRecord} (h : Ascending RawRecord.offset log)
    (direction : Direction) (old new : Int) : (passed direction log old new).Nodup := by
  cases direction with
  | back => exact List.nodup_reverse.mpr (h.between _ _).nodup
  | forward => exact (h.between _ _).nodup

@[simp] theorem passed_self (direction : Direction) (log : List RawRecord) (pos : Int) :
    passed direction log pos pos = [] := by
  cases direction with
  | back => simp [passed, between_of_le (Int.le_refl pos)]
  | forward => exact between_of_le (Int.le_refl pos) log

theorem Onward.refl (direction : Direction) (pos : Int) : Onward direction pos pos := by
  cases direction <;> exact Int.le_refl pos

theorem Onward.trans {direction : Direction} {a b c : Int} (h : Onward direction a b)
    (h' : Onward direction b c) : Onward direction a c := by
  cases direction with
  | back => exact Int.le_trans h' h
  | forward => exact Int.le_trans h h'

/-- Reading on from where one stopped. -/
theorem passed_trans {direction : Direction} {log : List RawRecord}
    (hlog : Ascending RawRecord.offset log) {a b c : Int} (hab : Onward direction a b)
    (hbc : Onward direction b c) :
    passed direction log a c = passed direction log a b ++ passed direction log b c := by
  cases direction with
  | back =>
    simp only [passed]
    rw [between_append hbc hab hlog, List.reverse_append]
  | forward => exact between_append hab hbc hlog

/-- A covered offset makes the move a strict one. -/
theorem Covers.ne {direction : Direction} {old new o : Int} (h : Covers direction old new o) :
    new ≠ old := by
  cases direction with
  | back => exact fun heq => by have := h.1; have := h.2; omega
  | forward => exact fun heq => by have := h.1; have := h.2; omega

/-- The position right after the records read so far. -/
def stopAfter (direction : Direction) (taken : List RawRecord) : Option Int :=
  match direction with
  | .back => (taken.map RawRecord.offset).min?
  | .forward => (taken.map RawRecord.offset).max?.map (· + 1)

/-- The side of a window its position is on. -/
def nearEdge (w : PartitionRange) (direction : Direction) : Int :=
  match direction with
  | .back => w.end_
  | .forward => w.start

theorem stopAfter_eq_none {direction : Direction} {taken : List RawRecord} :
    stopAfter direction taken = none ↔ taken = [] := by
  cases direction <;> simp [stopAfter]

theorem stopAfter_back {taken : List RawRecord} {m : Int}
    (h : stopAfter .back taken = some m) :
    (∃ r ∈ taken, r.offset = m) ∧ ∀ r ∈ taken, m ≤ r.offset := by
  obtain ⟨hmem, hmin⟩ := List.min?_eq_some_iff.mp h
  obtain ⟨r, hr, hoff⟩ := List.mem_map.mp hmem
  exact ⟨⟨r, hr, hoff⟩, fun r hr => hmin _ (List.mem_map_of_mem hr)⟩

theorem stopAfter_forward {taken : List RawRecord} {m : Int}
    (h : stopAfter .forward taken = some m) :
    (∃ r ∈ taken, r.offset + 1 = m) ∧ ∀ r ∈ taken, r.offset < m := by
  obtain ⟨top, htop, rfl⟩ := Option.map_eq_some_iff.mp h
  obtain ⟨hmem, hmax⟩ := List.max?_eq_some_iff.mp htop
  obtain ⟨r, hr, rfl⟩ := List.mem_map.mp hmem
  refine ⟨⟨r, hr, rfl⟩, ?_⟩
  intro r hr
  have := hmax _ (List.mem_map_of_mem hr)
  omega

/-- Stopping after records of a window stays in the window and covers them. -/
theorem stopAfter_covers {direction : Direction} {w : PartitionRange} {taken : List RawRecord}
    {m : Int} (h : stopAfter direction taken = some m)
    (hin : ∀ r ∈ taken, w.start ≤ r.offset ∧ r.offset < w.end_) :
    w.start ≤ m ∧ m ≤ w.end_ ∧ ∀ r ∈ taken, Covers direction (nearEdge w direction) m r.offset := by
  cases direction with
  | back =>
    obtain ⟨⟨r, hr, hm⟩, hmin⟩ := stopAfter_back h
    have hr := hin r hr
    exact ⟨by omega, by omega, fun r hr => ⟨hmin r hr, (hin r hr).2⟩⟩
  | forward =>
    obtain ⟨⟨r, hr, hm⟩, hmax⟩ := stopAfter_forward h
    have hr := hin r hr
    exact ⟨by omega, by omega, fun r hr => ⟨(hin r hr).1, hmax r hr⟩⟩

/-- What was taken off the front of a window is what lies before the stop. -/
theorem eq_passed_of_front {direction : Direction} {log : List RawRecord}
    (hlog : Ascending RawRecord.offset log) {w : PartitionRange} {taken : List RawRecord} {m : Int}
    (hpre : taken <+: adjacentFirst direction (between RawRecord.offset w.start w.end_ log))
    (h : stopAfter direction taken = some m) :
    taken = passed direction log (nearEdge w direction) m := by
  obtain ⟨rest, hrest⟩ := hpre
  cases direction with
  | back =>
    obtain ⟨⟨r, hr, hm⟩, hmin⟩ := stopAfter_back h
    have hsplit : between RawRecord.offset w.start w.end_ log =
        rest.reverse ++ taken.reverse := by
      rw [← List.reverse_append, hrest]
      simp [adjacentFirst]
    have := suffix_eq_between hlog hsplit ⟨r, by simpa using hr, hm⟩
      fun r hr => hmin r (by simpa using hr)
    rw [passed, nearEdge, ← this, List.reverse_reverse]
  | forward =>
    obtain ⟨⟨r, hr, hm⟩, hmax⟩ := stopAfter_forward h
    subst hm
    apply prefix_eq_between hlog hrest.symm ⟨r, hr, rfl⟩
    intro r hr
    have := hmax r hr
    omega

/-- A whole window in reading order. -/
theorem adjacentFirst_window (direction : Direction) (log : List RawRecord) (w : PartitionRange) :
    adjacentFirst direction (between RawRecord.offset w.start w.end_ log) =
      passed direction log (nearEdge w direction) (windowEdge w direction) := by
  cases direction <;> rfl

/-! ### One position of a chunk -/

theorem findIdx?_of_distinct {windows : List PartitionRange} (hd : Distinct windows) {i : Nat}
    {w : PartitionRange} (hw : windows[i]? = some w) :
    windows.findIdx? (fun v => v.partition == w.partition) = some i := by
  obtain ⟨hlt, rfl⟩ := List.getElem?_eq_some_iff.mp hw
  rw [List.findIdx?_eq_some_iff_getElem]
  refine ⟨hlt, by simp, ?_⟩
  intro j hj heq
  have hj' : j < windows.length := by omega
  have hmap := (List.nodup_iff_injective_getElem.mp hd).eq_iff
    (a := ⟨j, by simpa using hj'⟩) (b := ⟨i, by simpa using hlt⟩)
  have : j = i := by simpa using hmap.mp (by simpa using heq)
  omega

theorem advancePosition_of_no_window {windows : List PartitionRange} {position : Position}
    (h : ∀ w ∈ windows, w.partition ≠ position.1) (isComplete : List Bool) (taken : ChunkTaken)
    (direction : Direction) :
    advancePosition windows isComplete taken direction position = position := by
  have hnone : windows.findIdx? (fun w => w.partition == position.1) = none := by
    rw [List.findIdx?_eq_none_iff]
    intro w hw
    simpa using h w hw
  simp [advancePosition, hnone]

/-- A position with a window: the far edge if the window is complete and drained,
    right after what was taken otherwise. -/
theorem advancePosition_eq {windows : List PartitionRange} (hd : Distinct windows) {i : Nat}
    {w : PartitionRange} (hw : windows[i]? = some w) {position : Position}
    (hp : w.partition = position.1) (complete : List Int) {taken : ChunkTaken}
    (direction : Direction) {pre rest : List RawRecord} (hstream : taken.streams[i]? = some rest)
    (hmin : taken.takenMin[i]? = some (pre.map RawRecord.offset).min?)
    (hmax : taken.takenMax[i]? = some (pre.map RawRecord.offset).max?) :
    advancePosition windows (windows.map fun w => complete.contains w.partition) taken direction
        position =
      (position.1, if w.partition ∈ complete ∧ rest = [] then windowEdge w direction
        else (stopAfter direction pre).getD position.2) := by
  have hidx : windows.findIdx? (fun v => v.partition == position.1) = some i :=
    hp ▸ findIdx?_of_distinct hd hw
  have hcomplete : (windows.map fun w => complete.contains w.partition).getD i false =
      complete.contains w.partition := by
    simp [List.getD_eq_getElem?_getD, hw]
  have hrest : taken.streams.getD i [] = rest := by simp [List.getD_eq_getElem?_getD, hstream]
  simp only [advancePosition, hidx, hw, hcomplete, hrest]
  by_cases hjump : w.partition ∈ complete ∧ rest = []
  · simp [hjump.1, hjump.2]
  · have hcond : ¬ (complete.contains w.partition && rest.isEmpty) = true := by
      simpa [Bool.and_eq_true, List.isEmpty_iff] using hjump
    rw [if_neg hcond, if_neg hjump]
    cases direction with
    | back =>
      have : taken.takenMin.getD i none = stopAfter .back pre := by
        simp [List.getD_eq_getElem?_getD, hmin, stopAfter]
      rw [this]
      cases stopAfter .back pre <;> rfl
    | forward =>
      have : taken.takenMax.getD i none = (pre.map RawRecord.offset).max? := by
        simp [List.getD_eq_getElem?_getD, hmax]
      simp only [this, stopAfter]
      cases (pre.map RawRecord.offset).max? <;> rfl

end Arne.Timeline
