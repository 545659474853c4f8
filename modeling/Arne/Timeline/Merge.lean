import Arne.Lib.KWayMerge
import Arne.Lib.SortedLog
import Arne.Timeline.Window
import Mathlib.Data.List.Sort
import Mathlib.Data.List.Dedup
import Mathlib.Data.Prod.Lex
import Mathlib.Algebra.Order.Ring.Int

/-!
# The two merges of a chunk (`timeline/merge.rs`)

`merge_prefers` decides which record a scan takes next, `chunk_display_order` the
order in which the matches of a chunk go out.  Both are the k-way merge of
`Arne.KWayMerge`, with a preference of their own.
-/

namespace Arne.Timeline

open Arne.Message

/-- `i64::MIN`, the timestamp of a record without one. -/
def i64Min : Int := -9223372036854775808

/-- `timestamp_ms.unwrap_or(i64::MIN)`. -/
def mergeTimestamp (timestampMs : Option Int) : Int := timestampMs.getD i64Min

/-- Whether `candidate` is taken before `currentBest`. -/
def mergePrefers (direction : Direction) (candidate currentBest : RawRecord) : Bool :=
  let ct := mergeTimestamp candidate.timestampMs
  let bt := mergeTimestamp currentBest.timestampMs
  let tsFavorsCandidate := match direction with
    | .back => decide (bt < ct)
    | .forward => decide (ct < bt)
  if ct ≠ bt then tsFavorsCandidate
  else decide (candidate.partition < currentBest.partition)

/-- `better` in `chunk_display_order`: strict, so the earlier stream keeps a tie. -/
def displayPrefers (direction : Direction) (candidate currentBest : MessageOut) : Bool :=
  let ts := mergeTimestamp candidate.timestampMs
  let bestTs := mergeTimestamp currentBest.timestampMs
  match direction with
  | .back => decide (bestTs < ts)
  | .forward => decide (ts < bestTs)

/-- The keys of `by_partition`, in the order of its `BTreeMap`. -/
def displayPartitions (messages : List MessageOut) : List Int :=
  (messages.map MessageOut.partition).dedup.insertionSort (· ≤ ·)

/-- One partition's stream, first served first: `pop()` takes from the end, so
    `Back` serves the highest offset first and `Forward` the lowest. -/
def displayStream (messages : List MessageOut) (direction : Direction) (p : Int) :
    List MessageOut :=
  let v := (messages.filter (·.partition == p)).insertionSort fun a b => a.offset ≤ b.offset
  match direction with
  | .back => v.reverse
  | .forward => v

def chunkDisplayOrder (messages : List MessageOut) (direction : Direction) : List MessageOut :=
  KWayMerge.merge (displayPrefers direction)
    ((displayPartitions messages).map (displayStream messages direction))

/-! ### The preferences are strict weak orders -/

/-- The key `merge_prefers` compares: time in the page's direction, then partition. -/
def mergeKey (direction : Direction) (r : RawRecord) : Int ×ₗ Int :=
  toLex (match direction with
    | .back => -mergeTimestamp r.timestampMs
    | .forward => mergeTimestamp r.timestampMs, r.partition)

theorem mergePrefers_iff (direction : Direction) (x y : RawRecord) :
    mergePrefers direction x y = true ↔ mergeKey direction x < mergeKey direction y := by
  cases direction with
  | back =>
    simp only [mergePrefers, mergeKey, Prod.Lex.toLex_lt_toLex, neg_lt_neg_iff, neg_inj]
    split
    · rename_i hne
      simp [hne]
    · rename_i heq
      rw [not_ne_iff] at heq
      simp [heq]
  | forward =>
    simp only [mergePrefers, mergeKey, Prod.Lex.toLex_lt_toLex]
    split
    · rename_i hne
      simp [hne]
    · rename_i heq
      rw [not_ne_iff] at heq
      simp [heq]

theorem mergePrefers_strictWeak (direction : Direction) :
    KWayMerge.StrictWeak (mergePrefers direction) :=
  KWayMerge.strictWeak_of_key (mergeKey direction) (mergePrefers_iff direction)

theorem displayPrefers_strictWeak (direction : Direction) :
    KWayMerge.StrictWeak (displayPrefers direction) := by
  cases direction with
  | back =>
    exact KWayMerge.strictWeak_of_key (fun m => -mergeTimestamp m.timestampMs)
      fun x y => by simp [displayPrefers]
  | forward =>
    exact KWayMerge.strictWeak_of_key (fun m => mergeTimestamp m.timestampMs)
      fun x y => by simp [displayPrefers]

/-! ### What the display order keeps -/

theorem mem_displayPartitions {messages : List MessageOut} {p : Int} :
    p ∈ displayPartitions messages ↔ ∃ m ∈ messages, m.partition = p := by
  simp [displayPartitions, (List.perm_insertionSort _ _).mem_iff]

theorem displayPartitions_nodup (messages : List MessageOut) :
    (displayPartitions messages).Nodup :=
  ((List.perm_insertionSort _ _).nodup_iff).mpr (List.nodup_dedup _)

theorem displayStream_perm (messages : List MessageOut) (direction : Direction) (p : Int) :
    (displayStream messages direction p).Perm (messages.filter (·.partition == p)) := by
  cases direction with
  | back => exact (List.reverse_perm _).trans (List.perm_insertionSort _ _)
  | forward => exact List.perm_insertionSort _ _

/-- `v.sort_by_key(|m| m.offset)` sorts. -/
theorem byOffset_pairwise (messages : List MessageOut) :
    (messages.insertionSort fun a b => a.offset ≤ b.offset).Pairwise fun a b =>
      a.offset ≤ b.offset := by
  have htotal : Std.Total fun a b : MessageOut => a.offset ≤ b.offset := ⟨fun a b => by omega⟩
  have htrans : IsTrans MessageOut fun a b => a.offset ≤ b.offset := ⟨fun a b c => by omega⟩
  exact List.pairwise_insertionSort _ _

/-- The display order shows each match once. -/
theorem chunkDisplayOrder_perm (messages : List MessageOut) (direction : Direction) :
    (chunkDisplayOrder messages direction).Perm messages := by
  apply (KWayMerge.merge_perm _ _).trans
  rw [← List.flatMap_def]
  refine List.Perm.trans
    (List.Perm.flatMap_left _ fun p _ => displayStream_perm messages direction p) ?_
  exact SortedLog.flatMap_groups_perm MessageOut.partition _ (displayPartitions_nodup messages)
    messages fun m hm => mem_displayPartitions.mpr ⟨m, hm, rfl⟩

/-! ### The display order is greedy -/

theorem displayPartitions_sorted (messages : List MessageOut) :
    (displayPartitions messages).Pairwise fun p q => p < q := by
  have hle : (displayPartitions messages).Pairwise fun p q => p ≤ q :=
    List.pairwise_insertionSort _ _
  exact hle.imp₂ (fun _ _ hpq hne => lt_of_le_of_ne hpq hne) (displayPartitions_nodup messages)

theorem displayStreams_keyed (messages : List MessageOut) (direction : Direction) :
    KWayMerge.Keyed MessageOut.partition
      ((displayPartitions messages).map (displayStream messages direction)) := by
  apply KWayMerge.keyed_map id (displayStream messages direction)
    (displayPartitions_sorted messages)
  intro p _ m hm
  have hmem := (displayStream_perm messages direction p).subset hm
  simpa using (List.mem_filter.mp hmem).2

theorem chunkDisplayOrder_greedy (messages : List MessageOut) (direction : Direction) :
    KWayMerge.Greedy MessageOut.partition (displayPrefers direction)
      (chunkDisplayOrder messages direction) :=
  KWayMerge.merge_greedy (displayPrefers_strictWeak direction)
    (displayStreams_keyed messages direction)

end Arne.Timeline
