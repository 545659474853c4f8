import Arne.Client.Trim
import Arne.Timeline.Advance

/-!
# One display order

The scan pops records, the engine orders the matches of a chunk, and the store merges the
rows it holds.  Each is a merge of its own, with its own tie rule and its own reading of a
missing timestamp.  All three lists are greedy over the same partitions, and there is one
greedy list with given messages.
-/

namespace Arne.Client

open Arne.Message Arne.Timeline Arne.SortedLog KWayMerge

/-! ### The order -/

/-- `x` goes before `y` by offset: `Back` reads a partition down, `Forward` up. -/
def offsetBefore (direction : Direction) (x y : MessageOut) : Prop :=
  match direction with
  | .back => y.offset < x.offset
  | .forward => x.offset < y.offset

/-- The messages of every partition are in strict offset order. -/
def InOffsetOrder (direction : Direction) (messages : List MessageOut) : Prop :=
  messages.Pairwise fun x y => x.partition = y.partition → offsetBefore direction x y

/-- A timestamp both sides hold exactly: none, or of magnitude at most 2^53. -/
def ExactTime (m : MessageOut) : Prop := ∀ ts ∈ m.timestampMs, |ts| ≤ 2 ^ 53

theorem offsetBefore_asymm (direction : Direction) (x y : MessageOut)
    (h : offsetBefore direction x y) : ¬ offsetBefore direction y x := by
  cases direction with
  | back =>
    simp only [offsetBefore] at h ⊢
    omega
  | forward =>
    simp only [offsetBefore] at h ⊢
    omega

/-- Distinct offsets that never go back are in strict order. -/
theorem inOffsetOrder_of_onward {direction : Direction} {messages : List MessageOut}
    (hkeys : (messages.map partitionKey).Nodup)
    (h : messages.Pairwise fun x y => x.partition = y.partition →
      Onward direction x.offset y.offset) : InOffsetOrder direction messages := by
  refine (h.and (List.pairwise_map.mp hkeys)).imp ?_
  rintro x y ⟨honward, hne⟩ hpart
  have hoff : x.offset ≠ y.offset := fun hoff => hne (Prod.ext hpart hoff)
  have hle := honward hpart
  cases direction with
  | back =>
    simp only [Onward] at hle
    simp only [offsetBefore]
    omega
  | forward =>
    simp only [Onward] at hle
    simp only [offsetBefore]
    omega

/-! ### The display order of a chunk -/

theorem displayStream_onward (messages : List MessageOut) (direction : Direction) (p : Int) :
    (displayStream messages direction p).Pairwise fun x y =>
      Onward direction x.offset y.offset := by
  have hle := byOffset_pairwise (messages.filter (·.partition == p))
  cases direction with
  | back => exact List.pairwise_reverse.mpr hle
  | forward => exact hle

/-- No timestamp moves a message past another of its partition. -/
theorem chunkDisplayOrder_inOffsetOrder {messages : List MessageOut}
    (hkeys : (messages.map partitionKey).Nodup) (direction : Direction) :
    InOffsetOrder direction (chunkDisplayOrder messages direction) := by
  have hperm := (chunkDisplayOrder_perm messages direction).map partitionKey
  apply inOffsetOrder_of_onward (hperm.nodup_iff.mpr hkeys)
  apply merge_pairwise_same (displayStreams_keyed messages direction).apart
  intro s hs
  obtain ⟨p, -, rfl⟩ := List.mem_map.mp hs
  exact displayStream_onward messages direction p

/-- The display order is the one greedy list of the messages in offset order. -/
theorem eq_chunkDisplayOrder {messages ordered : List MessageOut} {direction : Direction}
    (hkeys : (messages.map partitionKey).Nodup) (hperm : ordered.Perm messages)
    (hgreedy : Greedy MessageOut.partition (displayPrefers direction) ordered)
    (horder : InOffsetOrder direction ordered) :
    ordered = chunkDisplayOrder messages direction :=
  hgreedy.eq_of_perm (offsetBefore_asymm direction) (chunkDisplayOrder_greedy messages direction)
    (hperm.trans (chunkDisplayOrder_perm messages direction).symm) horder
    (chunkDisplayOrder_inOffsetOrder hkeys direction)

/-! ### The rows of the store -/

/-- `parts` holds the messages by partition, every array in offset order. -/
structure Holds (parts : OrdMap Int (List MessageOut)) (messages : List MessageOut) : Prop where
  partition_eq : ∀ e ∈ parts.entries, ∀ m ∈ e.2, m.partition = e.1
  ascending : ∀ e ∈ parts.entries, Ascending MessageOut.offset e.2
  same : (parts.entries.flatMap Prod.snd).Perm messages

/-- `-Infinity` and `i64::MIN` are both before every exact timestamp. -/
theorem newerThan_eq_displayPrefers {x y : MessageOut} (hx : ExactTime x) (hy : ExactTime y) :
    newerThan x y = displayPrefers .back x y := by
  have hlow : ∀ {m : MessageOut} {ts : Int}, ExactTime m → m.timestampMs = some ts →
      i64Min < ts := by
    intro m ts hm hts
    have habs := neg_le_of_abs_le (hm ts hts)
    simp only [i64Min]
    omega
  unfold newerThan displayPrefers mergeTimestamp
  cases htx : x.timestampMs with
  | none =>
    cases hty : y.timestampMs with
    | none => simp
    | some ts' =>
      have hlt := hlow hy hty
      simp only [Option.getD_none, Option.getD_some]
      exact (decide_eq_false (not_lt_of_gt hlt)).symm
  | some ts =>
    cases hty : y.timestampMs with
    | none => simpa using hlow hx htx
    | some ts' => rfl

theorem Holds.keyed {parts : OrdMap Int (List MessageOut)} {messages : List MessageOut}
    (h : Holds parts messages) : Keyed MessageOut.partition
      ((parts.entries.insertionSort fun a b => a.1 ≤ b.1).map fun e => e.2.reverse) := by
  apply keyed_map Prod.fst (fun e => e.2.reverse) (sortedEntries_pairwise parts)
  intro e he x hx
  exact h.partition_eq e ((List.perm_insertionSort _ _).mem_iff.mp he) x (List.mem_reverse.mp hx)

/-- The store shows the messages in the order the engine sends them for `Back`. -/
theorem Holds.mergeRowsFrom_eq {parts : OrdMap Int (List MessageOut)}
    {messages : List MessageOut} (h : Holds parts messages)
    (hkeys : (messages.map partitionKey).Nodup) (hexact : ∀ m ∈ messages, ExactTime m) :
    mergeRowsFrom parts = chunkDisplayOrder messages .back := by
  have hperm : (mergeRowsFrom parts).Perm messages := (mergeRowsFrom_perm parts).trans h.same
  have hgreedy : Greedy MessageOut.partition newerThan (mergeRowsFrom parts) :=
    merge_greedy newerThan_strictWeak h.keyed
  apply eq_chunkDisplayOrder hkeys hperm
  · apply hgreedy.congr
    intro x hx y hy
    exact newerThan_eq_displayPrefers (hexact x (hperm.subset hx)) (hexact y (hperm.subset hy))
  · apply inOffsetOrder_of_onward ((hperm.map partitionKey).nodup_iff.mpr hkeys)
    apply merge_pairwise_same h.keyed.apart
    intro s hs
    obtain ⟨e, he, rfl⟩ := List.mem_map.mp hs
    have hasc := h.ascending e ((List.perm_insertionSort _ _).mem_iff.mp he)
    exact List.pairwise_reverse.mpr (hasc.imp fun hlt => le_of_lt hlt)

/-- A store holds the rows it merges. -/
theorem Store.Filed.holds {s : Store} (h : s.Filed) : Holds s.partitions s.mergeRows where
  partition_eq e he m hm := by
    apply h.partition_eq e.1 m
    rw [rowsAt, (OrdMap.mem_entries_iff _ _ _).mp he]
    exact hm
  ascending e he := by
    have hasc := h.ascending e.1
    rwa [rowsAt, (OrdMap.mem_entries_iff _ _ _).mp he] at hasc
  same := (Store.mergeRows_perm s).symm

/-- Rows with distinct keys are the rows held once they are inserted, in whatever order they
    arrive. -/
theorem insertRows_mergeRows_perm {arrived : List MessageOut}
    (hkeys : (arrived.map partitionKey).Nodup) (cap : Nat) :
    ((createSlidingWindowStore cap).insertRows arrived).1.mergeRows.Perm arrived := by
  have hspec := Store.insertRows_spec (createSlidingWindowStore_filed cap) arrived
  generalize ((createSlidingWindowStore cap).insertRows arrived).1 = s at hspec ⊢
  have hadded : ∀ p, ∀ m ∈ s.rowsOf p, m ∈ arrived := fun p m hm =>
    (hspec.added p m hm).resolve_left List.not_mem_nil
  apply (List.perm_ext_iff_of_nodup (Store.mergeRows_keys_nodup hspec.filed).of_map
    hkeys.of_map).mpr
  intro m
  rw [Store.mem_mergeRows hspec.filed]
  constructor
  · exact hadded m.partition m
  · intro hm
    obtain ⟨m', hm', hoff⟩ := hspec.has m hm
    have hpart := hspec.filed.partition_eq m.partition m' hm'
    obtain rfl : m' = m := List.inj_on_of_nodup_map hkeys (hadded _ m' hm') hm
      (Prod.ext hpart hoff)
    exact hm'

/-! ### The pops of a scan -/

theorem mem_of_partitionStreams {complete : List Int} {direction : Direction}
    {records : List RawRecord} {windows : List PartitionRange} {s : List RawRecord}
    (hs : s ∈ partitionStreams complete direction records windows) {r : RawRecord} (hr : r ∈ s) :
    r ∈ records := by
  obtain ⟨i, hi⟩ := List.mem_iff_getElem?.mp hs
  have hlt : i < windows.length := by
    have hlt := (List.getElem?_eq_some_iff.mp hi).1
    rwa [partitionStreams_length] at hlt
  exact (mem_partitionStreams (List.getElem?_eq_getElem hlt) hi hr).1

/-- The streams of a chunk are told apart by partition, also where two windows name one. -/
theorem partitionStreams_apart (complete : List Int) (direction : Direction)
    (records : List RawRecord) (windows : List PartitionRange) :
    Apart RawRecord.partition (partitionStreams complete direction records windows) := by
  induction windows generalizing records with
  | nil =>
    intro i j s t hs
    simp [partitionStreams] at hs
  | cons w windows ih =>
    apply Apart.cons (ih _)
    · intro r hr
      simpa using (List.mem_filter.mp (trustedStream_mem hr)).2
    · intro s hs r hr
      simpa using (List.mem_filter.mp (mem_of_partitionStreams hs hr)).2

theorem trustedStream_onward (complete : List Int) (direction : Direction) (w : PartitionRange)
    (fetched : List RawRecord) : (trustedStream complete direction w fetched).Pairwise fun x y =>
      Onward direction x.offset y.offset := by
  have hle := sortByOffset_pairwise fetched
  unfold trustedStream
  split
  · cases direction with
    | back => exact List.pairwise_reverse.mpr hle
    | forward => exact hle
  · exact List.Pairwise.nil

theorem partitionStreams_onward (complete : List Int) (direction : Direction)
    (records : List RawRecord) (windows : List PartitionRange) :
    ∀ s ∈ partitionStreams complete direction records windows,
      s.Pairwise fun x y => Onward direction x.offset y.offset := by
  induction windows generalizing records with
  | nil =>
    intro s hs
    cases hs
  | cons w windows ih =>
    intro s hs
    rcases List.mem_cons.mp hs with rfl | hs
    · exact trustedStream_onward complete direction w _
    · exact ih _ s hs

/-- `merge_prefers` is the display order's comparison with the tie rule written out. -/
theorem mergePrefers_iff_displayPrefers (decoder : Decoder) (direction : Direction)
    (x y : RawRecord) : mergePrefers direction x y = true ↔
      displayPrefers direction (toOneMessageOut decoder x) (toOneMessageOut decoder y) = true ∨
      (displayPrefers direction (toOneMessageOut decoder y) (toOneMessageOut decoder x) = false ∧
        x.partition < y.partition) := by
  cases direction with
  | back | forward =>
    simp only [mergePrefers, displayPrefers, decide_eq_true_eq, decide_eq_false_iff_not]
    simp only [toOneMessageOut_timestampMs]
    split
    · rename_i hne
      rw [decide_eq_true_eq]
      omega
    · rename_i heq
      rw [decide_eq_true_eq]
      omega

section Pops

variable (call : PageCall) (args : MergeChunkArgs) (outcome : FetchOutcome)
  (windows : List PartitionRange) (sent : List TimelineEvent)

/-- The merge of a chunk, from what its scan returned. -/
def mergeOfScan : ChunkTaken :=
  (mergeChunkRecords call args
    (selectPartitionStreams outcome windows call.req.direction).1 sent).1

/-- The messages of the popped records, in pop order. -/
def popOrder : List MessageOut :=
  (mergeOfScan call args outcome windows sent).popped.map (toOneMessageOut call.handle.decoder)

theorem mergeOfScan_inv : MergeInv call
    (partitionStreams outcome.complete call.req.direction outcome.records windows)
    (mergeOfScan call args outcome windows sent) :=
  mergeChunkRecords_inv call args _ sent

/-- Wherever the merge stops, what it popped is greedy. -/
theorem popOrder_greedy : Greedy MessageOut.partition (displayPrefers call.req.direction)
    (popOrder call args outcome windows sent) := by
  have hgreedy : Greedy RawRecord.partition (fun x y => displayPrefers call.req.direction
      (toOneMessageOut call.handle.decoder x) (toOneMessageOut call.handle.decoder y))
      (merge (mergePrefers call.req.direction)
        (partitionStreams outcome.complete call.req.direction outcome.records windows)) :=
    merge_greedy_of_ties (mergePrefers_strictWeak _)
      (mergePrefers_iff_displayPrefers call.handle.decoder call.req.direction)
      (partitionStreams_apart _ _ _ _)
  rw [(mergeOfScan_inv call args outcome windows sent).merged] at hgreedy
  exact Greedy.map (fun _ => rfl) (fun _ _ => rfl)
    (Greedy.of_append [] _ (by rwa [List.nil_append]))

theorem popOrder_onward : (popOrder call args outcome windows sent).Pairwise fun x y =>
    x.partition = y.partition → Onward call.req.direction x.offset y.offset := by
  have hmerged : (merge (mergePrefers call.req.direction) (partitionStreams outcome.complete
      call.req.direction outcome.records windows)).Pairwise fun x y =>
        x.partition = y.partition → Onward call.req.direction x.offset y.offset :=
    merge_pairwise_same (partitionStreams_apart _ _ _ _) (partitionStreams_onward _ _ _ _)
  rw [(mergeOfScan_inv call args outcome windows sent).merged] at hmerged
  exact List.pairwise_map.mpr (List.pairwise_append.mp hmerged).1

theorem matches_eq_popOrder (hfilter : call.req.filter = none) :
    (mergeOfScan call args outcome windows sent).matches_ =
      popOrder call args outcome windows sent := by
  rw [(mergeOfScan_inv call args outcome windows sent).kept, hfilter]
  exact List.filter_eq_self.mpr fun _ _ => rfl

theorem popOrder_eq {messages : List MessageOut} (hkeys : (messages.map partitionKey).Nodup)
    (hperm : (popOrder call args outcome windows sent).Perm messages) :
    popOrder call args outcome windows sent = chunkDisplayOrder messages call.req.direction :=
  eq_chunkDisplayOrder hkeys hperm (popOrder_greedy call args outcome windows sent)
    (inOffsetOrder_of_onward ((hperm.map partitionKey).nodup_iff.mpr hkeys)
      (popOrder_onward call args outcome windows sent))

end Pops

/-- The display order shows every message once and no partition out of offset order; it is
    the order of the store's rows, and of the pops of an unfiltered merge wherever that
    merge stopped. -/
theorem one_display_order {messages : List MessageOut}
    (hkeys : (messages.map partitionKey).Nodup) (hexact : ∀ m ∈ messages, ExactTime m) :
    (∀ direction, (chunkDisplayOrder messages direction).Perm messages ∧
      InOffsetOrder direction (chunkDisplayOrder messages direction)) ∧
    (∀ parts, Holds parts messages → mergeRowsFrom parts = chunkDisplayOrder messages .back) ∧
    (∀ arrived : List MessageOut, arrived.Perm messages → ∀ cap,
      ((createSlidingWindowStore cap).insertRows arrived).1.mergeRows =
        chunkDisplayOrder messages .back) ∧
    ∀ (call : PageCall) (args : MergeChunkArgs) (outcome : FetchOutcome)
      (windows : List PartitionRange) (sent : List TimelineEvent), call.req.filter = none →
      (popOrder call args outcome windows sent).Perm messages →
        popOrder call args outcome windows sent =
          chunkDisplayOrder messages call.req.direction ∧
        chunkDisplayOrder (mergeOfScan call args outcome windows sent).matches_
          call.req.direction = popOrder call args outcome windows sent := by
  refine ⟨?_, ?_, ?_, ?_⟩
  · intro direction
    exact ⟨chunkDisplayOrder_perm messages direction,
      chunkDisplayOrder_inOffsetOrder hkeys direction⟩
  · intro parts h
    exact h.mergeRowsFrom_eq hkeys hexact
  · intro arrived hperm cap
    have harrived := (hperm.map partitionKey).nodup_iff.mpr hkeys
    have hfiled := (Store.insertRows_spec (createSlidingWindowStore_filed cap) arrived).filed
    have hholds := hfiled.holds
    exact Holds.mergeRowsFrom_eq ⟨hholds.partition_eq, hholds.ascending,
      hholds.same.trans ((insertRows_mergeRows_perm harrived cap).trans hperm)⟩ hkeys hexact
  · intro call args outcome windows sent hfilter hperm
    refine ⟨popOrder_eq call args outcome windows sent hkeys hperm, ?_⟩
    rw [matches_eq_popOrder call args outcome windows sent hfilter]
    have hpopped := (hperm.map partitionKey).nodup_iff.mpr hkeys
    exact (popOrder_eq call args outcome windows sent hpopped (List.Perm.refl _)).symm

/-- Two rows of one time and one without a timestamp. -/
def tiedRows : List MessageOut :=
  [⟨0, 3, none, none, none, []⟩, ⟨1, 7, some 5, none, none, []⟩, ⟨0, 4, some 5, none, none, []⟩]

/-- Partition 1 was filed first. -/
def tiedParts : OrdMap Int (List MessageOut) :=
  (OrdMap.empty.set 1 [⟨1, 7, some 5, none, none, []⟩]).set 0
    [⟨0, 3, none, none, none, []⟩, ⟨0, 4, some 5, none, none, []⟩]

def tiedCall : PageCall where
  handle := .plain "tied"
  req := ⟨[(1, 8), (0, 5)], [(1, 6, 8), (0, 2, 5)], .back, 3, none, 100⟩
  scanChunk _ _ := .ok ⟨[], []⟩
  client := .connected

/-- Two more records than the limit lets the merge take. -/
def tiedOutcome : FetchOutcome where
  records := [⟨0, 2, some 1, none, none, []⟩, ⟨0, 3, none, none, none, []⟩,
    ⟨1, 6, none, none, none, []⟩, ⟨1, 7, some 5, none, none, []⟩, ⟨0, 4, some 5, none, none, []⟩]
  complete := [0, 1]

theorem tied_rows_one_order :
    mergeRowsFrom tiedParts = chunkDisplayOrder tiedRows .back ∧
      popOrder tiedCall ⟨0, 0⟩ tiedOutcome [⟨1, 6, 8⟩, ⟨0, 2, 5⟩] [] =
        chunkDisplayOrder tiedRows .back := by
  have hkeys : (tiedRows.map partitionKey).Nodup := by decide
  have hexact : ∀ m ∈ tiedRows, ExactTime m := by
    simp only [tiedRows, List.forall_mem_cons, ExactTime]
    simp
  have hholds : Holds tiedParts tiedRows := by
    refine ⟨by decide, ?_, by decide⟩
    unfold Ascending
    decide
  obtain ⟨-, hrows, -, hpops⟩ := one_display_order hkeys hexact
  refine ⟨hrows tiedParts hholds, ?_⟩
  exact (hpops tiedCall ⟨0, 0⟩ tiedOutcome [⟨1, 6, 8⟩, ⟨0, 2, 5⟩] [] rfl (by decide)).1

end Arne.Client
