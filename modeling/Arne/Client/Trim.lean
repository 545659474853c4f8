import Mathlib
import Arne.Client.StoreSpec

/-!
# What a trim leaves of the merged rows

The arrays are cut at the ends the merge is cut at, so the rows that stay are the stretch
of the merge that was not cut, in the same order.
-/

namespace Arne.Client

open Arne.Message Arne.Timeline Arne.SortedLog KWayMerge

/-! ### The order of the rows -/

/-- The time of a row; a row without one is older than all. -/
def timeOf (m : MessageOut) : WithBot Int :=
  match m.timestampMs with
  | some ts => ts
  | none => ⊥

theorem newerThan_iff (x y : MessageOut) :
    newerThan x y = true ↔ OrderDual.toDual (timeOf x) < OrderDual.toDual (timeOf y) := by
  rw [OrderDual.toDual_lt_toDual]
  unfold newerThan timeOf
  cases hx : x.timestampMs with
  | none => simp
  | some ts =>
    cases hy : y.timestampMs with
    | none => simp
    | some ts' => simp

theorem newerThan_strictWeak : StrictWeak newerThan :=
  strictWeak_of_key (fun m => OrderDual.toDual (timeOf m)) newerThan_iff

/-- The entries of a map by ascending key. -/
theorem sortedEntries_pairwise {ν : Type} (map : OrdMap Int ν) :
    (map.entries.insertionSort fun a b => a.1 ≤ b.1).Pairwise fun a b => a.1 < b.1 := by
  have hle : (map.entries.insertionSort fun a b => a.1 ≤ b.1).Pairwise fun a b => a.1 ≤ b.1 :=
    List.pairwise_insertionSort _ _
  have hnodup : ((map.entries.insertionSort fun a b => a.1 ≤ b.1).map Prod.fst).Nodup :=
    (((List.perm_insertionSort _ map.entries).map Prod.fst).nodup_iff).mpr map.nodup
  exact hle.imp₂ (fun _ _ hab hab' => lt_of_le_of_ne hab hab') (List.pairwise_map.mp hnodup)

/-- The arrays are listed by partition. -/
theorem Filed.keyed {partitions : OrdMap Int (List MessageOut)} {seen : List (Int × Int)}
    (h : Filed partitions seen) : Keyed MessageOut.partition
      ((partitions.entries.insertionSort fun a b => a.1 ≤ b.1).map fun e => e.2.reverse) := by
  apply keyed_map Prod.fst (fun e => e.2.reverse) (sortedEntries_pairwise partitions)
  intro e he x hx
  apply h.partition_eq e.1 x
  have hget : partitions.get? e.1 = some e.2 :=
    (OrdMap.mem_entries_iff _ _ _).mp ((List.perm_insertionSort _ _).mem_iff.mp he)
  simpa [rowsAt, hget] using hx

theorem Store.mergeRows_greedy {s : Store} (h : s.Filed) :
    Greedy MessageOut.partition newerThan s.mergeRows :=
  merge_greedy newerThan_strictWeak h.keyed

/-- The merge is the one greedy list with the rows held. -/
theorem Store.eq_mergeRows {s : Store} (h : s.Filed) {rows : List MessageOut}
    (hgreedy : Greedy MessageOut.partition newerThan rows)
    (hrows : ∀ p, rows.filter (fun m => decide (m.partition = p)) = (s.rowsOf p).reverse) :
    rows = s.mergeRows := by
  apply hgreedy.ext (Store.mergeRows_greedy h)
  intro p
  rw [Store.mergeRows_filter h]
  exact hrows p

/-- The merge depends on the arrays alone, not on the order they were first filed in. -/
theorem Store.mergeRows_congr {s s' : Store} (h : s.Filed) (h' : s'.Filed)
    (hrows : ∀ p, s.rowsOf p = s'.rowsOf p) : s.mergeRows = s'.mergeRows := by
  apply Store.eq_mergeRows h' (Store.mergeRows_greedy h)
  intro p
  rw [Store.mergeRows_filter h, hrows]

theorem mergeRowsFrom_perm (parts : OrdMap Int (List MessageOut)) :
    (mergeRowsFrom parts).Perm (parts.entries.flatMap Prod.snd) := by
  apply (merge_perm newerThan _).trans
  rw [List.flatMap_def]
  refine ((List.perm_insertionSort (fun a b : Int × List MessageOut => a.1 ≤ b.1)
    parts.entries).map fun e => e.2.reverse).flatten.trans ?_
  induction parts.entries with
  | nil => exact List.Perm.refl _
  | cons e entries ih => exact (List.reverse_perm _).append ih

theorem Store.mergeRows_perm (s : Store) :
    s.mergeRows.Perm (s.partitions.entries.flatMap Prod.snd) :=
  mergeRowsFrom_perm s.partitions

@[simp] theorem Store.length_mergeRows (s : Store) : s.mergeRows.length = s.totalCount := by
  rw [(Store.mergeRows_perm s).length_eq, List.length_flatMap]
  rfl

theorem Store.mem_mergeRows {s : Store} (h : s.Filed) {m : MessageOut} :
    m ∈ s.mergeRows ↔ m ∈ s.rowsOf m.partition := by
  have hmem : m ∈ s.mergeRows.filter (fun x => decide (x.partition = m.partition)) ↔
      m ∈ (s.rowsOf m.partition).reverse := by rw [Store.mergeRows_filter h]
  rw [List.mem_filter, decide_eq_true_eq, List.mem_reverse] at hmem
  rw [← hmem]
  exact (and_iff_left rfl).symm

/-- No two rows of the merge share a key. -/
theorem Store.mergeRows_keys_nodup {s : Store} (h : s.Filed) :
    (s.mergeRows.map partitionKey).Nodup := by
  refine List.pairwise_map.mpr (List.pairwise_iff_forall_sublist.mpr ?_)
  intro x y hxy heq
  have hpart : x.partition = y.partition := congrArg Prod.fst heq
  have hsub := hxy.filter fun m => decide (m.partition = y.partition)
  rw [Store.mergeRows_filter h] at hsub
  have hdesc : (s.rowsOf y.partition).reverse.Pairwise fun a b => b.offset < a.offset :=
    List.pairwise_reverse.mpr (h.ascending y.partition)
  have hlt : y.offset < x.offset := by
    have hpair := hdesc.sublist hsub
    simp only [List.filter_cons, hpart, decide_true, if_true, List.filter_nil] at hpair
    exact (List.pairwise_cons.mp hpair).1 y (by simp)
  exact absurd (congrArg Prod.snd heq) (ne_of_gt hlt)

/-! ### Cutting rows -/

/-- With the rows at the two ends of the merge removed, the merge is what stood between. -/
theorem Store.mergeRows_removeAll {s : Store} (h : s.Filed) (front back : List MessageOut)
    {keep gone : List MessageOut}
    (hsplit : s.mergeRows = front ++ keep ++ back)
    (hgone : ∀ m, m ∈ gone ↔ m ∈ front ∨ m ∈ back) :
    (gone.foldl Store.removeMessage s).mergeRows = keep := by
  have hgreedy : Greedy MessageOut.partition newerThan keep :=
    Greedy.of_append front back (hsplit ▸ Store.mergeRows_greedy h)
  have hkept : s.mergeRows.filter (fun m => decide (partitionKey m ∉ gone.map partitionKey)) =
      keep := by
    have hnodup := Store.mergeRows_keys_nodup h
    rw [hsplit, List.map_append, List.map_append, List.nodup_append, List.nodup_append] at hnodup
    obtain ⟨⟨-, -, hfk⟩, -, hfb⟩ := hnodup
    have hcut : ∀ m, m ∈ front ∨ m ∈ back → partitionKey m ∈ gone.map partitionKey := fun m hm =>
      List.mem_map_of_mem ((hgone m).mpr hm)
    rw [hsplit, List.filter_append, List.filter_append]
    have hfront : front.filter (fun m => decide (partitionKey m ∉ gone.map partitionKey)) = [] :=
      List.filter_eq_nil_iff.mpr fun m hm => by simpa using hcut m (Or.inl hm)
    have hback : back.filter (fun m => decide (partitionKey m ∉ gone.map partitionKey)) = [] :=
      List.filter_eq_nil_iff.mpr fun m hm => by simpa using hcut m (Or.inr hm)
    have hkeep : keep.filter (fun m => decide (partitionKey m ∉ gone.map partitionKey)) = keep := by
      apply List.filter_eq_self.mpr
      intro m hm
      rw [decide_eq_true_eq]
      intro hkey
      obtain ⟨g, hg, heq⟩ := List.mem_map.mp hkey
      rcases (hgone g).mp hg with hf | hb
      · exact hfk _ (List.mem_map_of_mem hf) _ (List.mem_map_of_mem hm) heq
      · exact hfb _ (List.mem_append_right _ (List.mem_map_of_mem hm)) _ (List.mem_map_of_mem hb)
          heq.symm
    rw [hfront, hkeep, hback, List.nil_append, List.append_nil]
  symm
  apply Store.eq_mergeRows (Store.removeAll_filed h gone) hgreedy
  intro p
  rw [Store.rowsOf_removeAll h, ← List.filter_reverse, ← Store.mergeRows_filter h, ← hkept,
    List.filter_filter, List.filter_filter]
  refine List.filter_congr fun m _ => Bool.and_comm _ _

/-- The rows after `enforceCap`: of the rows before, newest first, as many gone from the
    front as were trimmed on top, and from the back as were trimmed below. -/
theorem Store.mergeRows_enforceCap {s : Store} (h : s.Filed) (kind : CapKind) :
    (s.enforceCap kind).1.mergeRows =
      (s.mergeRows.drop (s.enforceCap kind).2.trimmedTop).take
        (s.mergeRows.length - (s.enforceCap kind).2.trimmedTop -
          (s.enforceCap kind).2.trimmedBottom) := by
  have hstep := Store.enforceCap_step s kind
  generalize s.enforceCap kind = after at hstep ⊢
  cases hstep with
  | room => simp only [List.drop_zero, Nat.sub_zero, List.take_length]
  | newestGone =>
    show ((s.mergeRows.take (s.totalCount - s.cap)).foldl Store.removeMessage s).mergeRows = _
    rw [Nat.sub_zero, ← List.length_drop, List.take_length]
    apply Store.mergeRows_removeAll h (s.mergeRows.take (s.totalCount - s.cap)) []
    · rw [List.append_nil, List.take_append_drop]
    · simp
  | oldestGone =>
    show ((s.mergeRows.reverse.take (s.totalCount - s.cap)).foldl
      Store.removeMessage s).mergeRows = _
    rw [List.drop_zero, Nat.sub_zero]
    apply Store.mergeRows_removeAll h []
      (s.mergeRows.drop (s.mergeRows.length - (s.totalCount - s.cap)))
    · rw [List.nil_append, List.take_append_drop]
    · intro m
      rw [List.take_reverse, List.mem_reverse]
      simp

/-- What is over the cap goes, and the counts of the outcome say how much. -/
theorem Store.totalCount_enforceCap {s : Store} (h : s.Filed) (kind : CapKind) :
    (s.enforceCap kind).1.totalCount + (s.enforceCap kind).2.trimmedTop +
        (s.enforceCap kind).2.trimmedBottom = s.totalCount ∧
      (s.enforceCap kind).1.totalCount ≤ s.cap := by
  have hcount : (s.enforceCap kind).1.totalCount = s.totalCount -
      (s.enforceCap kind).2.trimmedTop - (s.enforceCap kind).2.trimmedBottom := by
    rw [← Store.length_mergeRows, Store.mergeRows_enforceCap h, List.length_take, List.length_drop,
      Store.length_mergeRows]
    omega
  have hgone : (s.enforceCap kind).2.trimmedTop + (s.enforceCap kind).2.trimmedBottom =
      s.totalCount - s.cap := by
    have hstep := Store.enforceCap_step s kind
    generalize s.enforceCap kind = after at hstep ⊢
    cases hstep with
    | room hroom => exact (Nat.sub_eq_zero_of_le hroom).symm
    | newestGone => rfl
    | oldestGone => exact Nat.zero_add _
  omega

end Arne.Client
