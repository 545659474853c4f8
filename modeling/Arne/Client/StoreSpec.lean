import Arne.Client.Store
import Arne.Lib.SortedLog
import Arne.Lib.Stretch

/-!
# What the store operations do to one partition

Each operation of the store, told partition by partition: which rows it adds, which it
loses, and where it leaves the two edges.
-/

namespace Arne.Client

open Arne.Message Arne.Timeline Arne.SortedLog

/-! ### Held rows -/

def rowsAt (partitions : OrdMap Int (List MessageOut)) (p : Int) : List MessageOut :=
  (partitions.get? p).getD []

def Store.rowsOf (s : Store) (p : Int) : List MessageOut := rowsAt s.partitions p

/-- Every array is sorted by offset, holds rows of its own partition and is not empty,
    and `seen` has the keys of the rows held. -/
structure Filed (partitions : OrdMap Int (List MessageOut)) (seen : List (Int × Int)) : Prop where
  ascending : ∀ p, Ascending MessageOut.offset (rowsAt partitions p)
  partition_eq : ∀ p, ∀ m ∈ rowsAt partitions p, m.partition = p
  nonempty : ∀ p arr, partitions.get? p = some arr → arr ≠ []
  seen_iff : ∀ k, k ∈ seen ↔ ∃ m ∈ rowsAt partitions k.1, m.offset = k.2

def Store.Filed (s : Store) : Prop := Client.Filed s.partitions s.seen

theorem createSlidingWindowStore_filed (cap : Nat) : (createSlidingWindowStore cap).Filed where
  ascending _ := List.Pairwise.nil
  partition_eq _ _ h := by cases h
  nonempty _ _ h := by cases h
  seen_iff _ := by
    constructor
    · intro h; cases h
    · rintro ⟨_, h, -⟩; cases h

theorem rowsAt_set (partitions : OrdMap Int (List MessageOut)) (p : Int) (arr : List MessageOut)
    (q : Int) : rowsAt (partitions.set p arr) q = if q = p then arr else rowsAt partitions q := by
  simp only [rowsAt, OrdMap.get?_set]
  split <;> rfl

theorem rowsAt_erase (partitions : OrdMap Int (List MessageOut)) (p q : Int) :
    rowsAt (partitions.erase p) q = if q = p then [] else rowsAt partitions q := by
  simp only [rowsAt, OrdMap.get?_erase]
  split <;> rfl

/-- Rows of one partition are told apart by their offset. -/
theorem Filed.eq_of_offset {partitions : OrdMap Int (List MessageOut)} {seen : List (Int × Int)}
    (h : Filed partitions seen) {p : Int} {m m' : MessageOut} (hm : m ∈ rowsAt partitions p)
    (hm' : m' ∈ rowsAt partitions p) (heq : m.offset = m'.offset) : m = m' :=
  (h.ascending p).eq_of_key hm hm' heq

/-! ### Inserting rows -/

/-- The offsets held of a partition. -/
def offsetsAt (partitions : OrdMap Int (List MessageOut)) (p : Int) : Set Int :=
  {o | ∃ m ∈ rowsAt partitions p, m.offset = o}

/-- The offsets of a partition that were not held before and are now. -/
def newAt (before after : OrdMap Int (List MessageOut)) (p : Int) : Set Int :=
  {o | o ∈ offsetsAt after p ∧ o ∉ offsetsAt before p}

/-- The loop of `insertRows` after the rows `done`. -/
structure InsertedSince (before : OrdMap Int (List MessageOut)) (done : List MessageOut)
    (acc : Inserting) : Prop where
  filed : Filed acc.partitions acc.seen
  kept : ∀ p, ∀ m ∈ rowsAt before p, m ∈ rowsAt acc.partitions p
  added : ∀ p, ∀ m ∈ rowsAt acc.partitions p, m ∈ rowsAt before p ∨ m ∈ done
  has : ∀ m ∈ done, ∃ m' ∈ rowsAt acc.partitions m.partition, m'.offset = m.offset
  least : ∀ p, LeastOf (newAt before acc.partitions p) (acc.insertedMin.get? p)
  greatest : ∀ p, GreatestOf (newAt before acc.partitions p) (acc.insertedMax.get? p)

theorem get?_lowerTo (map : OrdMap Int Int) (e : Int × Int) (p : Int) :
    (lowerTo map e).get? p =
      if p = e.1 then some ((map.get? p).elim e.2 (min · e.2)) else map.get? p := by
  rw [lowerTo, OrdMap.get?_set]
  split
  · rename_i h; rw [h]
  · rfl

theorem get?_raiseTo (map : OrdMap Int Int) (e : Int × Int) (p : Int) :
    (raiseTo map e).get? p =
      if p = e.1 then some ((map.get? p).elim e.2 (max · e.2)) else map.get? p := by
  rw [raiseTo, OrdMap.get?_set]
  split
  · rename_i h; rw [h]
  · rfl

theorem get?_seed (map : OrdMap Int Int) (e : Int × Int) (p : Int) :
    (seed map e).get? p = if p = e.1 then some ((map.get? p).getD e.2) else map.get? p := by
  unfold seed
  by_cases hhas : map.has e.1 = true
  · obtain ⟨v, hv⟩ := (OrdMap.has_iff _ _).mp hhas
    rw [if_pos hhas]
    split
    · rename_i h; rw [h, hv]; rfl
    · rfl
  · have hnone : map.get? e.1 = none := by
      cases h : map.get? e.1 with
      | none => rfl
      | some v => exact absurd ((OrdMap.has_iff _ _).mpr ⟨v, h⟩) hhas
    rw [if_neg hhas, OrdMap.get?_set]
    split
    · rename_i h; rw [h, hnone]; rfl
    · rfl

/-- Filing a row with a new key. -/
theorem Filed.insert {partitions : OrdMap Int (List MessageOut)} {seen : List (Int × Int)}
    (h : Filed partitions seen) {msg : MessageOut} (hnew : partitionKey msg ∉ seen) :
    Filed (partitions.set msg.partition
      (Bisect.insert MessageOut.offset (rowsAt partitions msg.partition) msg))
      (seen ++ [partitionKey msg]) ∧
    ∀ p m, m ∈ rowsAt (partitions.set msg.partition
        (Bisect.insert MessageOut.offset (rowsAt partitions msg.partition) msg)) p ↔
      m ∈ rowsAt partitions p ∨ (p = msg.partition ∧ m = msg) := by
  have hfresh : ∀ m ∈ rowsAt partitions msg.partition, m.offset ≠ msg.offset := fun m hm heq =>
    hnew ((h.seen_iff _).mpr ⟨m, hm, heq⟩)
  have hmem : ∀ p m, m ∈ rowsAt (partitions.set msg.partition
      (Bisect.insert MessageOut.offset (rowsAt partitions msg.partition) msg)) p ↔
        m ∈ rowsAt partitions p ∨ (p = msg.partition ∧ m = msg) := by
    intro p m
    rw [rowsAt_set]
    split
    · rename_i hp
      subst hp
      rw [(Bisect.insert_perm msg).mem_iff, List.mem_cons]
      simp [or_comm]
    · rename_i hp
      simp [hp]
  refine ⟨⟨fun p => ?_, fun p m hm => ?_, fun p arr hget => ?_, fun k => ?_⟩, hmem⟩
  · rw [rowsAt_set]
    split
    · exact Bisect.insert_pairwise (h.ascending _) msg hfresh
    · exact h.ascending p
  · rcases (hmem p m).mp hm with hm | ⟨rfl, rfl⟩
    · exact h.partition_eq p m hm
    · rfl
  · rw [OrdMap.get?_set] at hget
    split at hget
    · obtain rfl := Option.some.inj hget
      intro hnil
      have hperm : (Bisect.insert MessageOut.offset (rowsAt partitions msg.partition) msg).Perm
          (msg :: rowsAt partitions msg.partition) := Bisect.insert_perm msg
      have := hperm.length_eq
      rw [hnil] at this
      simp at this
    · exact h.nonempty p arr hget
  · rw [List.mem_append, h.seen_iff, List.mem_singleton]
    constructor
    · rintro (⟨m, hm, heq⟩ | rfl)
      · exact ⟨m, (hmem _ _).mpr (Or.inl hm), heq⟩
      · exact ⟨msg, (hmem _ _).mpr (Or.inr ⟨rfl, rfl⟩), rfl⟩
    · rintro ⟨m, hm, heq⟩
      rcases (hmem _ _).mp hm with hm | ⟨hp, rfl⟩
      · exact Or.inl ⟨m, hm, heq⟩
      · exact Or.inr (Prod.ext hp heq.symm)

/-- An offset that comes in is new where it comes in, if it was not held at the start. -/
theorem mem_newAt_same {before partitions after : OrdMap Int (List MessageOut)} {q x : Int}
    (hoff : ∀ p o, o ∈ offsetsAt after p ↔ o ∈ offsetsAt partitions p ∨ (p = q ∧ o = x))
    (hfresh : x ∉ offsetsAt before q) (o : Int) :
    o ∈ newAt before after q ↔ o ∈ newAt before partitions q ∨ o = x := by
  simp only [newAt, Set.mem_ofPred_eq, hoff, true_and]
  constructor
  · rintro ⟨hold | rfl, hnot⟩
    · exact Or.inl ⟨hold, hnot⟩
    · exact Or.inr rfl
  · rintro (⟨hold, hnot⟩ | rfl)
    · exact ⟨Or.inl hold, hnot⟩
    · exact ⟨Or.inr rfl, hfresh⟩

theorem newAt_other {before partitions after : OrdMap Int (List MessageOut)} {q x : Int}
    (hoff : ∀ p o, o ∈ offsetsAt after p ↔ o ∈ offsetsAt partitions p ∨ (p = q ∧ o = x))
    {p : Int} (hp : p ≠ q) : newAt before after p = newAt before partitions p := by
  ext o
  simp [newAt, hoff, hp]

theorem InsertedSince.step {before : OrdMap Int (List MessageOut)} {done : List MessageOut}
    {acc : Inserting} (h : InsertedSince before done acc) (msg : MessageOut) :
    InsertedSince before (done ++ [msg]) (acc.insertRow msg) := by
  unfold Inserting.insertRow
  split
  · -- a key held already: the row is dropped
    rename_i hseen
    refine ⟨h.filed, h.kept, ?_, ?_, h.least, h.greatest⟩
    · intro p m hm
      exact (h.added p m hm).imp_right (List.mem_append_left _)
    · intro m hm
      rcases List.mem_append.mp hm with hm | hm
      · exact h.has m hm
      · obtain rfl := List.mem_singleton.mp hm
        exact (h.filed.seen_iff _).mp hseen
  · rename_i hseen
    obtain ⟨hfiled, hmem⟩ := h.filed.insert hseen
    have hoff : ∀ p o, o ∈ offsetsAt (acc.partitions.set msg.partition
        (Bisect.insert MessageOut.offset (rowsAt acc.partitions msg.partition) msg)) p ↔
          o ∈ offsetsAt acc.partitions p ∨ (p = msg.partition ∧ o = msg.offset) := by
      intro p o
      constructor
      · rintro ⟨m, hm, rfl⟩
        exact ((hmem p m).mp hm).imp (fun hm => ⟨m, hm, rfl⟩) fun hm => ⟨hm.1, by rw [hm.2]⟩
      · rintro (⟨m, hm, rfl⟩ | ⟨rfl, rfl⟩)
        · exact ⟨m, (hmem p m).mpr (Or.inl hm), rfl⟩
        · exact ⟨msg, (hmem _ msg).mpr (Or.inr ⟨rfl, rfl⟩), rfl⟩
    have hfresh : msg.offset ∉ offsetsAt before msg.partition := by
      rintro ⟨m, hm, heq⟩
      exact hseen ((h.filed.seen_iff _).mpr ⟨m, h.kept _ m hm, heq⟩)
    refine ⟨hfiled, fun p m hm => (hmem p m).mpr (Or.inl (h.kept p m hm)), ?_, ?_, ?_, ?_⟩
    · intro p m hm
      rcases (hmem p m).mp hm with hm | ⟨-, rfl⟩
      · exact (h.added p m hm).imp_right (List.mem_append_left _)
      · exact Or.inr (List.mem_append_right _ List.mem_cons_self)
    · intro m hm
      rcases List.mem_append.mp hm with hm | hm
      · obtain ⟨m', hm', heq⟩ := h.has m hm
        exact ⟨m', (hmem _ _).mpr (Or.inl hm'), heq⟩
      · obtain rfl := List.mem_singleton.mp hm
        exact ⟨m, (hmem _ _).mpr (Or.inr ⟨rfl, rfl⟩), rfl⟩
    · intro p
      rw [get?_lowerTo]
      split
      · rename_i hp
        subst hp
        exact (h.least _).insert (mem_newAt_same hoff hfresh)
      · rename_i hp
        exact newAt_other hoff hp ▸ h.least p
    · intro p
      rw [get?_raiseTo]
      split
      · rename_i hp
        subst hp
        exact (h.greatest _).insert (mem_newAt_same hoff hfresh)
      · rename_i hp
        exact newAt_other hoff hp ▸ h.greatest p

theorem InsertedSince.rows {before : OrdMap Int (List MessageOut)} {done : List MessageOut}
    {acc : Inserting} (h : InsertedSince before done acc) (rows : List MessageOut) :
    InsertedSince before (done ++ rows) (rows.foldl Inserting.insertRow acc) := by
  induction rows generalizing done acc with
  | nil => rwa [List.append_nil]
  | cons msg rows ih =>
    have hstep := ih (h.step msg)
    rwa [List.append_assoc, List.singleton_append] at hstep

theorem Store.inserting_since {s : Store} (h : s.Filed) :
    InsertedSince s.partitions [] s.inserting where
  filed := h
  kept _ _ hm := hm
  added _ _ hm := Or.inl hm
  has _ hm := by cases hm
  least _ _ ho := ho.2 ho.1
  greatest _ _ ho := ho.2 ho.1

/-- `insertRows`, seen from outside. -/
structure RowsInserted (s s' : Store) (rows : List MessageOut) (least greatest : Int → Option Int) :
    Prop where
  filed : s'.Filed
  kept : ∀ p, ∀ m ∈ s.rowsOf p, m ∈ s'.rowsOf p
  added : ∀ p, ∀ m ∈ s'.rowsOf p, m ∈ s.rowsOf p ∨ m ∈ rows
  has : ∀ m ∈ rows, ∃ m' ∈ s'.rowsOf m.partition, m'.offset = m.offset
  least_new : ∀ p, LeastOf (newAt s.partitions s'.partitions p) (least p)
  greatest_new : ∀ p, GreatestOf (newAt s.partitions s'.partitions p) (greatest p)

theorem Store.insertRows_spec {s : Store} (h : s.Filed) (rows : List MessageOut) :
    RowsInserted s (s.insertRows rows).1 rows (s.insertRows rows).2.1.get?
      (s.insertRows rows).2.2.get? := by
  have hall := (Store.inserting_since h).rows rows
  exact ⟨hall.filed, hall.kept, hall.added, hall.has, hall.least, hall.greatest⟩

/-! ### Removing rows -/

theorem spliceOut_eq_filter {arr : List MessageOut} (hs : Ascending MessageOut.offset arr)
    (o : Int) : spliceOut arr o = arr.filter fun m => decide (m.offset ≠ o) := by
  unfold spliceOut
  cases hfind : Bisect.findIndex MessageOut.offset arr o with
  | none =>
    refine (List.filter_eq_self.mpr fun m hm => ?_).symm
    by_contra heq
    obtain rfl : m.offset = o := by simpa using heq
    obtain ⟨i, hi, -⟩ := Bisect.findIndex_eq_some hs hm
    rw [hfind] at hi
    cases hi
  | some idx =>
    simp only [Bisect.findIndex] at hfind
    split at hfind
    · rename_i a ha
      split at hfind
      · rename_i heq
        subst heq
        cases hfind
        exact Bisect.eraseIdx_of_getElem? hs ha
      · cases hfind
    · cases hfind

theorem Store.rowsOf_removeMessage {s : Store} (h : s.Filed) (msg : MessageOut) (p : Int) :
    (s.removeMessage msg).rowsOf p =
      (s.rowsOf p).filter fun m => decide (partitionKey m ≠ partitionKey msg) := by
  have hother : ∀ q, q ≠ msg.partition → (s.rowsOf q).filter
      (fun m => decide (partitionKey m ≠ partitionKey msg)) = s.rowsOf q := by
    intro q hq
    apply List.filter_eq_self.mpr
    intro m hm
    simp only [ne_eq, decide_eq_true_eq, partitionKey, Prod.mk.injEq, not_and]
    intro heq
    exact absurd ((h.partition_eq q m hm).symm.trans heq) hq
  unfold Store.removeMessage
  cases hget : s.partitions.get? msg.partition with
  | none =>
    by_cases hp : p = msg.partition
    · subst hp
      have hnil : s.rowsOf msg.partition = [] := by simp [Store.rowsOf, rowsAt, hget]
      rw [hnil, List.filter_nil]
    · exact (hother p hp).symm
  | some arr =>
    have harr : rowsAt s.partitions msg.partition = arr := by simp [rowsAt, hget]
    by_cases hp : p = msg.partition
    · subst hp
      have hfilter : ((s.rowsOf msg.partition).filter
          fun m => decide (partitionKey m ≠ partitionKey msg)) = spliceOut arr msg.offset := by
        rw [spliceOut_eq_filter (harr ▸ h.ascending msg.partition), ← harr]
        apply List.filter_congr
        intro m hm
        have hm' := h.partition_eq msg.partition m hm
        simp [partitionKey, hm']
      rw [hfilter]
      simp only [Store.rowsOf]
      split
      · rename_i hempty
        rw [rowsAt_erase, if_pos rfl]
        exact (List.isEmpty_iff.mp hempty).symm
      · rw [rowsAt_set, if_pos rfl]
    · rw [hother p hp]
      simp only [Store.rowsOf]
      split
      · rw [rowsAt_erase, if_neg hp]
      · rw [rowsAt_set, if_neg hp]

theorem Store.removeMessage_filed {s : Store} (h : s.Filed) (msg : MessageOut) :
    (s.removeMessage msg).Filed := by
  have hrows := Store.rowsOf_removeMessage h msg
  refine ⟨?_, ?_, ?_, ?_⟩
  · intro p
    show Ascending _ ((s.removeMessage msg).rowsOf p)
    rw [hrows]
    exact (h.ascending p).filter _
  · intro p m hm
    have hm : m ∈ (s.removeMessage msg).rowsOf p := hm
    rw [hrows] at hm
    exact h.partition_eq p m (List.mem_filter.mp hm).1
  · unfold Store.removeMessage
    split
    · exact h.nonempty
    · intro p arr hget
      simp only at hget
      split at hget
      · rw [OrdMap.get?_erase] at hget
        split at hget
        · cases hget
        · exact h.nonempty p arr hget
      · rename_i hne
        rw [OrdMap.get?_set] at hget
        split at hget
        · obtain rfl := Option.some.inj hget
          exact fun hnil => hne (List.isEmpty_iff.mpr hnil)
        · exact h.nonempty p arr hget
  · intro k
    have hkey : (∃ m ∈ rowsAt (s.removeMessage msg).partitions k.1, m.offset = k.2) ↔
        (∃ m ∈ rowsAt s.partitions k.1, m.offset = k.2) ∧ k ≠ partitionKey msg := by
      show (∃ m ∈ (s.removeMessage msg).rowsOf k.1, m.offset = k.2) ↔ _
      rw [hrows]
      simp only [List.mem_filter, decide_eq_true_eq]
      constructor
      · rintro ⟨m, ⟨hm, hne⟩, heq⟩
        refine ⟨⟨m, hm, heq⟩, fun hk => hne ?_⟩
        rw [← hk]
        exact Prod.ext (h.partition_eq _ m hm) heq
      · rintro ⟨⟨m, hm, heq⟩, hne⟩
        refine ⟨m, ⟨hm, fun hk => hne ?_⟩, heq⟩
        rw [← hk]
        exact Prod.ext (h.partition_eq _ m hm).symm heq.symm
    rw [hkey, ← h.seen_iff]
    unfold Store.removeMessage
    split
    · rename_i hget
      -- nothing is held of this partition, so its key is not seen
      refine ⟨fun hk => ⟨hk, ?_⟩, fun hk => hk.1⟩
      rintro rfl
      obtain ⟨m, hm, -⟩ := (h.seen_iff _).mp hk
      simp [rowsAt, partitionKey, hget] at hm
    · simp

theorem Store.removeAll_filed {s : Store} (h : s.Filed) (gone : List MessageOut) :
    (gone.foldl Store.removeMessage s).Filed := by
  induction gone generalizing s with
  | nil => exact h
  | cons msg gone ih => exact ih (Store.removeMessage_filed h msg)

theorem Store.rowsOf_removeAll {s : Store} (h : s.Filed) (gone : List MessageOut) (p : Int) :
    (gone.foldl Store.removeMessage s).rowsOf p =
      (s.rowsOf p).filter fun m => decide (partitionKey m ∉ gone.map partitionKey) := by
  induction gone generalizing s with
  | nil => simp
  | cons msg gone ih =>
    rw [List.foldl_cons, ih (Store.removeMessage_filed h msg), Store.rowsOf_removeMessage h,
      List.filter_filter]
    apply List.filter_congr
    intro m _
    simp only [List.map_cons, List.mem_cons, not_or, Bool.decide_and, ne_eq, Bool.and_comm]

/-- What removing rows leaves alone. -/
structure SameEdges (s s' : Store) : Prop where
  cap : s'.cap = s.cap
  bottomMap : s'.bottomMap = s.bottomMap
  topMap : s'.topMap = s.topMap
  attached : s'.attached = s.attached
  topCompletenessMatters : s'.topCompletenessMatters = s.topCompletenessMatters

theorem Store.removeAll_same (s : Store) (gone : List MessageOut) :
    SameEdges s (gone.foldl Store.removeMessage s) := by
  induction gone generalizing s with
  | nil => exact ⟨rfl, rfl, rfl, rfl, rfl⟩
  | cons msg gone ih =>
    have hstep : SameEdges s (s.removeMessage msg) := by
      unfold Store.removeMessage
      split <;> exact ⟨rfl, rfl, rfl, rfl, rfl⟩
    have hrest := ih (s.removeMessage msg)
    exact ⟨hrest.cap.trans hstep.cap, hrest.bottomMap.trans hstep.bottomMap,
      hrest.topMap.trans hstep.topMap, hrest.attached.trans hstep.attached,
      hrest.topCompletenessMatters.trans hstep.topCompletenessMatters⟩

/-! ### The merged rows, partition by partition -/

/-- The merge serves the rows of a partition newest first. -/
theorem Store.mergeRows_filter {s : Store} (h : s.Filed) (p : Int) :
    s.mergeRows.filter (fun m => decide (m.partition = p)) = (s.rowsOf p).reverse := by
  set entries := s.partitions.entries.insertionSort fun a b => a.1 ≤ b.1 with hentries
  have hmem : ∀ e, e ∈ entries ↔ s.partitions.get? e.1 = some e.2 := by
    intro e
    rw [hentries, (List.perm_insertionSort _ _).mem_iff]
    exact OrdMap.mem_entries_iff _ e.1 e.2
  have hnodup : (entries.map Prod.fst).Nodup :=
    (((List.perm_insertionSort _ s.partitions.entries).map Prod.fst).nodup_iff).mpr
      s.partitions.nodup
  have hpart : ∀ (i : Nat) (stream : List MessageOut),
      (entries.map fun e => e.2.reverse)[i]? = some stream → ∀ m ∈ stream,
        ∃ e, entries[i]? = some e ∧ m.partition = e.1 := by
    intro i stream hi m hm
    rw [List.getElem?_map] at hi
    obtain ⟨e, he, rfl⟩ := Option.map_eq_some_iff.mp hi
    refine ⟨e, he, h.partition_eq e.1 m ?_⟩
    have hget := (hmem e).mp (List.mem_of_getElem? he)
    simpa [rowsAt, hget] using hm
  show (KWayMerge.merge newerThan (entries.map fun e => e.2.reverse)).filter _ = _
  cases hget : s.partitions.get? p with
  | none =>
    -- no stream is of this partition
    have hnone : ∀ (i : Nat) (e : Int × List MessageOut), entries[i]? = some e → e.1 ≠ p := by
      rintro i e he rfl
      have := (hmem e).mp (List.mem_of_getElem? he)
      rw [hget] at this
      cases this
    rw [KWayMerge.merge_filter _ _ entries.length]
    · simp [Store.rowsOf, rowsAt, hget]
    · intro i stream hi m hm
      obtain ⟨e, he, hp⟩ := hpart i stream hi m hm
      have hlt : i < entries.length := (List.getElem?_eq_some_iff.mp he).1
      simp only [hp, hnone i e he, decide_false, Bool.false_eq_true, false_iff]
      omega
  | some arr =>
    obtain ⟨j, hj⟩ := List.mem_iff_getElem?.mp ((hmem (p, arr)).mpr hget)
    rw [KWayMerge.merge_filter _ _ j]
    · simp [Store.rowsOf, rowsAt, hget, List.getElem?_map, hj]
    · intro i stream hi m hm
      obtain ⟨e, he, hp⟩ := hpart i stream hi m hm
      rw [hp, decide_eq_true_eq]
      constructor
      · rintro rfl
        have hfst : (entries.map Prod.fst)[i]? = (entries.map Prod.fst)[j]? := by
          rw [List.getElem?_map, List.getElem?_map, he, hj]
          rfl
        have hlt : i < (entries.map Prod.fst).length := by
          simpa using (List.getElem?_eq_some_iff.mp he).1
        exact (List.getElem?_inj hlt hnodup).mp hfst
      · rintro rfl
        rw [he] at hj
        cases hj
        rfl

/-! ### The cap -/

theorem get?_recordTrims (gone : List MessageOut) (trimmed : OrdMap Int (List Int)) (p : Int) :
    (gone.foldl recordTrim trimmed).get? p =
      if (gone.filter fun m => decide (m.partition = p)) = [] then trimmed.get? p
      else some ((trimmed.get? p).getD [] ++
        (gone.filter fun m => decide (m.partition = p)).map MessageOut.offset) := by
  induction gone generalizing trimmed with
  | nil => rfl
  | cons msg gone ih =>
    rw [List.foldl_cons, ih]
    by_cases hp : msg.partition = p
    · subst hp
      simp only [recordTrim, OrdMap.get?_set_self, Option.getD_some, List.append_assoc]
      rw [List.filter_cons_of_pos (by simp)]
      split
      · rename_i hnil
        simp [hnil]
      · simp
    · rw [List.filter_cons_of_neg (by simpa using hp)]
      simp only [recordTrim, OrdMap.get?_set_ne _ _ (Ne.symm hp)]

theorem get?_setTrimmed (map : OrdMap Int Int) (trimmed : OrdMap Int (List Int))
    (of : List Int → Option Int) (p : Int) :
    (setTrimmed map trimmed of).get? p = ((trimmed.get? p).bind of).or (map.get? p) := by
  rw [setTrimmed, OrdMap.get?_setAll,
    OrdMap.lastFor_filterMap (fun _ offsets => of offsets) _ trimmed.nodup, OrdMap.lastFor_entries]

theorem lastFor_backfill (trimmed : OrdMap Int (List Int))
    (partitions : OrdMap Int (List MessageOut)) (p : Int) :
    OrdMap.lastFor p (backfill trimmed partitions) =
      if trimmed.has p then none
      else (rowsAt partitions p).getLast?.map fun last => last.offset + 1 := by
  have hform : backfill trimmed partitions = partitions.entries.filterMap fun e =>
      (if trimmed.has e.1 then none
        else e.2.getLast?.map fun last => last.offset + 1).map fun v => (e.1, v) := by
    apply List.filterMap_congr
    intro e _
    split
    · rfl
    · rw [Option.map_map]
      rfl
  rw [hform, OrdMap.lastFor_filterMap (fun q (arr : List MessageOut) => if trimmed.has q then none
    else arr.getLast?.map fun last => last.offset + 1) _ partitions.nodup, OrdMap.lastFor_entries]
  cases hget : partitions.get? p with
  | none => simp [rowsAt, hget]
  | some arr => simp [rowsAt, hget]

/-- Removing rows that are an end of a partition's array leaves the rest of it. -/
theorem Store.removeAll_split {s : Store} (h : s.Filed) {gone : List MessageOut} {p : Int}
    (front back : List MessageOut) {keep : List MessageOut}
    (hrows : s.rowsOf p = front ++ keep ++ back)
    (hgone : ∀ m, m ∈ gone.filter (fun m => decide (m.partition = p)) ↔ m ∈ front ∨ m ∈ back) :
    (gone.foldl Store.removeMessage s).rowsOf p = keep := by
  have hnodup : (front ++ keep ++ back).Nodup := hrows ▸ (h.ascending p).nodup
  have hkeys : ∀ m ∈ s.rowsOf p,
      (partitionKey m ∈ gone.map partitionKey ↔ m ∈ front ∨ m ∈ back) := by
    intro m hm
    rw [← hgone]
    constructor
    · intro hkey
      obtain ⟨g, hg, heq⟩ := List.mem_map.mp hkey
      have hpart : g.partition = p := (congrArg Prod.fst heq).trans (h.partition_eq p m hm)
      have hgp : g ∈ gone.filter fun m => decide (m.partition = p) :=
        List.mem_filter.mpr ⟨hg, by simpa using hpart⟩
      have hgrows : g ∈ s.rowsOf p := by
        rw [hrows]
        rcases (hgone g).mp hgp with hf | hb
        · exact List.mem_append_left _ (List.mem_append_left _ hf)
        · exact List.mem_append_right _ hb
      obtain rfl : g = m := h.eq_of_offset hgrows hm (congrArg Prod.snd heq)
      exact hgp
    · intro hmem
      exact List.mem_map_of_mem (List.mem_filter.mp hmem).1
  rw [Store.rowsOf_removeAll h, hrows, List.filter_append, List.filter_append]
  rw [List.nodup_append, List.nodup_append] at hnodup
  obtain ⟨⟨-, -, hfk⟩, -, hfb⟩ := hnodup
  have hfront : (front.filter fun m => decide (partitionKey m ∉ gone.map partitionKey)) = [] := by
    apply List.filter_eq_nil_iff.mpr
    intro m hm
    simpa using (hkeys m (hrows ▸ List.mem_append_left _ (List.mem_append_left _ hm))).mpr
      (Or.inl hm)
  have hback : (back.filter fun m => decide (partitionKey m ∉ gone.map partitionKey)) = [] := by
    apply List.filter_eq_nil_iff.mpr
    intro m hm
    simpa using (hkeys m (hrows ▸ List.mem_append_right _ hm)).mpr (Or.inr hm)
  have hkeep : (keep.filter fun m => decide (partitionKey m ∉ gone.map partitionKey)) = keep := by
    apply List.filter_eq_self.mpr
    intro m hm
    rw [decide_eq_true_eq, hkeys m (hrows ▸ List.mem_append_left _ (List.mem_append_right _ hm))]
    rintro (hf | hb)
    · exact hfk m hf m hm rfl
    · exact hfb m (List.mem_append_right _ hm) m hb rfl
  rw [hfront, hback, hkeep, List.nil_append, List.append_nil]

/-- `enforceCap` case by case: there is room, or what is over the cap goes from one end of
    the merge. -/
inductive CapStep (s : Store) : CapKind → Store × InsertOutcome → Prop
  | room (hroom : s.totalCount ≤ s.cap) (kind : CapKind) :
      CapStep s kind (s, ⟨0, 0, s.attached, false⟩)
  | newestGone (hexcess : s.cap < s.totalCount) (topMap : OrdMap Int Int) :
      CapStep s .bottomInsert
        ({ (s.mergeRows.take (s.totalCount - s.cap)).foldl Store.removeMessage s with
            topMap := topMap
            attached := false
            cachedRows := none },
          ⟨s.totalCount - s.cap, 0, false, false⟩)
  | oldestGone (hexcess : s.cap < s.totalCount) (bottomMap : OrdMap Int Int) :
      CapStep s .topInsert
        ({ (s.mergeRows.reverse.take (s.totalCount - s.cap)).foldl Store.removeMessage s with
            bottomMap := bottomMap
            cachedRows := none },
          ⟨0, s.totalCount - s.cap, s.attached, false⟩)

theorem Store.enforceCap_of_room {s : Store} (hroom : s.totalCount ≤ s.cap) (kind : CapKind) :
    s.enforceCap kind = (s, ⟨0, 0, s.attached, false⟩) := by
  unfold Store.enforceCap
  exact if_pos (Nat.sub_eq_zero_of_le hroom)

theorem Store.enforceCap_step (s : Store) (kind : CapKind) :
    CapStep s kind (s.enforceCap kind) := by
  rcases Nat.lt_or_ge s.cap s.totalCount with hexcess | hroom
  · unfold Store.enforceCap
    simp only [if_neg (Nat.sub_ne_zero_of_lt hexcess)]
    cases kind with
    | bottomInsert => exact .newestGone hexcess _
    | topInsert => exact .oldestGone hexcess _
  · rw [Store.enforceCap_of_room hroom]
    exact .room hroom kind

theorem Store.enforceCap_rejectedStale (s : Store) (kind : CapKind) :
    (s.enforceCap kind).2.rejectedStale = false := by
  have hstep := Store.enforceCap_step s kind
  generalize s.enforceCap kind = after at hstep ⊢
  cases hstep with
  | room => rfl
  | newestGone => rfl
  | oldestGone => rfl

/-- A top trim: the newest rows of some partitions are lost, and every partition that lost
    or still holds rows has its upper edge where its rows end now. -/
structure TrimmedTop (s s' : Store) : Prop where
  filed : s'.Filed
  cap : s'.cap = s.cap
  bottomMap : s'.bottomMap = s.bottomMap
  attached : s'.attached = false
  topCompletenessMatters : s'.topCompletenessMatters = s.topCompletenessMatters
  rows : ∀ p, ∃ lost, s.rowsOf p = s'.rowsOf p ++ lost ∧
    s'.topMap.get? p = (lost.head?.map MessageOut.offset).or
      (((s'.rowsOf p).getLast?.map fun last => last.offset + 1).or (s.topMap.get? p))

/-- A bottom trim: the oldest rows of some partitions are lost, and the lower edge of those
    is one past the last of them. -/
structure TrimmedBottom (s s' : Store) : Prop where
  filed : s'.Filed
  cap : s'.cap = s.cap
  topMap : s'.topMap = s.topMap
  attached : s'.attached = s.attached
  topCompletenessMatters : s'.topCompletenessMatters = s.topCompletenessMatters
  rows : ∀ p, ∃ lost, s.rowsOf p = lost ++ s'.rowsOf p ∧
    s'.bottomMap.get? p = (lost.getLast?.map fun last => last.offset + 1).or (s.bottomMap.get? p)

/-- Everything `enforceCap` can do. -/
inductive CapResult (s : Store) : CapKind → Store × InsertOutcome → Prop
  | fits (kind : CapKind) : CapResult s kind (s, ⟨0, 0, s.attached, false⟩)
  | top {s' : Store} {excess : Nat} (hpos : 0 < excess) (h : TrimmedTop s s') :
      CapResult s .bottomInsert (s', ⟨excess, 0, false, false⟩)
  | bottom {s' : Store} {excess : Nat} (hpos : 0 < excess) (h : TrimmedBottom s s') :
      CapResult s .topInsert (s', ⟨0, excess, s.attached, false⟩)

theorem min?_offsets_reverse {lost : List MessageOut} (h : Ascending MessageOut.offset lost) :
    (lost.reverse.map MessageOut.offset).min? = lost.head?.map MessageOut.offset := by
  cases lost with
  | nil => rfl
  | cons m lost =>
    refine List.min?_eq_some_iff.mpr ⟨by simp, fun o ho => ?_⟩
    obtain ⟨x, hx, rfl⟩ := List.mem_map.mp ho
    rcases List.mem_cons.mp (List.mem_reverse.mp hx) with rfl | hx
    · exact le_refl _
    · exact le_of_lt ((List.pairwise_cons.mp h).1 x hx)

theorem max?_offsets {lost : List MessageOut} (h : Ascending MessageOut.offset lost) :
    (lost.map MessageOut.offset).max? = lost.getLast?.map MessageOut.offset := by
  rcases List.eq_nil_or_concat lost with rfl | ⟨init, m, rfl⟩
  · rfl
  · rw [List.concat_eq_append] at h ⊢
    rw [List.getLast?_append_of_ne_nil _ (by simp)]
    refine List.max?_eq_some_iff.mpr ⟨by simp, fun o ho => ?_⟩
    obtain ⟨x, hx, rfl⟩ := List.mem_map.mp ho
    rcases List.mem_append.mp hx with hx | hx
    · exact le_of_lt ((List.pairwise_append.mp h).2.2 x hx m (by simp))
    · obtain rfl := List.mem_singleton.mp hx
      exact le_refl _

/-- Past the cap, after rows came in at the bottom: the newest rows go. -/
theorem Store.enforceCap_bottomInsert {s : Store} (h : s.Filed)
    (hexcess : s.totalCount - s.cap ≠ 0) :
    CapResult s .bottomInsert (s.enforceCap .bottomInsert) := by
  unfold Store.enforceCap
  simp only [if_neg hexcess]
  set gone := s.mergeRows.take (s.totalCount - s.cap) with hgone
  have hsame := Store.removeAll_same s gone
  refine .top (by omega) ⟨Store.removeAll_filed h gone, hsame.cap, hsame.bottomMap, rfl,
    hsame.topCompletenessMatters, fun p => ?_⟩
  -- the rows lost of a partition lead the merge's rows of it, newest first
  obtain ⟨restRev, hsplit⟩ : gone.filter (fun m => decide (m.partition = p)) <+:
      (s.rowsOf p).reverse := Store.mergeRows_filter h p ▸ (List.take_prefix _ _).filter _
  set lost := (gone.filter fun m => decide (m.partition = p)).reverse with hlost
  have hlostRev : gone.filter (fun m => decide (m.partition = p)) = lost.reverse := by
    rw [hlost, List.reverse_reverse]
  have hrows : s.rowsOf p = restRev.reverse ++ lost := by
    rw [← List.reverse_reverse (s.rowsOf p), ← hsplit, List.reverse_append]
  have hleft : (gone.foldl Store.removeMessage s).rowsOf p = restRev.reverse :=
    Store.removeAll_split h [] lost (by simpa using hrows) (by simp [hlostRev])
  have hsub : lost.Sublist (s.rowsOf p) := by
    rw [hrows]
    exact List.sublist_append_right _ _
  have hasc : Ascending MessageOut.offset lost := (h.ascending p).sublist hsub
  refine ⟨lost, ?_, ?_⟩
  · show _ = (gone.foldl Store.removeMessage s).rowsOf p ++ lost
    rw [hleft, hrows]
  · show ((setTrimmed s.topMap (gone.foldl recordTrim .empty) List.min?).setAll
      (backfill (gone.foldl recordTrim .empty)
        (gone.foldl Store.removeMessage s).partitions)).get? p = _
    rw [OrdMap.get?_setAll, lastFor_backfill, get?_setTrimmed, OrdMap.has, get?_recordTrims,
      hlostRev]
    show (if _ then none else ((gone.foldl Store.removeMessage s).rowsOf p).getLast?.map _).or _ =
      _
    cases hcase : lost with
    | nil => rfl
    | cons m rest =>
      have hne : (m :: rest).reverse ≠ [] := by simp
      simp only [if_neg hne, OrdMap.get?_empty, Option.getD_none, List.nil_append,
        Option.isSome_some, if_true, Option.bind_some, Option.none_or]
      rw [min?_offsets_reverse (hcase ▸ hasc)]
      rfl

/-- Past the cap, after rows came in at the top: the oldest rows go. -/
theorem Store.enforceCap_topInsert {s : Store} (h : s.Filed)
    (hexcess : s.totalCount - s.cap ≠ 0) :
    CapResult s .topInsert (s.enforceCap .topInsert) := by
  unfold Store.enforceCap
  simp only [if_neg hexcess]
  set gone := s.mergeRows.reverse.take (s.totalCount - s.cap) with hgone
  have hsame := Store.removeAll_same s gone
  refine .bottom (by omega) ⟨Store.removeAll_filed h gone, hsame.cap, hsame.topMap,
    hsame.attached, hsame.topCompletenessMatters, fun p => ?_⟩
  -- the rows lost of a partition lead its array
  have hrev : s.mergeRows.reverse.filter (fun m => decide (m.partition = p)) = s.rowsOf p := by
    rw [List.filter_reverse, Store.mergeRows_filter h, List.reverse_reverse]
  obtain ⟨rest, hsplit⟩ : gone.filter (fun m => decide (m.partition = p)) <+: s.rowsOf p :=
    hrev ▸ (List.take_prefix _ _).filter _
  set lost := gone.filter fun m => decide (m.partition = p) with hlost
  have hleft : (gone.foldl Store.removeMessage s).rowsOf p = rest :=
    Store.removeAll_split h lost [] (by simpa using hsplit.symm) (by simp [← hlost])
  have hsub : lost.Sublist (s.rowsOf p) := by
    rw [← hsplit]
    exact List.sublist_append_left _ _
  have hasc : Ascending MessageOut.offset lost := (h.ascending p).sublist hsub
  refine ⟨lost, ?_, ?_⟩
  · show _ = lost ++ (gone.foldl Store.removeMessage s).rowsOf p
    rw [hleft, hsplit]
  · show (setTrimmed s.bottomMap (gone.foldl recordTrim .empty) _).get? p = _
    rw [get?_setTrimmed, get?_recordTrims, ← hlost]
    cases hcase : lost with
    | nil => rfl
    | cons m rest =>
      simp only [if_neg (List.cons_ne_nil m rest), OrdMap.get?_empty, Option.getD_none,
        List.nil_append, Option.bind_some]
      rw [max?_offsets (hcase ▸ hasc), Option.map_map]
      rfl

theorem Store.enforceCap_result {s : Store} (h : s.Filed) (kind : CapKind) :
    CapResult s kind (s.enforceCap kind) := by
  by_cases hexcess : s.totalCount - s.cap = 0
  · rw [Store.enforceCap_of_room (Nat.sub_eq_zero_iff_le.mp hexcess)]
    exact .fits kind
  · cases kind with
    | bottomInsert => exact Store.enforceCap_bottomInsert h hexcess
    | topInsert => exact Store.enforceCap_topInsert h hexcess

/-! ### Cursors -/

theorem mem_mapToPositions (map : OrdMap Int Int) (e : Position) :
    e ∈ mapToPositions map ↔ map.get? e.1 = some e.2 := by
  rw [mapToPositions, (List.perm_insertionSort _ _).mem_iff]
  exact OrdMap.mem_entries_iff map e.1 e.2

theorem mapToPositions_nodup (map : OrdMap Int Int) :
    ((mapToPositions map).map Prod.fst).Nodup :=
  (((List.perm_insertionSort _ map.entries).map Prod.fst).nodup_iff).mpr map.nodup

theorem lastFor_mapToPositions (map : OrdMap Int Int) (p : Int) :
    OrdMap.lastFor p (mapToPositions map) = map.get? p := by
  have hperm : (mapToPositions map).Perm map.entries := List.perm_insertionSort _ _
  rw [OrdMap.lastFor_perm hperm (mapToPositions_nodup map), OrdMap.lastFor_entries]

theorem lastFor_decodeCursor (cursor : List Position) (p : Int) :
    OrdMap.lastFor p (decodeCursor cursor) = OrdMap.lastFor p cursor := by
  rw [decodeCursor, lastFor_mapToPositions, OrdMap.get?_setAll, OrdMap.get?_empty, Option.or_none]

theorem get?_mergeCursorInto (map : OrdMap Int Int) (cursor : List Position) (p : Int) :
    (mergeCursorInto map cursor).get? p = (OrdMap.lastFor p cursor).or (map.get? p) := by
  rw [mergeCursorInto, OrdMap.get?_setAll, lastFor_decodeCursor]

/-! ### Pages and live rows -/

theorem get?_foldl_lowerTo (least map : OrdMap Int Int) (p : Int) :
    (least.entries.foldl lowerTo map).get? p = lowered (map.get? p) (least.get? p) := by
  rw [OrdMap.get?_foldl (g := fun old v => some (old.elim v (min · v))) get?_lowerTo _ least.nodup,
    OrdMap.lastFor_entries]
  rfl

theorem succ_entries_nodup (greatest : OrdMap Int Int) :
    ((greatest.entries.map fun e => (e.1, e.2 + 1)).map Prod.fst).Nodup := by
  rw [List.map_map]
  exact greatest.nodup

theorem get?_foldl_raiseTo (greatest map : OrdMap Int Int) (p : Int) :
    ((greatest.entries.map fun e => (e.1, e.2 + 1)).foldl raiseTo map).get? p =
      raised (map.get? p) (greatest.get? p) := by
  rw [OrdMap.get?_foldl (g := fun old v => some (old.elim v (max · v))) get?_raiseTo _
    (succ_entries_nodup greatest), OrdMap.lastFor_map (· + 1), OrdMap.lastFor_entries]
  cases greatest.get? p <;> rfl

theorem get?_foldl_seed {entries : List (Int × Int)} (hnodup : (entries.map Prod.fst).Nodup)
    (map : OrdMap Int Int) (p : Int) :
    (entries.foldl seed map).get? p = (map.get? p).or (OrdMap.lastFor p entries) := by
  rw [OrdMap.get?_foldl (g := fun old v => some (old.getD v)) get?_seed _ hnodup]
  cases map.get? p <;> cases OrdMap.lastFor p entries <;> rfl

/-- `insertPage` up to the cap, with the least and greatest new offset of each partition. -/
structure PageMerged (s s' : Store) (rows : List MessageOut) (direction : Direction)
    (anchored attach : Bool) (contCursor : Option (List Position))
    (least greatest : Int → Option Int) : Prop extends RowsInserted s s' rows least greatest where
  cap : s'.cap = s.cap
  attached : s'.attached = s.attachedAfter direction anchored attach contCursor.isNone
  topCompletenessMatters : s'.topCompletenessMatters =
    (s.topCompletenessMatters || (anchored && direction == .back && !attach))
  bottom_back : direction = .back → ∀ p, s'.bottomMap.get? p =
    (contCursor.bind (OrdMap.lastFor p)).or (lowered (s.bottomMap.get? p) (least p))
  top_back : direction = .back → ∀ p, s'.topMap.get? p =
    if anchored then (s.topMap.get? p).or ((greatest p).map (· + 1)) else s.topMap.get? p
  bottom_forward : direction = .forward → ∀ p, s'.bottomMap.get? p =
    if anchored then (s.bottomMap.get? p).or (least p) else s.bottomMap.get? p
  top_forward : direction = .forward → ∀ p, s'.topMap.get? p =
    (contCursor.bind (OrdMap.lastFor p)).or (raised (s.topMap.get? p) (greatest p))

theorem get?_elim_mergeCursorInto (contCursor : Option (List Position)) (map : OrdMap Int Int)
    (p : Int) : (contCursor.elim map (mergeCursorInto map)).get? p =
      (contCursor.bind (OrdMap.lastFor p)).or (map.get? p) := by
  cases contCursor with
  | none => rfl
  | some cursor => exact get?_mergeCursorInto map cursor p

theorem Store.mergePage_spec {s : Store} (h : s.Filed) (rows : List MessageOut)
    (direction : Direction) (startPositions contCursor : Option (List Position)) (attach : Bool) :
    ∃ least greatest, PageMerged s (s.mergePage rows direction startPositions contCursor attach)
      rows direction startPositions.isNone attach contCursor least greatest := by
  have hins := Store.insertRows_spec h rows
  refine ⟨(s.insertRows rows).2.1.get?, (s.insertRows rows).2.2.get?, ?_⟩
  cases direction with
  | back =>
    cases startPositions with
    | none =>
      refine ⟨⟨hins.filed, hins.kept, hins.added, hins.has, hins.least_new, hins.greatest_new⟩, rfl,
        rfl, by simp [Store.mergePage, Store.seedOpposite, Store.extend, Store.insertRows], ?_, ?_,
        (by simp), (by simp)⟩
      · intro _ p
        refine (get?_elim_mergeCursorInto contCursor _ p).trans ?_
        rw [get?_foldl_lowerTo]
        rfl
      · intro _ p
        refine (get?_foldl_seed (succ_entries_nodup _) _ p).trans ?_
        rw [OrdMap.lastFor_map (· + 1), OrdMap.lastFor_entries]
        rfl
    | some positions =>
      refine ⟨⟨hins.filed, hins.kept, hins.added, hins.has, hins.least_new, hins.greatest_new⟩, rfl,
        rfl, by simp [Store.mergePage, Store.extend, Store.insertRows], ?_, fun _ _ => rfl,
        (by simp), (by simp)⟩
      intro _ p
      refine (get?_elim_mergeCursorInto contCursor _ p).trans ?_
      rw [get?_foldl_lowerTo]
      rfl
  | forward =>
    cases startPositions with
    | none =>
      refine ⟨⟨hins.filed, hins.kept, hins.added, hins.has, hins.least_new, hins.greatest_new⟩, rfl,
        rfl, by simp [Store.mergePage, Store.seedOpposite, Store.extend, Store.insertRows],
        (by simp), (by simp), ?_, ?_⟩
      · intro _ p
        refine (get?_foldl_seed (OrdMap.nodup _) _ p).trans ?_
        rw [OrdMap.lastFor_entries]
        rfl
      · intro _ p
        refine (get?_elim_mergeCursorInto contCursor _ p).trans ?_
        rw [get?_foldl_raiseTo]
        rfl
    | some positions =>
      refine ⟨⟨hins.filed, hins.kept, hins.added, hins.has, hins.least_new, hins.greatest_new⟩, rfl,
        rfl, by simp [Store.mergePage, Store.extend, Store.insertRows], (by simp), (by simp),
        fun _ _ => rfl, ?_⟩
      intro _ p
      refine (get?_elim_mergeCursorInto contCursor _ p).trans ?_
      rw [get?_foldl_raiseTo]
      rfl

/-- The live rows not below the lower edge. -/
def Store.safeRows (s : Store) (rows : List MessageOut) : List MessageOut :=
  rows.filter fun r => (s.bottomMap.get? r.partition).all (· ≤ r.offset)

/-- `insertLive` up to the cap. -/
structure LiveMerged (s s' : Store) (rows : List MessageOut) (least greatest : Int → Option Int) :
    Prop extends RowsInserted s s' (s.safeRows rows) least greatest where
  cap : s'.cap = s.cap
  bottomMap : s'.bottomMap = s.bottomMap
  attached : s'.attached = s.attached
  topCompletenessMatters : s'.topCompletenessMatters = s.topCompletenessMatters
  top : ∀ p, s'.topMap.get? p = raised (s.topMap.get? p) (greatest p)

theorem Store.mergeLive_spec {s : Store} (h : s.Filed) (rows : List MessageOut) :
    ∃ least greatest, LiveMerged s (s.mergeLive rows) rows least greatest := by
  have hins := Store.insertRows_spec h (s.safeRows rows)
  exact ⟨_, _, ⟨hins.filed, hins.kept, hins.added, hins.has, hins.least_new, hins.greatest_new⟩,
    rfl, rfl, rfl, rfl, fun p => get?_foldl_raiseTo _ _ p⟩

theorem Store.insertLive_ok {s s' : Store} {rows : List MessageOut} {outcome : InsertOutcome}
    (h : s.insertLive rows = .ok (s', outcome)) :
    s.attached = true ∧ (s.mergeLive rows).enforceCap .topInsert = (s', outcome) := by
  unfold Store.insertLive at h
  split at h
  · cases h
  · rename_i hattached
    exact ⟨by simpa using hattached, Except.ok.inj h⟩

/-- A page that is not stale was asked from where the map on its side still is. -/
theorem Store.not_isStale {s : Store} {direction : Direction} {positions : List Position}
    (h : s.isStale direction (some positions) = false) {e : Position} (he : e ∈ positions) :
    match direction with
    | .back => ∀ current, s.bottomMap.get? e.1 = some current → current ≤ e.2
    | .forward => ∀ current, s.topMap.get? e.1 = some current → e.2 ≤ current := by
  have hnot := List.any_eq_false.mp h e he
  cases direction with
  | back =>
    intro current hcur
    simp only [hcur, decide_eq_true_eq, not_lt] at hnot
    exact hnot
  | forward =>
    intro current hcur
    simp only [hcur, decide_eq_true_eq, not_lt] at hnot
    exact hnot

end Arne.Client
