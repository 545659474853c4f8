import Arne.Client.Trim

/-!
# The store keeps its representation

The arrays, the key set, the cached merge and the row counts agree after every call.
-/

namespace Arne.Client

open Arne.Message Arne.Timeline Arne.SortedLog

/-! ### Calls -/

inductive Store.Call where
  | insertPage (rows : List MessageOut) (direction : Direction)
      (startPositions contCursor : Option (List Position)) (attach : Bool)
  | insertLive (rows : List MessageOut)
  | rows
  | previewWithOverlay (extraRows : List MessageOut)
  | edges
  | clear

/-- The store after a call; an `insertLive` that throws left it alone. -/
def Store.after (s : Store) : Store.Call → Store
  | .insertPage rows direction startPositions contCursor attach =>
      (s.insertPage rows direction startPositions contCursor attach).1
  | .insertLive rows =>
      match s.insertLive rows with
      | .ok (s', _) => s'
      | .error _ => s
  | .rows => s.rows.1
  | .previewWithOverlay extraRows => (s.previewWithOverlay extraRows).1
  | .edges => s
  | .clear => s.clear

/-- The store after a sequence of calls on a new one. -/
def Store.afterAll (cap : Nat) (calls : List Store.Call) : Store :=
  calls.foldl Store.after (createSlidingWindowStore cap)

/-! ### The invariant -/

structure Store.Intact (s : Store) : Prop where
  filed : s.Filed
  seen_nodup : s.seen.Nodup
  cache_fresh : ∀ rows, s.cachedRows = some rows → rows = s.mergeRows
  within_cap : s.totalCount ≤ s.cap

theorem createSlidingWindowStore_intact (cap : Nat) : (createSlidingWindowStore cap).Intact where
  filed := createSlidingWindowStore_filed cap
  seen_nodup := List.nodup_nil
  cache_fresh _ h := by cases h
  within_cap := Nat.zero_le _

theorem Store.Intact.rows_eq {s : Store} (h : s.Intact) : s.rows.2 = s.mergeRows := by
  show s.cachedRows.getD s.mergeRows = s.mergeRows
  cases hcache : s.cachedRows with
  | none => rfl
  | some rows => exact h.cache_fresh rows hcache

theorem Store.Intact.rows {s : Store} (h : s.Intact) : s.rows.1.Intact where
  filed := h.filed
  seen_nodup := h.seen_nodup
  cache_fresh rows hrows := by
    cases hrows
    exact h.rows_eq
  within_cap := h.within_cap

theorem Store.Intact.previewWithOverlay {s : Store} (h : s.Intact) (extraRows : List MessageOut) :
    (s.previewWithOverlay extraRows).1.Intact := by
  unfold Store.previewWithOverlay
  split
  · exact h.rows
  · exact h

/-! ### Counting -/

theorem Store.mem_seen_iff {s : Store} (h : s.Filed) (k : Int × Int) :
    k ∈ s.seen ↔ k ∈ s.mergeRows.map partitionKey := by
  rw [h.seen_iff, List.mem_map]
  constructor
  · rintro ⟨m, hm, heq⟩
    have hpart : m.partition = k.1 := h.partition_eq k.1 m hm
    exact ⟨m, (Store.mem_mergeRows h).mpr (hpart ▸ hm), Prod.ext hpart heq⟩
  · rintro ⟨m, hm, rfl⟩
    exact ⟨m, (Store.mem_mergeRows h).mp hm, rfl⟩

/-- There are as many keys as rows. -/
theorem Store.length_seen {s : Store} (h : s.Filed) (hseen : s.seen.Nodup) :
    s.seen.length = s.totalCount := by
  have hperm : s.seen.Perm (s.mergeRows.map partitionKey) :=
    (List.perm_ext_iff_of_nodup hseen (Store.mergeRows_keys_nodup h)).mpr (Store.mem_seen_iff h)
  rw [hperm.length_eq, List.length_map, Store.length_mergeRows]

/-- The keys of `rows` that are not held. -/
def Store.newKeys (s : Store) (rows : List MessageOut) : List (Int × Int) :=
  ((rows.map partitionKey).filter fun k => !s.seen.contains k).dedup

theorem Store.mem_newKeys (s : Store) (rows : List MessageOut) (k : Int × Int) :
    k ∈ s.newKeys rows ↔ k ∈ rows.map partitionKey ∧ k ∉ s.seen := by
  rw [Store.newKeys, List.mem_dedup, List.mem_filter, Bool.not_eq_true', ← Bool.not_eq_true,
    List.contains_iff_mem]

theorem Inserting.seen_insertRows (acc : Inserting) (rows : List MessageOut)
    (h : acc.seen.Nodup) : (rows.foldl Inserting.insertRow acc).seen.Nodup ∧
      ∀ k, k ∈ (rows.foldl Inserting.insertRow acc).seen ↔
        k ∈ acc.seen ∨ k ∈ rows.map partitionKey := by
  induction rows generalizing acc with
  | nil => exact ⟨h, fun k => by simp⟩
  | cons msg rows ih =>
    have hstep : (acc.insertRow msg).seen.Nodup ∧
        ∀ k, k ∈ (acc.insertRow msg).seen ↔ k ∈ acc.seen ∨ k = partitionKey msg := by
      unfold Inserting.insertRow
      split
      · rename_i hheld
        refine ⟨h, ?_⟩
        intro k
        constructor
        · exact Or.inl
        · rintro (hk | rfl)
          · exact hk
          · exact hheld
      · rename_i hnew
        constructor
        · exact List.nodup_append.mpr ⟨h, List.nodup_singleton _, by
            intro a ha b hb hab
            obtain rfl := List.mem_singleton.mp hb
            exact hnew (hab ▸ ha)⟩
        · intro k
          rw [List.mem_append, List.mem_singleton]
    obtain ⟨hnodup, hmem⟩ := ih (acc.insertRow msg) hstep.1
    refine ⟨hnodup, ?_⟩
    intro k
    rw [List.foldl_cons, hmem, hstep.2, List.map_cons, List.mem_cons, or_assoc]

theorem Store.totalCount_insertRows {s : Store} (h : s.Intact) (rows : List MessageOut) :
    (s.insertRows rows).1.seen.Nodup ∧
      (s.insertRows rows).1.totalCount = s.totalCount + (s.newKeys rows).length := by
  obtain ⟨hnodup, hmem⟩ := Inserting.seen_insertRows s.inserting rows h.seen_nodup
  refine ⟨hnodup, ?_⟩
  have hfiled : (s.insertRows rows).1.Filed := (Store.insertRows_spec h.filed rows).filed
  have hperm : (s.insertRows rows).1.seen.Perm (s.seen ++ s.newKeys rows) := by
    refine (List.perm_ext_iff_of_nodup hnodup ?_).mpr ?_
    · refine List.nodup_append.mpr ⟨h.seen_nodup, List.nodup_dedup _, ?_⟩
      rintro a ha b hb rfl
      exact (Store.mem_newKeys s rows a).mp hb |>.2 ha
    · intro k
      apply (hmem k).trans
      rw [List.mem_append, Store.mem_newKeys]
      by_cases hk : k ∈ s.seen
      · simp [hk, Store.inserting]
      · simp [hk, Store.inserting]
  rw [← Store.length_seen hfiled hnodup, hperm.length_eq, List.length_append,
    Store.length_seen h.filed h.seen_nodup]

/-! ### Inserting -/

/-- With no row inserted the arrays are the ones before. -/
theorem Inserting.unchanged (acc : Inserting) (rows : List MessageOut)
    (h : (rows.foldl Inserting.insertRow acc).changed = false) :
    (rows.foldl Inserting.insertRow acc).partitions = acc.partitions := by
  have hkept : ∀ (rows : List MessageOut) (acc : Inserting), acc.changed = true →
      (rows.foldl Inserting.insertRow acc).changed = true := by
    intro rows
    induction rows with
    | nil => exact fun acc hacc => hacc
    | cons msg rows ih =>
      intro acc hacc
      apply ih
      unfold Inserting.insertRow
      split
      · exact hacc
      · rfl
  induction rows generalizing acc with
  | nil => rfl
  | cons msg rows ih =>
    rw [List.foldl_cons] at h ⊢
    rw [ih _ h]
    unfold Inserting.insertRow
    split
    · rfl
    · rename_i hnew
      have hchanged : (acc.insertRow msg).changed = true := by
        rw [Inserting.insertRow, if_neg hnew]
      rw [hkept rows _ hchanged] at h
      cases h

theorem Store.insertRows_cache {s : Store} (h : s.Intact) (rows : List MessageOut) :
    ∀ cached, (s.insertRows rows).1.cachedRows = some cached →
      cached = (s.insertRows rows).1.mergeRows := by
  intro cached hcached
  have hcached : (if (rows.foldl Inserting.insertRow s.inserting).changed then none
      else s.cachedRows) = some cached := hcached
  split at hcached
  · cases hcached
  · rename_i hsame
    have hparts : (s.insertRows rows).1.partitions = s.partitions :=
      Inserting.unchanged s.inserting rows (Bool.eq_false_iff.mpr hsame)
    rw [h.cache_fresh cached hcached, Store.mergeRows, Store.mergeRows, hparts]

/-! ### The cap -/

theorem CapResult.filed {s : Store} {kind : CapKind} {after : Store × InsertOutcome}
    (h : CapResult s kind after) (hs : s.Filed) : after.1.Filed := by
  cases h with
  | fits => exact hs
  | top _ ht => exact ht.filed
  | bottom _ hb => exact hb.filed

theorem CapResult.cap {s : Store} {kind : CapKind} {after : Store × InsertOutcome}
    (h : CapResult s kind after) : after.1.cap = s.cap := by
  cases h with
  | fits => rfl
  | top _ ht => exact ht.cap
  | bottom _ hb => exact hb.cap

theorem Store.removeAll_seen_nodup {s : Store} (h : s.seen.Nodup) (gone : List MessageOut) :
    (gone.foldl Store.removeMessage s).seen.Nodup := by
  induction gone generalizing s with
  | nil => exact h
  | cons msg gone ih =>
    apply ih
    unfold Store.removeMessage
    split
    · exact h
    · exact h.filter _

theorem Store.enforceCap_seen_nodup {s : Store} (kind : CapKind) (h : s.seen.Nodup) :
    (s.enforceCap kind).1.seen.Nodup := by
  have hstep := Store.enforceCap_step s kind
  generalize s.enforceCap kind = after at hstep ⊢
  cases hstep with
  | room => exact h
  | newestGone => exact Store.removeAll_seen_nodup h _
  | oldestGone => exact Store.removeAll_seen_nodup h _

/-- A trim drops the cached merge; without one the store stays as it is. -/
theorem Store.enforceCap_cache (s : Store) (kind : CapKind) :
    (s.enforceCap kind).1.cachedRows = none ∨ (s.enforceCap kind).1 = s := by
  have hstep := Store.enforceCap_step s kind
  generalize s.enforceCap kind = after at hstep ⊢
  cases hstep with
  | room => exact Or.inr rfl
  | newestGone => exact Or.inl rfl
  | oldestGone => exact Or.inl rfl

/-! ### Whole calls -/

/-- The rows of `s` went into `s'`; nothing is said of the edges. -/
structure Store.Inserted (s s' : Store) (rows : List MessageOut) : Prop where
  partitions : s'.partitions = (s.insertRows rows).1.partitions
  seen : s'.seen = (s.insertRows rows).1.seen
  cachedRows : s'.cachedRows = (s.insertRows rows).1.cachedRows
  cap : s'.cap = s.cap

theorem Store.mergePage_inserted (s : Store) (rows : List MessageOut) (direction : Direction)
    (startPositions contCursor : Option (List Position)) (attach : Bool) :
    Store.Inserted s (s.mergePage rows direction startPositions contCursor attach) rows := by
  unfold Store.mergePage
  cases direction with
  | back =>
    cases startPositions with
    | none => exact ⟨rfl, rfl, rfl, rfl⟩
    | some positions => exact ⟨rfl, rfl, rfl, rfl⟩
  | forward =>
    cases startPositions with
    | none => exact ⟨rfl, rfl, rfl, rfl⟩
    | some positions => exact ⟨rfl, rfl, rfl, rfl⟩

theorem Store.mergeLive_inserted (s : Store) (rows : List MessageOut) :
    Store.Inserted s (s.mergeLive rows) (s.safeRows rows) := ⟨rfl, rfl, rfl, rfl⟩

section Inserted

variable {s s' : Store} {rows : List MessageOut}

theorem Store.Inserted.filed (hi : Store.Inserted s s' rows) (h : s.Filed) : s'.Filed := by
  have hfiled := (Store.insertRows_spec h rows).filed
  unfold Store.Filed at hfiled ⊢
  rw [hi.partitions, hi.seen]
  exact hfiled

theorem Store.Inserted.mergeRows_eq (hi : Store.Inserted s s' rows) :
    s'.mergeRows = (s.insertRows rows).1.mergeRows := by
  rw [Store.mergeRows, Store.mergeRows, hi.partitions]

theorem Store.Inserted.totalCount_eq (hi : Store.Inserted s s' rows) (h : s.Intact) :
    s'.totalCount = s.totalCount + (s.newKeys rows).length := by
  rw [← (Store.totalCount_insertRows h rows).2, Store.totalCount, Store.totalCount, hi.partitions]

/-- After the cap the store is intact again, and the rows add up. -/
theorem Store.Inserted.enforceCap (hi : Store.Inserted s s' rows) (h : s.Intact)
    (kind : CapKind) : (s'.enforceCap kind).1.Intact ∧
      (s'.enforceCap kind).1.totalCount + (s'.enforceCap kind).2.trimmedTop +
        (s'.enforceCap kind).2.trimmedBottom = s.totalCount + (s.newKeys rows).length := by
  have hfiled := hi.filed h.filed
  have hresult := Store.enforceCap_result hfiled kind
  obtain ⟨hcount, hcap⟩ := Store.totalCount_enforceCap hfiled kind
  refine ⟨?_, hi.totalCount_eq h ▸ hcount⟩
  constructor
  · exact hresult.filed hfiled
  · exact Store.enforceCap_seen_nodup kind (hi.seen ▸ (Store.totalCount_insertRows h rows).1)
  · intro cached hcached
    rcases Store.enforceCap_cache s' kind with hnone | hsame
    · rw [hnone] at hcached
      cases hcached
    · rw [hsame] at hcached ⊢
      rw [hi.mergeRows_eq]
      exact Store.insertRows_cache h rows cached (hi.cachedRows ▸ hcached)
  · rw [hresult.cap]
    exact hcap

end Inserted

theorem Store.Intact.insertPage {s : Store} (h : s.Intact) (rows : List MessageOut)
    (direction : Direction) (startPositions contCursor : Option (List Position)) (attach : Bool) :
    (s.insertPage rows direction startPositions contCursor attach).1.Intact := by
  unfold Store.insertPage
  split
  · exact h
  · exact ((Store.mergePage_inserted s rows direction startPositions contCursor attach).enforceCap h
      _).1

theorem Store.Intact.insertLive {s : Store} (h : s.Intact) {rows : List MessageOut}
    {s' : Store} {outcome : InsertOutcome} (hlive : s.insertLive rows = .ok (s', outcome)) :
    s'.Intact := by
  have hcap := ((Store.mergeLive_inserted s rows).enforceCap h .topInsert).1
  rwa [(Store.insertLive_ok hlive).2] at hcap

theorem Store.Intact.after {s : Store} (h : s.Intact) (call : Store.Call) :
    (s.after call).Intact := by
  cases call with
  | insertPage rows direction startPositions contCursor attach =>
    exact h.insertPage rows direction startPositions contCursor attach
  | insertLive rows =>
    show Store.Intact (match s.insertLive rows with
      | .ok (s', _) => s'
      | .error _ => s)
    split
    · rename_i hlive
      exact h.insertLive hlive
    · exact h
  | rows => exact h.rows
  | previewWithOverlay extraRows => exact h.previewWithOverlay extraRows
  | edges => exact h
  | clear => exact createSlidingWindowStore_intact s.cap

theorem Store.after_cap {s : Store} (h : s.Intact) (call : Store.Call) :
    (s.after call).cap = s.cap := by
  cases call with
  | insertPage rows direction startPositions contCursor attach =>
    show (s.insertPage rows direction startPositions contCursor attach).1.cap = s.cap
    unfold Store.insertPage
    split
    · rfl
    · have hi := Store.mergePage_inserted s rows direction startPositions contCursor attach
      exact (Store.enforceCap_result (hi.filed h.filed) _).cap.trans hi.cap
  | insertLive rows =>
    show (match s.insertLive rows with
      | .ok (s', _) => s'
      | .error _ => s).cap = s.cap
    split
    · rename_i hlive
      have hi := Store.mergeLive_inserted s rows
      have hcap := (Store.enforceCap_result (hi.filed h.filed) .topInsert).cap
      rw [(Store.insertLive_ok hlive).2] at hcap
      exact hcap.trans hi.cap
    · rfl
  | rows => rfl
  | previewWithOverlay extraRows =>
    show (s.previewWithOverlay extraRows).1.cap = s.cap
    unfold Store.previewWithOverlay
    split
    · rfl
    · rfl
  | edges => rfl
  | clear => rfl

theorem Store.afterAll_intact (cap : Nat) (calls : List Store.Call) :
    (Store.afterAll cap calls).Intact ∧ (Store.afterAll cap calls).cap = cap := by
  have hrun : ∀ (calls : List Store.Call) (s : Store), s.Intact →
      (calls.foldl Store.after s).Intact ∧ (calls.foldl Store.after s).cap = s.cap := by
    intro calls
    induction calls with
    | nil => exact fun s h => ⟨h, rfl⟩
    | cons call calls ih =>
      intro s h
      obtain ⟨hintact, hcap⟩ := ih _ (h.after call)
      exact ⟨hintact, hcap.trans (Store.after_cap h call)⟩
  exact hrun calls _ (createSlidingWindowStore_intact cap)

/-! ### The representation -/

/-- The rows held, partition after partition. -/
def Store.held (s : Store) : List MessageOut := s.partitions.entries.flatMap Prod.snd

/-- How the variables of the store stand to each other. -/
structure Store.Represents (s : Store) : Prop where
  keys_nodup : (s.held.map partitionKey).Nodup
  arrays : ∀ e ∈ s.partitions.entries, e.2 ≠ [] ∧ Ascending MessageOut.offset e.2 ∧
    ∀ m ∈ e.2, m.partition = e.1
  seen_iff : ∀ k, k ∈ s.seen ↔ k ∈ s.held.map partitionKey
  count_eq : s.totalCount = s.held.length
  within_cap : s.totalCount ≤ s.cap
  rows_fresh : s.rows.2 = s.mergeRows
  rows_held : s.rows.2.Perm s.held
  rows_descending : ∀ p, (s.rows.2.filter fun m => decide (m.partition = p)).Pairwise
    fun a b => b.offset < a.offset

theorem Store.Intact.represents {s : Store} (h : s.Intact) : s.Represents := by
  have hperm : s.mergeRows.Perm s.held := Store.mergeRows_perm s
  constructor
  · exact ((hperm.map partitionKey).nodup_iff).mp (Store.mergeRows_keys_nodup h.filed)
  · intro e he
    have hget : s.partitions.get? e.1 = some e.2 := (OrdMap.mem_entries_iff _ _ _).mp he
    have hrows : rowsAt s.partitions e.1 = e.2 := by rw [rowsAt, hget, Option.getD_some]
    exact ⟨h.filed.nonempty e.1 e.2 hget, hrows ▸ h.filed.ascending e.1,
      hrows ▸ h.filed.partition_eq e.1⟩
  · intro k
    rw [Store.mem_seen_iff h.filed, (hperm.map partitionKey).mem_iff]
  · rw [← Store.length_mergeRows, hperm.length_eq]
  · exact h.within_cap
  · exact h.rows_eq
  · exact h.rows_eq ▸ hperm
  · intro p
    rw [h.rows_eq, Store.mergeRows_filter h.filed]
    exact List.pairwise_reverse.mpr (h.filed.ascending p)

/-- Whatever calls were made, the arrays, the keys, the cached merge and the cap agree; an
    accepted insert adds up and a rejected one leaves everything as it was. -/
theorem store_represents (cap : Nat) (calls : List Store.Call) :
    (Store.afterAll cap calls).Represents ∧ (Store.afterAll cap calls).cap = cap ∧
    (∀ rows direction startPositions contCursor attach,
      let s := Store.afterAll cap calls
      let (s', outcome) := s.insertPage rows direction startPositions contCursor attach
      if outcome.rejectedStale then s' = s
      else s'.totalCount + outcome.trimmedTop + outcome.trimmedBottom =
        s.totalCount + (s.newKeys rows).length) ∧
    (∀ rows s' outcome, (Store.afterAll cap calls).insertLive rows = .ok (s', outcome) →
      let s := Store.afterAll cap calls
      outcome.rejectedStale = false ∧
        s'.totalCount + outcome.trimmedTop + outcome.trimmedBottom =
          s.totalCount + (s.newKeys (s.safeRows rows)).length) := by
  obtain ⟨h, hcap⟩ := Store.afterAll_intact cap calls
  generalize Store.afterAll cap calls = s at h hcap
  refine ⟨h.represents, hcap, ?_, ?_⟩
  · intro rows direction startPositions contCursor attach
    dsimp only
    unfold Store.insertPage
    split
    · rfl
    · have hi := Store.mergePage_inserted s rows direction startPositions contCursor attach
      rw [Store.enforceCap_rejectedStale]
      exact (hi.enforceCap h _).2
  · intro rows s' outcome hlive
    have hi := Store.mergeLive_inserted s rows
    have hstale := Store.enforceCap_rejectedStale (s.mergeLive rows) .topInsert
    have hsum := (hi.enforceCap h .topInsert).2
    rw [(Store.insertLive_ok hlive).2] at hstale hsum
    exact ⟨hstale, hsum⟩

end Arne.Client
