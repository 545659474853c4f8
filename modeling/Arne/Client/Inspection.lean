import Arne.Client.Moves
import Arne.Client.Preview

/-!
# Expanded rows

Live rows are held back while a row is expanded, so every expanded row must be one the
reader can find and close.  Rows go with a trim, which prunes the expanded keys, and with
an overlay that is dropped, which does not.
-/

namespace Arne.Client

open Arne.Message Arne.Timeline

/-! ### Rows that stay -/

/-- After an insert that trimmed nothing every row is there, the old and the new. -/
theorem Store.Inserted.seen_enforceCap {s s' : Store} {rows : List MessageOut}
    (hi : Store.Inserted s s' rows) (h : s.Intact) (kind : CapKind)
    (htop : (s'.enforceCap kind).2.trimmedTop = 0)
    (hbottom : (s'.enforceCap kind).2.trimmedBottom = 0)
    (k : Int × Int) : k ∈ (s'.enforceCap kind).1.seen ↔ k ∈ s.seen ∨ k ∈ rows.map partitionKey := by
  have hfits : (s'.enforceCap kind).1 = s' := by
    have hstep := Store.enforceCap_step s' kind
    generalize s'.enforceCap kind = after at hstep htop hbottom ⊢
    cases hstep with
    | room => rfl
    | newestGone hexcess => exact absurd htop (Nat.sub_ne_zero_of_lt hexcess)
    | oldestGone hexcess => exact absurd hbottom (Nat.sub_ne_zero_of_lt hexcess)
  rw [hfits, hi.seen]
  exact (Inserting.seen_insertRows s.inserting rows h.seen_nodup).2 k

namespace TimelineRefs

variable {env : TextEnv} {tl tl' : TimelineRefs} {event : TimelineEvent}

/-- The keys of the rows that are held, and of those of the page in flight. -/
def Shown (tl : TimelineRefs) (key : Int × Int) : Prop :=
  key ∈ tl.store.seen ∨ key ∈ tl.pageRowsRef.map rowKey

theorem mem_rows_iff {s : Store} (h : s.Intact) (key : Int × Int) :
    key ∈ s.rows.2.map rowKey ↔ key ∈ s.seen := by
  rw [h.rows_eq]
  exact (Store.mem_seen_iff h.filed key).symm

theorem mem_displayedRows_iff (h : tl.store.Intact) (key : Int × Int) :
    key ∈ tl.displayedRows.map rowKey ↔ tl.Shown key := by
  unfold displayedRows Shown
  split
  · rename_i hnone
    rw [mem_rows_iff h, List.isEmpty_iff.mp hnone, List.map_nil]
    simp only [List.not_mem_nil, or_false]
  · rw [h.preview_eq]
    have hfiled : (tl.store.insertRows tl.pageRowsRef).1.Filed :=
      (Store.insertRows_spec h.filed tl.pageRowsRef).filed
    have hkeys := (Inserting.seen_insertRows tl.store.inserting tl.pageRowsRef h.seen_nodup).2 key
    exact (Store.mem_seen_iff hfiled key).symm.trans hkeys

/-! ### The invariant -/

structure Inspected (tl : TimelineRefs) : Prop where
  intact : tl.store.Intact
  agreed : tl.Agreed
  inspecting : tl.inspectingRef = !tl.expandedKeysRef.isEmpty
  shown : ∀ key ∈ tl.expandedKeysRef, tl.Shown key

theorem Inspected.displayed (h : tl.Inspected) :
    ∀ key ∈ tl.expandedKeysRef, key ∈ tl.displayedRows.map rowKey := by
  intro key hkey
  exact (mem_displayedRows_iff h.intact key).mpr (h.shown key hkey)

/-- What `noteOutcome` prunes on a trim. -/
theorem Inspected.noteHeld {outcome : InsertOutcome} (hintact : tl.store.Intact)
    (hagreed : (tl.noteHeld outcome).Agreed)
    (hinspecting : tl.inspectingRef = !tl.expandedKeysRef.isEmpty)
    (hkept : outcome.trimmedTop = 0 → outcome.trimmedBottom = 0 →
      ∀ key ∈ tl.expandedKeysRef, tl.Shown key) : (tl.noteHeld outcome).Inspected := by
  unfold TimelineRefs.noteHeld at hagreed ⊢
  dsimp only at hagreed ⊢
  split
  · rename_i htrimmed
    rw [if_pos htrimmed] at hagreed
    constructor
    · exact hintact.rows
    · exact hagreed
    · rfl
    · intro key hkey
      left
      have hrow := List.contains_iff_mem.mp (List.mem_filter.mp hkey).2
      exact (mem_rows_iff hintact key).mp hrow
  · rename_i huntrimmed
    rw [if_neg huntrimmed] at hagreed
    constructor
    · exact hintact
    · exact hagreed
    · exact hinspecting
    · intro key hkey
      -- an expanded key is there, so nothing can have been trimmed
      have hopen : (tl.noteTrims outcome).expandedKeysRef.isEmpty = false :=
        List.isEmpty_eq_false_iff.mpr (List.ne_nil_of_mem hkey)
      rw [hopen, Bool.not_false, Bool.and_true, Bool.or_eq_true, decide_eq_true_eq,
        decide_eq_true_eq, not_or] at huntrimmed
      obtain ⟨htop, hbottom⟩ := huntrimmed
      exact hkept (Nat.eq_zero_of_not_pos htop) (Nat.eq_zero_of_not_pos hbottom) key hkey

/-- A live batch keeps every row that is shown, or prunes. -/
theorem Inspected.insertLive (h : tl.Inspected) {rows : List MessageOut} {store : Store}
    {outcome : InsertOutcome} (hlive : tl.store.insertLive rows = .ok (store, outcome))
    {tl₁ : TimelineRefs} (hstore : tl₁.store = store)
    (hinspecting : tl₁.inspectingRef = tl.inspectingRef)
    (hkeys : tl₁.expandedKeysRef = tl.expandedKeysRef) (hrows : tl₁.pageRowsRef = tl.pageRowsRef) :
    (tl₁.noteHeld outcome).Inspected := by
  apply Inspected.noteHeld
  · rw [hstore]
    exact h.intact.insertLive hlive
  · apply Agreed.noteHeld
    rw [hstore]
    exact Store.insertLive_attached hlive
  · rw [hinspecting, hkeys]
    exact h.inspecting
  · intro htop hbottom key hkey
    have hcap := (Store.insertLive_ok hlive).2
    have hseen := (Store.mergeLive_inserted tl.store rows).seen_enforceCap h.intact .topInsert
    rw [hcap] at hseen
    rw [Shown, hstore, hrows]
    rw [hkeys] at hkey
    rcases h.shown key hkey with hheld | hoverlay
    · exact Or.inl ((hseen htop hbottom key).mpr (Or.inl hheld))
    · exact Or.inr hoverlay

/-- A page that lands takes its overlay into the store. -/
theorem Inspected.land (h : tl.Inspected) {request : Request} {cursor : Option (List Position)}
    {store : Store} {outcome : InsertOutcome}
    (hland : tl.store.land request tl.pageRowsRef cursor = (store, outcome))
    (hfresh : tl.store.isStale request.direction request.startPositions = false)
    (hagreed : (TimelineRefs.noteHeld tl' outcome).Agreed) (hstore : tl'.store = store)
    (hinspecting : tl'.inspectingRef = tl.inspectingRef)
    (hkeys : tl'.expandedKeysRef = tl.expandedKeysRef) : (tl'.noteHeld outcome).Inspected := by
  apply Inspected.noteHeld
  · have hintact := h.intact.insertPage tl.pageRowsRef request.direction request.startPositions cursor
      request.attach
    rw [show tl.store.insertPage _ _ _ _ _ = (store, outcome) from hland] at hintact
    exact hstore ▸ hintact
  · exact hagreed
  · rw [hinspecting, hkeys]
    exact h.inspecting
  · intro htop hbottom key hkey
    have hi := Store.mergePage_inserted tl.store tl.pageRowsRef request.direction
      request.startPositions cursor request.attach
    have hseen := hi.seen_enforceCap h.intact (capKindOf request.direction)
    rw [Store.land, Store.insertPage, hfresh, if_neg Bool.false_ne_true] at hland
    rw [hland] at hseen
    rw [hkeys] at hkey
    left
    rw [hstore]
    exact (hseen htop hbottom key).mpr (h.shown key hkey)

/-! ### Moves -/

theorem Inspected.settles (h : tl.Inspected) (hmove : Settles tl tl') : tl'.Inspected := by
  have hagreed := h.agreed.settles hmove
  cases hmove with
  | flush hattached hlive => exact h.insertLive hlive rfl rfl rfl rfl
  | drained hattached hnone => exact ⟨h.intact, hagreed, h.inspecting, h.shown⟩
  | attach hstore => exact ⟨h.intact, hagreed, h.inspecting, h.shown⟩
  | quiet hquiet =>
    constructor
    · exact hquiet.store ▸ h.intact
    · exact hagreed
    · rw [hquiet.inspectingRef, hquiet.expandedKeysRef]
      exact h.inspecting
    · intro key hkey
      rw [Shown, hquiet.store, hquiet.pageRowsRef]
      exact h.shown key (hquiet.expandedKeysRef ▸ hkey)
  | run hrows hedge resetIteration =>
    refine ⟨h.intact, hagreed, h.inspecting, ?_⟩
    intro key hkey
    have hshown := h.shown key hkey
    rw [Shown, hrows] at hshown
    exact hshown

theorem Inspected.settled (h : tl.Inspected) (hmoves : Settled tl tl') : tl'.Inspected := by
  induction hmoves with
  | refl => exact h
  | tail _ hmove ih => exact ih.settles hmove

/-- Every expanded key names a row the store holds. -/
def Committed (tl : TimelineRefs) : Prop :=
  ∀ key ∈ tl.expandedKeysRef, key ∈ tl.store.rows.2.map rowKey

/-- The reader toggles rows that are displayed. -/
def Clickable (tl : TimelineRefs) (event : TimelineEvent) : Prop :=
  ∀ key, event = .toggleExpand key → key ∈ tl.displayedRows.map rowKey

/-- Without its overlay the list still shows every row whose key the store holds. -/
theorem Inspected.drop (h : tl.Inspected) (hcommitted : tl.Committed) (hagreed : tl'.Agreed)
    (hstore : tl'.store = tl.store) (hinspecting : tl'.inspectingRef = tl.inspectingRef)
    (hkeys : tl'.expandedKeysRef = tl.expandedKeysRef) : tl'.Inspected := by
  constructor
  · exact hstore ▸ h.intact
  · exact hagreed
  · rw [hinspecting, hkeys]
    exact h.inspecting
  · intro key hkey
    left
    rw [hstore]
    exact (mem_rows_iff h.intact key).mp (hcommitted key (hkeys ▸ hkey))

theorem Inspected.enters (h : tl.Inspected) (hclickable : tl.Clickable event)
    (hcommitted : tl.Discards event → tl.Committed) (henters : Enters env tl event tl') :
    tl'.Inspected := by
  have hagreed := h.agreed.enters henters
  cases henters with
  | ignored hpred => exact h
  | live hpred hattached hlive => exact h.insertLive hlive rfl rfl rfl rfl
  | buffered hpred hpaused => exact ⟨h.intact, hagreed, h.inspecting, h.shown⟩
  | matched hflight msgs =>
    rw [onMatches_of_flight hflight] at hagreed ⊢
    refine ⟨h.intact, hagreed, h.inspecting, ?_⟩
    intro key hkey
    rw [Shown, List.map_append, List.mem_append]
    exact (h.shown key hkey).imp_right Or.inl
  | landed hflight hland hfresh exhausted flags => exact h.land hland hfresh hagreed rfl rfl rfl
  | rejected hflight hstale cursor exhausted flags =>
    exact h.drop (hcommitted ⟨_, hflight, hstale⟩) hagreed rfl rfl rfl
  | failed hflight => exact ⟨h.intact, hagreed, h.inspecting, h.shown⟩
  | dropped hdiscards => exact h.drop (hcommitted hdiscards) hagreed rfl rfl rfl
  | cancelled => exact h.drop (hcommitted trivial) hagreed rfl rfl rfl
  | toggled key keys hkeys =>
    refine ⟨h.intact, hagreed, rfl, ?_⟩
    intro k hk
    rcases hkeys k hk with hold | rfl
    · exact h.shown k hold
    · exact (mem_displayedRows_iff h.intact k).mp (hclickable k rfl)
  | asked hdiscards hquiet hedge resetIteration =>
    exact h.drop (hcommitted hdiscards) hagreed hquiet.store hquiet.inspectingRef
      hquiet.expandedKeysRef
  | quiet hplain hquiet => exact h.settles (.quiet hquiet)
  | @restarted _ tl' _ hplain hquiet hfirst =>
    constructor
    · exact hquiet.store ▸ createSlidingWindowStore_intact _
    · exact hagreed
    · show tl'.inspectingRef = !tl'.expandedKeysRef.isEmpty
      rw [hquiet.inspectingRef, hquiet.expandedKeysRef]
      rfl
    · intro key hkey
      have hnone : key ∈ tl.resetWindow.expandedKeysRef := hquiet.expandedKeysRef ▸ hkey
      cases hnone
  | refiltered text hfirst =>
    constructor
    · exact createSlidingWindowStore_intact _
    · exact hagreed
    · rfl
    · intro key hkey
      cases hkey

/-! ### Every run -/

/-- A run of the handlers on events that are allowed where they occur. -/
def Run (env : TextEnv) (allowed : TimelineRefs → TimelineEvent → Prop) :
    TimelineRefs → TimelineRefs → Prop :=
  Relation.ReflTransGen fun tl tl' => ∃ event, allowed tl event ∧ tl.handle env event = .ok tl'

/-- The reader expands what is displayed, and no overlay is dropped with an expanded row
    that only it shows. -/
def KeepsInspections (tl : TimelineRefs) (event : TimelineEvent) : Prop :=
  tl.Clickable event ∧ (tl.Discards event → tl.Committed)

theorem mount_inspected (env : TextEnv) (windowCap : Nat) : (mount env windowCap).Inspected := by
  constructor
  · exact createSlidingWindowStore_intact windowCap
  · intro hattached
    cases hattached
  · rfl
  · intro key hkey
    cases hkey

theorem Inspected.handle (h : tl.Inspected) (hallowed : tl.KeepsInspections event)
    (hok : tl.handle env event = .ok tl') : tl'.Inspected := by
  obtain ⟨tl₁, henters, hsettled⟩ := handle_settled h.agreed hok
  exact (h.enters hallowed.1 hallowed.2 henters).settled hsettled

/-- Only the rows that are held are left, and every expanded key. -/
structure Uncovers (tl tl' : TimelineRefs) : Prop where
  rows : tl'.displayedRows = tl.store.rows.2
  keys : tl'.expandedKeysRef = tl.expandedKeysRef

theorem Uncovers.displayed_iff (h : tl.Uncovers tl') :
    (∀ key ∈ tl'.expandedKeysRef, key ∈ tl'.displayedRows.map rowKey) ↔ tl.Committed := by
  rw [h.rows, h.keys, Committed]

theorem uncovers_loadEdge {direction : Direction} {cursor : List Position}
    (hcursor : tl.edgeCursorFor direction = some cursor) : tl.Uncovers (tl.loadEdge direction) := by
  unfold loadEdge
  rw [hcursor]
  exact ⟨rfl, rfl⟩

theorem uncovers_retryStale (hrows : tl.pageRowsRef = []) (direction : Direction) :
    tl.Uncovers (tl.retryStale direction) := by
  have hdisplayed : tl.displayedRows = tl.store.rows.2 := by
    rw [displayedRows, hrows]
    rfl
  unfold retryStale
  split
  · exact ⟨hdisplayed, rfl⟩
  split
  · exact ⟨rfl, rfl⟩
  · exact ⟨hdisplayed, rfl⟩

/-- A handler that discards an overlay changes nothing else of the list. -/
theorem Discards.uncovers (h : tl.Discards event) (hok : tl.handle env event = .ok tl') :
    tl.Uncovers tl' := by
  cases event with
  | cancelScan =>
    obtain rfl := Except.ok.inj hok
    exact ⟨rfl, rfl⟩
  | loadEdge direction =>
    obtain rfl := Except.ok.inj hok
    obtain ⟨cursor, hcursor⟩ := h
    exact uncovers_loadEdge hcursor
  | continueScan =>
    obtain rfl := Except.ok.inj hok
    obtain ⟨direction, cursor, hdirection, hcursor⟩ := h
    unfold continueScan
    rw [hdirection]
    exact uncovers_loadEdge hcursor
  | pageEnd cursor exhausted =>
    obtain ⟨request, hflight, hstale⟩ := h
    change tl.onPageEnd cursor exhausted = .ok tl' at hok
    simp only [onPageEnd, hflight, commitPage, Store.land, Store.insertPage, hstale, if_true] at hok
    obtain rfl := Except.ok.inj hok
    have huncovers := @uncovers_retryStale { tl with
      flight := none
      exhausted := fun d => if d = request.direction then exhausted else tl.exhausted d
      pageRowsRef := [] } rfl request.direction
    exact ⟨huncovers.rows, huncovers.keys⟩
  | afterPage =>
    obtain rfl := Except.ok.inj hok
    obtain ⟨hflight, direction, hpending, hdrops⟩ := h
    have hidle : tl.flight.isSome = false := by
      rw [hflight]
      rfl
    unfold afterPage
    rw [hidle, if_neg Bool.false_ne_true, hpending]
    have hinput : { tl with pendingDirectionRef := none }.postPageInput direction =
      tl.postPageInput direction := rfl
    rcases hdrops with hdrop | ⟨cursor, hcontinue⟩
    · simp only [hinput, hdrop]
      exact ⟨rfl, rfl⟩
    · simp only [hinput, hcontinue]
      exact ⟨rfl, rfl⟩
  | message | pageMatches | pageError | toggleExpand | scroll | pillClick | playPauseToggle | jump |
    applyFilter => exact h.elim

/-- As long as no overlay is dropped under an expanded row of its own, every expanded key
    names a displayed row, and the inspection flag says whether there is one.  An overlay that is
    dropped so leaves a key of no displayed row. -/
theorem expanded_keys_displayed {windowCap : Nat}
    (hrun : Run env KeepsInspections (mount env windowCap) tl) :
    ((∀ key ∈ tl.expandedKeysRef, key ∈ tl.displayedRows.map rowKey) ∧
      tl.inspectingRef = !tl.expandedKeysRef.isEmpty) ∧
    ∀ event tl', tl.Clickable event → tl.handle env event = .ok tl' →
      ((∀ key ∈ tl'.expandedKeysRef, key ∈ tl'.displayedRows.map rowKey) ↔
        tl.KeepsInspections event) := by
  have hinspected : tl.Inspected := by
    induction hrun with
    | refl => exact mount_inspected env windowCap
    | tail _ hstep ih =>
      obtain ⟨event, hallowed, hok⟩ := hstep
      exact ih.handle hallowed hok
  refine ⟨⟨hinspected.displayed, hinspected.inspecting⟩, ?_⟩
  intro event tl' hclickable hok
  constructor
  · intro hdisplayed
    refine ⟨hclickable, ?_⟩
    intro hdiscards
    exact (hdiscards.uncovers hok).displayed_iff.mp hdisplayed
  · intro hkeeps
    exact (hinspected.handle hkeeps hok).displayed

/-! ### A row that was only previewed -/

/-- A batch of the first page. -/
def batch : List MessageOut := (List.range 25).map fun n => shortMessage 0 n

/-- The reader expanded a row of the batch. -/
def batchRefs : TimelineRefs :=
  { (mount shortEnv 2000).onMatches batch with
    expandedKeysRef := [(0, 7)]
    inspectingRef := true }

theorem batch_displayed :
    (0, 7) ∈ ((mount shortEnv 2000).onMatches batch).displayedRows.map rowKey := by
  rw [mem_displayedRows_iff (createSlidingWindowStore_intact 2000)]
  right
  decide

theorem batchRefs_run : Run shortEnv KeepsInspections (mount shortEnv 2000) batchRefs := by
  have hmatched : (mount shortEnv 2000).KeepsInspections (.pageMatches batch) :=
    ⟨fun key h => (by cases h), fun h => h.elim⟩
  have htoggled :
      ((mount shortEnv 2000).onMatches batch).KeepsInspections (.toggleExpand (0, 7)) := by
    refine ⟨?_, fun h => h.elim⟩
    intro key hkey
    cases hkey
    exact batch_displayed
  exact .tail (.single ⟨_, hmatched, rfl⟩) ⟨_, htoggled, rfl⟩

theorem batch_expanded_displayed : (0, 7) ∈ batchRefs.displayedRows.map rowKey ∧
    batchRefs.inspectingRef = true := by
  obtain ⟨hdisplayed, hinspecting⟩ := (expanded_keys_displayed batchRefs_run).1
  exact ⟨hdisplayed (0, 7) (by decide), hinspecting⟩

/-- The page fails and its overlay is dropped; the row stays expanded. -/
theorem phantom_inspection : ¬ ∀ (env : TextEnv) (windowCap : Nat) (tl : TimelineRefs),
    Run env Clickable (mount env windowCap) tl →
      (∀ key ∈ tl.expandedKeysRef, key ∈ tl.displayedRows.map rowKey) ∧
        tl.inspectingRef = !tl.expandedKeysRef.isEmpty := by
  intro hclaim
  have hrun : Run shortEnv Clickable (mount shortEnv 2000) batchRefs.onPageError.afterPage := by
    have hopened : Run shortEnv Clickable (mount shortEnv 2000) batchRefs := by
      refine Relation.ReflTransGen.mono ?_ _ _ batchRefs_run
      rintro tl tl' ⟨event, hallowed, hok⟩
      exact ⟨event, hallowed.1, hok⟩
    have hfailed : batchRefs.Clickable .pageError := fun key h => (by cases h)
    have hdropped : batchRefs.onPageError.Clickable .afterPage := fun key h => (by cases h)
    exact .tail (.tail hopened ⟨_, hfailed, rfl⟩) ⟨_, hdropped, rfl⟩
  have hdisplayed := (hclaim shortEnv 2000 _ hrun).1 (0, 7) (by decide)
  have hnothing : batchRefs.onPageError.afterPage.displayedRows = [] := rfl
  rw [hnothing] at hdisplayed
  cases hdisplayed

end TimelineRefs

end Arne.Client
