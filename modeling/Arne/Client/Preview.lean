import Arne.Client.Intact

/-!
# What was previewed is what is committed

The preview inserts into a copy of the arrays and the commit into the arrays themselves;
both reach the same arrays, and the cap then takes rows off one end of their merge.
-/

namespace Arne.Client

open Arne.Message Arne.Timeline Arne.SortedLog

/-! ### The two insertions -/

/-- The loop of the preview and the loop of the commit after the same rows. -/
structure Overlays (seen : List (Int × Int)) (acc : Overlaying) (ins : Inserting) : Prop where
  get?_eq : ∀ p, acc.temp.get? p = ins.partitions.get? p
  seen_eq : ins.seen = seen ++ acc.tempSeen

theorem Overlays.step {seen : List (Int × Int)} {acc : Overlaying} {ins : Inserting}
    (h : Overlays seen acc ins) (msg : MessageOut) :
    Overlays seen (acc.addRow seen msg) (ins.insertRow msg) := by
  have hseen : partitionKey msg ∈ ins.seen ↔
      partitionKey msg ∈ seen ∨ partitionKey msg ∈ acc.tempSeen := by
    rw [h.seen_eq, List.mem_append]
  unfold Overlaying.addRow Inserting.insertRow
  by_cases hheld : partitionKey msg ∈ seen ∨ partitionKey msg ∈ acc.tempSeen
  · rw [if_pos hheld, if_pos (hseen.mpr hheld)]
    exact h
  · rw [if_neg hheld, if_neg (hseen.not.mpr hheld)]
    constructor
    · intro p
      by_cases hp : p = msg.partition
      · subst hp
        rw [OrdMap.get?_set_self, OrdMap.get?_set_self, ← h.get?_eq]
        split
        · rfl
        · rw [OrdMap.get?_set_self, Option.getD_some]
      · rw [OrdMap.get?_set_ne _ _ hp, OrdMap.get?_set_ne _ _ hp, ← h.get?_eq]
        split
        · rfl
        · exact OrdMap.get?_set_ne _ _ hp
    · show ins.seen ++ [partitionKey msg] = seen ++ (acc.tempSeen ++ [partitionKey msg])
      rw [h.seen_eq, List.append_assoc]

theorem Overlays.rows {seen : List (Int × Int)} {acc : Overlaying} {ins : Inserting}
    (h : Overlays seen acc ins) (rows : List MessageOut) :
    Overlays seen (rows.foldl (Overlaying.addRow seen) acc)
      (rows.foldl Inserting.insertRow ins) := by
  induction rows generalizing acc ins with
  | nil => exact h
  | cons msg rows ih => exact ih (h.step msg)

/-- The preview is the merge of the arrays with the rows in them. -/
theorem Store.Intact.preview_eq {s : Store} (h : s.Intact) (extraRows : List MessageOut) :
    (s.previewWithOverlay extraRows).2 = (s.insertRows extraRows).1.mergeRows := by
  unfold Store.previewWithOverlay
  cases extraRows with
  | nil =>
    rw [List.isEmpty_nil, if_pos rfl, h.rows_eq]
    rfl
  | cons msg rows =>
    rw [List.isEmpty_cons, if_neg Bool.false_ne_true]
    have hstart : Overlays s.seen ⟨s.partitions, [], []⟩ s.inserting :=
      ⟨fun _ => rfl, (List.append_nil _).symm⟩
    have hover := hstart.rows (msg :: rows)
    have hfiled : (s.insertRows (msg :: rows)).1.Filed := (Store.insertRows_spec h.filed _).filed
    generalize (msg :: rows).foldl (Overlaying.addRow s.seen) ⟨s.partitions, [], []⟩ = acc at hover
    have hrows : ∀ p, rowsAt acc.temp p = rowsAt (s.insertRows (msg :: rows)).1.partitions p := by
      intro p
      rw [rowsAt, rowsAt, hover.get?_eq]
      rfl
    have htemp : ({ s with partitions := acc.temp
                           seen := (s.insertRows (msg :: rows)).1.seen } : Store).Filed := by
      constructor
      · exact fun p => hrows p ▸ hfiled.ascending p
      · exact fun p => hrows p ▸ hfiled.partition_eq p
      · intro p arr hget
        exact hfiled.nonempty p arr ((hover.get?_eq p).symm.trans hget)
      · intro k
        rw [hfiled.seen_iff, ← hrows]
    exact Store.mergeRows_congr htemp hfiled hrows

/-! ### What a preview leaves -/

/-- Two stores no method tells apart: only the cached merge may be there or not. -/
structure Store.Alike (s s' : Store) : Prop where
  cap : s'.cap = s.cap
  partitions : s'.partitions = s.partitions
  seen : s'.seen = s.seen
  bottomMap : s'.bottomMap = s.bottomMap
  topMap : s'.topMap = s.topMap
  attached : s'.attached = s.attached
  topCompletenessMatters : s'.topCompletenessMatters = s.topCompletenessMatters
  rows : s'.rows.2 = s.rows.2

theorem Store.Intact.preview_alike {s : Store} (h : s.Intact) (extraRows : List MessageOut) :
    s.Alike (s.previewWithOverlay extraRows).1 := by
  unfold Store.previewWithOverlay
  split
  · exact ⟨rfl, rfl, rfl, rfl, rfl, rfl, rfl, h.rows.rows_eq.trans h.rows_eq.symm⟩
  · exact ⟨rfl, rfl, rfl, rfl, rfl, rfl, rfl, rfl⟩

/-! ### Cutting one end -/

/-- `after` is `before` without `trimmedTop` rows in front or without `trimmedBottom` rows
    at the back. -/
def CutFrom (before after : List MessageOut) (outcome : InsertOutcome) : Prop :=
  ∃ front back, before = front ++ after ++ back ∧ front.length = outcome.trimmedTop ∧
    back.length = outcome.trimmedBottom ∧ (front = [] ∨ back = [])

theorem CapResult.one_end {s : Store} {kind : CapKind} {after : Store × InsertOutcome}
    (h : CapResult s kind after) : after.2.trimmedTop = 0 ∨ after.2.trimmedBottom = 0 := by
  cases h with
  | fits => exact Or.inl rfl
  | top => exact Or.inr rfl
  | bottom => exact Or.inl rfl

theorem Store.Inserted.cutFrom {s s' : Store} {rows : List MessageOut}
    (hi : Store.Inserted s s' rows) (h : s.Intact) (kind : CapKind) :
    CutFrom (s.previewWithOverlay rows).2 (s'.enforceCap kind).1.rows.2 (s'.enforceCap kind).2 := by
  have hfiled := hi.filed h.filed
  have hend := (Store.enforceCap_result hfiled kind).one_end
  have hcount := (Store.totalCount_enforceCap hfiled kind).1
  have hmerge := Store.mergeRows_enforceCap hfiled kind
  rw [h.preview_eq, ← hi.mergeRows_eq, (hi.enforceCap h kind).1.rows_eq]
  generalize s'.enforceCap kind = after at *
  obtain ⟨s'', outcome⟩ := after
  dsimp only at hend hcount hmerge ⊢
  rw [← Store.length_mergeRows s'] at hcount
  refine ⟨s'.mergeRows.take outcome.trimmedTop,
    (s'.mergeRows.drop outcome.trimmedTop).drop (s''.totalCount), ?_, ?_, ?_, ?_⟩
  · have hlen : s'.mergeRows.length - outcome.trimmedTop - outcome.trimmedBottom =
        s''.totalCount := by
      omega
    rw [hmerge, hlen, List.append_assoc, List.take_append_drop, List.take_append_drop]
  · rw [List.length_take]
    omega
  · rw [List.length_drop, List.length_drop]
    omega
  · rcases hend with htop | hbottom
    · left
      rw [htop, List.take_zero]
    · right
      rw [List.drop_drop, List.drop_eq_nil_iff]
      omega

/-- Whatever calls were made: after an accepted page or a live batch `rows()` is the preview
    of its rows less the trimmed end, and a preview changes nothing a caller can see. -/
theorem preview_is_committed (cap : Nat) (calls : List Store.Call) :
    let s := Store.afterAll cap calls
    (∀ rows direction startPositions contCursor attach,
      let (s', outcome) := s.insertPage rows direction startPositions contCursor attach
      outcome.rejectedStale = false →
        CutFrom (s.previewWithOverlay rows).2 s'.rows.2 outcome) ∧
    (∀ rows s' outcome, s.insertLive rows = .ok (s', outcome) →
      CutFrom (s.previewWithOverlay (s.safeRows rows)).2 s'.rows.2 outcome) ∧
    ∀ extraRows, s.Alike (s.previewWithOverlay extraRows).1 := by
  intro s
  have h : s.Intact := (Store.afterAll_intact cap calls).1
  refine ⟨?_, ?_, h.preview_alike⟩
  · intro rows direction startPositions contCursor attach
    dsimp only
    unfold Store.insertPage
    split
    · intro haccepted
      cases haccepted
    · intro _
      exact (Store.mergePage_inserted s rows direction startPositions contCursor attach).cutFrom h _
  · intro rows s' outcome hlive
    have hcut := (Store.mergeLive_inserted s rows).cutFrom h .topInsert
    rwa [(Store.insertLive_ok hlive).2] at hcut

end Arne.Client
