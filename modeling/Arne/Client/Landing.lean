import Arne.Client.Sliding

/-!
# Pages and live rows land

What a page that read as `PageRead` says, or a live batch, does to a sound window.
-/

namespace Arne.Client

open Arne.Message Arne.Timeline Arne.SortedLog

variable {w : LiveTopic} {v : View} {debt : Int → Int} {pending : Int → Set Int} {s : Store}

section Page

variable {mark stop : Int → Int} {direction : Direction} {positions : List Position}
  {rows : List MessageOut} {cont : Option (List Position)}

theorem PageRead.rows_matching (h : PageRead w v mark direction positions rows cont stop) :
    ∀ m ∈ rows, m ∈ w.matching v m.partition := by
  intro m hm
  obtain ⟨e, -, hmatch, -⟩ := (h.rows_iff m).mp hm
  exact (LiveTopic.matching_bounds hmatch).1.symm ▸ hmatch

/-- The rows of a partition asked for. -/
theorem PageRead.rows_at (h : PageRead w v mark direction positions rows cont stop) {e : Position}
    (he : e ∈ positions) (o : Int) :
    (∃ m ∈ rows, m.partition = e.1 ∧ m.offset = o) ↔
      o ∈ w.real v e.1 ∧ Covers direction (w.startOf mark e) (stop e.1) o := by
  constructor
  · rintro ⟨m, hm, hp, rfl⟩
    obtain ⟨e', he', hmatch, hcov⟩ := (h.rows_iff m).mp hm
    have hp' : e'.1 = e.1 := (LiveTopic.matching_bounds hmatch).1.symm.trans hp
    obtain rfl : e' = e := List.inj_on_of_nodup_map h.nodup he' he hp'
    exact ⟨offset_real hmatch, hcov⟩
  · rintro ⟨⟨m, hm, rfl⟩, hcov⟩
    exact ⟨m, (h.rows_iff m).mpr ⟨e, he, hm, hcov⟩, (LiveTopic.matching_bounds hm).1, rfl⟩

/-- Of a partition not asked for there are none. -/
theorem PageRead.no_rows (h : PageRead w v mark direction positions rows cont stop) {p : Int}
    (hp : p ∉ positions.map Prod.fst) : ∀ m ∈ rows, m.partition ≠ p := by
  rintro m hm rfl
  obtain ⟨e, he, hmatch, -⟩ := (h.rows_iff m).mp hm
  rw [(LiveTopic.matching_bounds hmatch).1] at hp
  exact hp (List.mem_map_of_mem he)

/-- The continuation names the partitions asked for. -/
theorem PageRead.cont_at (h : PageRead w v mark direction positions rows cont stop) {e : Position}
    (he : e ∈ positions) : cont.bind (OrdMap.lastFor e.1) = cont.map fun _ => stop e.1 := by
  cases hcont : cont with
  | none => rfl
  | some c =>
    show OrdMap.lastFor e.1 c = some (stop e.1)
    rw [h.cont_eq c hcont, OrdMap.lastFor_of_mem h.nodup (show (e.1, e.2) ∈ positions from he)]
    rfl

theorem PageRead.cont_none (h : PageRead w v mark direction positions rows cont stop) {p : Int}
    (hp : p ∉ positions.map Prod.fst) : cont.bind (OrdMap.lastFor p) = none := by
  cases hcont : cont with
  | none => rfl
  | some c =>
    show OrdMap.lastFor p c = none
    rw [h.cont_eq c hcont, (OrdMap.lastFor_eq_none_iff p positions).mpr hp]
    rfl

theorem LiveTopic.startOf_of_mem {e : Position} (hlow : w.low e.1 ≤ e.2) (hmark : e.2 ≤ mark e.1) :
    w.startOf mark e = e.2 :=
  clamp_of_mem hlow hmark

/-- The edges of a partition a page did not ask for. -/
theorem PageMerged.edges_other {least greatest : Int → Option Int} {s' : Store}
    {anchored attach : Bool}
    (h : PageMerged s s' rows direction anchored attach cont least greatest)
    (hread : PageRead w v mark direction positions rows cont stop) {p : Int}
    (hp : p ∉ positions.map Prod.fst) :
    s'.bottomMap.get? p = s.bottomMap.get? p ∧ s'.topMap.get? p = s.topMap.get? p := by
  obtain ⟨-, hleast, hgreatest⟩ := h.no_new (hread.no_rows hp)
  cases direction with
  | back =>
    rw [h.bottom_back rfl, h.top_back rfl, hread.cont_none hp, hleast, hgreatest]
    cases anchored <;> simp [lowered]
  | forward =>
    rw [h.bottom_forward rfl, h.top_forward rfl, hread.cont_none hp, hleast, hgreatest]
    cases anchored <;> simp [raised]

/-- After a page both maps know partitions of the topic only. -/
theorem PageMerged.known {least greatest : Int → Option Int} {s' : Store} {anchored attach : Bool}
    (h : PageMerged s s' rows direction anchored attach cont least greatest)
    (hread : PageRead w v mark direction positions rows cont stop)
    (hs : Sliding w v debt pending s) :
    (∀ p b, s'.bottomMap.get? p = some b → p ∈ w.parts) ∧
      ∀ p t, s'.topMap.get? p = some t → p ∈ w.parts := by
  have hasked : ∀ p, p ∈ positions.map Prod.fst → p ∈ w.parts := by
    intro p hp
    obtain ⟨e, he, rfl⟩ := List.mem_map.mp hp
    exact hread.known e he
  constructor
  · intro p b hb
    by_cases hp : p ∈ positions.map Prod.fst
    · exact hasked p hp
    · exact hs.bottom_known p b ((h.edges_other hread hp).1 ▸ hb)
  · intro p t ht
    by_cases hp : p ∈ positions.map Prod.fst
    · exact hasked p hp
    · exact hs.top_known p t ((h.edges_other hread hp).2 ▸ ht)

/-- A partition a page did not ask for. -/
theorem PageMerged.stretch_other {least greatest : Int → Option Int} {s' : Store}
    {anchored attach : Bool}
    (h : PageMerged s s' rows direction anchored attach cont least greatest)
    (hread : PageRead w v mark direction positions rows cont stop) {p : Int}
    (hp : p ∉ positions.map Prod.fst) : s'.stretch p = s.stretch p := by
  obtain ⟨hheld, -, -⟩ := h.no_new (hread.no_rows hp)
  obtain ⟨hbottom, htop⟩ := h.edges_other hread hp
  show Stretch.mk (s'.stretch p).held _ _ = Stretch.mk (s.stretch p).held _ _
  rw [hheld, hbottom, htop]

/-- A back page asked from the lower edges as they still are. -/
theorem Sliding.mergeBack (h : Sliding w v debt pending s)
    (hread : PageRead w v mark .back positions rows cont stop)
    (hin : ∀ e ∈ positions, s.bottomMap.get? e.1 = some e.2 ∧ e.2 ≤ mark e.1)
    (start : List Position) (attach : Bool) :
    Sliding w v debt pending (s.mergePage rows .back (some start) cont attach) := by
  obtain ⟨least, greatest, hm⟩ := Store.mergePage_spec h.filed rows .back (some start) cont attach
  generalize s.mergePage rows .back (some start) cont attach = s' at hm
  have hatt : s'.attached = s.attached := hm.attached
  obtain ⟨hbk, htk⟩ := hm.known hread h
  refine ⟨hm.filed, hm.toRowsInserted.held h.held hread.rows_matching, ?_, hbk, htk⟩
  intro p
  rw [hatt]
  by_cases hp : p ∈ positions.map Prod.fst
  · obtain ⟨e, he, rfl⟩ := List.mem_map.mp hp
    obtain ⟨hb, hmark⟩ := hin e he
    have hlow := ((h.sound e.1).bottom_mem e.2 hb).1
    have hstart := LiveTopic.startOf_of_mem hlow hmark
    have hstop := hread.stop_mem e he
    have honward := hread.onward e he
    rw [hstart] at honward
    refine (h.sound e.1).readBack hb hstop.1 honward
      (fun o ho => (LiveTopic.real_bounds o ho).1) (fun o => ?_) (hm.top_back rfl e.1) ?_
    · rw [hm.toRowsInserted.offsets, hread.rows_at he, hstart]
      rfl
    · have hbottom := hm.bottom_back rfl e.1
      rw [hread.cont_at he, hb] at hbottom
      cases hcont : cont with
      | some c =>
        rw [hcont] at hbottom
        exact Or.inl hbottom
      | none =>
        rw [hcont] at hbottom
        exact Or.inr ⟨hread.exhausted hcont e he, least e.1, hm.least_new e.1, hbottom⟩
  · rw [hm.stretch_other hread hp]
    exact h.sound p

/-- A forward page asked from all the upper edges of a detached window. -/
theorem Sliding.mergeForward (h : Sliding w v debt pending s) (hdetached : s.attached = false)
    (hread : PageRead w v mark .forward positions rows cont stop)
    (hin : ∀ e ∈ positions, s.topMap.get? e.1 = some e.2 ∧ e.2 ≤ mark e.1)
    (hall : ∀ p t, s.topMap.get? p = some t → p ∈ positions.map Prod.fst)
    (hpending : cont = none → ∀ p, ∀ o ∈ w.real v p, mark p ≤ o → o ∈ pending p)
    (start : List Position) (attach : Bool) :
    Sliding w v debt pending (s.mergePage rows .forward (some start) cont attach) := by
  obtain ⟨least, greatest, hm⟩ :=
    Store.mergePage_spec h.filed rows .forward (some start) cont attach
  generalize s.mergePage rows .forward (some start) cont attach = s' at hm
  have hatt : s'.attached = cont.isNone := by
    rw [hm.attached, Store.attachedAfter, hdetached, Bool.or_false]
  obtain ⟨hbk, htk⟩ := hm.known hread h
  refine ⟨hm.filed, hm.toRowsInserted.held h.held hread.rows_matching, ?_, hbk, htk⟩
  intro p
  have hsound := h.sound p
  rw [hdetached] at hsound
  rw [hatt]
  by_cases hp : p ∈ positions.map Prod.fst
  · obtain ⟨e, he, rfl⟩ := List.mem_map.mp hp
    obtain ⟨ht, hmark⟩ := hin e he
    have hlow := (hsound.top_mem e.2 ht).1
    have hstart := LiveTopic.startOf_of_mem hlow hmark
    have hstop := hread.stop_mem e he
    have honward := hread.onward e he
    rw [hstart] at honward
    refine hsound.readForward ht honward
      hstop.2 (hread.mark_le e.1) (fun o => ?_) (hm.bottom_forward rfl e.1) ?_ fun hex => ?_
    · rw [hm.toRowsInserted.offsets, hread.rows_at he, hstart]
      rfl
    · have htop := hm.top_forward rfl e.1
      rw [hread.cont_at he, ht] at htop
      cases hcont : cont with
      | some c =>
        rw [hcont] at htop
        exact Or.inl ⟨rfl, htop⟩
      | none =>
        rw [hcont] at htop
        exact Or.inr ⟨rfl, hread.exhausted hcont e he, greatest e.1, hm.greatest_new e.1, htop⟩
    · exact hpending (Option.isNone_iff_eq_none.mp hex) e.1
  · rw [hm.stretch_other hread hp]
    refine hsound.attach ?_ _
    cases ht : s.topMap.get? p with
    | none => exact ht
    | some t => exact absurd (hall p t ht) hp

end Page

/-! ### The first page of a cleared store -/

/-- The feed owes of every partition the records from `debt p` on. -/
def OwedFrom (w : LiveTopic) (v : View) (debt : Int → Int) (pending : Int → Set Int) : Prop :=
  ∀ p, ∀ o ∈ w.real v p, debt p ≤ o → o ∈ pending p

section Anchor

variable {mark stop : Int → Int} {direction : Direction} {positions : List Position}
  {rows : List MessageOut} {cont : Option (List Position)} {s' : Store}
  {attach : Bool} {least greatest : Int → Option Int} {cap : Nat}

/-- Everything the first page put into the store is new. -/
theorem new_of_cleared (s' : Store) (p : Int) :
    newAt (createSlidingWindowStore cap).partitions s'.partitions p = (s'.stretch p).held := by
  refine Set.ext fun o => ⟨fun ho => ho.1, fun ho => ⟨ho, ?_⟩⟩
  rintro ⟨m, hm, -⟩
  cases hm

theorem not_held_cleared (p o : Int) : o ∉ ((createSlidingWindowStore cap).stretch p).held := by
  rintro ⟨m, hm, -⟩
  cases hm

theorem no_rows_cleared :
    ∀ p, ∀ m ∈ (createSlidingWindowStore cap).rowsOf p, m ∈ w.matching v p := by
  intro p m hm
  cases hm

/-- The positions a cleared store knows after its first page. -/
theorem PageMerged.known_first
    (h : PageMerged (createSlidingWindowStore cap) s' rows direction true attach cont least greatest)
    (hread : PageRead w v mark direction positions rows cont stop) :
    (∀ p, p ∉ positions.map Prod.fst → s'.bottomMap.get? p = none ∧ s'.topMap.get? p = none ∧
      ∀ o, o ∉ (s'.stretch p).held) ∧
    (∀ p b, s'.bottomMap.get? p = some b → p ∈ w.parts) ∧
      ∀ p t, s'.topMap.get? p = some t → p ∈ w.parts := by
  have hleft : ∀ p, p ∉ positions.map Prod.fst → s'.bottomMap.get? p = none ∧
      s'.topMap.get? p = none ∧ ∀ o, o ∉ (s'.stretch p).held := by
    intro p hp
    have hsame := h.stretch_other hread hp
    exact ⟨congrArg Stretch.bottom hsame, congrArg Stretch.top hsame,
      fun o ho => not_held_cleared p o (hsame ▸ ho)⟩
  have hasked : ∀ p, p ∈ positions.map Prod.fst → p ∈ w.parts := by
    intro p hp
    obtain ⟨e, he, rfl⟩ := List.mem_map.mp hp
    exact hread.known e he
  refine ⟨hleft, ?_, ?_⟩
  · intro p b hb
    by_contra hp
    rw [(hleft p fun hmem => hp (hasked p hmem)).1] at hb
    cases hb
  · intro p t ht
    by_contra hp
    rw [(hleft p fun hmem => hp (hasked p hmem)).2.1] at ht
    cases ht

/-- A partition without records needs no page. -/
theorem real_of_not_part {p : Int} (hp : p ∉ w.parts) : ∀ o, o ∉ w.real v p := by
  rintro o ⟨m, hm, -⟩
  exact hp (LiveTopic.matching_bounds hm).2.1

/-- A page asked from the high watermarks starts there. -/
theorem PageRead.startOf_latest (hread : PageRead w v mark direction positions rows cont stop)
    (hlatest : ∀ e ∈ positions, e.2 = mark e.1) {e : Position} (he : e ∈ positions) :
    w.startOf mark e = mark e.1 := by
  have hlow := hread.low_le_mark e.1
  rw [← hlatest e he] at hlow
  rw [LiveTopic.startOf_of_mem hlow (hlatest e he).le, hlatest e he]

/-- The first page of a window at the tail. -/
theorem sliding_latest (hread : PageRead w v mark .back positions rows cont stop)
    (hlatest : ∀ e ∈ positions, e.2 = mark e.1) (hall : ∀ p ∈ w.parts, p ∈ positions.map Prod.fst)
    (hpending : ∀ p, ∀ o ∈ w.real v p, mark p ≤ o → o ∈ pending p) :
    Sliding w v debt pending
      ((createSlidingWindowStore cap).mergePage rows .back none cont true) := by
  obtain ⟨least, greatest, hm⟩ := Store.mergePage_spec (createSlidingWindowStore_filed cap) rows
    .back none cont true
  generalize (createSlidingWindowStore cap).mergePage rows .back none cont true = s' at hm
  obtain ⟨hleft, hbk, htk⟩ := hm.known_first hread
  refine ⟨hm.filed, hm.toRowsInserted.held no_rows_cleared hread.rows_matching, ?_, hbk, htk⟩
  intro p
  have hatt : s'.attached = true := hm.attached
  rw [hatt]
  by_cases hp : p ∈ positions.map Prod.fst
  · obtain ⟨e, he, rfl⟩ := List.mem_map.mp hp
    have hstart := hread.startOf_latest hlatest he
    have hstop := hread.stop_mem e he
    refine Stretch.sound_latest hstop.1
      hstop.2 (hread.mark_le e.1) (fun o ho => (LiveTopic.real_bounds o ho).1) (fun o => ?_)
      ⟨greatest e.1, new_of_cleared s' e.1 ▸ hm.greatest_new e.1, hm.top_back rfl e.1⟩ ?_
      (hpending e.1)
    · rw [hm.toRowsInserted.offsets, hread.rows_at he, hstart]
      simp only [not_held_cleared, false_or]
      rfl
    · have hbottom := hm.bottom_back rfl e.1
      rw [hread.cont_at he] at hbottom
      cases hcont : cont with
      | some c =>
        rw [hcont] at hbottom
        exact Or.inl hbottom
      | none =>
        rw [hcont] at hbottom
        have hleast : s'.bottomMap.get? e.1 = least e.1 := by
          rw [hbottom]
          cases least e.1 <;> rfl
        refine Or.inr ⟨hread.exhausted hcont e he, ?_⟩
        show LeastOf _ (s'.bottomMap.get? e.1)
        rw [hleast]
        exact new_of_cleared s' e.1 ▸ hm.least_new e.1
  · obtain ⟨hb, ht, hheld⟩ := hleft p hp
    exact Stretch.sound_cleared hheld hb ht
      (fun o ho => absurd ho (real_of_not_part (fun hmem => hp (hall p hmem)) o))

/-- Of a partition that page leaves without a lower edge it found nothing. -/
theorem PageMerged.rooted_latest
    (hm : PageMerged (createSlidingWindowStore cap) s' rows .back true true cont least greatest)
    (hread : PageRead w v mark .back positions rows cont stop)
    (hlatest : ∀ e ∈ positions, e.2 = mark e.1) (hall : ∀ p ∈ w.parts, p ∈ positions.map Prod.fst)
    {p : Int} (hnone : s'.bottomMap.get? p = none) : ∀ o ∈ w.real v p, mark p ≤ o := by
  intro o ho
  by_contra hlt
  have hlt := not_le.mp hlt
  rw [hm.bottom_back rfl, Option.or_eq_none_iff] at hnone
  have hpart : p ∈ w.parts := by
    by_contra hp
    exact real_of_not_part hp o ho
  obtain ⟨e, he, rfl⟩ := List.mem_map.mp (hall p hpart)
  rw [hread.cont_at he] at hnone
  -- the page was exhausted, so it read down to the low watermark
  have hstop := hread.exhausted (Option.map_eq_none_iff.mp hnone.1) e he
  obtain ⟨m, hrow, hp, rfl⟩ : ∃ m ∈ rows, m.partition = e.1 ∧ m.offset = o := by
    refine (hread.rows_at he o).mpr ⟨ho, ?_, (hread.startOf_latest hlatest he).symm ▸ hlt⟩
    rw [hstop]
    exact (LiveTopic.real_bounds o ho).1
  have hnew : m.offset ∈ newAt (createSlidingWindowStore cap).partitions s'.partitions e.1 := by
    rw [new_of_cleared s' e.1, hm.toRowsInserted.offsets]
    exact Or.inr ⟨m, hrow, hp, rfl⟩
  have hleast := hm.least_new e.1
  cases hl : least e.1 with
  | none =>
    rw [hl] at hleast
    exact hleast m.offset hnew
  | some y =>
    rw [hl] at hnone
    cases hnone.2

/-- The first page of a window opened forward. -/
theorem sliding_forward (hread : PageRead w v mark .forward positions rows cont stop)
    (hall : ∀ p ∈ w.parts, p ∈ positions.map Prod.fst) (hdebt : OwedFrom w v debt pending)
    (hmark : ∀ p, debt p ≤ mark p) :
    Sliding w v debt pending
      ((createSlidingWindowStore cap).mergePage rows .forward none cont false) := by
  obtain ⟨least, greatest, hm⟩ := Store.mergePage_spec (createSlidingWindowStore_filed cap) rows
    .forward none cont false
  generalize (createSlidingWindowStore cap).mergePage rows .forward none cont false = s' at hm
  obtain ⟨hleft, hbk, htk⟩ := hm.known_first hread
  refine ⟨hm.filed, hm.toRowsInserted.held no_rows_cleared hread.rows_matching, ?_, hbk, htk⟩
  intro p
  have hatt : s'.attached = cont.isNone := by
    rw [hm.attached]
    exact Bool.or_false _
  rw [hatt]
  by_cases hp : p ∈ positions.map Prod.fst
  · obtain ⟨e, he, rfl⟩ := List.mem_map.mp hp
    have hclamp := clamp_mem e.2 (hread.low_le_mark e.1)
    have hstop := hread.stop_mem e he
    have hbottom : s'.bottomMap.get? e.1 = least e.1 := by
      rw [hm.bottom_forward rfl]
      rfl
    refine Stretch.sound_forward
      hclamp.1 (hread.onward e he) hstop.2 (hread.mark_le e.1) (fun o => ?_) ?_
      ?_ (fun _ o ho hle => hdebt e.1 o ho ((hmark e.1).trans hle)) (hdebt e.1)
    · rw [hm.toRowsInserted.offsets, hread.rows_at he]
      simp only [not_held_cleared, false_or]
      rfl
    · show LeastOf _ (s'.bottomMap.get? e.1)
      rw [hbottom]
      exact new_of_cleared s' e.1 ▸ hm.least_new e.1
    · have htop := hm.top_forward rfl e.1
      rw [hread.cont_at he] at htop
      cases hcont : cont with
      | some c =>
        rw [hcont] at htop
        exact Or.inl ⟨rfl, htop⟩
      | none =>
        rw [hcont] at htop
        refine Or.inr ⟨rfl, hread.exhausted hcont e he, greatest e.1,
          new_of_cleared s' e.1 ▸ hm.greatest_new e.1, htop.trans ?_⟩
        cases greatest e.1 <;> rfl
  · obtain ⟨hb, ht, hheld⟩ := hleft p hp
    exact Stretch.sound_cleared hheld hb ht
      (fun o ho => absurd ho (real_of_not_part (fun hmem => hp (hall p hmem)) o))

end Anchor

/-! ### Live rows -/

/-- The feed hands over rows it owed to an attached window. -/
theorem Sliding.mergeLive (h : Sliding w v debt pending s) (hattached : s.attached = true)
    {rows : List MessageOut} {pending' : Int → Set Int}
    (hrows : ∀ m ∈ rows, m ∈ w.matching v m.partition ∧ debt m.partition ≤ m.offset)
    (hpending : ∀ p, ∀ o ∈ pending p, o ∈ w.real v p →
      (∃ m ∈ rows, m.partition = p ∧ m.offset = o) ∨ o ∈ pending' p) :
    Sliding w v debt pending' (s.mergeLive rows) := by
  obtain ⟨least, greatest, hm⟩ := Store.mergeLive_spec h.filed rows
  generalize s.mergeLive rows = s' at hm
  have hatt : s'.attached = true := hm.attached.trans hattached
  have hsafe : ∀ m, m ∈ s.safeRows rows ↔
      m ∈ rows ∧ ∀ b, s.bottomMap.get? m.partition = some b → b ≤ m.offset := by
    intro m
    rw [Store.safeRows, List.mem_filter]
    apply and_congr_right
    intro _
    cases s.bottomMap.get? m.partition <;> simp
  have hheldReal := hm.toRowsInserted.held h.held fun m hmem => (hrows m ((hsafe m).mp hmem).1).1
  refine ⟨hm.filed, hheldReal, ?_, ?_, ?_⟩
  · intro p
    have hsound := h.sound p
    rw [hattached] at hsound
    rw [hatt]
    refine hsound.deliver {o | ∃ m ∈ rows, m.partition = p ∧ m.offset = o}
      (fun o ho => LiveTopic.real_bounds o ho) ?_ ?_ (hpending p) (fun o => ?_)
      (congrArg (OrdMap.get? · p) hm.bottomMap) ⟨greatest p, hm.greatest_new p, hm.top p⟩
    · rintro o ⟨m, hmem, rfl, rfl⟩
      exact offset_real (hrows m hmem).1
    · rintro o ⟨m, hmem, rfl, rfl⟩
      exact (hrows m hmem).2
    · rw [hm.toRowsInserted.offsets]
      refine or_congr_right ⟨?_, ?_⟩
      · rintro ⟨m, hmem, rfl, rfl⟩
        exact ⟨⟨m, ((hsafe m).mp hmem).1, rfl, rfl⟩, ((hsafe m).mp hmem).2⟩
      · rintro ⟨⟨m, hmem, rfl, rfl⟩, hb⟩
        exact ⟨m, (hsafe m).mpr ⟨hmem, hb⟩, rfl, rfl⟩
  · intro p b hb
    exact h.bottom_known p b (hm.bottomMap ▸ hb)
  · intro p t ht
    -- an upper edge that is new comes from a row
    have htop := hm.top p
    cases hg : greatest p with
    | none =>
      rw [hg] at htop
      exact h.top_known p t (htop.symm.trans ht)
    | some x =>
      have hgreatest := hm.greatest_new p
      rw [hg] at hgreatest
      obtain ⟨m, hmem, -⟩ := hgreatest.1.1
      exact (LiveTopic.matching_bounds (hheldReal p m hmem)).2.1

end Arne.Client
