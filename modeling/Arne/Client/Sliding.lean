import Arne.Client.LiveTopic

/-!
# The window stays whole

The store as one stretch of the log for each partition, and what every operation of it
keeps: a page read on from an edge, a first page, a live batch and the cap.
-/

namespace Arne.Client

open Arne.Message Arne.Timeline Arne.SortedLog

/-! ### A partition of the store as a stretch -/

def Store.stretch (s : Store) (p : Int) : Stretch :=
  ⟨offsetsAt s.partitions p, s.bottomMap.get? p, s.topMap.get? p⟩

/-- The store holds matching messages only, is sound in every partition, and knows
    positions of the topic's partitions only. -/
structure Sliding (w : LiveTopic) (v : View) (debt : Int → Int) (pending : Int → Set Int)
    (s : Store) : Prop where
  filed : s.Filed
  held : ∀ p, ∀ m ∈ s.rowsOf p, m ∈ w.matching v p
  sound : ∀ p,
    (s.stretch p).Sound (w.low p) (w.high p) (debt p) (w.real v p) (pending p) s.attached
  bottom_known : ∀ p b, s.bottomMap.get? p = some b → p ∈ w.parts
  top_known : ∀ p t, s.topMap.get? p = some t → p ∈ w.parts

variable {w w' : LiveTopic} {v : View} {debt : Int → Int} {pending : Int → Set Int} {s s' : Store}

theorem Sliding.grow (h : Sliding w v debt pending s) (hgrow : w.Grows w')
    (hpending : ∀ p, ∀ o ∈ w'.real v p, w.high p ≤ o → o ∈ pending p) :
    Sliding w' v debt pending s where
  filed := h.filed
  held p m hm := (hgrow.mem_matching.mp (h.held p m hm)).1
  sound p := by
    rw [hgrow.low]
    refine (h.sound p).grow (hgrow.high p) (fun o ho => (hgrow.real.mp ho).1) (fun o ho hnot => ?_)
      fun o ho => (LiveTopic.real_bounds o ho).2
    have hpast : w.high p ≤ o := not_lt.mp fun hlt => hnot (hgrow.real.mpr ⟨ho, hlt⟩)
    exact ⟨hpast, hpending p o ho hpast⟩
  bottom_known p b hb := hgrow.parts ▸ h.bottom_known p b hb
  top_known p t ht := hgrow.parts ▸ h.top_known p t ht

theorem Sliding.pending_congr (h : Sliding w v debt pending s) {pending' : Int → Set Int}
    (hstill : ∀ p, ∀ o ∈ w.real v p, o ∈ pending p →
      (s.attached = false → ∀ t, s.topMap.get? p = some t → o < t) →
        o ∈ (s.stretch p).held ∨ o ∈ pending' p) : Sliding w v debt pending' s where
  filed := h.filed
  held := h.held
  sound p := (h.sound p).pending_congr (hstill p)
  bottom_known := h.bottom_known
  top_known := h.top_known

/-! ### Rows and offsets -/

theorem offset_real {p : Int} {m : MessageOut} (hm : m ∈ w.matching v p) : m.offset ∈ w.real v p :=
  ⟨m, hm, rfl⟩

/-- Of a partition that is filed, the message at an offset. -/
theorem Sliding.mem_rowsOf_iff (h : Sliding w v debt pending s) {p : Int} {m : MessageOut}
    (hm : m ∈ w.matching v p) : m ∈ s.rowsOf p ↔ m.offset ∈ (s.stretch p).held := by
  constructor
  · exact fun hrow => ⟨m, hrow, rfl⟩
  · rintro ⟨m', hm', heq⟩
    exact LiveTopic.matching_eq (h.held p m' hm') hm heq ▸ hm'

theorem RowsInserted.offsets {rows : List MessageOut} {least greatest : Int → Option Int}
    (h : RowsInserted s s' rows least greatest) (p o : Int) :
    o ∈ (s'.stretch p).held ↔
      o ∈ (s.stretch p).held ∨ ∃ m ∈ rows, m.partition = p ∧ m.offset = o := by
  constructor
  · rintro ⟨m, hm, rfl⟩
    refine (h.added p m hm).imp (fun hold => ⟨m, hold, rfl⟩) fun hrow => ?_
    exact ⟨m, hrow, h.filed.partition_eq p m hm, rfl⟩
  · rintro (⟨m, hm, rfl⟩ | ⟨m, hm, rfl, rfl⟩)
    · exact ⟨m, h.kept p m hm, rfl⟩
    · exact h.has m hm

theorem RowsInserted.held {rows : List MessageOut} {least greatest : Int → Option Int}
    (h : RowsInserted s s' rows least greatest) (hold : ∀ p, ∀ m ∈ s.rowsOf p, m ∈ w.matching v p)
    (hrows : ∀ m ∈ rows, m ∈ w.matching v m.partition) :
    ∀ p, ∀ m ∈ s'.rowsOf p, m ∈ w.matching v p := by
  intro p m hm
  rcases h.added p m hm with hm' | hm'
  · exact hold p m hm'
  · exact h.filed.partition_eq p m hm ▸ hrows m hm'

/-- A partition that got no rows has no new offset. -/
theorem RowsInserted.no_new {rows : List MessageOut} {least greatest : Int → Option Int}
    (h : RowsInserted s s' rows least greatest) {p : Int} (hnone : ∀ m ∈ rows, m.partition ≠ p) :
    (s'.stretch p).held = (s.stretch p).held ∧ least p = none ∧ greatest p = none := by
  have hsame : ∀ o, o ∈ (s'.stretch p).held → o ∈ (s.stretch p).held := by
    intro o ho
    rcases (h.offsets p o).mp ho with hold | ⟨m, hm, hp, -⟩
    · exact hold
    · exact absurd hp (hnone m hm)
  have hempty : ∀ o, o ∉ newAt s.partitions s'.partitions p := fun o ho => ho.2 (hsame o ho.1)
  refine ⟨Set.ext fun o => ⟨hsame o, fun ho => (h.offsets p o).mpr (Or.inl ho)⟩, ?_, ?_⟩
  · have hleast := h.least_new p
    cases hl : least p with
    | none => rfl
    | some x => rw [hl] at hleast; exact absurd hleast.1 (hempty x)
  · have hgreatest := h.greatest_new p
    cases hg : greatest p with
    | none => rfl
    | some x => rw [hg] at hgreatest; exact absurd hgreatest.1 (hempty x)

theorem leastOf_head {l : List MessageOut} (h : Ascending MessageOut.offset l) :
    LeastOf {o | ∃ m ∈ l, m.offset = o} (l.head?.map MessageOut.offset) := by
  cases l with
  | nil => exact fun o ⟨m, hm, _⟩ => by cases hm
  | cons m l =>
    refine ⟨⟨m, List.mem_cons_self, rfl⟩, ?_⟩
    rintro o ⟨x, hx, rfl⟩
    rcases List.mem_cons.mp hx with rfl | hx
    · exact le_refl _
    · exact le_of_lt ((List.pairwise_cons.mp h).1 x hx)

theorem greatestOf_getLast {l : List MessageOut} (h : Ascending MessageOut.offset l) :
    GreatestOf {o | ∃ m ∈ l, m.offset = o} (l.getLast?.map MessageOut.offset) := by
  rcases List.eq_nil_or_concat l with rfl | ⟨init, m, rfl⟩
  · exact fun o ⟨m, hm, _⟩ => by cases hm
  · rw [List.concat_eq_append] at h ⊢
    rw [List.getLast?_append_of_ne_nil _ (by simp)]
    refine ⟨⟨m, by simp, rfl⟩, ?_⟩
    rintro o ⟨x, hx, rfl⟩
    rcases List.mem_append.mp hx with hx | hx
    · exact le_of_lt ((List.pairwise_append.mp h).2.2 x hx m (by simp))
    · obtain rfl := List.mem_singleton.mp hx
      exact le_refl _

/-! ### The cap -/

theorem Sliding.trimTop (h : Sliding w v debt pending s) (ht : TrimmedTop s s') :
    Sliding w v debt pending s' := by
  have hkept : ∀ p, ∀ m ∈ s'.rowsOf p, m ∈ s.rowsOf p := by
    intro p m hm
    obtain ⟨lost, hrows, -⟩ := ht.rows p
    exact hrows ▸ List.mem_append_left _ hm
  refine ⟨ht.filed, fun p m hm => h.held p m (hkept p m hm), ?_,
    fun p b hb => h.bottom_known p b (ht.bottomMap ▸ hb), ?_⟩
  · intro p
    obtain ⟨lost, hrows, htop⟩ := ht.rows p
    have hasc : Ascending MessageOut.offset (s'.rowsOf p ++ lost) := hrows ▸ h.filed.ascending p
    obtain ⟨hasc', hlost, hacross⟩ := List.pairwise_append.mp hasc
    rw [ht.attached]
    refine (h.sound p).trimTop {o | ∃ m ∈ lost, m.offset = o}
      (fun o ho => LiveTopic.real_bounds o ho) (fun o => ?_) ?_ ?_
      ⟨_, _, leastOf_head hlost, greatestOf_getLast hasc', ?_⟩
    · show (∃ m ∈ s.rowsOf p, m.offset = o) ↔ (∃ m ∈ s'.rowsOf p, m.offset = o) ∨ _
      rw [hrows]
      simp only [List.mem_append, or_and_right, exists_or, Set.mem_ofPred_eq]
    · rintro o ⟨m, hm, rfl⟩ o' ⟨m', hm', rfl⟩
      exact hacross m hm m' hm'
    · exact congrArg (OrdMap.get? · p) ht.bottomMap
    · exact htop.trans (by rw [Option.map_map]; rfl)
  · intro p t htop
    obtain ⟨lost, hrows, htop'⟩ := ht.rows p
    rw [htop', Option.or_eq_some_iff, Option.or_eq_some_iff] at htop
    rcases htop with hhead | ⟨-, hlast | ⟨-, hold⟩⟩
    · obtain ⟨m, hm, -⟩ := Option.map_eq_some_iff.mp hhead
      have hmem : m ∈ s.rowsOf p := hrows ▸ List.mem_append_right _ (List.mem_of_mem_head? hm)
      exact (LiveTopic.matching_bounds (h.held p m hmem)).2.1
    · obtain ⟨m, hm, -⟩ := Option.map_eq_some_iff.mp hlast
      have hmem := hkept p m (List.mem_of_getLast? hm)
      exact (LiveTopic.matching_bounds (h.held p m hmem)).2.1
    · exact h.top_known p t hold

theorem Sliding.trimBottom (h : Sliding w v debt pending s) (ht : TrimmedBottom s s') :
    Sliding w v debt pending s' := by
  have hkept : ∀ p, ∀ m ∈ s'.rowsOf p, m ∈ s.rowsOf p := by
    intro p m hm
    obtain ⟨lost, hrows, -⟩ := ht.rows p
    exact hrows ▸ List.mem_append_right _ hm
  refine ⟨ht.filed, fun p m hm => h.held p m (hkept p m hm), ?_, ?_,
    fun p t htop => h.top_known p t (ht.topMap ▸ htop)⟩
  · intro p
    obtain ⟨lost, hrows, hbottom⟩ := ht.rows p
    have hasc : Ascending MessageOut.offset (lost ++ s'.rowsOf p) := hrows ▸ h.filed.ascending p
    obtain ⟨hlost, -, hacross⟩ := List.pairwise_append.mp hasc
    rw [ht.attached]
    refine (h.sound p).trimBottom {o | ∃ m ∈ lost, m.offset = o}
      (fun o ho => LiveTopic.real_bounds o ho) (fun o => ?_) ?_ ?_
      ⟨_, greatestOf_getLast hlost, ?_⟩
    · show (∃ m ∈ s.rowsOf p, m.offset = o) ↔ (∃ m ∈ s'.rowsOf p, m.offset = o) ∨ _
      rw [hrows]
      simp only [List.mem_append, or_and_right, exists_or, Set.mem_ofPred_eq, or_comm]
    · rintro o ⟨m, hm, rfl⟩ o' ⟨m', hm', rfl⟩
      exact hacross m hm m' hm'
    · exact congrArg (OrdMap.get? · p) ht.topMap
    · exact hbottom.trans (by rw [Option.map_map]; rfl)
  · intro p b hb
    obtain ⟨lost, hrows, hbottom⟩ := ht.rows p
    rw [hbottom, Option.or_eq_some_iff] at hb
    rcases hb with hlast | ⟨-, hold⟩
    · obtain ⟨m, hm, -⟩ := Option.map_eq_some_iff.mp hlast
      have hmem : m ∈ s.rowsOf p := hrows ▸ List.mem_append_left _ (List.mem_of_getLast? hm)
      exact (LiveTopic.matching_bounds (h.held p m hmem)).2.1
    · exact h.bottom_known p b hold

theorem Sliding.enforceCap (h : Sliding w v debt pending s) (kind : CapKind) :
    Sliding w v debt pending (s.enforceCap kind).1 := by
  have hresult := Store.enforceCap_result h.filed kind
  cases hcap : s.enforceCap kind with
  | mk s' outcome =>
    rw [hcap] at hresult
    cases hresult with
    | fits => exact h
    | top _ ht => exact h.trimTop ht
    | bottom _ ht => exact h.trimBottom ht

end Arne.Client
