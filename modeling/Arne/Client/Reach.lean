import Arne.Client.Session

/-!
# What a window reaches

Which records the lower edge still delivers, and between which bounds the rows and the
positions of a window lie.
-/

namespace Arne.Client

open Arne.Message Arne.Timeline Arne.SortedLog

variable {w : LiveTopic} {v : View} {s s' : Store}

/-! ### Following the lower edge -/

/-- Back pages from `edges().bottom` can be followed to an exhausted one, and whoever does
    receives the message. -/
def Store.DeliversBelow (s : Store) (w : LiveTopic) (v : View) (m : MessageOut) : Prop :=
  ∃ cursor, s.edges.bottom = some cursor ∧
    (∃ messages, Follows (w.reading v .back) cursor messages) ∧
      ∀ messages, Follows (w.reading v .back) cursor messages → m ∈ messages

/-- What is left below the positions. -/
theorem LiveTopic.mem_remaining_back {positions : List Position} {p : Int} {m : MessageOut}
    (hm : m ∈ w.matching v p) :
    m ∈ keptMessages v.handle v.filter ((w.reading v .back).remaining positions) ↔
      ∃ b, (p, b) ∈ positions ∧ m.offset < b := by
  obtain ⟨hp, hpart, hlow, hhigh⟩ := LiveTopic.matching_bounds hm
  have hfound : ∀ e : Position, e.1 = p →
      findWatermark w.watermarks e.1 = some (w.low p, w.high p) := fun e he =>
    LiveTopic.findWatermark_eq.mpr ⟨he ▸ hpart, by rw [he], by rw [he]⟩
  have hedge : edgeOf w.watermarks .back p = w.low p := by
    simp only [edgeOf, hfound (p, 0) rfl]
  rw [keptMessages, List.mem_filter, List.mem_map]
  constructor
  · rintro ⟨⟨r, hr, rfl⟩, -⟩
    obtain ⟨e, he, hpassed⟩ := List.mem_flatMap.mp hr
    obtain ⟨hlog, hcov⟩ := mem_passed.mp hpassed
    obtain ⟨e', he', hclamp⟩ := List.mem_filterMap.mp he
    have he1 : p = e.1 := hp.symm.trans (w.topic.partition_eq e.1 r hlog)
    simp only [clampPosition] at hclamp
    obtain ⟨⟨lo, hi⟩, hw, rfl⟩ := Option.map_eq_some_iff.mp hclamp
    obtain ⟨-, rfl, rfl⟩ := LiveTopic.findWatermark_eq.mp hw
    refine ⟨e'.2, (show p = e'.1 from he1) ▸ he', ?_⟩
    have hlow : w.low e'.1 ≤ r.offset := (show p = e'.1 from he1) ▸ hlow
    have hbelow : r.offset < clamp e'.2 (w.low e'.1) (w.high e'.1) := hcov.2
    show r.offset < e'.2
    simp only [clamp] at hbelow
    split at hbelow
    · omega
    · split at hbelow <;> omega
  · rintro ⟨b, hb, hlt⟩
    obtain ⟨⟨r, hr, rfl⟩, hkeep⟩ := LiveTopic.mem_matching.mp hm
    refine ⟨⟨r, List.mem_flatMap.mpr ⟨(p, clamp b (w.low p) (w.high p)), ?_, ?_⟩, rfl⟩, hkeep⟩
    · refine List.mem_filterMap.mpr ⟨(p, b), hb, ?_⟩
      show (findWatermark w.watermarks p).map _ = _
      rw [hfound (p, b) rfl]
      rfl
    · refine mem_passed.mpr ⟨hr, ?_⟩
      show edgeOf w.watermarks .back p ≤ r.offset ∧ r.offset < clamp b (w.low p) (w.high p)
      rw [hedge]
      refine ⟨hlow, ?_⟩
      have hhigh : r.offset < w.high p := hhigh
      have hlt : r.offset < b := hlt
      have hlow : w.low p ≤ r.offset := hlow
      simp only [clamp]
      split
      · omega
      · split <;> omega

/-- The lower edge delivers of a partition what lies below its position. -/
theorem Store.deliversBelow_iff {p : Int} {m : MessageOut} (hm : m ∈ w.matching v p) :
    s.DeliversBelow w v m ↔ ∃ b, s.bottomMap.get? p = some b ∧ m.offset < b := by
  have hnodup : ((encodeCursor (mapToPositions s.bottomMap)).map Prod.fst).Nodup :=
    mapToPositions_nodup _
  have hordered : Ordered (w.reading v .back).watermarks := w.ordered
  have hmem : ∀ messages, Follows (w.reading v .back) (encodeCursor (mapToPositions s.bottomMap))
      messages → (m ∈ messages ↔ ∃ b, s.bottomMap.get? p = some b ∧ m.offset < b) := by
    intro messages hfollows
    rw [(follows_perm hordered hfollows hnodup).mem_iff]
    refine (LiveTopic.mem_remaining_back hm).trans
      (exists_congr fun b => and_congr_left fun _ => ?_)
    exact mem_encodeCursor s.bottomMap (p, b)
  constructor
  · rintro ⟨cursor, hedge, ⟨messages, hfollows⟩, hall⟩
    obtain rfl := Store.edges_bottom hedge
    exact (hmem messages hfollows).mp (hall messages hfollows)
  · rintro ⟨b, hb, hlt⟩
    refine ⟨encodeCursor (mapToPositions s.bottomMap), ?_,
      Reading.exists_follows (w.fits v .back) hordered hnodup,
      fun messages hfollows => (hmem messages hfollows).mpr ⟨b, hb, hlt⟩⟩
    simp only [Store.edges, if_neg (OrdMap.size_ne_zero_of_get? hb)]

/-! ### Entries stay -/

/-- No partition loses its entry in either map. -/
structure Store.KeepsEntries (s s' : Store) : Prop where
  bottom : ∀ p, s'.bottomMap.get? p = none → s.bottomMap.get? p = none
  top : ∀ p, s'.topMap.get? p = none → s.topMap.get? p = none

theorem Store.KeepsEntries.trans {s'' : Store} (h : s.KeepsEntries s') (h' : s'.KeepsEntries s'') :
    s.KeepsEntries s'' :=
  ⟨fun p hp => h.bottom p (h'.bottom p hp), fun p hp => h.top p (h'.top p hp)⟩

theorem lowered_eq_none {old least : Option Int} (h : lowered old least = none) : old = none := by
  cases least with
  | none => exact h
  | some _ => cases h

theorem raised_eq_none {old greatest : Option Int} (h : raised old greatest = none) :
    old = none := by
  cases greatest with
  | none => exact h
  | some _ => cases h

theorem PageMerged.keepsEntries {rows : List MessageOut} {direction : Direction}
    {anchored attach : Bool} {cont : Option (List Position)} {least greatest : Int → Option Int}
    (h : PageMerged s s' rows direction anchored attach cont least greatest) :
    s.KeepsEntries s' := by
  cases direction with
  | back =>
    constructor
    · intro p hp
      rw [h.bottom_back rfl, Option.or_eq_none_iff] at hp
      exact lowered_eq_none hp.2
    · intro p hp
      rw [h.top_back rfl] at hp
      split at hp
      · exact (Option.or_eq_none_iff.mp hp).1
      · exact hp
  | forward =>
    constructor
    · intro p hp
      rw [h.bottom_forward rfl] at hp
      split at hp
      · exact (Option.or_eq_none_iff.mp hp).1
      · exact hp
    · intro p hp
      rw [h.top_forward rfl, Option.or_eq_none_iff] at hp
      exact raised_eq_none hp.2

theorem LiveMerged.keepsEntries {rows : List MessageOut} {least greatest : Int → Option Int}
    (h : LiveMerged s s' rows least greatest) : s.KeepsEntries s' :=
  ⟨fun _ hp => h.bottomMap ▸ hp, fun p hp => raised_eq_none ((h.top p).symm.trans hp)⟩

theorem Store.enforceCap_keepsEntries (h : s.Filed) (kind : CapKind) :
    s.KeepsEntries (s.enforceCap kind).1 := by
  have hresult := Store.enforceCap_result h kind
  cases hcap : s.enforceCap kind with
  | mk s' outcome =>
    rw [hcap] at hresult
    cases hresult with
    | fits => exact ⟨fun _ hp => hp, fun _ hp => hp⟩
    | top _ ht =>
      refine ⟨fun p hp => ht.bottomMap ▸ hp, ?_⟩
      intro p hp
      obtain ⟨lost, -, htop⟩ := ht.rows p
      rw [htop, Option.or_eq_none_iff, Option.or_eq_none_iff] at hp
      exact hp.2.2
    | bottom _ ht =>
      refine ⟨?_, fun p hp => ht.topMap ▸ hp⟩
      intro p hp
      obtain ⟨lost, -, hbottom⟩ := ht.rows p
      rw [hbottom, Option.or_eq_none_iff] at hp
      exact hp.2

/-! ### Bounds -/

/-- Every position in the maps lies in `[lo, hi]`, every row in `[lo, hi)`. -/
structure Store.Within (s : Store) (lo hi : Int → Int) : Prop where
  rows : ∀ p, ∀ m ∈ s.rowsOf p, lo p ≤ m.offset ∧ m.offset < hi p
  bottom : ∀ p b, s.bottomMap.get? p = some b → lo p ≤ b ∧ b ≤ hi p
  top : ∀ p t, s.topMap.get? p = some t → lo p ≤ t ∧ t ≤ hi p

variable {lo hi : Int → Int}

theorem createSlidingWindowStore_within (cap : Nat) (lo hi : Int → Int) :
    (createSlidingWindowStore cap).Within lo hi where
  rows _ _ hm := by cases hm
  bottom _ _ hb := by cases hb
  top _ _ ht := by cases ht

theorem Store.Within.mono (h : s.Within lo hi) {hi' : Int → Int} (hle : ∀ p, hi p ≤ hi' p) :
    s.Within lo hi' where
  rows p m hm := ⟨(h.rows p m hm).1, (h.rows p m hm).2.trans_le (hle p)⟩
  bottom p b hb := ⟨(h.bottom p b hb).1, (h.bottom p b hb).2.trans (hle p)⟩
  top p t ht := ⟨(h.top p t ht).1, (h.top p t ht).2.trans (hle p)⟩

/-- The rows after an insertion, and so the least and greatest of those that are new. -/
theorem RowsInserted.within {rows : List MessageOut} {least greatest : Int → Option Int}
    (h : RowsInserted s s' rows least greatest) (hold : s.Within lo hi)
    (hrows : ∀ m ∈ rows, lo m.partition ≤ m.offset ∧ m.offset < hi m.partition) :
    (∀ p, ∀ m ∈ s'.rowsOf p, lo p ≤ m.offset ∧ m.offset < hi p) ∧
      (∀ p o, least p = some o → lo p ≤ o ∧ o < hi p) ∧
        ∀ p o, greatest p = some o → lo p ≤ o ∧ o < hi p := by
  have hall : ∀ p, ∀ m ∈ s'.rowsOf p, lo p ≤ m.offset ∧ m.offset < hi p := by
    intro p m hm
    rcases h.added p m hm with hm' | hm'
    · exact hold.rows p m hm'
    · exact h.filed.partition_eq p m hm ▸ hrows m hm'
  refine ⟨hall, ?_, ?_⟩
  · intro p o ho
    have hleast := h.least_new p
    rw [ho] at hleast
    obtain ⟨⟨m, hm, rfl⟩, -⟩ := hleast.1
    exact hall p m hm
  · intro p o ho
    have hgreatest := h.greatest_new p
    rw [ho] at hgreatest
    obtain ⟨⟨m, hm, rfl⟩, -⟩ := hgreatest.1
    exact hall p m hm

theorem lowered_within {a b : Int} {old least : Option Int}
    (hold : ∀ x, old = some x → a ≤ x ∧ x ≤ b) (hleast : ∀ x, least = some x → a ≤ x ∧ x < b) :
    ∀ x, lowered old least = some x → a ≤ x ∧ x ≤ b := by
  intro x hx
  cases least with
  | none => exact hold x hx
  | some l =>
    have hl := hleast l rfl
    cases old with
    | none =>
      obtain rfl : l = x := Option.some.inj hx
      exact ⟨hl.1, le_of_lt hl.2⟩
    | some y =>
      obtain rfl : min y l = x := Option.some.inj hx
      have hy := hold y rfl
      omega

theorem raised_within {a b : Int} {old greatest : Option Int}
    (hold : ∀ x, old = some x → a ≤ x ∧ x ≤ b)
    (hgreatest : ∀ x, greatest = some x → a ≤ x ∧ x < b) :
    ∀ x, raised old greatest = some x → a ≤ x ∧ x ≤ b := by
  intro x hx
  cases greatest with
  | none => exact hold x hx
  | some g =>
    have hg := hgreatest g rfl
    cases old with
    | none =>
      obtain rfl : g + 1 = x := Option.some.inj hx
      omega
    | some y =>
      obtain rfl : max y (g + 1) = x := Option.some.inj hx
      have hy := hold y rfl
      omega

theorem PageMerged.within {rows : List MessageOut} {direction : Direction}
    {anchored attach : Bool} {cont : Option (List Position)} {least greatest : Int → Option Int}
    (h : PageMerged s s' rows direction anchored attach cont least greatest)
    (hold : s.Within lo hi)
    (hrows : ∀ m ∈ rows, lo m.partition ≤ m.offset ∧ m.offset < hi m.partition)
    (hcont : ∀ p x, cont.bind (OrdMap.lastFor p) = some x → lo p ≤ x ∧ x ≤ hi p) :
    s'.Within lo hi := by
  obtain ⟨hall, hleast, hgreatest⟩ := h.toRowsInserted.within hold hrows
  cases direction with
  | back =>
    refine ⟨hall, ?_, ?_⟩
    · intro p b hb
      rw [h.bottom_back rfl, Option.or_eq_some_iff] at hb
      rcases hb with hb | ⟨-, hb⟩
      · exact hcont p b hb
      · exact lowered_within (hold.bottom p) (hleast p) b hb
    · intro p t ht
      rw [h.top_back rfl] at ht
      split at ht
      · rcases Option.or_eq_some_iff.mp ht with ht | ⟨-, ht⟩
        · exact hold.top p t ht
        · obtain ⟨g, hg, rfl⟩ := Option.map_eq_some_iff.mp ht
          have := hgreatest p g hg
          omega
      · exact hold.top p t ht
  | forward =>
    refine ⟨hall, ?_, ?_⟩
    · intro p b hb
      rw [h.bottom_forward rfl] at hb
      split at hb
      · rcases Option.or_eq_some_iff.mp hb with hb | ⟨-, hb⟩
        · exact hold.bottom p b hb
        · have := hleast p b hb
          omega
      · exact hold.bottom p b hb
    · intro p t ht
      rw [h.top_forward rfl, Option.or_eq_some_iff] at ht
      rcases ht with ht | ⟨-, ht⟩
      · exact hcont p t ht
      · exact raised_within (hold.top p) (hgreatest p) t ht

theorem LiveMerged.within {rows : List MessageOut} {least greatest : Int → Option Int}
    (h : LiveMerged s s' rows least greatest) (hold : s.Within lo hi)
    (hrows : ∀ m ∈ rows, lo m.partition ≤ m.offset ∧ m.offset < hi m.partition) :
    s'.Within lo hi := by
  obtain ⟨hall, -, hgreatest⟩ :=
    h.toRowsInserted.within hold fun m hm => hrows m (List.mem_filter.mp hm).1
  refine ⟨hall, fun p b hb => hold.bottom p b (h.bottomMap ▸ hb), ?_⟩
  intro p t ht
  rw [h.top] at ht
  exact raised_within (hold.top p) (hgreatest p) t ht

theorem Store.Within.enforceCap (h : s.Within lo hi) (hfiled : s.Filed) (kind : CapKind) :
    (s.enforceCap kind).1.Within lo hi := by
  have hresult := Store.enforceCap_result hfiled kind
  cases hcap : s.enforceCap kind with
  | mk s' outcome =>
    rw [hcap] at hresult
    cases hresult with
    | fits => exact h
    | top _ ht =>
      refine ⟨?_, fun p b hb => h.bottom p b (ht.bottomMap ▸ hb), ?_⟩
      · intro p m hm
        obtain ⟨lost, hrows, -⟩ := ht.rows p
        exact h.rows p m (hrows ▸ List.mem_append_left _ hm)
      · intro p t htop
        obtain ⟨lost, hrows, heq⟩ := ht.rows p
        rw [heq, Option.or_eq_some_iff, Option.or_eq_some_iff] at htop
        rcases htop with hhead | ⟨-, hlast | ⟨-, hold⟩⟩
        · obtain ⟨m, hm, rfl⟩ := Option.map_eq_some_iff.mp hhead
          have := h.rows p m (hrows ▸ List.mem_append_right _ (List.mem_of_mem_head? hm))
          omega
        · obtain ⟨m, hm, rfl⟩ := Option.map_eq_some_iff.mp hlast
          have := h.rows p m (hrows ▸ List.mem_append_left _ (List.mem_of_getLast? hm))
          omega
        · exact h.top p t hold
    | bottom _ ht =>
      refine ⟨?_, ?_, fun p t htop => h.top p t (ht.topMap ▸ htop)⟩
      · intro p m hm
        obtain ⟨lost, hrows, -⟩ := ht.rows p
        exact h.rows p m (hrows ▸ List.mem_append_right _ hm)
      · intro p b hb
        obtain ⟨lost, hrows, heq⟩ := ht.rows p
        rw [heq, Option.or_eq_some_iff] at hb
        rcases hb with hlast | ⟨-, hold⟩
        · obtain ⟨m, hm, rfl⟩ := Option.map_eq_some_iff.mp hlast
          have := h.rows p m (hrows ▸ List.mem_append_left _ (List.mem_of_getLast? hm))
          omega
        · exact h.bottom p b hold

/-! ### A page lands -/

theorem Store.KeepsEntries.bottom_some (h : s.KeepsEntries s') {p : Int}
    (hb : ∃ b, s.bottomMap.get? p = some b) : ∃ b, s'.bottomMap.get? p = some b := by
  obtain ⟨b, hb⟩ := hb
  apply Option.ne_none_iff_exists'.mp
  intro hnone
  rw [h.bottom p hnone] at hb
  cases hb

/-- What landing a page does to entries and bounds, for rows and a continuation in bounds. -/
theorem Store.land_keeps {s : Store} (hfiled : s.Filed) (request : Request)
    (rows : List MessageOut) (cont : Option (List Position)) {lo hi : Int → Int}
    (hwithin : s.Within lo hi)
    (hread : s.isStale request.direction request.startPositions = false →
      (∀ m ∈ rows, lo m.partition ≤ m.offset ∧ m.offset < hi m.partition) ∧
        ∀ p x, cont.bind (OrdMap.lastFor p) = some x → lo p ≤ x ∧ x ≤ hi p) :
    s.KeepsEntries (s.land request rows cont).1 ∧ (s.land request rows cont).1.Within lo hi := by
  rw [Store.land, Store.insertPage]
  cases hstale : s.isStale request.direction request.startPositions with
  | true => exact ⟨⟨fun _ hp => hp, fun _ hp => hp⟩, hwithin⟩
  | false =>
    obtain ⟨hrows, hcont⟩ := hread hstale
    obtain ⟨least, greatest, hm⟩ :=
      Store.mergePage_spec hfiled rows request.direction request.startPositions cont request.attach
    exact ⟨hm.keepsEntries.trans (Store.enforceCap_keepsEntries hm.filed _),
      (hm.within hwithin hrows hcont).enforceCap hm.filed _⟩

section Read

variable {w : LiveTopic} {mark stop : Int → Int} {direction : Direction}
  {positions : List Position} {rows : List MessageOut} {cont : Option (List Position)}

theorem PageRead.cont_mem (h : PageRead w v mark direction positions rows cont stop) {p x : Int}
    (hx : cont.bind (OrdMap.lastFor p) = some x) :
    ∃ e ∈ positions, e.1 = p ∧ x = stop p := by
  by_cases hp : p ∈ positions.map Prod.fst
  · obtain ⟨e, he, rfl⟩ := List.mem_map.mp hp
    rw [h.cont_at he] at hx
    obtain ⟨c, -, rfl⟩ := Option.map_eq_some_iff.mp hx
    exact ⟨e, he, rfl, rfl⟩
  · rw [h.cont_none hp] at hx
    cases hx

theorem PageRead.start_mem (h : PageRead w v mark direction positions rows cont stop)
    (e : Position) : w.low e.1 ≤ w.startOf mark e ∧ w.startOf mark e ≤ mark e.1 :=
  clamp_mem e.2 (h.low_le_mark e.1)

/-- What a page brings lies between its starts and its stops, so within any bounds of these. -/
theorem PageRead.brings_within (h : PageRead w v mark direction positions rows cont stop)
    {lo hi : Int → Int}
    (hstart : ∀ e ∈ positions, lo e.1 ≤ w.startOf mark e ∧ w.startOf mark e ≤ hi e.1)
    (hstop : ∀ e ∈ positions, lo e.1 ≤ stop e.1 ∧ stop e.1 ≤ hi e.1) :
    (∀ m ∈ rows, lo m.partition ≤ m.offset ∧ m.offset < hi m.partition) ∧
      ∀ p x, cont.bind (OrdMap.lastFor p) = some x → lo p ≤ x ∧ x ≤ hi p := by
  constructor
  · intro m hm
    obtain ⟨e, he, hmatch, hcov⟩ := (h.rows_iff m).mp hm
    rw [(LiveTopic.matching_bounds hmatch).1]
    cases direction with
    | back => exact ⟨(hstop e he).1.trans hcov.1, hcov.2.trans_le (hstart e he).2⟩
    | forward => exact ⟨(hstart e he).1.trans hcov.1, hcov.2.trans_le (hstop e he).2⟩
  · intro p x hx
    obtain ⟨e, he, rfl, rfl⟩ := h.cont_mem hx
    exact hstop e he

end Read

end Arne.Client
