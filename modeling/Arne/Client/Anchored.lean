import Arne.Client.Reach

/-!
# What stays reachable below a jump

A window opened forward has no lower edge from a cursor: it knows one of the partitions
that had rows in the first page, and of those that lost a row since.
-/

namespace Arne.Client

open Arne.Message Arne.Timeline Arne.SortedLog

/-- All the rows the landed pages brought. -/
def Session.shown (σ : Session) : List MessageOut := σ.landed.flatMap Page.rows

/-- Where a page really starts in a partition. -/
def Page.startAt (page : Page) (w : LiveTopic) (p : Int) : Int :=
  w.startOf page.mark (p, (OrdMap.lastFor p page.positions).getD 0)

theorem Page.startAt_eq {page : Page} (hnodup : (page.positions.map Prod.fst).Nodup)
    (w : LiveTopic) {e : Position} (he : e ∈ page.positions) :
    page.startAt w e.1 = w.startOf page.mark e := by
  rw [Page.startAt, OrdMap.lastFor_of_mem hnodup (show (e.1, e.2) ∈ page.positions from he)]
  rfl

variable {v : View} {debt : Int → Int} {first page : Page} {σ σ' : Session} {s s' : Store}

theorem Store.names_iff {p : Int} :
    (∃ cursor, s.edges.bottom = some cursor ∧ p ∈ cursor.map Prod.fst) ↔
      ∃ b, s.bottomMap.get? p = some b := by
  constructor
  · rintro ⟨cursor, hedge, hp⟩
    obtain rfl := Store.edges_bottom hedge
    obtain ⟨e, he, rfl⟩ := List.mem_map.mp hp
    exact ⟨e.2, (mem_encodeCursor _ e).mp he⟩
  · rintro ⟨b, hb⟩
    refine ⟨encodeCursor (mapToPositions s.bottomMap), ?_,
      List.mem_map_of_mem ((mem_encodeCursor s.bottomMap (p, b)).mpr hb)⟩
    simp only [Store.edges, if_neg (OrdMap.size_ne_zero_of_get? hb)]

/-! ### Rows go in above, and out below -/

/-- A store after rows went in and the oldest went out: who lost a row has a lower edge,
    and every new lower edge is one past a row. -/
structure Store.Thinned (s s' : Store) : Prop where
  rows : ∀ p, ∀ m ∈ s'.rowsOf p, m ∈ s.rowsOf p
  kept : ∀ p, ∀ m ∈ s.rowsOf p, m ∈ s'.rowsOf p ∨ ∃ b, s'.bottomMap.get? p = some b
  entry : ∀ p b, s'.bottomMap.get? p = some b →
    s.bottomMap.get? p = some b ∨ ∃ m ∈ s.rowsOf p, m.offset < b

theorem Store.enforceCap_thinned (h : s.Filed) : s.Thinned (s.enforceCap .topInsert).1 := by
  have hresult := Store.enforceCap_result h .topInsert
  cases hcap : s.enforceCap .topInsert with
  | mk s' outcome =>
    rw [hcap] at hresult
    cases hresult with
    | fits => exact ⟨fun _ _ hm => hm, fun _ _ hm => Or.inl hm, fun _ _ hb => Or.inl hb⟩
    | bottom _ ht =>
      refine ⟨?_, ?_, ?_⟩
      · intro p m hm
        obtain ⟨lost, hrows, -⟩ := ht.rows p
        exact hrows ▸ List.mem_append_right _ hm
      · intro p m hm
        obtain ⟨lost, hrows, hbottom⟩ := ht.rows p
        rcases List.mem_append.mp (hrows ▸ hm) with hlost | hkept
        · have hsome := List.getLast?_isSome.mpr (List.ne_nil_of_mem hlost)
          obtain ⟨last, hlast⟩ := Option.isSome_iff_exists.mp hsome
          exact Or.inr ⟨last.offset + 1, by rw [hbottom, hlast]; rfl⟩
        · exact Or.inl hkept
      · intro p b hb
        obtain ⟨lost, hrows, hbottom⟩ := ht.rows p
        rw [hbottom, Option.or_eq_some_iff] at hb
        rcases hb with hlast | ⟨-, hold⟩
        · obtain ⟨m, hm, rfl⟩ := Option.map_eq_some_iff.mp hlast
          refine Or.inr ⟨m, hrows ▸ List.mem_append_left _ (List.mem_of_getLast? hm), ?_⟩
          omega
        · exact Or.inl hold

/-! ### The invariant -/

/-- A window opened forward, after its first page. -/
structure Session.Forwarding (v : View) (debt : Int → Int) (first : Page) (σ : Session) :
    Prop where
  followed : σ.Followed v debt
  nodup : (first.positions.map Prod.fst).Nodup
  named : ∀ p, p ∈ first.positions.map Prod.fst ↔ p ∈ σ.topic.parts
  within : σ.store.Within (first.startAt σ.topic) σ.topic.high
  readsOn : ∀ request, σ.flight.request? = some request → ∃ cursor, request = .newer cursor
  landed : σ.landed.head? = some first
  rows_shown : ∀ p, ∀ m ∈ σ.store.rowsOf p, m ∈ σ.shown
  shown_matching : ∀ m ∈ σ.shown, m ∈ σ.topic.matching v m.partition
  kept : ∀ m ∈ σ.shown,
    m ∈ σ.store.rowsOf m.partition ∨ ∃ b, σ.store.bottomMap.get? m.partition = some b
  contributed : ∀ m ∈ first.rows, ∃ b, σ.store.bottomMap.get? m.partition = some b
  entry : ∀ p b, σ.store.bottomMap.get? p = some b →
    (∃ m ∈ first.rows, m.partition = p) ∨ ∃ m ∈ σ.shown, m.partition = p ∧ m.offset < b

/-- A partition has a lower edge exactly if it had a row in the first page or lost one. -/
theorem Session.Forwarding.named_iff (h : σ.Forwarding v debt first) (p : Int) :
    (∃ b, σ.store.bottomMap.get? p = some b) ↔ (∃ m ∈ first.rows, m.partition = p) ∨
      ∃ m ∈ σ.shown, m.partition = p ∧ m ∉ σ.store.rowsOf p := by
  constructor
  · rintro ⟨b, hb⟩
    refine (h.entry p b hb).imp_right fun ⟨m, hm, hp, hlt⟩ => ⟨m, hm, hp, fun hrow => ?_⟩
    obtain ⟨β, hf⟩ := (h.followed.whole.sliding.sound p).floor
    have hle := hf.le_held m.offset ⟨m, hrow, rfl⟩
    rw [← hf.eq_bottom b hb] at hle
    omega
  · rintro (⟨m, hm, rfl⟩ | ⟨m, hm, rfl, hgone⟩)
    · exact h.contributed m hm
    · exact (h.kept m hm).resolve_left hgone

/-- What lies below the start of the first page lies below the edge, where there is one. -/
theorem Session.Forwarding.delivers_iff (h : σ.Forwarding v debt first) {e : Position}
    (he : e ∈ first.positions) {m : MessageOut} (hm : m ∈ σ.topic.matching v e.1)
    (hlt : m.offset < σ.topic.startOf first.mark e) :
    σ.store.DeliversBelow σ.topic v m ↔ ∃ b, σ.store.bottomMap.get? e.1 = some b := by
  rw [Store.deliversBelow_iff hm]
  refine ⟨fun ⟨b, hb, _⟩ => ⟨b, hb⟩, fun ⟨b, hb⟩ => ⟨b, hb, ?_⟩⟩
  have hstart := (h.within.bottom e.1 b hb).1
  rw [Page.startAt_eq h.nodup _ he] at hstart
  exact hlt.trans_le hstart

/-! ### The first page lands -/

theorem Session.Opening.landForward {cap : Nat} (h : σ.Opening v cap .forwardFrom)
    (hanswered : σ.flight = .answered page) :
    (σ.settle page).Forwarding v σ.handed page := by
  have hforward := h.asked page.request (by rw [hanswered]; rfl)
  have hfollowed : (σ.settle page).Followed v σ.handed := h.followed.step (.land hanswered)
  have hflight := h.followed.whole.flight
  rw [hanswered] at hflight
  obtain ⟨⟨stop, hread⟩, hland⟩ := hflight
  rw [hforward] at hread hland
  obtain ⟨-, hall, -⟩ := hland
  have hlanded : (σ.settle page).landed = [page] := by
    rw [Session.landed_settle, hforward, h.landed]
    rfl
  have hshown : (σ.settle page).shown = page.rows := by
    rw [Session.shown, hlanded]
    exact List.append_nil _
  have hstore : (σ.settle page).store = (((createSlidingWindowStore cap).mergePage page.rows
      .forward none page.cont false).enforceCap .topInsert).1 := by
    show (σ.store.land page.request page.rows page.cont).1 = _
    rw [h.store, hforward]
    rfl
  obtain ⟨-, hwithin⟩ := Store.land_keeps (h.store ▸ createSlidingWindowStore_filed cap)
    page.request page.rows page.cont
    (h.store ▸ createSlidingWindowStore_within cap (page.startAt σ.topic) σ.topic.high) fun _ => by
      apply hread.brings_within
      · intro e he
        rw [Page.startAt_eq hread.nodup _ he]
        exact ⟨le_refl _, (hread.start_mem e).2.trans (hread.mark_le e.1)⟩
      · intro e he
        rw [Page.startAt_eq hread.nodup _ he]
        exact ⟨hread.onward e he, (hread.stop_mem e he).2.trans (hread.mark_le e.1)⟩
  obtain ⟨least, greatest, hm⟩ := Store.mergePage_spec (createSlidingWindowStore_filed cap)
    page.rows .forward none page.cont false
  have hthin := Store.enforceCap_thinned hm.filed
  have hkeeps := Store.enforceCap_keepsEntries hm.filed .topInsert
  rw [← hstore] at hthin hkeeps
  -- before the cap the lower edges are the least offsets of the page
  have hbottom : ∀ p, ((createSlidingWindowStore cap).mergePage page.rows .forward none page.cont
      false).bottomMap.get? p = least p := fun p => hm.bottom_forward rfl p
  have hrows : ∀ p, ∀ m ∈ ((createSlidingWindowStore cap).mergePage page.rows .forward none
      page.cont false).rowsOf p, m ∈ page.rows ∧ m.partition = p := by
    intro p m hmem
    rcases hm.added p m hmem with hold | hrow
    · cases hold
    · exact ⟨hrow, hm.filed.partition_eq p m hmem⟩
  have hcontributed : ∀ m ∈ page.rows,
      ∃ b, (σ.settle page).store.bottomMap.get? m.partition = some b := by
    intro m hmem
    cases hb : (σ.settle page).store.bottomMap.get? m.partition with
    | some b => exact ⟨b, rfl⟩
    | none =>
      have hnone := hkeeps.bottom m.partition hb
      have hleast := hm.least_new m.partition
      rw [← hbottom, hnone, new_of_cleared] at hleast
      exact absurd ((hm.toRowsInserted.offsets _ _).mpr (Or.inr ⟨m, hmem, rfl, rfl⟩))
        (hleast m.offset)
  refine ⟨hfollowed, hread.nodup, fun p => ⟨fun hp => ?_, hall p⟩, hwithin,
    fun _ hnone => (by cases hnone), by rw [hlanded]; rfl, fun p m hmem => ?_, ?_, ?_,
    hcontributed, fun p b hb => Or.inl ?_⟩
  · obtain ⟨e, he, rfl⟩ := List.mem_map.mp hp
    exact hread.known e he
  · rw [hshown]
    exact (hrows p m (hthin.rows p m hmem)).1
  · rw [hshown]
    exact hread.rows_matching
  · rw [hshown]
    exact fun m hmem => Or.inr (hcontributed m hmem)
  · rcases hthin.entry p b hb with hold | ⟨m, hmem, -⟩
    · have hleast := hm.least_new p
      rw [← hbottom, hold] at hleast
      obtain ⟨m, hmem, -⟩ := hleast.1.1
      exact ⟨m, hrows p m hmem⟩
    · exact ⟨m, hrows p m hmem⟩

/-! ### Pages read on -/

/-- A page read on from the upper edges keeps what is known below and above. -/
theorem Session.Forwarding.landNewer_keeps (h : σ.Forwarding v debt first)
    (hanswered : σ.flight = .answered page) {cursor : List Position}
    (hnewer : page.request = .newer cursor) :
    σ.store.KeepsEntries (σ.settle page).store ∧
      (σ.settle page).store.Within (first.startAt σ.topic) σ.topic.high := by
  have hflight := h.followed.whole.flight
  rw [hanswered] at hflight
  obtain ⟨⟨stop, hread⟩, hland⟩ := hflight
  rw [hnewer] at hread hland
  obtain ⟨hpos, -, hedge, hmark, -⟩ := hland
  have hstart : ∀ e ∈ page.positions,
      first.startAt σ.topic e.1 ≤ σ.topic.startOf page.mark e := by
    intro e he
    rw [hpos] at he
    have htop := (h.within.top e.1 e.2 ((hedge e).mp he)).1
    have hlow := ((h.followed.whole.sliding.sound e.1).top_mem e.2 ((hedge e).mp he)).1
    rwa [LiveTopic.startOf_of_mem hlow (hmark e he)]
  apply Store.land_keeps h.followed.whole.sliding.filed page.request page.rows page.cont h.within
  intro _
  apply hread.brings_within
  · intro e he
    exact ⟨hstart e he, (hread.start_mem e).2.trans (hread.mark_le e.1)⟩
  · intro e he
    have honward : σ.topic.startOf page.mark e ≤ stop e.1 := hread.onward e he
    exact ⟨(hstart e he).trans honward, (hread.stop_mem e he).2.trans (hread.mark_le e.1)⟩

/-- A page that no longer meets the upper edges changes nothing. -/
theorem Session.Forwarding.landNewer_stale (h : σ.Forwarding v debt first)
    (hanswered : σ.flight = .answered page) {cursor : List Position}
    (hnewer : page.request = .newer cursor)
    (hstale : σ.store.isStale page.request.direction page.request.startPositions = true) :
    (σ.settle page).Forwarding v debt first := by
  have hfollowed : (σ.settle page).Followed v debt := h.followed.step (.land hanswered)
  obtain ⟨hkeeps, hwithin⟩ := h.landNewer_keeps hanswered hnewer
  have hsame : (σ.settle page).store = σ.store := by
    show (σ.store.land page.request page.rows page.cont).1 = σ.store
    rw [Store.land, Store.insertPage, if_pos hstale]
  have hshown : (σ.settle page).shown = σ.shown := by
    rw [Session.shown, Session.landed_settle, if_pos hstale]
    rfl
  refine ⟨hfollowed, h.nodup, h.named, hwithin, fun _ hnone => (by cases hnone),
    Session.landed_head h.landed page, ?_, ?_, ?_, ?_, ?_⟩
  · rw [hsame, hshown]
    exact h.rows_shown
  · rw [hshown]
    exact h.shown_matching
  · rw [hsame, hshown]
    exact h.kept
  · rw [hsame]
    exact h.contributed
  · rw [hsame, hshown]
    exact h.entry

/-- A page that meets the upper edges adds its rows, and the cap takes rows from below. -/
theorem Session.Forwarding.landNewer_merged (h : σ.Forwarding v debt first)
    (hanswered : σ.flight = .answered page) {cursor : List Position}
    (hnewer : page.request = .newer cursor)
    (hstale : σ.store.isStale page.request.direction page.request.startPositions = false) :
    (σ.settle page).Forwarding v debt first := by
  have hfollowed : (σ.settle page).Followed v debt := h.followed.step (.land hanswered)
  obtain ⟨hkeeps, hwithin⟩ := h.landNewer_keeps hanswered hnewer
  have hflight := h.followed.whole.flight
  rw [hanswered] at hflight
  obtain ⟨⟨stop, hread⟩, -⟩ := hflight
  have hshown : (σ.settle page).shown = σ.shown ++ page.rows := by
    rw [Session.shown, Session.landed_settle, hstale]
    simp [Session.shown]
  obtain ⟨least, greatest, hm⟩ := Store.mergePage_spec h.followed.whole.sliding.filed page.rows
    .forward (some (decodeCursor cursor)) page.cont false
  have hcapped : (σ.settle page).store = ((σ.store.mergePage page.rows .forward
      (some (decodeCursor cursor)) page.cont false).enforceCap .topInsert).1 := by
    show (σ.store.land page.request page.rows page.cont).1 = _
    rw [Store.land, Store.insertPage, if_neg (by rw [hstale]; exact Bool.false_ne_true), hnewer]
    rfl
  have hthin := Store.enforceCap_thinned hm.filed
  rw [← hcapped] at hthin
  have hmatching : ∀ m ∈ σ.shown ++ page.rows, m ∈ σ.topic.matching v m.partition := by
    intro m hmem
    rcases List.mem_append.mp hmem with hold | hrow
    · exact h.shown_matching m hold
    · exact hread.rows_matching m hrow
  have hrows : ∀ p, ∀ m ∈ (σ.store.mergePage page.rows .forward (some (decodeCursor cursor))
      page.cont false).rowsOf p, m ∈ σ.shown ++ page.rows ∧ m.partition = p := by
    intro p m hmem
    refine ⟨?_, hm.filed.partition_eq p m hmem⟩
    rcases hm.added p m hmem with hold | hrow
    · exact List.mem_append_left _ (h.rows_shown p m hold)
    · exact List.mem_append_right _ hrow
  refine ⟨hfollowed, h.nodup, h.named, hwithin, fun _ hnone => (by cases hnone),
    Session.landed_head h.landed page, ?_, ?_, ?_,
    fun m hmem => hkeeps.bottom_some (h.contributed m hmem), ?_⟩
  · intro p m hmem
    rw [hshown]
    exact (hrows p m (hthin.rows p m hmem)).1
  · rw [hshown]
    exact hmatching
  · intro m hmem
    rw [hshown] at hmem
    rcases List.mem_append.mp hmem with hold | hrow
    · rcases h.kept m hold with hheld | hedge
      · exact hthin.kept m.partition m (hm.kept m.partition m hheld)
      · exact Or.inr (hkeeps.bottom_some hedge)
    · -- a row of the page went in, or the message was held already
      obtain ⟨m', hm', hoff⟩ := hm.has m hrow
      have hm'' := (hrows m.partition m' hm').2 ▸ hmatching m' (hrows m.partition m' hm').1
      obtain rfl := LiveTopic.matching_eq hm'' (hmatching m hmem) hoff
      exact hthin.kept m'.partition m' hm'
  · intro p b hb
    rw [hshown]
    rcases hthin.entry p b hb with hold | ⟨m, hmem, hlt⟩
    · rw [hm.bottom_forward rfl] at hold
      rcases h.entry p b hold with hfirst | ⟨m, hmem, hp, hlt⟩
      · exact Or.inl hfirst
      · exact Or.inr ⟨m, List.mem_append_left _ hmem, hp, hlt⟩
    · exact Or.inr ⟨m, (hrows p m hmem).1, (hrows p m hmem).2, hlt⟩

theorem Session.Forwarding.landNewer (h : σ.Forwarding v debt first)
    (hanswered : σ.flight = .answered page) {cursor : List Position}
    (hnewer : page.request = .newer cursor) : (σ.settle page).Forwarding v debt first := by
  cases hstale : σ.store.isStale page.request.direction page.request.startPositions with
  | true => exact h.landNewer_stale hanswered hnewer hstale
  | false => exact h.landNewer_merged hanswered hnewer hstale

/-! ### Every run -/

/-- The steps of a window that only reads forward. -/
def ForwardOnly (e : Event) : Prop := e ≠ .older ∧ e ≠ .live

theorem Session.Forwarding.step {e : Event} (h : σ.Forwarding v debt first)
    (hforward : ForwardOnly e) (hstep : Step v e σ σ') : σ'.Forwarding v debt first := by
  have hfollowed := h.followed.step hstep
  cases hstep with
  | grow hgrow =>
    have hstart : ∀ w : LiveTopic, σ.topic.Grows w → first.startAt w = first.startAt σ.topic := by
      intro w hw
      funext p
      rw [Page.startAt, Page.startAt, LiveTopic.startOf, LiveTopic.startOf, hw.low]
    refine ⟨hfollowed, h.nodup, fun p => hgrow.parts ▸ h.named p, ?_, h.readsOn, h.landed,
      h.rows_shown, fun m hm => (hgrow.mem_matching.mp (h.shown_matching m hm)).1, h.kept,
      h.contributed, h.entry⟩
    show σ.store.Within (first.startAt _) _
    rw [hstart _ hgrow]
    exact h.within.mono hgrow.high
  | older => exact absurd rfl hforward.1
  | @newer _ cursor hidle hedge =>
    exact ⟨hfollowed, h.nodup, h.named, h.within,
      fun _ hreq => ⟨cursor, (Option.some.inj hreq).symm⟩,
      h.landed, h.rows_shown, h.shown_matching, h.kept, h.contributed, h.entry⟩
  | answer hissued hasks hanswer =>
    refine ⟨hfollowed, h.nodup, h.named, h.within, fun request hreq => h.readsOn request ?_,
      h.landed, h.rows_shown, h.shown_matching, h.kept, h.contributed, h.entry⟩
    rw [hissued]
    exact hreq
  | drop =>
    exact ⟨hfollowed, h.nodup, h.named, h.within, fun _ hnone => (by cases hnone), h.landed,
      h.rows_shown, h.shown_matching, h.kept, h.contributed, h.entry⟩
  | @land _ page hanswered =>
    obtain ⟨cursor, hreq⟩ := h.readsOn page.request (by rw [hanswered]; rfl)
    exact h.landNewer hanswered hreq
  | live => exact absurd rfl hforward.2

theorem Session.Opening.runForward {cap : Nat} (h : σ.Opening v cap .forwardFrom)
    (hrun : Run v ForwardOnly σ σ') :
    σ'.Opening v cap .forwardFrom ∨ ∃ debt first, σ'.Forwarding v debt first := by
  induction hrun with
  | refl => exact Or.inl h
  | tail _ hstep ih =>
    obtain ⟨e, hforward, hstep⟩ := hstep
    rcases ih with hopening | ⟨debt, first, hforwarding⟩
    · rcases hopening.step hstep with hopening' | ⟨page, hanswered, rfl⟩
      · exact Or.inl hopening'
      · exact Or.inr ⟨_, _, hopening.landForward hanswered⟩
    · exact Or.inr ⟨debt, first, hforwarding.step hforward hstep⟩

/-- In every state of a window that was opened forward and reads forward: the lower edge
    names every partition and delivers all that lies below the first page exactly if every
    partition had a row in the first page or lost one since.  Where a partition has neither,
    it delivers what lies below only when there is nothing. -/
theorem older_reachable_iff {cap : Nat} (hopens : σ.Opens cap .forwardFrom)
    (hrun : Run v ForwardOnly σ σ') (hfirst : σ'.landed.head? = some first) :
    (∀ p, p ∈ first.positions.map Prod.fst ↔ p ∈ σ'.topic.parts) ∧
      ((∀ e ∈ first.positions,
          (∃ cursor, σ'.store.edges.bottom = some cursor ∧ e.1 ∈ cursor.map Prod.fst) ∧
            ∀ m ∈ σ'.topic.matching v e.1, m.offset < σ'.topic.startOf first.mark e →
              σ'.store.DeliversBelow σ'.topic v m) ↔
        ∀ e ∈ first.positions, (∃ m ∈ first.rows, m.partition = e.1) ∨
          ∃ m ∈ σ'.shown, m.partition = e.1 ∧ m ∉ σ'.store.rowsOf e.1) ∧
      ((∀ e ∈ first.positions, ∀ m ∈ σ'.topic.matching v e.1,
          m.offset < σ'.topic.startOf first.mark e → σ'.store.DeliversBelow σ'.topic v m) ↔
        ∀ e ∈ first.positions, ((∃ m ∈ first.rows, m.partition = e.1) ∨
            ∃ m ∈ σ'.shown, m.partition = e.1 ∧ m ∉ σ'.store.rowsOf e.1) ∨
          ∀ m ∈ σ'.topic.matching v e.1, σ'.topic.startOf first.mark e ≤ m.offset) := by
  rcases (hopens.opening (Or.inr rfl)).runForward hrun with hopening | ⟨debt, first', h⟩
  · rw [hopening.landed] at hfirst
    cases hfirst
  obtain rfl : first' = first := Option.some.inj (h.landed.symm.trans hfirst)
  refine ⟨h.named, forall₂_congr fun e he => ?_, forall₂_congr fun e he => ?_⟩
  · rw [Store.names_iff, ← h.named_iff e.1]
    exact and_iff_left_of_imp fun hnamed m hm hlt => (h.delivers_iff he hm hlt).mpr hnamed
  · rw [← h.named_iff e.1]
    constructor
    · intro hall
      by_cases hnamed : ∃ b, σ'.store.bottomMap.get? e.1 = some b
      · exact Or.inl hnamed
      · refine Or.inr fun m hm => not_lt.mp fun hlt => hnamed ?_
        exact (h.delivers_iff he hm hlt).mp (hall m hm hlt)
    · rintro (hnamed | hnothing) m hm hlt
      · exact (h.delivers_iff he hm hlt).mpr hnamed
      · exact absurd hlt (not_lt.mpr (hnothing m hm))

/-- The short topic opened forward at offset 1 of both partitions. -/
def jumpStart : Session :=
  ⟨shortTopic 2 2, (shortTopic 2 2).high, createSlidingWindowStore 10, .issued .forwardFrom, []⟩

/-- A page of one row. -/
def jumpPage : Page :=
  ⟨.forwardFrom, [(0, 1), (1, 1)], (shortTopic 2 2).high, [shortMessage 0 1],
    some [(0, 2), (1, 1)]⟩

theorem jumpStart_opens : jumpStart.Opens 10 .forwardFrom := ⟨rfl, rfl, rfl, fun _ => le_refl _⟩

theorem jumpStart_run : Run plainView ForwardOnly jumpStart (jumpStart.settle jumpPage) := by
  have hanswer : (shortTopic 2 2).Answers plainView .forward [(0, 1), (1, 1)] [shortMessage 0 1]
      (some [(0, 2), (1, 1)]) :=
    @LiveTopic.page_answers _ _ _ _ 1 _ (some ⟨.forward, [(0, 2), (1, 1)]⟩) false (by decide) (by decide)
      (by decide)
  have hserved : Step plainView .answer jumpStart { jumpStart with flight := .answered jumpPage } :=
    @Step.answer _ jumpStart .forwardFrom _ _ _ rfl
      ⟨.timestampResolved [(0, some 1), (1, some 1)], rfl⟩ hanswer
  have hlanded : Step plainView .land { jumpStart with flight := .answered jumpPage }
      (jumpStart.settle jumpPage) := @Step.land _ _ jumpPage rfl
  exact .tail (.single ⟨_, ⟨by decide, by decide⟩, hserved⟩) ⟨_, ⟨by decide, by decide⟩, hlanded⟩

theorem jump_older_reachable_iff :
    (∀ e ∈ jumpPage.positions, ∀ m ∈ (shortTopic 2 2).matching plainView e.1,
        m.offset < (shortTopic 2 2).startOf jumpPage.mark e →
          (jumpStart.settle jumpPage).store.DeliversBelow (shortTopic 2 2) plainView m) ↔
      ∀ e ∈ jumpPage.positions, ((∃ m ∈ jumpPage.rows, m.partition = e.1) ∨
          ∃ m ∈ (jumpStart.settle jumpPage).shown,
            m.partition = e.1 ∧ m ∉ (jumpStart.settle jumpPage).store.rowsOf e.1) ∨
        ∀ m ∈ (shortTopic 2 2).matching plainView e.1,
          (shortTopic 2 2).startOf jumpPage.mark e ≤ m.offset :=
  (older_reachable_iff jumpStart_opens jumpStart_run rfl).2.2

/-- Partition 1 had no row in the first page, and its record below the jump is out of reach. -/
theorem record_below_jump_unreachable :
    jumpStart.Opens 10 .forwardFrom ∧ Run plainView ForwardOnly jumpStart (jumpStart.settle jumpPage) ∧
      (jumpStart.settle jumpPage).landed = [jumpPage] ∧ (1, 1) ∈ jumpPage.positions ∧
      (jumpStart.settle jumpPage).store.edges.bottom = some [(0, 1)] ∧
      shortMessage 1 0 ∈ (jumpStart.settle jumpPage).topic.matching plainView 1 ∧
      (shortMessage 1 0).offset < (shortTopic 2 2).startOf jumpPage.mark (1, 1) ∧
      ¬ (jumpStart.settle jumpPage).store.DeliversBelow (jumpStart.settle jumpPage).topic plainView
        (shortMessage 1 0) := by
  have hmem : shortMessage 1 0 ∈ (jumpStart.settle jumpPage).topic.matching plainView 1 := by decide
  refine ⟨jumpStart_opens, jumpStart_run, rfl, by decide, rfl, hmem, by decide, ?_⟩
  rw [Store.deliversBelow_iff hmem]
  rintro ⟨b, hb, -⟩
  cases hb

end Arne.Client
