import Arne.Client.Reach

/-!
# Catching up with the tail

A window opened at the tail that lost its newest rows reads forward until a page is
exhausted, and is attached again.  `reach p` is how far the window has been told about
partition `p`, by pages or by the feed; below it nothing is lost.
-/

namespace Arne.Client

open Arne.Message Arne.Timeline Arne.SortedLog

/-- The pages that read on from an edge. -/
def Request.ReadsOn (request : Request) : Prop :=
  (∃ cursor, request = .older cursor) ∨ ∃ cursor, request = .newer cursor

variable {v : View} {debt reach : Int → Int} {first page : Page} {σ σ' : Session}

/-! ### After the first page -/

/-- The invariant of a window opened at the tail: of every partition it holds or delivers
    below its lower edge whatever lies below `reach`. -/
structure Session.Tailing (v : View) (debt reach : Int → Int) (first : Page) (σ : Session) :
    Prop where
  whole : σ.Whole v debt (owedPast reach)
  within : σ.store.Within σ.topic.low reach
  debt_le : ∀ p, debt p ≤ σ.handed p ∧ debt p ≤ first.mark p
  handed_le : ∀ p, σ.handed p ≤ reach p
  first_le : ∀ p, first.mark p ≤ reach p
  reach_le : ∀ p, reach p ≤ σ.topic.high p
  /-- Without an upper edge a partition was told of by the first page and the feed only. -/
  reach_eq : ∀ p, σ.store.topMap.get? p = none → reach p = max (first.mark p) (σ.handed p)
  rooted : ∀ p, σ.store.bottomMap.get? p = none → ∀ o ∈ σ.topic.real v p, first.mark p ≤ o
  readsOn : ∀ request, σ.flight.request? = some request → request.ReadsOn
  marked : ∀ page, σ.flight = .answered page → page.request.direction = .forward →
    ∀ p, reach p ≤ page.mark p
  landed : σ.landed.head? = some first

/-- Below `reach`, what is not held lies below the lower edge, or above the upper one of a
    detached window. -/
theorem Session.Tailing.covered (h : σ.Tailing v debt reach first) {p : Int} {m : MessageOut}
    (hm : m ∈ σ.topic.matching v p) (hlt : m.offset < reach p)
    (hopen : σ.store.attached = false → ∀ t, σ.store.topMap.get? p = some t → m.offset < t) :
    m ∈ σ.store.rowsOf p ∨ ∃ b, σ.store.bottomMap.get? p = some b ∧ m.offset < b := by
  have hsliding := h.whole.sliding
  obtain ⟨β, hf⟩ := (hsliding.sound p).floor
  rcases le_or_gt β m.offset with hle | hgt
  · rcases hf.covers m.offset (offset_real hm) hle hopen with hheld | howed
    · exact Or.inl ((hsliding.mem_rowsOf_iff hm).mpr hheld)
    · exact absurd hlt (not_lt.mpr howed)
  · apply Or.inr
    cases hb : σ.store.bottomMap.get? p with
    | some b => exact ⟨b, rfl, hf.eq_bottom b hb ▸ hgt⟩
    | none =>
      -- then the first page found nothing of the partition
      have h1 := hf.le_debt hb
      have h2 := (h.debt_le p).2
      have h3 := h.rooted p hb m.offset (offset_real hm)
      omega

/-- What is held or lies below the lower edge lies below `reach`. -/
theorem Session.Tailing.reached (h : σ.Tailing v debt reach first) {p : Int} {m : MessageOut}
    (hm : m ∈ σ.store.rowsOf p ∨ ∃ b, σ.store.bottomMap.get? p = some b ∧ m.offset < b) :
    m.offset < reach p := by
  rcases hm with hrow | ⟨b, hb, hlt⟩
  · exact (h.within.rows p m hrow).2
  · exact hlt.trans_le (h.within.bottom p b hb).2

/-! ### A page lands -/

/-- A page below the window. -/
theorem Session.Tailing.landOlder (h : σ.Tailing v debt reach first)
    (hanswered : σ.flight = .answered page) {cursor : List Position}
    (holder : page.request = .older cursor) : (σ.settle page).Tailing v debt reach first := by
  have hflight := h.whole.flight
  rw [hanswered] at hflight
  obtain ⟨⟨stop, hread⟩, hland⟩ := hflight
  rw [holder] at hread hland
  obtain ⟨hpos, hedge⟩ := hland
  have hsliding := h.whole.sliding
  -- the page was read from the lower edge as it still is
  have hbounds : σ.store.isStale page.request.direction page.request.startPositions = false →
      (∀ m ∈ page.rows, σ.topic.low m.partition ≤ m.offset ∧ m.offset < reach m.partition) ∧
        ∀ p x, page.cont.bind (OrdMap.lastFor p) = some x → σ.topic.low p ≤ x ∧ x ≤ reach p := by
    rw [holder]
    intro hstale
    have hstart : ∀ e ∈ page.positions, σ.topic.startOf page.mark e ≤ reach e.1 := by
      intro e he
      rw [hpos] at he
      obtain ⟨hmark, b, hb, hle⟩ := hedge e he
      have hmem := mem_decodeCursor (hpos ▸ hread.nodup) he
      obtain rfl : b = e.2 := le_antisymm (Store.not_isStale hstale hmem b hb) hle
      have hb := h.within.bottom e.1 e.2 hb
      exact (LiveTopic.startOf_of_mem hb.1 hmark).symm ▸ hb.2
    apply hread.brings_within
    · intro e he
      exact ⟨(hread.start_mem e).1, hstart e he⟩
    · intro e he
      have honward : stop e.1 ≤ σ.topic.startOf page.mark e := hread.onward e he
      exact ⟨(hread.stop_mem e he).1, honward.trans (hstart e he)⟩
  obtain ⟨hkeeps, hwithin⟩ :=
    Store.land_keeps hsliding.filed page.request page.rows page.cont h.within hbounds
  refine ⟨h.whole.settle hanswered, hwithin, h.debt_le, h.handed_le, h.first_le, h.reach_le,
    fun p hp => h.reach_eq p (hkeeps.top p hp), fun p hp => h.rooted p (hkeeps.bottom p hp),
    fun _ hnone => (by cases hnone), fun _ hnone => (by cases hnone),
    Session.landed_head h.landed page⟩

/-- How far the window has been told about each partition once a forward page landed. -/
def Page.reachAfter (page : Page) (reach : Int → Int) (p : Int) : Int :=
  if p ∈ page.positions.map Prod.fst then page.mark p else reach p

/-- A page above the window. -/
theorem Session.Tailing.landNewer (h : σ.Tailing v debt reach first)
    (hanswered : σ.flight = .answered page) {cursor : List Position}
    (hnewer : page.request = .newer cursor) :
    (σ.settle page).Tailing v debt (page.reachAfter reach) first := by
  have hmarked := h.marked page hanswered (by rw [hnewer]; rfl)
  have hflight := h.whole.flight
  rw [hanswered] at hflight
  obtain ⟨⟨stop, hread⟩, hland⟩ := hflight
  rw [hnewer] at hread hland
  obtain ⟨hpos, hdetached, hedge, hmark, -⟩ := hland
  have hsliding := h.whole.sliding
  have hle : ∀ p, reach p ≤ page.reachAfter reach p := by
    intro p
    rw [Page.reachAfter]
    split
    · exact hmarked p
    · exact le_refl _
  have hafter : ∀ e ∈ page.positions, page.reachAfter reach e.1 = page.mark e.1 := fun e he =>
    if_pos (List.mem_map_of_mem he)
  have htop : ∀ p, p ∈ page.positions.map Prod.fst →
      ∃ t, σ.store.topMap.get? p = some t := by
    intro p hp
    obtain ⟨e, he, rfl⟩ := List.mem_map.mp hp
    exact ⟨e.2, (hedge e).mp (hpos ▸ he)⟩
  -- while the window is detached nothing at its upper edge or past it is missed
  have hwhole : σ.Whole v debt (owedPast (page.reachAfter reach)) := by
    refine ⟨hsliding.pending_congr fun p o _ howed hopen => ?_, ?_⟩
    · by_cases hp : p ∈ page.positions.map Prod.fst
      · obtain ⟨t, ht⟩ := htop p hp
        have h1 := hopen hdetached t ht
        have h2 := (h.within.top p t ht).2
        have h3 : reach p ≤ o := howed
        omega
      · apply Or.inr
        show page.reachAfter reach p ≤ o
        rw [Page.reachAfter, if_neg hp]
        exact howed
    · rw [hanswered]
      refine ⟨⟨stop, hnewer ▸ hread⟩, ?_⟩
      show page.request.Landable _ _ _ _ _ _ _
      rw [hnewer]
      refine ⟨hpos, hdetached, hedge, hmark, ?_⟩
      intro p o _ hmo
      show page.reachAfter reach p ≤ o
      rw [Page.reachAfter]
      split
      · exact hmo
      · exact (hmarked p).trans hmo
  obtain ⟨hkeeps, hwithin⟩ := Store.land_keeps hsliding.filed page.request page.rows page.cont
    (h.within.mono hle) fun _ => by
      apply hread.brings_within
      · intro e he
        rw [hafter e he]
        exact hread.start_mem e
      · intro e he
        rw [hafter e he]
        exact hread.stop_mem e he
  refine ⟨hwhole.settle hanswered, hwithin, h.debt_le, fun p => (h.handed_le p).trans (hle p),
    fun p => (h.first_le p).trans (hle p), ?_, ?_, fun p hp => h.rooted p (hkeeps.bottom p hp),
    fun _ hnone => (by cases hnone), fun _ hnone => (by cases hnone),
    Session.landed_head h.landed page⟩
  · intro p
    rw [Page.reachAfter]
    split
    · exact hread.mark_le p
    · exact h.reach_le p
  · intro p hp
    have hnone := hkeeps.top p hp
    rw [Page.reachAfter, if_neg]
    · exact h.reach_eq p hnone
    · intro hmem
      obtain ⟨t, ht⟩ := htop p hmem
      rw [hnone] at ht
      cases ht

/-- The first page. -/
theorem Session.Opening.landLatest {cap : Nat} (h : σ.Opening v cap .latest)
    (hanswered : σ.flight = .answered page) :
    (σ.settle page).Tailing v σ.handed page.mark page := by
  have hlatest := h.asked page.request (by rw [hanswered]; rfl)
  have hflight := h.followed.whole.flight
  rw [hanswered] at hflight
  obtain ⟨⟨stop, hread⟩, hland⟩ := hflight
  rw [hlatest] at hread hland
  obtain ⟨-, hmarks, hall, -, hdebt⟩ := hland
  have hland : (σ.store.land page.request page.rows page.cont).1 = (((createSlidingWindowStore
      cap).mergePage page.rows .back none page.cont true).enforceCap .bottomInsert).1 := by
    rw [h.store, hlatest]
    rfl
  have hsliding : Sliding σ.topic v σ.handed (owedPast page.mark)
      (σ.store.land page.request page.rows page.cont).1 := by
    rw [hland]
    exact (sliding_latest hread hmarks hall fun _ _ _ hle => hle).enforceCap _
  obtain ⟨-, hwithin⟩ := Store.land_keeps (h.store ▸ createSlidingWindowStore_filed cap)
    page.request page.rows page.cont
    (h.store ▸ createSlidingWindowStore_within cap σ.topic.low page.mark)
    fun _ => hread.brings_within (fun e _ => hread.start_mem e) hread.stop_mem
  refine ⟨⟨hsliding, trivial⟩, hwithin, fun p => ⟨le_refl _, hdebt p⟩, hdebt, fun _ => le_refl _,
    hread.mark_le, fun p _ => (max_eq_left (hdebt p)).symm, ?_, fun _ hnone => (by cases hnone),
    fun _ hnone => (by cases hnone), ?_⟩
  · intro p hp
    obtain ⟨least, greatest, hm⟩ := Store.mergePage_spec (createSlidingWindowStore_filed cap)
      page.rows .back none page.cont true
    have hp : (σ.store.land page.request page.rows page.cont).1.bottomMap.get? p = none := hp
    rw [hland] at hp
    exact hm.rooted_latest hread hmarks hall
      ((Store.enforceCap_keepsEntries hm.filed .bottomInsert).bottom p hp)
  · rw [Session.landed_settle, hlatest, h.landed]
    rfl

/-! ### Every run -/

/-- While rows come in live no page above the window is in flight. -/
theorem Session.Tailing.not_forward (h : σ.Tailing v debt reach first)
    (hattached : σ.store.attached = true) (hanswered : σ.flight = .answered page) :
    page.request.direction = .back := by
  have hflight := h.whole.flight
  rw [hanswered] at hflight
  have hland := hflight.landable
  rcases h.readsOn page.request (by rw [hanswered]; rfl) with ⟨cursor, hreq⟩ | ⟨cursor, hreq⟩
  · rw [hreq]
    rfl
  · rw [hreq] at hland
    rw [hland.2.1] at hattached
    cases hattached

theorem Session.Tailing.live (h : σ.Tailing v debt reach first) {handed : Int → Int}
    {rows : List MessageOut} {store : Store} {outcome : InsertOutcome}
    (hfeed : HandsOver σ.topic v σ.handed handed rows)
    (hok : σ.store.insertLive rows = .ok (store, outcome)) :
    Session.Tailing v debt (fun p => max (reach p) (handed p)) first
      { σ with handed := handed, store := store } := by
  obtain ⟨hattached, hcap⟩ := Store.insertLive_ok hok
  have hdelivery := hfeed.delivery (fun p => (h.debt_le p).1) h.handed_le
  obtain ⟨least, greatest, hm⟩ := Store.mergeLive_spec h.whole.sliding.filed rows
  have hstore : store = ((σ.store.mergeLive rows).enforceCap .topInsert).1 := by rw [hcap]
  have hkeeps : σ.store.KeepsEntries store := by
    rw [hstore]
    exact hm.keepsEntries.trans (Store.enforceCap_keepsEntries hm.filed _)
  have hwithin : store.Within σ.topic.low fun p => max (reach p) (handed p) := by
    rw [hstore]
    refine (hm.within (h.within.mono fun p => le_max_left _ _) fun m hmem => ?_).enforceCap
      hm.filed _
    obtain ⟨hmatch, -, hlt⟩ := hfeed.mem_iff.mp hmem
    exact ⟨(LiveTopic.matching_bounds hmatch).2.2.1, hlt.trans_le (le_max_right _ _)⟩
  refine ⟨h.whole.live hdelivery hok, hwithin,
    fun p => ⟨(h.debt_le p).1.trans (hfeed.onward p), (h.debt_le p).2⟩, fun p => le_max_right _ _,
    fun p => (h.first_le p).trans (le_max_left _ _),
    fun p => max_le (h.reach_le p) (hfeed.le_high p), ?_,
    fun p hp => h.rooted p (hkeeps.bottom p hp), h.readsOn, ?_, h.landed⟩
  · intro p hp
    have honward := hfeed.onward p
    show max (reach p) (handed p) = max (first.mark p) (handed p)
    rw [h.reach_eq p (hkeeps.top p hp)]
    omega
  · intro page hanswered hforward
    rw [h.not_forward hattached hanswered] at hforward
    cases hforward

theorem Session.Tailing.step {e : Event} (h : σ.Tailing v debt reach first)
    (hstep : Step v e σ σ') : ∃ reach', σ'.Tailing v debt reach' first := by
  cases hstep with
  | @grow _ w hgrow =>
    refine ⟨reach, h.whole.grow (growsPending hgrow h.reach_le), hgrow.low ▸ h.within, h.debt_le,
      h.handed_le, h.first_le, fun p => (h.reach_le p).trans (hgrow.high p), h.reach_eq, ?_,
      h.readsOn, h.marked, h.landed⟩
    intro p hp o ho
    rcases lt_or_ge o (σ.topic.high p) with hlt | hge
    · exact h.rooted p hp o (hgrow.real.mpr ⟨ho, hlt⟩)
    · exact ((h.first_le p).trans (h.reach_le p)).trans hge
  | @older _ cursor hidle hedge =>
    exact ⟨reach, h.whole.older hedge, h.within, h.debt_le, h.handed_le, h.first_le, h.reach_le,
      h.reach_eq, h.rooted, fun _ hreq => Or.inl ⟨cursor, (Option.some.inj hreq).symm⟩,
      fun _ hnone => (by cases hnone), h.landed⟩
  | @newer _ cursor hidle hedge =>
    exact ⟨reach, h.whole.newer hedge, h.within, h.debt_le, h.handed_le, h.first_le, h.reach_le,
      h.reach_eq, h.rooted, fun _ hreq => Or.inr ⟨cursor, (Option.some.inj hreq).symm⟩,
      fun _ hnone => (by cases hnone), h.landed⟩
  | answer hissued hasks hanswer =>
    refine ⟨reach, h.whole.answer hissued hasks hanswer, h.within, h.debt_le, h.handed_le,
      h.first_le, h.reach_le, h.reach_eq, h.rooted, ?_, ?_, h.landed⟩
    · intro request hreq
      apply h.readsOn request
      rw [hissued]
      exact hreq
    · intro page hpage _
      obtain rfl := Flight.answered.inj hpage
      exact h.reach_le
  | drop =>
    exact ⟨reach, h.whole.drop, h.within, h.debt_le, h.handed_le, h.first_le, h.reach_le,
      h.reach_eq, h.rooted, fun _ hnone => (by cases hnone), fun _ hnone => (by cases hnone),
      h.landed⟩
  | @land _ page hanswered =>
    rcases h.readsOn page.request (by rw [hanswered]; rfl) with ⟨cursor, hreq⟩ | ⟨cursor, hreq⟩
    · exact ⟨_, h.landOlder hanswered hreq⟩
    · exact ⟨_, h.landNewer hanswered hreq⟩
  | live hfeed hok => exact ⟨_, h.live hfeed hok⟩

theorem Session.Opening.run {cap : Nat} {allowed : Event → Prop} (h : σ.Opening v cap .latest)
    (hrun : Run v allowed σ σ') :
    σ'.Opening v cap .latest ∨ ∃ debt reach first, σ'.Tailing v debt reach first := by
  induction hrun with
  | refl => exact Or.inl h
  | tail _ hstep ih =>
    obtain ⟨e, -, hstep⟩ := hstep
    rcases ih with hopening | ⟨debt, reach, first, htailing⟩
    · rcases hopening.step hstep with hopening' | ⟨page, hanswered, rfl⟩
      · exact Or.inl hopening'
      · exact Or.inr ⟨_, _, _, hopening.landLatest hanswered⟩
    · obtain ⟨reach', htailing'⟩ := htailing.step hstep
      exact Or.inr ⟨debt, reach', first, htailing'⟩

/-- A page above the window that reports exhausted attaches it. -/
theorem Store.land_attached {s : Store} (hfiled : s.Filed) {cursor : List Position}
    (rows : List MessageOut)
    (hfresh : s.isStale .forward (some (decodeCursor cursor)) = false) :
    (s.land (.newer cursor) rows none).1.attached = true := by
  obtain ⟨least, greatest, hm⟩ :=
    Store.mergePage_spec hfiled rows .forward (some (decodeCursor cursor)) none false
  have hland : s.land (.newer cursor) rows none =
      (s.mergePage rows .forward (some (decodeCursor cursor)) none false).enforceCap
        .topInsert := by
    simp only [Store.land, Store.insertPage, Request.direction, Request.startPositions, hfresh,
      Bool.false_eq_true, if_false]
    rfl
  have hresult := Store.enforceCap_result hm.filed .topInsert
  rw [← hland] at hresult
  cases hl : s.land (.newer cursor) rows none with
  | mk s' outcome =>
    rw [hl] at hresult
    cases hresult with
    | fits => exact hm.attached
    | bottom _ ht => exact ht.attached.trans hm.attached

/-- When a page above a window opened at the tail attaches it, the window holds or delivers
    every matching record below the page's high watermark exactly if every partition that
    got one, past the first page and the feed, is named by the page's cursor. -/
theorem caught_up_iff {cap : Nat} (hopens : σ.Opens cap .latest)
    (hrun : Run v (fun _ => True) σ σ') (hanswered : σ'.flight = .answered page)
    {cursor : List Position} (hnewer : page.request = .newer cursor) (hexhausted : page.cont = none)
    (hfresh : σ'.store.isStale .forward (some (decodeCursor cursor)) = false)
    (hfirst : σ'.landed.head? = some first) :
    (σ'.settle page).store.attached = true ∧
      ((∀ p, ∀ m ∈ σ'.topic.matching v p, m.offset < page.mark p →
          m ∈ (σ'.settle page).store.rowsOf p ∨
            (σ'.settle page).store.DeliversBelow σ'.topic v m) ↔
        ∀ p, p ∉ cursor.map Prod.fst → ∀ m ∈ σ'.topic.matching v p,
          max (first.mark p) (σ'.handed p) ≤ m.offset → page.mark p ≤ m.offset) := by
  rcases (hopens.opening (Or.inl rfl)).run hrun with hopening | ⟨debt, reach, first', h⟩
  · rw [hopening.landed] at hfirst
    cases hfirst
  obtain rfl : first' = first := Option.some.inj (h.landed.symm.trans hfirst)
  have hattached : (σ'.settle page).store.attached = true := by
    show (σ'.store.land page.request page.rows page.cont).1.attached = true
    rw [hnewer, hexhausted]
    exact Store.land_attached h.whole.sliding.filed page.rows hfresh
  refine ⟨hattached, ?_⟩
  have hafter := h.landNewer hanswered hnewer
  have hflight := h.whole.flight
  rw [hanswered] at hflight
  have hland := hflight.landable
  rw [hnewer] at hland
  obtain ⟨hpos, -, hedge, -⟩ := hland
  -- after the page a record is held or delivered exactly if it lies below `reachAfter`
  have hiff : ∀ p, ∀ m ∈ σ'.topic.matching v p, (m ∈ (σ'.settle page).store.rowsOf p ∨
      (σ'.settle page).store.DeliversBelow σ'.topic v m) ↔ m.offset < page.reachAfter reach p := by
    intro p m hm
    rw [Store.deliversBelow_iff hm]
    refine ⟨hafter.reached, fun hlt => hafter.covered hm hlt fun hdetached => ?_⟩
    rw [hattached] at hdetached
    cases hdetached
  have hother : ∀ p, p ∉ cursor.map Prod.fst →
      page.reachAfter reach p = max (first'.mark p) (σ'.handed p) := by
    intro p hp
    rw [Page.reachAfter, hpos, if_neg hp]
    apply h.reach_eq p
    cases ht : σ'.store.topMap.get? p with
    | none => rfl
    | some t => exact absurd (List.mem_map_of_mem ((hedge (p, t)).mpr ht)) hp
  constructor
  · intro hall p hp m hm hle
    by_contra hlt
    have hreached := (hiff p m hm).mp (hall p m hm (not_le.mp hlt))
    rw [hother p hp] at hreached
    exact absurd hreached (not_lt.mpr hle)
  · intro hnamed p m hm hlt
    rw [hiff p m hm]
    by_cases hp : p ∈ cursor.map Prod.fst
    · rwa [Page.reachAfter, hpos, if_pos hp]
    · rw [hother p hp]
      by_contra hge
      exact absurd (hnamed p hp m hm (not_lt.mp hge)) (not_le.mpr hlt)

/-- The page that attaches the short window again after partition 1 got its first record. -/
def shortNewer : Page :=
  ⟨.newer [(0, 2)], [(0, 2)], (shortTopic 3 1).high, [shortMessage 0 2], none⟩

/-- The short window with that page in flight. -/
def shortCatching : Session :=
  { shortStart.settle shortPage with topic := shortTopic 3 1, flight := .answered shortNewer }

theorem shortCatching_run : Run plainView (fun _ => True) shortStart shortCatching := by
  have hanswer : (shortTopic 3 1).Answers plainView .forward [(0, 2)] [shortMessage 0 2] none :=
    @LiveTopic.page_answers _ _ _ _ 2 _ none true (by decide) (by decide)
      (by decide)
  have hgrown : Step plainView .grow (shortStart.settle shortPage)
      { shortStart.settle shortPage with topic := shortTopic 3 1 } :=
    .grow (shortTopic_grows (by decide) (by decide))
  have hissued : Step plainView .newer { shortStart.settle shortPage with topic := shortTopic 3 1 }
      { shortStart.settle shortPage with
        topic := shortTopic 3 1, flight := .issued (.newer [(0, 2)]) } :=
    .newer rfl rfl
  have hserved : Step plainView .answer { shortStart.settle shortPage with
      topic := shortTopic 3 1, flight := .issued (.newer [(0, 2)]) } shortCatching :=
    @Step.answer _ _ (.newer [(0, 2)]) _ _ _ rfl rfl hanswer
  exact ((shortStart_run.tail ⟨_, trivial, hgrown⟩).tail ⟨_, trivial, hissued⟩).tail
    ⟨_, trivial, hserved⟩

theorem short_caught_up_iff : (shortCatching.settle shortNewer).store.attached = true ∧
    ((∀ p, ∀ m ∈ (shortTopic 3 1).matching plainView p, m.offset < (shortTopic 3 1).high p →
        m ∈ (shortCatching.settle shortNewer).store.rowsOf p ∨
          (shortCatching.settle shortNewer).store.DeliversBelow (shortTopic 3 1) plainView m) ↔
      ∀ p, p ∉ [(0 : Int)] → ∀ m ∈ (shortTopic 3 1).matching plainView p,
        max ((shortTopic 3 0).high p) ((shortTopic 3 0).high p) ≤ m.offset →
          (shortTopic 3 1).high p ≤ m.offset) :=
  @caught_up_iff plainView shortPage shortNewer shortStart shortCatching 1 shortStart_opens
    shortCatching_run rfl [(0, 2)] rfl rfl rfl rfl

/-- Partition 1, which the window knows the lower edge of, got a record while the window was
    detached; attached again, the window neither holds nor delivers it. -/
theorem record_outside_attached_window :
    shortStart.Opens 1 .latest ∧ Run plainView (fun _ => True) shortStart shortCatching ∧
      shortCatching.store.bottomMap.get? 1 = some 0 ∧
      shortCatching.flight = .answered shortNewer ∧ shortNewer.cont = none ∧
      (shortCatching.settle shortNewer).store.attached = true ∧
      shortMessage 1 0 ∈ shortCatching.topic.matching plainView 1 ∧
      (shortMessage 1 0).offset < shortNewer.mark 1 ∧
      shortMessage 1 0 ∉ (shortCatching.settle shortNewer).store.rowsOf 1 ∧
      ¬ (shortCatching.settle shortNewer).store.DeliversBelow shortCatching.topic plainView
        (shortMessage 1 0) := by
  have hmem : shortMessage 1 0 ∈ shortCatching.topic.matching plainView 1 := by decide
  refine ⟨shortStart_opens, shortCatching_run, rfl, rfl, rfl, rfl, hmem, by decide, by decide, ?_⟩
  rw [Store.deliversBelow_iff hmem]
  rintro ⟨b, hb, hlt⟩
  obtain rfl : 0 = b := Option.some.inj hb
  exact absurd hlt (by decide)

end Arne.Client
