import Mathlib
import Arne.Client.Request

/-!
# A window over a growing topic

The runs of one window: a first page, then pages read on from the edges, at most one in
flight, while the topic grows and the feed hands over new records in between.
-/

namespace Arne.Client

open Arne.Message Arne.Timeline Arne.SortedLog

/-! ### States and steps -/

/-- A page as it was served, with the high watermarks of that moment. -/
structure Page where
  request : Request
  positions : List Position
  mark : Int → Int
  rows : List MessageOut
  cont : Option (List Position)

inductive Flight where
  | idle
  | issued (request : Request)
  | answered (page : Page)

def Flight.request? : Flight → Option Request
  | .idle => none
  | .issued request => some request
  | .answered page => some page.request

/-- `handed p` is how far the feed has handed over partition `p`.  `landed` is history: the
    pages that were not rejected. -/
structure Session where
  topic : LiveTopic
  handed : Int → Int
  store : Store
  flight : Flight
  landed : List Page

/-- The feed moves from `handed` to `handed'`: of every partition the matching messages in
    between, in offset order. -/
structure HandsOver (w : LiveTopic) (v : View) (handed handed' : Int → Int)
    (rows : List MessageOut) : Prop where
  onward : ∀ p, handed p ≤ handed' p
  le_high : ∀ p, handed' p ≤ w.high p
  rows_eq : ∀ p, rows.filter (·.partition == p) =
    (w.matching v p).filter fun m => handed p ≤ m.offset ∧ m.offset < handed' p

/-- The page lands: `insertPage`, and the flight is over. -/
def Session.settle (σ : Session) (page : Page) : Session :=
  let (store, outcome) := σ.store.land page.request page.rows page.cont
  { σ with
    store := store
    flight := .idle
    landed := if outcome.rejectedStale then σ.landed else σ.landed ++ [page] }

inductive Event where
  | grow
  | older
  | newer
  | answer
  | drop
  | land
  | live
deriving DecidableEq, Repr

inductive Step (v : View) : Event → Session → Session → Prop
  | grow {σ : Session} {w : LiveTopic} (h : σ.topic.Grows w) : Step v .grow σ { σ with topic := w }
  /-- `loadOlder` -/
  | older {σ : Session} {cursor : List Position} (hidle : σ.flight = .idle)
      (hedge : σ.store.edges.bottom = some cursor) :
      Step v .older σ { σ with flight := .issued (.older cursor) }
  /-- `loadNewer` -/
  | newer {σ : Session} {cursor : List Position} (hidle : σ.flight = .idle)
      (hedge : σ.store.edges.top = some cursor) :
      Step v .newer σ { σ with flight := .issued (.newer cursor) }
  | answer {σ : Session} {request : Request} {positions : List Position} {rows : List MessageOut}
      {cont : Option (List Position)} (hissued : σ.flight = .issued request)
      (hasks : request.Asks σ.topic positions)
      (hanswer : σ.topic.Answers v request.direction positions rows cont) :
      Step v .answer σ
        { σ with flight := .answered ⟨request, positions, σ.topic.high, rows, cont⟩ }
  /-- the request failed or was cancelled -/
  | drop {σ : Session} : Step v .drop σ { σ with flight := .idle }
  | land {σ : Session} {page : Page} (hanswered : σ.flight = .answered page) :
      Step v .land σ (σ.settle page)
  | live {σ : Session} {handed : Int → Int} {rows : List MessageOut} {store : Store}
      {outcome : InsertOutcome} (hfeed : HandsOver σ.topic v σ.handed handed rows)
      (hok : σ.store.insertLive rows = .ok (store, outcome)) :
      Step v .live σ { σ with handed := handed, store := store }

/-- A run of steps of the allowed kinds. -/
def Run (v : View) (allowed : Event → Prop) : Session → Session → Prop :=
  Relation.ReflTransGen fun σ σ' => ∃ e, allowed e ∧ Step v e σ σ'

/-- A cleared window has asked for its first page; the feed is connected. -/
structure Session.Opens (cap : Nat) (request : Request) (σ : Session) : Prop where
  store : σ.store = createSlidingWindowStore cap
  flight : σ.flight = .issued request
  landed : σ.landed = []
  handed_le : ∀ p, σ.handed p ≤ σ.topic.high p

/-! ### What every step keeps -/

/-- What is owed when all from `reach` on is. -/
def owedPast (reach : Int → Int) (p : Int) : Set Int := Set.Ici (reach p)

theorem HandsOver.mem_iff {w : LiveTopic} {v : View} {handed handed' : Int → Int}
    {rows : List MessageOut} (h : HandsOver w v handed handed' rows) {m : MessageOut} :
    m ∈ rows ↔ m ∈ w.matching v m.partition ∧ handed m.partition ≤ m.offset ∧
      m.offset < handed' m.partition := by
  have hmem : m ∈ rows ↔ m ∈ rows.filter (·.partition == m.partition) := by simp
  rw [hmem, h.rows_eq, List.mem_filter, decide_eq_true_eq]

/-- A window that needs nothing below `reach` from the feed takes what it hands over. -/
theorem HandsOver.delivery {w : LiveTopic} {v : View} {debt handed handed' reach : Int → Int}
    {rows : List MessageOut} (h : HandsOver w v handed handed' rows)
    (hdebt : ∀ p, debt p ≤ handed p) (hreach : ∀ p, handed p ≤ reach p) :
    Delivery w v debt (owedPast reach) (owedPast fun p => max (reach p) (handed' p)) rows where
  matching m hm := by
    obtain ⟨hmatch, hle, -⟩ := h.mem_iff.mp hm
    exact ⟨hmatch, (hdebt _).trans hle⟩
  rest := by
    rintro p o ho ⟨m, hm, rfl⟩
    have ho : reach p ≤ m.offset := ho
    rcases lt_or_ge m.offset (handed' p) with hlt | hge
    · have hp := (LiveTopic.matching_bounds hm).1
      refine Or.inl ⟨m, h.mem_iff.mpr ⟨hp.symm ▸ hm, ?_, hp.symm ▸ hlt⟩, hp, rfl⟩
      rw [hp]
      exact (hreach p).trans ho
    · exact Or.inr (max_le ho hge)

/-- The window is sound, and so is what it takes from the page in flight. -/
def Flight.Sound (w : LiveTopic) (v : View) (debt : Int → Int) (pending : Int → Set Int)
    (s : Store) : Flight → Prop
  | .idle => True
  | .issued request => request.Ready w v debt pending s
  | .answered page => Answered w v debt pending s page.request page.positions page.mark page.rows
      page.cont

structure Session.Whole (v : View) (debt : Int → Int) (pending : Int → Set Int) (σ : Session) :
    Prop where
  sliding : Sliding σ.topic v debt pending σ.store
  flight : σ.flight.Sound σ.topic v debt pending σ.store

variable {v : View} {debt : Int → Int} {pending pending' : Int → Set Int} {σ σ' : Session}

theorem Session.Whole.grow (h : σ.Whole v debt pending) {w : LiveTopic}
    (hgrow : GrowsPending σ.topic w v pending) :
    Session.Whole v debt pending { σ with topic := w } := by
  refine ⟨h.sliding.grow hgrow.grows hgrow.owed, ?_⟩
  have hflight := h.flight
  show σ.flight.Sound w v debt pending σ.store
  cases hf : σ.flight with
  | idle => trivial
  | issued request =>
    rw [hf] at hflight
    exact Request.Ready.grow hflight hgrow
  | answered page =>
    rw [hf] at hflight
    exact Answered.grow hflight hgrow

theorem Session.Whole.older (h : σ.Whole v debt pending) {cursor : List Position}
    (hedge : σ.store.edges.bottom = some cursor) :
    Session.Whole v debt pending { σ with flight := .issued (.older cursor) } :=
  ⟨h.sliding, h.sliding.ready_older hedge⟩

theorem Session.Whole.newer (h : σ.Whole v debt pending) {cursor : List Position}
    (hedge : σ.store.edges.top = some cursor) :
    Session.Whole v debt pending { σ with flight := .issued (.newer cursor) } :=
  ⟨h.sliding, ready_newer hedge σ.topic v debt pending⟩

theorem Session.Whole.drop (h : σ.Whole v debt pending) :
    Session.Whole v debt pending { σ with flight := .idle } := ⟨h.sliding, trivial⟩

theorem Session.Whole.answer (h : σ.Whole v debt pending) {request : Request}
    {positions : List Position} {rows : List MessageOut} {cont : Option (List Position)}
    (hissued : σ.flight = .issued request) (hasks : request.Asks σ.topic positions)
    (hanswer : σ.topic.Answers v request.direction positions rows cont) :
    Session.Whole v debt pending
      { σ with flight := .answered ⟨request, positions, σ.topic.high, rows, cont⟩ } := by
  have hready := h.flight
  rw [hissued] at hready
  exact ⟨h.sliding, Request.Ready.answer hready h.sliding hasks hanswer⟩

theorem Session.settle_store (σ : Session) (page : Page) :
    (σ.settle page).store = (σ.store.land page.request page.rows page.cont).1 := rfl

theorem Session.Whole.settle (h : σ.Whole v debt pending) {page : Page}
    (hanswered : σ.flight = .answered page) : (σ.settle page).Whole v debt pending := by
  have hflight := h.flight
  rw [hanswered] at hflight
  exact ⟨Answered.land h.sliding hflight, trivial⟩

theorem Session.Whole.live (h : σ.Whole v debt pending) {handed : Int → Int}
    {rows : List MessageOut} {store : Store} {outcome : InsertOutcome}
    (hdelivery : Delivery σ.topic v debt pending pending' rows)
    (hok : σ.store.insertLive rows = .ok (store, outcome)) :
    Session.Whole v debt pending' { σ with handed := handed, store := store } := by
  refine ⟨h.sliding.live hdelivery hok, ?_⟩
  have hflight := h.flight
  show σ.flight.Sound σ.topic v debt pending' store
  cases hf : σ.flight with
  | idle => trivial
  | issued request =>
    rw [hf] at hflight
    exact Request.Ready.live hflight h.sliding hdelivery hok
  | answered page =>
    rw [hf] at hflight
    exact Answered.live hflight h.sliding hdelivery hok

/-! ### Every run -/

/-- The invariant of a run: whole, but for what the feed has not handed over. -/
structure Session.Followed (v : View) (debt : Int → Int) (σ : Session) : Prop where
  whole : σ.Whole v debt (owedPast σ.handed)
  debt_le : ∀ p, debt p ≤ σ.handed p
  handed_le : ∀ p, σ.handed p ≤ σ.topic.high p

theorem growsPending {w w' : LiveTopic} {reach : Int → Int} (h : w.Grows w')
    (hle : ∀ p, reach p ≤ w.high p) : GrowsPending w w' v (owedPast reach) :=
  ⟨h, fun p _ _ hhigh => (hle p).trans hhigh⟩

theorem Session.Opens.followed {cap : Nat} {request : Request} (h : σ.Opens cap request)
    (hfirst : request = .latest ∨ request = .forwardFrom) : σ.Followed v σ.handed where
  whole := by
    have howed : OwedFrom σ.topic v σ.handed (owedPast σ.handed) := fun _ _ _ hle => hle
    refine ⟨h.store ▸ cleared_sliding howed cap, ?_⟩
    rw [h.flight]
    rcases hfirst with rfl | rfl
    · exact ⟨⟨cap, h.store⟩, howed, h.handed_le⟩
    · exact ⟨⟨cap, h.store⟩, howed, h.handed_le⟩
  debt_le _ := le_refl _
  handed_le := h.handed_le

theorem Session.Followed.step {e : Event} (h : σ.Followed v debt) (hstep : Step v e σ σ') :
    σ'.Followed v debt := by
  obtain ⟨hwhole, hdebt, hhanded⟩ := h
  cases hstep with
  | grow hgrow =>
    exact ⟨hwhole.grow (growsPending hgrow hhanded), hdebt,
      fun p => (hhanded p).trans (hgrow.high p)⟩
  | older hidle hedge => exact ⟨hwhole.older hedge, hdebt, hhanded⟩
  | newer hidle hedge => exact ⟨hwhole.newer hedge, hdebt, hhanded⟩
  | answer hissued hasks hanswer => exact ⟨hwhole.answer hissued hasks hanswer, hdebt, hhanded⟩
  | drop => exact ⟨hwhole.drop, hdebt, hhanded⟩
  | land hanswered => exact ⟨hwhole.settle hanswered, hdebt, hhanded⟩
  | @live _ handed _ _ _ hfeed hok =>
    have hmax : (fun p => max (σ.handed p) (handed p)) = handed :=
      funext fun p => max_eq_right (hfeed.onward p)
    have hdelivery := hmax ▸ hfeed.delivery hdebt fun _ => le_refl _
    exact ⟨hwhole.live hdelivery hok, fun p => (hdebt p).trans (hfeed.onward p), hfeed.le_high⟩

theorem Session.Followed.run {allowed : Event → Prop} (h : σ.Followed v debt)
    (hrun : Run v allowed σ σ') : σ'.Followed v debt := by
  induction hrun with
  | refl => exact h
  | tail _ hstep ih =>
    obtain ⟨e, -, hstep⟩ := hstep
    exact ih.step hstep

/-! ### What a landing leaves on record -/

theorem Store.land_rejectedStale (s : Store) (request : Request) (rows : List MessageOut)
    (cont : Option (List Position)) : (s.land request rows cont).2.rejectedStale =
      s.isStale request.direction request.startPositions := by
  rw [Store.land, Store.insertPage]
  cases hstale : s.isStale request.direction request.startPositions with
  | true => rfl
  | false => exact Store.enforceCap_rejectedStale _ _

theorem Session.landed_settle (σ : Session) (page : Page) : (σ.settle page).landed =
    if σ.store.isStale page.request.direction page.request.startPositions then σ.landed
    else σ.landed ++ [page] := by
  rw [← Store.land_rejectedStale σ.store page.request page.rows page.cont]
  rfl

/-- Later pages leave the first one on record. -/
theorem Session.landed_head {first : Page} (h : σ.landed.head? = some first) (page : Page) :
    (σ.settle page).landed.head? = some first := by
  rw [Session.landed_settle]
  split
  · exact h
  · rw [List.head?_append, h]
    rfl

/-! ### The first page is on its way -/

structure Session.Opening (v : View) (cap : Nat) (request : Request) (σ : Session) : Prop where
  store : σ.store = createSlidingWindowStore cap
  landed : σ.landed = []
  followed : σ.Followed v σ.handed
  asked : ∀ r, σ.flight.request? = some r → r = request

theorem Session.Opens.opening {cap : Nat} {request : Request} (h : σ.Opens cap request)
    (hfirst : request = .latest ∨ request = .forwardFrom) : σ.Opening v cap request where
  store := h.store
  landed := h.landed
  followed := h.followed hfirst
  asked r hr := by
    rw [h.flight] at hr
    exact (Option.some.inj hr).symm

/-- Nothing but its first page changes a cleared window. -/
theorem Session.Opening.step {cap : Nat} {request : Request} {e : Event}
    (h : σ.Opening v cap request) (hstep : Step v e σ σ') :
    σ'.Opening v cap request ∨ ∃ page, σ.flight = .answered page ∧ σ' = σ.settle page := by
  have hfollowed := h.followed.step hstep
  cases hstep with
  | grow hgrow => exact Or.inl ⟨h.store, h.landed, hfollowed, h.asked⟩
  | older hidle hedge =>
    rw [h.store] at hedge
    cases hedge
  | newer hidle hedge =>
    rw [h.store] at hedge
    cases hedge
  | answer hissued hasks hanswer =>
    refine Or.inl ⟨h.store, h.landed, hfollowed, fun r hr => h.asked r ?_⟩
    rw [hissued]
    exact hr
  | drop => exact Or.inl ⟨h.store, h.landed, hfollowed, fun _ hnone => (by cases hnone)⟩
  | land hanswered => exact Or.inr ⟨_, hanswered, rfl⟩
  | live hfeed hok =>
    have hattached := (Store.insertLive_ok hok).1
    rw [h.store] at hattached
    cases hattached

/-! ### Between the edges -/

/-- In every state of every run, between two edges the window holds the matching records
    and nothing else, but for those the feed has yet to hand over. -/
theorem window_contiguous {cap : Nat} {request : Request} (hopens : σ.Opens cap request)
    (hfirst : request = .latest ∨ request = .forwardFrom) (hrun : Run v (fun _ => True) σ σ')
    {p b t : Int} (hb : σ'.store.bottomMap.get? p = some b)
    (ht : σ'.store.topMap.get? p = some t) :
    Ascending MessageOut.offset (σ'.store.rowsOf p) ∧
      (∀ m ∈ σ'.store.rowsOf p, m ∈ σ'.topic.matching v p ∧ b ≤ m.offset ∧ m.offset < t) ∧
        ∀ m ∈ σ'.topic.matching v p, b ≤ m.offset → m.offset < t →
          m ∈ σ'.store.rowsOf p ∨ σ'.handed p ≤ m.offset := by
  have hsliding := ((hopens.followed hfirst).run hrun).whole.sliding
  obtain ⟨hheld, hall⟩ := (hsliding.sound p).exact hb ht
  refine ⟨hsliding.filed.ascending p, ?_, ?_⟩
  · intro m hm
    exact ⟨hsliding.held p m hm, (hheld m.offset ⟨m, hm, rfl⟩).2⟩
  · intro m hm hbm hmt
    rw [hsliding.mem_rowsOf_iff hm]
    exact hall m.offset (offset_real hm) hbm hmt

/-- The short topic at the tail, in a window of one row. -/
def shortStart : Session :=
  ⟨shortTopic 3 0, (shortTopic 3 0).high, createSlidingWindowStore 1, .issued .latest, []⟩

def shortPage : Page :=
  ⟨.latest, [(0, 3), (1, 0)], (shortTopic 3 0).high, [shortMessage 0 2, shortMessage 0 1],
    some [(0, 1), (1, 0)]⟩

theorem shortStart_opens : shortStart.Opens 1 .latest := ⟨rfl, rfl, rfl, fun _ => le_refl _⟩

/-- Its first page fills the window and loses the newer of its two rows. -/
theorem shortStart_run :
    Run plainView (fun _ => True) shortStart (shortStart.settle shortPage) := by
  have hanswer : (shortTopic 3 0).Answers plainView .back [(0, 3), (1, 0)]
      [shortMessage 0 2, shortMessage 0 1] (some [(0, 1), (1, 0)]) :=
    @LiveTopic.page_answers _ _ _ _ 2 _ (some ⟨.back, [(0, 1), (1, 0)]⟩) false (by decide) (by decide)
      (by decide)
  have hserved :
      Step plainView .answer shortStart { shortStart with flight := .answered shortPage } :=
    @Step.answer _ shortStart .latest _ _ _ rfl rfl hanswer
  have hlanded : Step plainView .land { shortStart with flight := .answered shortPage }
      (shortStart.settle shortPage) := @Step.land _ _ shortPage rfl
  exact .tail (.single ⟨_, trivial, hserved⟩) ⟨_, trivial, hlanded⟩

theorem short_window_contiguous :
    (shortStart.settle shortPage).store.rowsOf 0 = [shortMessage 0 1] ∧
      ∀ m ∈ (shortTopic 3 0).matching plainView 0, 1 ≤ m.offset → m.offset < 2 →
        m ∈ (shortStart.settle shortPage).store.rowsOf 0 ∨ 3 ≤ m.offset :=
  ⟨rfl, (window_contiguous shortStart_opens (Or.inl rfl) shortStart_run (p := 0) (b := 1) (t := 2)
    rfl rfl).2.2⟩

end Arne.Client
