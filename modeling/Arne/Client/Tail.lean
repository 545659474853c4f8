import Arne.Client.Moves
import Arne.Client.Session

/-!
# Pausing and resuming the live tail

The timeline over a growing topic: the tail hands over the records of each partition in
order, pages are served, and the reader pauses, jumps and scrolls.  What the tail handed
over is in the window, in the live buffer or past an edge, unless the buffer shifted it out.
-/

namespace Arne.Client

open Arne.Message Arne.Timeline Arne.SortedLog

/-! ### The timeline in its surroundings -/

/-- `tailed p` is how far the tail has handed over partition `p`.  `answer` is the page that
    is being streamed, of one generation of `useTimelinePage`; `view` is the filter of the
    requests. -/
structure Tailing where
  topic : LiveTopic
  view : View
  tailed : Int → Int
  answer : Option (Nat × Page)
  refs : TimelineRefs

/-- The client's predicate decides as the server's filter does. -/
def View.Decides (v : View) (predicate : MessageOut → Bool) : Prop :=
  ∀ m, predicate m = keeps v.handle v.filter m

/-- The tail's next message: a record of the topic, and none that matches is skipped. -/
structure Tailing.Next (ω : Tailing) (m : MessageOut) : Prop where
  record : m ∈ ω.topic.matching ⟨ω.view.handle, none⟩ m.partition
  onward : ω.tailed m.partition ≤ m.offset
  skips_none : ∀ m' ∈ ω.topic.matching ω.view m.partition,
    ω.tailed m.partition ≤ m'.offset → m.offset ≤ m'.offset

/-- The tail is past `m`. -/
def Tailing.past (ω : Tailing) (m : MessageOut) : Int → Int :=
  Function.update ω.tailed m.partition (m.offset + 1)

/-- What the reader does, and the events that bring no rows. -/
def TimelineEvent.Unfed : TimelineEvent → Prop
  | .message _ => False
  | .pageMatches _ => False
  | .pageEnd _ _ => False
  | .applyFilter _ => False
  | _ => True

inductive Tailing.Step (env : TextEnv) : Option TimelineEvent → Tailing → Tailing → Prop
  | grow {ω : Tailing} {w : LiveTopic} (h : ω.topic.Grows w) :
      Tailing.Step env none ω { ω with topic := w }
  | answer {ω : Tailing} {request : Request} {positions : List Position} {rows : List MessageOut}
      {cont : Option (List Position)} (hflight : ω.refs.flight = some request)
      (hwaiting : ∀ page, ω.answer ≠ some (ω.refs.generation, page))
      (hasks : request.Asks ω.topic positions)
      (hanswer : ω.topic.Answers ω.view request.direction positions rows cont) :
      Tailing.Step env none ω { ω with
        answer := some (ω.refs.generation, ⟨request, positions, ω.topic.high, rows, cont⟩) }
  | tail {ω : Tailing} {m : MessageOut} {refs : TimelineRefs} (hnext : ω.Next m)
      (hok : ω.refs.handle env (.message m) = .ok refs) :
      Tailing.Step env (some (.message m)) ω { ω with tailed := ω.past m, refs := refs }
  | batch {ω : Tailing} {msgs : List MessageOut} {page : Page} {refs : TimelineRefs}
      (hanswer : ω.answer = some (ω.refs.generation, page))
      (hrows : ω.refs.pageRowsRef ++ msgs <+: page.rows)
      (hok : ω.refs.handle env (.pageMatches msgs) = .ok refs) :
      Tailing.Step env (some (.pageMatches msgs)) ω { ω with refs := refs }
  | pageEnd {ω : Tailing} {page : Page} {refs : TimelineRefs}
      (hanswer : ω.answer = some (ω.refs.generation, page)) (hrows : ω.refs.pageRowsRef = page.rows)
      (hok : ω.refs.handle env (.pageEnd page.cont page.cont.isNone) = .ok refs) :
      Tailing.Step env (some (.pageEnd page.cont page.cont.isNone)) ω { ω with refs := refs }
  | refilter {ω : Tailing} {text : String} {view : View} {refs : TimelineRefs}
      (hhandle : view.handle = ω.view.handle)
      (hdecides : view.Decides (parseFilterQuery env text).predicate)
      (hok : ω.refs.handle env (.applyFilter text) = .ok refs) :
      Tailing.Step env (some (.applyFilter text)) ω { ω with view := view, refs := refs }
  | unfed {ω : Tailing} {event : TimelineEvent} {refs : TimelineRefs} (hunfed : event.Unfed)
      (hok : ω.refs.handle env event = .ok refs) :
      Tailing.Step env (some event) ω { ω with refs := refs }

/-- The timeline was just mounted, unfiltered; the tail starts anywhere. -/
structure Tailing.Opens (env : TextEnv) (windowCap : Nat) (ω : Tailing) : Prop where
  refs : ω.refs = .mount env windowCap
  answer : ω.answer = none
  filter : ω.view.filter = none

/-- A run of steps that are allowed where they occur. -/
def Tailing.Run (env : TextEnv) (allowed : Tailing → Option TimelineEvent → Prop) :
    Tailing → Tailing → Prop :=
  Relation.ReflTransGen fun ω ω' => ∃ event, allowed ω event ∧ Tailing.Step env event ω ω'

/-- A message that is buffered finds room. -/
def Tailing.Roomy (ω : Tailing) (event : Option TimelineEvent) : Prop :=
  ∀ m, event = some (.message m) → ω.refs.predicateRef m = true →
    ω.refs.attachedRef = false ∨ ω.refs.pauseReasonRef ≠ .none ∨ ω.refs.inspectingRef = true →
      ω.refs.liveBuffer.items.length < ω.refs.liveBuffer.cap

/-! ### The window a timeline shows -/

/-- What the window may still lack: records from before the tail began, those in the buffer,
    and those the tail has yet to hand over. -/
def owedTo (start tailed : Int → Int) (items : List MessageOut) (p : Int) : Set Int :=
  {o | o < start p ∨ (∃ m ∈ items, m.partition = p ∧ m.offset = o) ∨ tailed p ≤ o}

def Tailing.flight (ω : Tailing) : Flight :=
  match ω.refs.flight, ω.answer with
  | none, _ => .idle
  | some request, none => .issued request
  | some request, some (generation, page) =>
      if generation = ω.refs.generation then .answered page else .issued request

def Tailing.session (ω : Tailing) : Session := ⟨ω.topic, ω.tailed, ω.refs.store, ω.flight, []⟩

section Whole

variable {v : View} {debt : Int → Int} {pending pending' : Int → Set Int} {σ : Session}
  {w : LiveTopic} {s : Store}

theorem OwedFrom.mono (h : OwedFrom w v debt pending)
    (hmono : ∀ p, ∀ o ∈ w.real v p, o ∈ pending p → o ∈ pending' p) :
    OwedFrom w v debt pending' :=
  fun p o ho hle => hmono p o ho (h p o ho hle)

/-- Only what is owed of the topic's records counts. -/
theorem Session.Whole.mono (h : σ.Whole v debt pending)
    (hmono : ∀ p, ∀ o ∈ σ.topic.real v p, o ∈ pending p → o ∈ pending' p) :
    σ.Whole v debt pending' := by
  refine ⟨h.sliding.pending_congr fun p o ho hpending _ => Or.inr (hmono p o ho hpending), ?_⟩
  have hflight := h.flight
  cases hf : σ.flight with
  | idle => trivial
  | issued request =>
    rw [hf] at hflight
    show request.Ready σ.topic v debt pending' σ.store
    cases request with
    | latest => exact ⟨hflight.1, hflight.2.1.mono hmono, hflight.2.2⟩
    | forwardFrom => exact ⟨hflight.1, hflight.2.1.mono hmono, hflight.2.2⟩
    | older cursor => exact hflight
    | newer cursor => exact hflight
  | answered page =>
    rw [hf] at hflight
    refine ⟨hflight.read, ?_⟩
    have hland := hflight.landable
    cases hrequest : page.request with
    | latest =>
      rw [hrequest] at hland
      obtain ⟨hcap, hlatest, hall, howed, hle⟩ := hland
      exact ⟨hcap, hlatest, hall, howed.mono hmono, hle⟩
    | forwardFrom =>
      rw [hrequest] at hland
      obtain ⟨hcap, hall, howed, hle⟩ := hland
      exact ⟨hcap, hall, howed.mono hmono, hle⟩
    | older cursor =>
      rw [hrequest] at hland
      exact hland
    | newer cursor =>
      rw [hrequest] at hland
      obtain ⟨hpos, hdetached, hedge, hmark, hpast⟩ := hland
      exact ⟨hpos, hdetached, hedge, hmark, fun p o ho hle => hmono p o ho (hpast p o ho hle)⟩

theorem Sliding.rows (h : Sliding w v debt pending s) : Sliding w v debt pending s.rows.1 :=
  ⟨h.filed, h.held, h.sound, h.bottom_known, h.top_known⟩

/-- The cached merge is nothing to an attached window. -/
theorem Session.Whole.rows (h : σ.Whole v debt pending) (hattached : σ.store.attached = true) :
    Session.Whole v debt pending { σ with store := σ.store.rows.1 } := by
  refine ⟨h.sliding.rows, ?_⟩
  have hflight := h.flight
  show σ.flight.Sound σ.topic v debt pending σ.store.rows.1
  cases hf : σ.flight with
  | idle => trivial
  | issued request =>
    rw [hf] at hflight
    cases request with
    | latest =>
      obtain ⟨⟨cap, hstore⟩, -⟩ := hflight
      rw [hstore] at hattached
      cases hattached
    | forwardFrom =>
      obtain ⟨⟨cap, hstore⟩, -⟩ := hflight
      rw [hstore] at hattached
      cases hattached
    | older cursor => exact hflight
    | newer cursor => exact hflight
  | answered page =>
    rw [hf] at hflight
    refine ⟨hflight.read, ?_⟩
    have hland := hflight.landable
    cases hrequest : page.request with
    | latest =>
      rw [hrequest] at hland
      obtain ⟨⟨cap, hstore⟩, -⟩ := hland
      rw [hstore] at hattached
      cases hattached
    | forwardFrom =>
      rw [hrequest] at hland
      obtain ⟨⟨cap, hstore⟩, -⟩ := hland
      rw [hstore] at hattached
      cases hattached
    | older cursor =>
      rw [hrequest] at hland
      exact hland
    | newer cursor =>
      rw [hrequest] at hland
      exact hland

end Whole

/-! ### The invariant -/

/-- What was handed over: everything from `start` to `tailed`, of which `items` are buffered. -/
structure HandedOver (start debt : Int → Int) (w : LiveTopic) (v : View) (tailed : Int → Int)
    (items : List MessageOut) : Prop where
  start_le : ∀ p, start p ≤ tailed p
  reached : ∀ p, tailed p ≤ w.high p ∨ tailed p = start p
  debt_le : ∀ p, debt p ≤ tailed p
  buffered : ∀ m ∈ items, m ∈ w.matching v m.partition ∧ debt m.partition ≤ m.offset ∧
    m.offset < tailed m.partition

namespace Tailing

structure Sound (start debt : Int → Int) (ω : Tailing) : Prop where
  agreed : ω.refs.Agreed
  decides : ω.view.Decides ω.refs.predicateRef
  handed : HandedOver start debt ω.topic ω.view ω.tailed ω.refs.liveBuffer.items
  asked : ∀ request page, ω.refs.flight = some request →
    ω.answer = some (ω.refs.generation, page) → page.request = request
  current : ∀ generation page, ω.answer = some (generation, page) →
    generation ≤ ω.refs.generation
  whole : ω.session.Whole ω.view debt (owedTo start ω.tailed ω.refs.liveBuffer.items)

variable {env : TextEnv} {start debt : Int → Int} {ω ω' : Tailing} {tl : TimelineRefs}
  {event : TimelineEvent}

theorem flight_eq_issued {request : Request} (hflight : ω.refs.flight = some request)
    (hwaiting : ∀ page, ω.answer ≠ some (ω.refs.generation, page)) :
    ω.flight = .issued request := by
  unfold Tailing.flight
  rw [hflight]
  cases hanswer : ω.answer with
  | none => rfl
  | some answer =>
    obtain ⟨generation, page⟩ := answer
    apply if_neg
    rintro rfl
    exact hwaiting page hanswer

theorem flight_eq_answered {request : Request} {page : Page}
    (hflight : ω.refs.flight = some request)
    (hanswer : ω.answer = some (ω.refs.generation, page)) : ω.flight = .answered page := by
  unfold Tailing.flight
  rw [hflight, hanswer]
  exact if_pos rfl

theorem flight_eq_idle (hflight : ω.refs.flight = none) : ω.flight = .idle := by
  unfold Tailing.flight
  rw [hflight]

/-! ### The topic and its pages -/

/-- Records the topic gains are owed. -/
theorem Sound.growsPending (h : ω.Sound start debt) {w : LiveTopic} (hgrow : ω.topic.Grows w) :
    GrowsPending ω.topic w ω.view (owedTo start ω.tailed ω.refs.liveBuffer.items) := by
  refine ⟨hgrow, ?_⟩
  intro p o _ hhigh
  rcases h.handed.reached p with hle | heq
  · exact Or.inr (Or.inr (hle.trans hhigh))
  · rcases lt_or_ge o (start p) with hlt | hge
    · exact Or.inl hlt
    · exact Or.inr (Or.inr (heq ▸ hge))

theorem Sound.grow (h : ω.Sound start debt) {w : LiveTopic} (hgrow : ω.topic.Grows w) :
    Sound start debt { ω with topic := w } where
  agreed := h.agreed
  decides := h.decides
  handed := by
    constructor
    · exact h.handed.start_le
    · exact fun p => (h.handed.reached p).imp_left fun hle => hle.trans (hgrow.high p)
    · exact h.handed.debt_le
    · intro m hm
      obtain ⟨hmatch, hbounds⟩ := h.handed.buffered m hm
      exact ⟨(hgrow.mem_matching.mp hmatch).1, hbounds⟩
  asked := h.asked
  current := h.current
  whole := h.whole.grow (h.growsPending hgrow)

theorem Sound.answer (h : ω.Sound start debt) {request : Request} {positions : List Position}
    {rows : List MessageOut} {cont : Option (List Position)}
    (hflight : ω.refs.flight = some request)
    (hwaiting : ∀ page, ω.answer ≠ some (ω.refs.generation, page))
    (hasks : request.Asks ω.topic positions)
    (hanswer : ω.topic.Answers ω.view request.direction positions rows cont) :
    Sound start debt { ω with
      answer := some (ω.refs.generation, ⟨request, positions, ω.topic.high, rows, cont⟩) } where
  agreed := h.agreed
  decides := h.decides
  handed := h.handed
  asked request' page hflight' hpage := by
    cases hpage
    exact Option.some.inj (hflight.symm.trans hflight')
  current generation page hpage := by
    cases hpage
    exact le_refl _
  whole := by
    have hissued : ω.session.flight = .issued request := flight_eq_issued hflight hwaiting
    have hserved := h.whole.answer hissued hasks hanswer
    have hanswered : Tailing.flight { ω with answer := some (ω.refs.generation,
        ⟨request, positions, ω.topic.high, rows, cont⟩) } =
          .answered ⟨request, positions, ω.topic.high, rows, cont⟩ := by
      apply flight_eq_answered
      · exact hflight
      · rfl
    refine ⟨hserved.sliding, ?_⟩
    show (Tailing.flight _).Sound _ _ _ _ _
    rw [hanswered]
    exact hserved.flight

/-! ### Refs that changed -/

/-- The page in flight and what the tail is filtered by are as they were. -/
structure Follows (tl tl' : TimelineRefs) : Prop where
  predicateRef : tl'.predicateRef = tl.predicateRef
  flight : tl'.flight = tl.flight
  generation : tl'.generation = tl.generation

/-- With the same page in flight it is enough that the window is whole again. -/
theorem Sound.follow (h : ω.Sound start debt) {tailed : Int → Int} (hagreed : tl.Agreed)
    (hfollows : Follows ω.refs tl)
    (hhanded : HandedOver start debt ω.topic ω.view tailed tl.liveBuffer.items)
    (hwhole : Session.Whole ω.view debt (owedTo start tailed tl.liveBuffer.items)
      { ω.session with handed := tailed, store := tl.store }) :
    Sound start debt { ω with tailed := tailed, refs := tl } where
  agreed := hagreed
  decides := hfollows.predicateRef ▸ h.decides
  handed := hhanded
  asked request page hrequest hpage :=
    h.asked request page (hfollows.flight ▸ hrequest) (hfollows.generation ▸ hpage)
  current generation page hpage := hfollows.generation ▸ h.current generation page hpage
  whole := by
    have hsame : Tailing.flight { ω with tailed := tailed, refs := tl } = ω.flight := by
      unfold Tailing.flight
      rw [hfollows.flight, hfollows.generation]
    refine ⟨hwhole.sliding, ?_⟩
    show (Tailing.flight { ω with tailed := tailed, refs := tl }).Sound _ _ _ _ _
    rw [hsame]
    exact hwhole.flight

/-- What the invariant reads of the refs is the same. -/
theorem Sound.congr (h : ω.Sound start debt) (hagreed : tl.Agreed) (hfollows : Follows ω.refs tl)
    (hstore : tl.store = ω.refs.store) (hitems : tl.liveBuffer.items = ω.refs.liveBuffer.items) :
    Sound start debt { ω with refs := tl } := by
  apply h.follow hagreed hfollows
  · exact hitems ▸ h.handed
  · rw [hstore, hitems]
    exact h.whole

/-- The page in flight is over. -/
theorem Sound.land (h : ω.Sound start debt) (hagreed : tl.Agreed)
    (hsliding : Sliding ω.topic ω.view debt
      (owedTo start ω.tailed ω.refs.liveBuffer.items) tl.store)
    (hitems : tl.liveBuffer.items = ω.refs.liveBuffer.items)
    (hpredicate : tl.predicateRef = ω.refs.predicateRef) (hflight : tl.flight = none)
    (hgeneration : ω.refs.generation ≤ tl.generation) : Sound start debt { ω with refs := tl } where
  agreed := hagreed
  decides := hpredicate ▸ h.decides
  handed := hitems ▸ h.handed
  asked request page hrequest _ := by
    rw [hflight] at hrequest
    cases hrequest
  current generation page hpage := (h.current generation page hpage).trans hgeneration
  whole := by
    constructor
    · show Sliding ω.topic ω.view debt (owedTo start ω.tailed tl.liveBuffer.items) tl.store
      rw [hitems]
      exact hsliding
    · show (Tailing.flight { ω with refs := tl }).Sound _ _ _ _ _
      rw [flight_eq_idle hflight]
      trivial

/-- A page was asked for, which supersedes the one in flight. -/
theorem Sound.ask {topic : LiveTopic} {v : View} {tailed : Int → Int} {answer : Option (Nat × Page)}
    {request : Request} (hagreed : tl.Agreed) (hdecides : v.Decides tl.predicateRef)
    (hhanded : HandedOver start debt topic v tailed tl.liveBuffer.items)
    (hflight : tl.flight = some request)
    (hbefore : ∀ generation page, answer = some (generation, page) → generation < tl.generation)
    (hsliding : Sliding topic v debt (owedTo start tailed tl.liveBuffer.items) tl.store)
    (hready : request.Ready topic v debt (owedTo start tailed tl.liveBuffer.items) tl.store) :
    Sound start debt ⟨topic, v, tailed, answer, tl⟩ := by
  have hwaiting : ∀ page, answer ≠ some (tl.generation, page) := by
    intro page hpage
    exact absurd (hbefore _ page hpage) (lt_irrefl _)
  refine ⟨hagreed, hdecides, hhanded, ?_, ?_, hsliding, ?_⟩
  · intro request' page _ hpage
    exact absurd hpage (hwaiting page)
  · intro generation page hpage
    exact le_of_lt (hbefore generation page hpage)
  · have hissued : Tailing.flight ⟨topic, v, tailed, answer, tl⟩ = .issued request := by
      apply flight_eq_issued hflight
      exact hwaiting
    show (Tailing.flight ⟨topic, v, tailed, answer, tl⟩).Sound _ _ _ _ _
    rw [hissued]
    exact hready

/-! ### Live rows -/

theorem noteHeld_follows (tl : TimelineRefs) (outcome : InsertOutcome) :
    Follows tl (tl.noteHeld outcome) ∧ (tl.noteHeld outcome).liveBuffer = tl.liveBuffer ∧
      (tl.noteHeld outcome).flushes = tl.flushes ∧
        ((tl.noteHeld outcome).store = tl.store ∨
          (tl.noteHeld outcome).store = tl.store.rows.1) := by
  unfold TimelineRefs.noteHeld
  dsimp only
  split
  · exact ⟨⟨rfl, rfl, rfl⟩, rfl, rfl, Or.inr rfl⟩
  · exact ⟨⟨rfl, rfl, rfl⟩, rfl, rfl, Or.inl rfl⟩

/-- Rows that were owed go into the attached window. -/
theorem Sound.insertLive (h : ω.Sound start debt) {rows : List MessageOut} {store : Store}
    {outcome : InsertOutcome} (hlive : ω.refs.store.insertLive rows = .ok (store, outcome))
    {tailed : Int → Int} (hstore : tl.store = store) (hfollows : Follows ω.refs tl)
    (hhanded : HandedOver start debt ω.topic ω.view tailed tl.liveBuffer.items)
    (hdelivery : Delivery ω.topic ω.view debt (owedTo start ω.tailed ω.refs.liveBuffer.items)
      (owedTo start tailed tl.liveBuffer.items) rows) :
    Sound start debt { ω with tailed := tailed, refs := tl.noteHeld outcome } := by
  have hattached : tl.store.attached = true := by
    rw [hstore]
    exact Store.insertLive_attached hlive
  obtain ⟨hnoted, hbuffer, -, hcached⟩ := noteHeld_follows tl outcome
  have hwhole : Session.Whole ω.view debt (owedTo start tailed tl.liveBuffer.items)
      { ω.session with handed := tailed, store := store } := h.whole.live hdelivery hlive
  rw [← hstore] at hwhole
  apply h.follow
  · exact TimelineRefs.Agreed.noteHeld hattached outcome
  · exact ⟨hnoted.predicateRef.trans hfollows.predicateRef, hnoted.flight.trans hfollows.flight,
      hnoted.generation.trans hfollows.generation⟩
  · exact hbuffer ▸ hhanded
  · rw [hbuffer]
    rcases hcached with hsame | hrows
    · rw [hsame]
      exact hwhole
    · rw [hrows]
      exact hwhole.rows hattached

/-- The buffer is flushed. -/
theorem Sound.flush (h : ω.Sound start debt) {store : Store} {outcome : InsertOutcome}
    (hlive : ω.refs.store.insertLive ω.refs.liveBuffer.items = .ok (store, outcome)) :
    Sound start debt { ω with
      refs := TimelineRefs.noteHeld { ω.refs.drain.1 with store := store } outcome } := by
  have hfollows : Follows ω.refs { ω.refs.drain.1 with store := store } := ⟨rfl, rfl, rfl⟩
  apply h.insertLive hlive rfl hfollows
  · exact ⟨h.handed.start_le, h.handed.reached, h.handed.debt_le, fun m hm => (by cases hm)⟩
  · constructor
    · intro m hm
      obtain ⟨hmatch, hdebt, -⟩ := h.handed.buffered m hm
      exact ⟨hmatch, hdebt⟩
    · intro p o ho _
      rcases ho with hbefore | ⟨m, hm, hp, hoff⟩ | hahead
      · exact Or.inr (Or.inl hbefore)
      · exact Or.inl ⟨m, hm, hp, hoff⟩
      · exact Or.inr (Or.inr (Or.inr hahead))

/-! ### Moves -/

theorem Sound.ready (h : ω.Sound start debt) {direction : Direction} {cursor : List Position}
    (hedge : ω.refs.edgeCursorFor direction = some cursor) :
    (TimelineRefs.cursorRequest direction cursor).Ready ω.topic ω.view debt
      (owedTo start ω.tailed ω.refs.liveBuffer.items) ω.refs.store := by
  cases direction with
  | back => exact h.whole.sliding.ready_older hedge
  | forward => exact ready_newer hedge ω.topic ω.view debt _

theorem Sound.run (h : ω.Sound start debt) {direction : Direction} {cursor : List Position}
    (hedge : ω.refs.edgeCursorFor direction = some cursor) {tl : TimelineRefs}
    (hquiet : ω.refs.Quiet tl) (resetIteration : Bool) : Sound start debt { ω with
      refs := tl.runPage (TimelineRefs.cursorRequest direction cursor) resetIteration } := by
  apply Sound.ask
  · exact hquiet.agreed h.agreed
  · show ω.view.Decides tl.predicateRef
    exact hquiet.predicateRef ▸ h.decides
  · show HandedOver start debt ω.topic ω.view ω.tailed tl.liveBuffer.items
    exact hquiet.liveBuffer ▸ h.handed
  · rfl
  · intro generation page hpage
    have hle := h.current generation page hpage
    show generation < tl.generation + 1
    rw [hquiet.generation]
    omega
  · show Sliding ω.topic ω.view debt (owedTo start ω.tailed tl.liveBuffer.items) tl.store
    rw [hquiet.liveBuffer, hquiet.store]
    exact h.whole.sliding
  · show (TimelineRefs.cursorRequest direction cursor).Ready ω.topic ω.view debt
      (owedTo start ω.tailed tl.liveBuffer.items) tl.store
    rw [hquiet.liveBuffer, hquiet.store]
    exact h.ready hedge

theorem Sound.quiet (h : ω.Sound start debt) (hquiet : ω.refs.Quiet tl) :
    Sound start debt { ω with refs := tl } :=
  h.congr (hquiet.agreed h.agreed) ⟨hquiet.predicateRef, hquiet.flight, hquiet.generation⟩
    hquiet.store (congrArg LiveBuffer.items hquiet.liveBuffer)

theorem Sound.settles (h : ω.Sound start debt) (hmove : TimelineRefs.Settles ω.refs tl) :
    Sound start debt { ω with refs := tl } := by
  have hagreed := h.agreed.settles hmove
  cases hmove with
  | flush hattached hlive => exact h.flush hlive
  | drained hattached hnone => exact h.congr hagreed ⟨rfl, rfl, rfl⟩ rfl hnone.symm
  | attach hstore => exact h.congr hagreed ⟨rfl, rfl, rfl⟩ rfl rfl
  | quiet hquiet => exact h.quiet hquiet
  | run hrows hedge resetIteration =>
    exact h.run hedge ⟨rfl, rfl, rfl, rfl, rfl, rfl, rfl, rfl, rfl, rfl⟩ resetIteration

theorem Sound.settled (h : ω.Sound start debt) (hmoves : TimelineRefs.Settled ω.refs tl) :
    Sound start debt { ω with refs := tl } := by
  induction hmoves with
  | refl => exact h
  | tail _ hmove ih => exact ih.settles hmove

/-- A cleared window lacks what the tail has yet to hand over, and asks for its first page. -/
theorem Sound.restart (h : ω.Sound start debt) {v : View} (hagreed : tl.Agreed)
    (hdecides : v.Decides tl.predicateRef)
    (hcleared : ∃ cap, tl.store = createSlidingWindowStore cap)
    (hitems : tl.liveBuffer.items = []) {request : Request}
    (hfirst : request = .latest ∨ request = .forwardFrom) (hflight : tl.flight = some request)
    (hgeneration : ω.refs.generation < tl.generation) :
    Sound start (fun p => min (ω.tailed p) (ω.topic.high p)) { ω with view := v, refs := tl } := by
  obtain ⟨cap, hstore⟩ := hcleared
  have howed : OwedFrom ω.topic v (fun p => min (ω.tailed p) (ω.topic.high p))
      (owedTo start ω.tailed tl.liveBuffer.items) := by
    intro p o ho hle
    have hbelow := (LiveTopic.real_bounds o ho).2
    rcases lt_or_ge o (start p) with hlt | hge
    · exact Or.inl hlt
    · refine Or.inr (Or.inr ?_)
      rcases h.handed.reached p with hreached | hstart
      · have hmin : min (ω.tailed p) (ω.topic.high p) ≤ o := hle
        rwa [min_eq_left hreached] at hmin
      · exact hstart ▸ hge
  apply Sound.ask
  · exact hagreed
  · exact hdecides
  · refine ⟨h.handed.start_le, h.handed.reached, fun p => min_le_left _ _, ?_⟩
    intro m hm
    rw [hitems] at hm
    cases hm
  · exact hflight
  · intro generation page hpage
    exact lt_of_le_of_lt (h.current generation page hpage) hgeneration
  · rw [hstore]
    exact cleared_sliding howed cap
  · rcases hfirst with rfl | rfl
    · exact ⟨⟨cap, hstore⟩, howed, fun p => min_le_right _ _⟩
    · exact ⟨⟨cap, hstore⟩, howed, fun p => min_le_right _ _⟩

/-! ### The next message -/

theorem Next.onward_past {m : MessageOut} (hnext : ω.Next m) (p : Int) :
    ω.tailed p ≤ ω.past m p := by
  unfold Tailing.past
  by_cases hp : p = m.partition
  · subst hp
    rw [Function.update_self]
    have := hnext.onward
    omega
  · rw [Function.update_of_ne hp]

/-- A record the predicate keeps is a matching one. -/
theorem Sound.matching (h : ω.Sound start debt) {m : MessageOut} (hnext : ω.Next m)
    (hpred : ω.refs.predicateRef m = true) : m ∈ ω.topic.matching ω.view m.partition := by
  rw [LiveTopic.mem_matching]
  exact ⟨(LiveTopic.mem_matching.mp hnext.record).1, (h.decides m).symm.trans hpred⟩

/-- Of what was owed only the message itself is no longer ahead. -/
theorem Sound.owed_past (h : ω.Sound start debt) {m : MessageOut} (hnext : ω.Next m) {p o : Int}
    (ho : o ∈ ω.topic.real ω.view p) {items : List MessageOut}
    (howed : o ∈ owedTo start ω.tailed items p) :
    (ω.refs.predicateRef m = true ∧ m.partition = p ∧ m.offset = o) ∨
      o ∈ owedTo start (ω.past m) items p := by
  rcases howed with hbefore | hbuffered | hahead
  · exact Or.inr (Or.inl hbefore)
  · exact Or.inr (Or.inr (Or.inl hbuffered))
  · by_cases hp : p = m.partition
    · subst hp
      obtain ⟨m', hm', rfl⟩ := ho
      have hle := hnext.skips_none m' hm' hahead
      rcases hle.eq_or_lt with heq | hlt
      · left
        -- the record at this offset is the message, and its filter keeps it
        obtain ⟨hrecord, hkeeps⟩ := LiveTopic.mem_matching.mp hm'
        have hplain : m' ∈ ω.topic.matching ⟨ω.view.handle, none⟩ m.partition :=
          LiveTopic.mem_matching.mpr ⟨hrecord, rfl⟩
        obtain rfl := LiveTopic.matching_eq hnext.record hplain heq
        exact ⟨(h.decides m).trans hkeeps, rfl, rfl⟩
      · right
        right
        right
        show ω.past m m.partition ≤ m'.offset
        rw [Tailing.past, Function.update_self]
        omega
    · right
      right
      right
      show ω.past m p ≤ o
      rw [Tailing.past, Function.update_of_ne hp]
      exact hahead

theorem Sound.handed_past (h : ω.Sound start debt) {m : MessageOut} (hnext : ω.Next m)
    {items : List MessageOut}
    (hitems : ∀ x ∈ items, x ∈ ω.refs.liveBuffer.items ∨ x = m ∧ ω.refs.predicateRef m = true) :
    HandedOver start debt ω.topic ω.view (ω.past m) items where
  start_le p := (h.handed.start_le p).trans (hnext.onward_past p)
  reached p := by
    by_cases hp : p = m.partition
    · subst hp
      left
      rw [Tailing.past, Function.update_self]
      have := (LiveTopic.matching_bounds hnext.record).2.2.2
      omega
    · rw [Tailing.past, Function.update_of_ne hp]
      exact h.handed.reached p
  debt_le p := (h.handed.debt_le p).trans (hnext.onward_past p)
  buffered x hx := by
    rcases hitems x hx with hold | ⟨rfl, hpred⟩
    · obtain ⟨hmatch, hdebt, hlt⟩ := h.handed.buffered x hold
      exact ⟨hmatch, hdebt, lt_of_lt_of_le hlt (hnext.onward_past _)⟩
    · refine ⟨h.matching hnext hpred, (h.handed.debt_le _).trans hnext.onward, ?_⟩
      rw [Tailing.past, Function.update_self]
      omega

theorem Sound.ignored (h : ω.Sound start debt) {m : MessageOut} (hnext : ω.Next m)
    (hpred : ω.refs.predicateRef m = false) : Sound start debt { ω with tailed := ω.past m } := by
  have hwhole : Session.Whole ω.view debt (owedTo start ω.tailed ω.refs.liveBuffer.items)
      { ω.session with handed := ω.past m } := ⟨h.whole.sliding, h.whole.flight⟩
  apply h.follow h.agreed ⟨rfl, rfl, rfl⟩
  · exact h.handed_past hnext fun x hx => Or.inl hx
  · apply hwhole.mono
    intro p o ho howed
    rcases h.owed_past hnext ho howed with ⟨hkept, -⟩ | howed
    · rw [hpred] at hkept
      cases hkept
    · exact howed

theorem Sound.live (h : ω.Sound start debt) {m : MessageOut} (hnext : ω.Next m)
    (hpred : ω.refs.predicateRef m = true) {store : Store} {outcome : InsertOutcome}
    (hlive : ω.refs.store.insertLive [m] = .ok (store, outcome)) :
    Sound start debt { ω with
      tailed := ω.past m
      refs := TimelineRefs.noteHeld { ω.refs with store := store } outcome } := by
  have hfollows : Follows ω.refs { ω.refs with store := store } := ⟨rfl, rfl, rfl⟩
  apply h.insertLive hlive rfl hfollows
  · exact h.handed_past hnext fun x hx => Or.inl hx
  · constructor
    · intro x hx
      obtain rfl := List.mem_singleton.mp hx
      exact ⟨h.matching hnext hpred, (h.handed.debt_le _).trans hnext.onward⟩
    · intro p o howed ho
      rcases h.owed_past hnext ho howed with ⟨-, hp, hoff⟩ | howed
      · exact Or.inl ⟨m, List.mem_singleton_self m, hp, hoff⟩
      · exact Or.inr howed

/-- The buffer has room, so nothing that is in it gets lost. -/
theorem Sound.buffered (h : ω.Sound start debt) {m : MessageOut} (hnext : ω.Next m)
    (hpred : ω.refs.predicateRef m = true)
    (hroom : ω.refs.liveBuffer.items.length < ω.refs.liveBuffer.cap) :
    Sound start debt { ω with
      tailed := ω.past m
      refs := { ω.refs with liveBuffer := ω.refs.liveBuffer.push m } } := by
  have hpush := LiveBuffer.push_items hroom m
  have hmem : ∀ x ∈ (ω.refs.liveBuffer.push m).items,
      x ∈ ω.refs.liveBuffer.items ∨ x = m ∧ ω.refs.predicateRef m = true := by
    intro x hx
    rw [hpush] at hx
    rcases List.mem_append.mp hx with hold | hnew
    · exact Or.inl hold
    · exact Or.inr ⟨List.mem_singleton.mp hnew, hpred⟩
  have hfollows : Follows ω.refs { ω.refs with liveBuffer := ω.refs.liveBuffer.push m } :=
    ⟨rfl, rfl, rfl⟩
  have hwhole : Session.Whole ω.view debt (owedTo start ω.tailed ω.refs.liveBuffer.items)
      { ω.session with handed := ω.past m } := ⟨h.whole.sliding, h.whole.flight⟩
  refine h.follow ?_ hfollows ?_ ?_
  · exact h.agreed
  · exact h.handed_past hnext hmem
  · apply hwhole.mono
    intro p o ho howed
    show o ∈ owedTo start (ω.past m) (ω.refs.liveBuffer.push m).items p
    rw [hpush]
    rcases h.owed_past hnext ho howed with ⟨-, hp, hoff⟩ | hbefore | ⟨x, hx, hxp⟩ | hahead
    · exact Or.inr (Or.inl ⟨m, List.mem_append_right _ (List.mem_singleton_self m), hp, hoff⟩)
    · exact Or.inl hbefore
    · exact Or.inr (Or.inl ⟨x, List.mem_append_left _ hx, hxp⟩)
    · exact Or.inr (Or.inr hahead)

/-! ### Steps -/

/-- The first move of a handler that got no message and no filter. -/
theorem Sound.enters (h : ω.Sound start debt) (hplain : TimelineRefs.Plain event)
    (hended : ∀ cursor exhausted, event = .pageEnd cursor exhausted → ∃ page,
      ω.answer = some (ω.refs.generation, page) ∧ ω.refs.pageRowsRef = page.rows ∧
        cursor = page.cont)
    (henters : TimelineRefs.Enters env ω.refs event tl) :
    ∃ debt', Sound start debt' { ω with refs := tl } := by
  have hagreed := h.agreed.enters henters
  cases henters with
  | ignored hpred => exact hplain.elim
  | live hpred hattached hlive => exact hplain.elim
  | buffered hpred hpaused => exact hplain.elim
  | refiltered text hfirst => exact hplain.elim
  | matched hflight msgs =>
    rw [TimelineRefs.onMatches_of_flight hflight] at hagreed ⊢
    exact ⟨debt, h.congr hagreed ⟨rfl, rfl, rfl⟩ rfl rfl⟩
  | @landed request cursor store outcome hflight hland hfresh exhausted flags =>
    obtain ⟨page, hanswer, hrows, rfl⟩ := hended cursor exhausted rfl
    have hrequest := h.asked request page hflight hanswer
    have hanswered : ω.session.flight = .answered page := flight_eq_answered hflight hanswer
    have hsliding := (h.whole.settle hanswered).sliding
    rw [Session.settle_store] at hsliding
    have hstore : (ω.session.store.land page.request page.rows page.cont).1 = store := by
      rw [hrequest, ← hrows, show ω.session.store = ω.refs.store from rfl, hland]
    rw [hstore] at hsliding
    obtain ⟨hfollows, hbuffer, -, hcached⟩ := noteHeld_follows { ω.refs with
      flight := none
      exhausted := flags
      pageRowsRef := []
      store := store } outcome
    refine ⟨debt, h.land hagreed ?_ ?_ ?_ ?_ ?_⟩
    · rcases hcached with hsame | hrows
      · rw [hsame]
        exact hsliding
      · rw [hrows]
        exact hsliding.rows
    · exact congrArg LiveBuffer.items hbuffer
    · exact hfollows.predicateRef
    · exact hfollows.flight
    · exact le_of_eq hfollows.generation.symm
  | rejected hflight hstale cursor exhausted flags =>
    exact ⟨debt, h.land hagreed h.whole.sliding rfl rfl rfl (le_refl _)⟩
  | failed hflight => exact ⟨debt, h.land hagreed h.whole.sliding rfl rfl rfl (le_refl _)⟩
  | dropped hdiscards => exact ⟨debt, h.congr hagreed ⟨rfl, rfl, rfl⟩ rfl rfl⟩
  | cancelled => exact ⟨debt, h.land hagreed h.whole.sliding rfl rfl rfl (Nat.le_succ _)⟩
  | toggled key keys hkeys => exact ⟨debt, h.congr hagreed ⟨rfl, rfl, rfl⟩ rfl rfl⟩
  | asked hdiscards hquiet hedge resetIteration => exact ⟨debt, h.run hedge hquiet resetIteration⟩
  | quiet _ hquiet => exact ⟨debt, h.quiet hquiet⟩
  | @restarted _ tl' request _ hquiet hfirst =>
    refine ⟨_, h.restart (v := ω.view) hagreed ?_ ?_ ?_ hfirst rfl ?_⟩
    · show ω.view.Decides tl'.predicateRef
      rw [hquiet.predicateRef]
      exact h.decides
    · exact ⟨_, hquiet.store⟩
    · show tl'.liveBuffer.items = []
      rw [hquiet.liveBuffer]
      rfl
    · show ω.refs.generation < tl'.generation + 1
      rw [hquiet.generation]
      show ω.refs.generation < ω.refs.generation + 1 + 1
      omega

/-- A handler that got no message and no filter. -/
theorem Sound.handle (h : ω.Sound start debt) (event : TimelineEvent)
    (hplain : TimelineRefs.Plain event)
    (hended : ∀ cursor exhausted, event = .pageEnd cursor exhausted → ∃ page,
      ω.answer = some (ω.refs.generation, page) ∧ ω.refs.pageRowsRef = page.rows ∧
        cursor = page.cont)
    {refs : TimelineRefs} (hok : ω.refs.handle env event = .ok refs) :
    ∃ debt', Sound start debt' { ω with refs := refs } := by
  obtain ⟨tl₁, henters, hsettled⟩ := TimelineRefs.handle_settled h.agreed hok
  obtain ⟨debt', hentered⟩ := h.enters hplain hended henters
  exact ⟨debt', hentered.settled hsettled⟩

theorem Sound.step (h : ω.Sound start debt) {event : Option TimelineEvent} (hroomy : ω.Roomy event)
    (hstep : Step env event ω ω') : ∃ debt', ω'.Sound start debt' := by
  cases hstep with
  | grow hgrow => exact ⟨debt, h.grow hgrow⟩
  | answer hflight hwaiting hasks hanswer => exact ⟨debt, h.answer hflight hwaiting hasks hanswer⟩
  | @tail _ m refs hnext hok =>
    obtain ⟨tl₁, henters, hsettled⟩ := TimelineRefs.handle_settled h.agreed hok
    have hentered : Sound start debt { ω with tailed := ω.past m, refs := tl₁ } := by
      cases henters with
      | ignored hpred => exact h.ignored hnext hpred
      | live hpred hattached hlive => exact h.live hnext hpred hlive
      | buffered hpred hpaused => exact h.buffered hnext hpred (hroomy m rfl hpred hpaused)
      | asked hdiscards hquiet hedge resetIteration => exact hdiscards.elim
      | quiet hplain hquiet => exact hplain.elim
      | restarted hplain hquiet hfirst => exact hplain.elim
    exact ⟨debt, hentered.settled hsettled⟩
  | @batch _ msgs page refs hanswer hrows hok =>
    apply h.handle (.pageMatches msgs) trivial _ hok
    intro _ _ hnot
    cases hnot
  | @pageEnd _ page refs hanswer hrows hok =>
    apply h.handle (.pageEnd page.cont page.cont.isNone) trivial _ hok
    intro cursor exhausted heq
    cases heq
    exact ⟨page, hanswer, hrows, rfl⟩
  | @refilter _ text view refs hhandle hdecides hok =>
    obtain ⟨tl₁, henters, hsettled⟩ := TimelineRefs.handle_settled h.agreed hok
    have hagreed := h.agreed.enters henters
    cases henters with
    | asked hdiscards hquiet hedge resetIteration => exact hdiscards.elim
    | quiet hplain hquiet => exact hplain.elim
    | restarted hplain hquiet hfirst => exact hplain.elim
    | @refiltered _ request hfirst =>
      have hentered := h.restart hagreed hdecides ⟨_, rfl⟩ rfl hfirst rfl
        (Nat.lt_succ_of_lt (Nat.lt_succ_self _))
      exact ⟨_, hentered.settled hsettled⟩
  | @unfed _ event refs hunfed hok =>
    have hplain : TimelineRefs.Plain event := by
      cases event with
      | message m => exact hunfed.elim
      | applyFilter text => exact hunfed.elim
      | _ => trivial
    apply h.handle event hplain _ hok
    intro _ _ heq
    subst heq
    exact hunfed.elim

end Tailing

end Arne.Client
