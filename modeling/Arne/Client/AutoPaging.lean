import Arne.Client.Moves

/-!
# Paging after a gesture (`pages/timeline/Timeline.tsx`)

A gesture asks for a page; after that pages are asked for by the effect that follows a page
and by the retry of a page that was rejected as stale.  Both count on `iterationRef`.  Here
the scroll handler is complete with its paging, and the requests since the last gesture are
counted.
-/

namespace Arne.Client

open Arne.Message Arne.Timeline

/-! ### Scrolling (`lib/timeline/scrollZones.ts`) -/

def TOP_PIN_THRESHOLD : Int := 20

def BOTTOM_PIN_THRESHOLD : Int := 20

structure ScrollMetrics where
  scrollTop : Int
  scrollHeight : Int
  clientHeight : Int
deriving DecidableEq, Repr

structure ScrollZones where
  pinnedTop : Bool
  nearBottom : Bool
deriving DecidableEq, Repr

def classifyScroll (m : ScrollMetrics) : ScrollZones where
  pinnedTop := m.scrollTop < TOP_PIN_THRESHOLD
  nearBottom := m.scrollHeight - (m.scrollTop + m.clientHeight) < BOTTOM_PIN_THRESHOLD

namespace TimelineRefs

/-- One edge of a scroll: `continueScan`, `loadOlder` or `loadNewer`.  What is read of
    `rendered` is React state, so it is as the last render saw it.  `trimmedSince` is
    `bottomTrimmedSinceRef` and `topTrimmedSinceRef`, which are read nowhere else. -/
def scrollEdge (rendered : TimelineRefs) (trimmedSince : Direction → Bool) (direction : Direction)
    (tl : TimelineRefs) : TimelineRefs :=
  if rendered.flight.isSome then tl
  else if rendered.continueDirection = some direction then tl.loadEdge direction
  else if rendered.exhausted direction && !trimmedSince direction then tl
  else tl.loadEdge direction

/-- `handleScroll`, for a scroll that is not one of the settling after a jump. -/
def handleScrollPaging (tl : TimelineRefs) (m : ScrollMetrics) (trimmedSince : Direction → Bool) :
    Except String TimelineRefs :=
  let zones := classifyScroll m
  match tl.handleScroll zones.pinnedTop with
  | .error e => .error e
  | .ok paused =>
      let newer := if zones.pinnedTop then tl.scrollEdge trimmedSince .forward paused else paused
      .ok (if zones.nearBottom then tl.scrollEdge trimmedSince .back newer else newer)

/-- Would a scroll at this edge ask for a page? -/
def asks (tl : TimelineRefs) (trimmedSince : Direction → Bool) (direction : Direction) : Bool :=
  tl.flight.isNone && (tl.edgeCursorFor direction).isSome &&
    (tl.continueDirection = some direction || !(tl.exhausted direction && !trimmedSince direction))

end TimelineRefs

/-! ### Runs -/

inductive PagingEvent where
  | scroll (m : ScrollMetrics) (trimmedSince : Direction → Bool)
  | on (event : TimelineEvent)

def PagingEvent.gesture : PagingEvent → Bool
  | .scroll _ _ => true
  | .on (.loadEdge _) => true
  | .on .continueScan => true
  | .on (.scroll _) => true
  | .on .pillClick => true
  | .on .playPauseToggle => true
  | .on (.jump _) => true
  | .on (.applyFilter _) => true
  | .on _ => false

/-- A page as it ended: `rows` matches were delivered, and `cursor` is the edge it left. -/
structure EndedPage where
  direction : Direction
  exhausted : Bool
  rows : Nat
  cursor : Option (List Position)
deriving DecidableEq

/-- `requests` and `ended` are history: the page requests since the last gesture that made
    one, and the page that ended, as long as no request and no cancel followed. -/
structure Paging where
  refs : TimelineRefs
  requests : Nat
  ended : Option EndedPage

namespace Paging

def handle (env : TextEnv) (p : Paging) : PagingEvent → Except String TimelineRefs
  | .scroll m trimmedSince => p.refs.handleScrollPaging m trimmedSince
  | .on event => p.refs.handle env event

/-- How often the handler calls `cancel` or `reset`. -/
def cancels (p : Paging) : PagingEvent → Nat
  | .on .cancelScan => 1
  | .on (.jump _) => 1
  | .on (.applyFilter _) => 1
  | .on .pillClick => if (nextPause p.refs.pauseInput .pillClick).jumpToNow then 1 else 0
  | .on .playPauseToggle => if (nextPause p.refs.pauseInput .toggleClick).jumpToNow then 1 else 0
  | _ => 0

/-- How often the handler calls `loadPage`: `generation` counts these calls and those of
    `cancel`. -/
def loads (p : Paging) (event : PagingEvent) (refs : TimelineRefs) : Nat :=
  refs.generation - p.refs.generation - p.cancels event

def endedAfter (p : Paging) (event : PagingEvent) (refs : TimelineRefs) : Option EndedPage :=
  match event, p.refs.flight with
  | .on (.pageEnd _ exhausted), some request =>
      if refs.flight.isSome then none
      else some ⟨request.direction, exhausted, p.refs.pageMatchesRef,
        refs.edgeCursorFor request.direction⟩
  | .on .cancelScan, _ => none
  | _, _ => if refs.generation = p.refs.generation then p.ended else none

def after (p : Paging) (event : PagingEvent) (refs : TimelineRefs) : Paging where
  refs := refs
  requests :=
    if event.gesture && 0 < p.loads event refs then p.loads event refs
    else p.requests + p.loads event refs
  ended := p.endedAfter event refs

def mount (env : TextEnv) (windowCap : Nat) : Paging := ⟨TimelineRefs.mount env windowCap, 1, none⟩

def step (env : TextEnv) (p : Paging) (event : PagingEvent) : Except String Paging :=
  (p.handle env event).map (p.after event)

def run (env : TextEnv) (p : Paging) : List PagingEvent → Except String Paging
  | [] => .ok p
  | event :: events => (p.step env event).bind fun p' => p'.run env events

/-- A scroll near both ends of the list that asks for a page at both. -/
def Overtakes (p : Paging) : PagingEvent → Prop
  | .scroll m trimmedSince =>
      (classifyScroll m).pinnedTop = true ∧ (classifyScroll m).nearBottom = true ∧
        p.refs.asks trimmedSince .forward = true ∧ p.refs.asks trimmedSince .back = true
  | .on _ => False

/-- The states of the runs without such a scroll. -/
inductive Reached (env : TextEnv) (windowCap : Nat) : Paging → Prop where
  | mount : Reached env windowCap (mount env windowCap)
  | step {p p' : Paging} (event : PagingEvent) (h : Reached env windowCap p)
      (hone : ¬ p.Overtakes event) (hstep : p.step env event = .ok p') : Reached env windowCap p'

end Paging

/-! ### Handlers that do not page -/

theorem Store.edges_bottom_isSome (s : Store) :
    s.edges.bottom.isSome = true ↔ s.bottomMap.size ≠ 0 := by
  by_cases hzero : s.bottomMap.size = 0
  · have hnone : s.edges.bottom = none := if_pos hzero
    rw [hnone, hzero]
    simp
  · have hsome : s.edges.bottom = some (encodeCursor (mapToPositions s.bottomMap)) := if_neg hzero
    rw [hsome]
    simp [hzero]

/-- A live batch takes no edge away; it goes into an attached store, which has no upper one. -/
theorem Store.insertLive_edges {s s' : Store} {rows : List MessageOut} {outcome : InsertOutcome}
    (h : s.insertLive rows = .ok (s', outcome)) :
    (s.edges.bottom.isSome = true → s'.edges.bottom.isSome = true) ∧
      s.edges.top = none ∧ s'.edges.top = none := by
  obtain ⟨hattached, hcap⟩ := Store.insertLive_ok h
  refine ⟨fun hbottom => ?_, ?_, ?_⟩
  · rw [Store.edges_bottom_isSome] at hbottom ⊢
    obtain ⟨k, v, hv⟩ := OrdMap.exists_get?_of_size hbottom
    have hmerged : (s.mergeLive rows).bottomMap.get? k = some v := hv
    have hkept : ∃ v', s'.bottomMap.get? k = some v' := by
      unfold Store.enforceCap at hcap
      dsimp only at hcap
      split at hcap
      · cases hcap
        exact ⟨v, hmerged⟩
      · cases hcap
        dsimp only
        rw [get?_setTrimmed, hmerged]
        exact ⟨_, Option.or_some⟩
    obtain ⟨v', hv'⟩ := hkept
    exact OrdMap.size_ne_zero_of_get? hv'
  · rw [Store.edges, hattached]
    rfl
  · rw [Store.edges, Store.insertLive_attached h]
    rfl

namespace TimelineRefs

/-- What paging reads is as it was, no edge went away, and a window with an upper edge has
    the edges it had. -/
structure Unpaged (tl tl' : TimelineRefs) : Prop where
  flight : tl'.flight = tl.flight
  generation : tl'.generation = tl.generation
  pendingDirectionRef : tl'.pendingDirectionRef = tl.pendingDirectionRef
  iterationRef : tl'.iterationRef = tl.iterationRef
  pageMatchesRef : tl'.pageMatchesRef = tl.pageMatchesRef
  continueDirection : tl'.continueDirection = tl.continueDirection
  activeFilterApiRef : tl'.activeFilterApiRef = tl.activeFilterApiRef
  error : tl'.error = tl.error
  exhausted : tl'.exhausted = tl.exhausted
  kept : ∀ d, (tl.edgeCursorFor d).isSome = true → (tl'.edgeCursorFor d).isSome = true
  same : (tl'.edgeCursorFor .forward).isSome = true → tl'.store.edges = tl.store.edges

variable {tl tl₁ tl' : TimelineRefs}

theorem Unpaged.trans (h : tl.Unpaged tl₁) (h' : tl₁.Unpaged tl') : tl.Unpaged tl' where
  flight := h'.flight.trans h.flight
  generation := h'.generation.trans h.generation
  pendingDirectionRef := h'.pendingDirectionRef.trans h.pendingDirectionRef
  iterationRef := h'.iterationRef.trans h.iterationRef
  pageMatchesRef := h'.pageMatchesRef.trans h.pageMatchesRef
  continueDirection := h'.continueDirection.trans h.continueDirection
  activeFilterApiRef := h'.activeFilterApiRef.trans h.activeFilterApiRef
  error := h'.error.trans h.error
  exhausted := h'.exhausted.trans h.exhausted
  kept := fun d hd => h'.kept d (h.kept d hd)
  same := by
    intro htop
    have hsame := h'.same htop
    refine hsame.trans (h.same ?_)
    rw [edgeCursorFor] at htop ⊢
    exact hsame ▸ htop

/-- The store keeps its edges. -/
theorem Unpaged.of_edges (hflight : tl'.flight = tl.flight)
    (hgeneration : tl'.generation = tl.generation)
    (hpending : tl'.pendingDirectionRef = tl.pendingDirectionRef)
    (hiteration : tl'.iterationRef = tl.iterationRef)
    (hmatches : tl'.pageMatchesRef = tl.pageMatchesRef)
    (hcontinue : tl'.continueDirection = tl.continueDirection)
    (hfilter : tl'.activeFilterApiRef = tl.activeFilterApiRef) (herror : tl'.error = tl.error)
    (hexhausted : tl'.exhausted = tl.exhausted) (hedges : tl'.store.edges = tl.store.edges) :
    tl.Unpaged tl' where
  flight := hflight
  generation := hgeneration
  pendingDirectionRef := hpending
  iterationRef := hiteration
  pageMatchesRef := hmatches
  continueDirection := hcontinue
  activeFilterApiRef := hfilter
  error := herror
  exhausted := hexhausted
  kept := by
    intro d hd
    cases d with
    | back =>
      show tl'.store.edges.bottom.isSome = true
      rw [hedges]
      exact hd
    | forward =>
      show tl'.store.edges.top.isSome = true
      rw [hedges]
      exact hd
  same := fun _ => hedges

theorem Unpaged.refl (tl : TimelineRefs) : tl.Unpaged tl :=
  .of_edges rfl rfl rfl rfl rfl rfl rfl rfl rfl rfl

theorem Unpaged.insertLive {store : Store} {rows : List MessageOut} {outcome : InsertOutcome}
    (h : tl.store.insertLive rows = .ok (store, outcome)) :
    tl.Unpaged { tl with store := store } where
  flight := rfl
  generation := rfl
  pendingDirectionRef := rfl
  iterationRef := rfl
  pageMatchesRef := rfl
  continueDirection := rfl
  activeFilterApiRef := rfl
  error := rfl
  exhausted := rfl
  kept := by
    obtain ⟨hbottom, htop, -⟩ := Store.insertLive_edges h
    intro d hd
    cases d with
    | back => exact hbottom hd
    | forward =>
      have hnone : tl.store.edges.top.isSome = true := hd
      rw [htop] at hnone
      cases hnone
  same := by
    intro htop
    have hnone : store.edges.top.isSome = true := htop
    rw [(Store.insertLive_edges h).2.2] at hnone
    cases hnone

theorem Unpaged.flushWith {note : TimelineRefs → InsertOutcome → Except String TimelineRefs}
    (hnote : ∀ tl outcome tl', note tl outcome = .ok tl' → tl.Unpaged tl')
    (h : tl.flushWith note = .ok tl') : tl.Unpaged tl' := by
  have hdrained : tl.Unpaged tl.drain.1 := .of_edges rfl rfl rfl rfl rfl rfl rfl rfl rfl rfl
  unfold TimelineRefs.flushWith at h
  dsimp only at h
  split at h
  · cases h
    exact hdrained
  · split at h
    · cases h
    · rename_i store outcome hlive
      have hinserted : tl.drain.1.Unpaged { tl.drain.1 with store := store } := .insertLive hlive
      exact (hdrained.trans hinserted).trans (hnote _ _ _ h)

theorem Unpaged.actOn {decision : PauseDecision} {flush : TimelineRefs → Except String TimelineRefs}
    (hflush : ∀ tl', flush tl = .ok tl' → tl.Unpaged tl')
    (h : tl.actOn decision flush = .ok tl') : tl.Unpaged tl' := by
  unfold TimelineRefs.actOn at h
  split at h
  · cases h
  · rename_i flushed hflushed
    cases h
    have hpaused : flushed.Unpaged { flushed with pauseReasonRef := decision.pause } :=
      .of_edges rfl rfl rfl rfl rfl rfl rfl rfl rfl rfl
    refine Unpaged.trans ?_ hpaused
    split at hflushed
    · exact hflush _ hflushed
    · cases hflushed
      exact .refl tl

theorem Unpaged.noteOutcome {outcome : InsertOutcome} (h : tl.noteOutcome outcome = .ok tl') :
    tl.Unpaged tl' := by
  have hnoted (tl : TimelineRefs) (outcome : InsertOutcome) : tl.Unpaged (tl.noteTrims outcome) :=
    .of_edges rfl rfl rfl rfl rfl rfl rfl rfl rfl rfl
  have hpruned (tl : TimelineRefs) : tl.Unpaged tl.pruneKeys :=
    .of_edges rfl rfl rfl rfl rfl rfl rfl rfl rfl rfl
  unfold TimelineRefs.noteOutcome at h
  dsimp only at h
  split at h
  · refine ((hnoted tl outcome).trans (hpruned _)).trans ?_
    split at h
    · refine Unpaged.actOn (fun _ => Unpaged.flushWith ?_) h
      rintro tl outcome _ hok
      cases hok
      exact hnoted tl outcome
    · cases h
      exact .refl _
  · cases h
    exact hnoted tl outcome

theorem Unpaged.flushBuffer (h : tl.flushBuffer = .ok tl') : tl.Unpaged tl' :=
  .flushWith (fun _ _ _ => Unpaged.noteOutcome) h

theorem Unpaged.onMessage {m : MessageOut} (h : tl.onMessage m = .ok tl') : tl.Unpaged tl' := by
  unfold TimelineRefs.onMessage at h
  split at h
  · cases h
    exact .refl tl
  · split at h
    · split at h
      · cases h
      · rename_i store outcome hlive
        exact (Unpaged.insertLive hlive).trans (.noteOutcome h)
    · cases h
      exact .of_edges rfl rfl rfl rfl rfl rfl rfl rfl rfl rfl

theorem Unpaged.handleToggleExpand {key : Int × Int} (h : tl.handleToggleExpand key = .ok tl') :
    tl.Unpaged tl' := by
  unfold TimelineRefs.handleToggleExpand at h
  dsimp only at h
  generalize (if tl.expandedKeysRef.contains key then _ else _) = keys at h
  have htoggled : tl.Unpaged { tl with expandedKeysRef := keys, inspectingRef := !keys.isEmpty } :=
    .of_edges rfl rfl rfl rfl rfl rfl rfl rfl rfl rfl
  split at h
  · cases h
    exact htoggled
  · exact htoggled.trans (.actOn (fun _ => Unpaged.flushBuffer) h)

theorem Unpaged.handleScroll {pinnedTop : Bool} (h : tl.handleScroll pinnedTop = .ok tl') :
    tl.Unpaged tl' := by
  have hpinned : tl.Unpaged { tl with pinnedTopRef := pinnedTop } :=
    .of_edges rfl rfl rfl rfl rfl rfl rfl rfl rfl rfl
  exact hpinned.trans (.actOn (fun _ => Unpaged.flushBuffer) h)

theorem Unpaged.noteAttached {outcome : InsertOutcome} (h : tl.noteAttached outcome = .ok tl') :
    tl.Unpaged tl' := by
  unfold TimelineRefs.noteAttached at h
  split at h
  · have hattached : tl.Unpaged { tl with attachedRef := true } :=
      .of_edges rfl rfl rfl rfl rfl rfl rfl rfl rfl rfl
    exact hattached.trans (.actOn (fun _ => Unpaged.flushBuffer) h)
  · cases h
    exact .refl tl

/-! ### Handlers that page -/

theorem scrollEdge_cases (rendered tl : TimelineRefs) (trimmedSince : Direction → Bool)
    (d : Direction) : rendered.scrollEdge trimmedSince d tl = tl ∨
      ∃ cursor, tl.edgeCursorFor d = some cursor ∧
        ((rendered.edgeCursorFor d).isSome = true → rendered.asks trimmedSince d = true) ∧
        rendered.scrollEdge trimmedSince d tl = tl.runPage (cursorRequest d cursor) true := by
  have hload : tl.loadEdge d = tl ∨ ∃ cursor, tl.edgeCursorFor d = some cursor ∧
      tl.loadEdge d = tl.runPage (cursorRequest d cursor) true := by
    unfold loadEdge
    split
    · exact Or.inl rfl
    · rename_i cursor hedge
      exact Or.inr ⟨cursor, hedge, rfl⟩
  unfold scrollEdge
  split
  · exact Or.inl rfl
  · rename_i hidle
    have hidle : rendered.flight.isNone = true := by simpa using hidle
    split
    · rename_i hcontinue
      refine hload.imp id ?_
      rintro ⟨cursor, hedge, hrun⟩
      exact ⟨cursor, hedge, fun h => by simp [asks, hidle, h, hcontinue], hrun⟩
    · split
      · exact Or.inl rfl
      · rename_i hopen
        refine hload.imp id ?_
        rintro ⟨cursor, hedge, hrun⟩
        refine ⟨cursor, hedge, fun h => ?_, hrun⟩
        rw [asks, hidle, h, Bool.eq_false_iff.mpr hopen]
        simp

theorem scrollEdge_of_asks {rendered tl : TimelineRefs} {trimmedSince : Direction → Bool}
    {d : Direction} (h : rendered.asks trimmedSince d = true)
    (hedge : (tl.edgeCursorFor d).isSome = true) :
    ∃ request, rendered.scrollEdge trimmedSince d tl = tl.runPage request true := by
  obtain ⟨cursor, hcursor⟩ := Option.isSome_iff_exists.mp hedge
  have hload : tl.loadEdge d = tl.runPage (cursorRequest d cursor) true := by
    rw [loadEdge, hcursor]
  unfold asks at h
  obtain ⟨hboth, hopen⟩ := Bool.and_eq_true_iff.mp h
  obtain ⟨hidle, -⟩ := Bool.and_eq_true_iff.mp hboth
  have hflight : rendered.flight = none := Option.isNone_iff_eq_none.mp hidle
  refine ⟨cursorRequest d cursor, ?_⟩
  rw [scrollEdge, hflight, if_neg (by simp)]
  split
  · exact hload
  · rename_i hcontinue
    rw [decide_eq_false hcontinue, Bool.false_or] at hopen
    have hclosed : (rendered.exhausted d && !trimmedSince d) = false := by
      rwa [Bool.not_eq_true'] at hopen
    rw [hclosed, if_neg Bool.false_ne_true]
    exact hload

/-- A scroll asks for one page at most, unless it would ask for one at either end. -/
theorem handleScrollPaging_cases {m : ScrollMetrics} {trimmedSince : Direction → Bool}
    (h : tl.handleScrollPaging m trimmedSince = .ok tl')
    (hone : ¬ ((classifyScroll m).pinnedTop = true ∧ (classifyScroll m).nearBottom = true ∧
      tl.asks trimmedSince .forward = true ∧ tl.asks trimmedSince .back = true)) :
    tl.Unpaged tl' ∨ ∃ paused request, tl.Unpaged paused ∧ tl' = paused.runPage request true := by
  unfold handleScrollPaging at h
  dsimp only at h
  split at h
  · cases h
  · rename_i paused hpaused
    have hsame : tl.Unpaged paused := .handleScroll hpaused
    cases h
    have hback (tl₁ : TimelineRefs) := scrollEdge_cases tl tl₁ trimmedSince .back
    cases htop : (classifyScroll m).pinnedTop with
    | false =>
      rw [if_neg Bool.false_ne_true]
      split
      · rcases hback paused with hstay | ⟨cursor, -, -, hrun⟩
        · rw [hstay]
          exact Or.inl hsame
        · exact Or.inr ⟨paused, _, hsame, hrun⟩
      · exact Or.inl hsame
    | true =>
      rw [if_pos rfl]
      rcases scrollEdge_cases tl paused trimmedSince .forward with
        hstay | ⟨cursor, hedge, hasks, hrun⟩
      · rw [hstay]
        split
        · rcases hback paused with hstay' | ⟨cursor, -, -, hrun⟩
          · rw [hstay']
            exact Or.inl hsame
          · exact Or.inr ⟨paused, _, hsame, hrun⟩
        · exact Or.inl hsame
      · rw [hrun]
        -- the window has an upper edge, so the pause part left the edges alone
        have hforward : (paused.edgeCursorFor .forward).isSome = true := by rw [hedge]; rfl
        have hedges : paused.store.edges = tl.store.edges := hsame.same hforward
        split
        · rename_i hbottom
          rcases hback (paused.runPage (cursorRequest .forward cursor) true) with
            hstay' | ⟨cursor', hedge', hasks', -⟩
          · rw [hstay']
            exact Or.inr ⟨paused, _, hsame, rfl⟩
          · have hnewer : (tl.edgeCursorFor .forward).isSome = true := by
              unfold edgeCursorFor at hforward ⊢
              rwa [hedges] at hforward
            have holder : (tl.edgeCursorFor .back).isSome = true := by
              have hback : paused.store.edges.bottom = some cursor' := hedge'
              rw [hedges] at hback
              show tl.store.edges.bottom.isSome = true
              rw [hback]
              rfl
            exact absurd ⟨htop, hbottom, hasks hnewer, hasks' holder⟩ hone
        · exact Or.inr ⟨paused, _, hsame, rfl⟩

/-- What a page leaves that ended without a retry. -/
structure Lands (tl : TimelineRefs) (request : Request) (exhausted : Bool)
    (tl' : TimelineRefs) : Prop where
  flight : tl'.flight = none
  generation : tl'.generation = tl.generation
  pendingDirectionRef : tl'.pendingDirectionRef = tl.pendingDirectionRef
  iterationRef : tl'.iterationRef = tl.iterationRef
  pageMatchesRef : tl'.pageMatchesRef = tl.pageMatchesRef
  error : tl'.error = tl.error
  exhausted : tl'.exhausted request.direction = exhausted

/-- A page in flight ends: it rests there, or it is asked for again on the count. -/
theorem onPageEnd_cases {request : Request} (hflight : tl.flight = some request)
    {cursor : Option (List Position)} {exhausted : Bool}
    (h : tl.onPageEnd cursor exhausted = .ok tl') :
    tl.Lands request exhausted tl' ∨
      tl.iterationRef < ITERATION_CAP ∧ ∃ (tl₁ : TimelineRefs) (request' : Request),
        tl₁.generation = tl.generation ∧
          tl' = { tl₁ with iterationRef := tl.iterationRef + 1 }.runPage request' false := by
  unfold onPageEnd at h
  rw [hflight] at h
  dsimp only at h
  unfold commitPage at h
  dsimp only at h
  split at h
  · unfold retryStale at h
    split at h
    · cases h
      exact Or.inl ⟨rfl, rfl, rfl, rfl, rfl, rfl, if_pos rfl⟩
    · split at h
      · rename_i hroom
        cases h
        refine Or.inr ⟨hroom, _, _, ?_, rfl⟩
        rfl
      · cases h
        exact Or.inl ⟨rfl, rfl, rfl, rfl, rfl, rfl, if_pos rfl⟩
  · split at h
    · cases h
    · rename_i noted hnoted
      have hkept := (Unpaged.noteOutcome hnoted).trans (.noteAttached h)
      refine Or.inl ⟨hkept.flight, hkept.generation, hkept.pendingDirectionRef, hkept.iterationRef,
        hkept.pageMatchesRef, hkept.error, ?_⟩
      rw [hkept.exhausted]
      exact if_pos rfl

end TimelineRefs

namespace Paging

/-! ### The invariant -/

/-- What an ended page leaves behind: until the effect has run the refs still tell of it, and
    then an affordance to go on is there. -/
structure Left (tl : TimelineRefs) (page : EndedPage) : Prop where
  flight : tl.flight = none
  error : tl.error = false
  waiting : ∀ d, tl.pendingDirectionRef = some d →
    d = page.direction ∧ tl.exhausted d = page.exhausted ∧ tl.pageMatchesRef = page.rows ∧
      (page.cursor.isSome = true → (tl.edgeCursorFor d).isSome = true)
  settled : tl.pendingDirectionRef = none → tl.activeFilterApiRef.isSome = true →
    page.exhausted = false → page.rows < PAGE_LIMIT → page.cursor.isSome = true →
    tl.continueDirection = some page.direction

structure Inv (p : Paging) : Prop where
  bound : p.requests ≤ 1 + p.refs.iterationRef
  cap : p.refs.iterationRef ≤ ITERATION_CAP
  flight : ∀ request, p.refs.flight = some request →
    p.refs.pendingDirectionRef = some request.direction ∧ p.refs.error = false ∧ p.ended = none
  ended : ∀ page, p.ended = some page → Left p.refs page

variable {p p' : Paging} {tl tl' : TimelineRefs} {event : PagingEvent} {env : TextEnv}

/-- A gesture asks for a page: the count restarts. -/
theorem inv_runPage (tl : TimelineRefs) (request : Request) :
    Inv ⟨tl.runPage request true, 1, none⟩ where
  bound := Nat.le_add_right _ _
  cap := Nat.zero_le _
  flight := by
    intro request' hflight
    cases hflight
    exact ⟨rfl, rfl, rfl⟩
  ended := by
    intro page hended
    cases hended

/-- A page is asked for without a gesture, on the count. -/
theorem Inv.retry (hi : Inv p) (hroom : p.refs.iterationRef < ITERATION_CAP)
    (hcounted : tl.iterationRef = p.refs.iterationRef + 1) (request : Request) :
    Inv ⟨tl.runPage request false, p.requests + 1, none⟩ where
  bound := by
    have hbound := hi.bound
    show p.requests + 1 ≤ 1 + tl.iterationRef
    omega
  cap := by
    show tl.iterationRef ≤ ITERATION_CAP
    omega
  flight := by
    intro request' hflight
    cases hflight
    exact ⟨rfl, rfl, rfl⟩
  ended := by
    intro page hended
    cases hended

theorem Left.unpaged {page : EndedPage} (h : Left tl page) (hsame : tl.Unpaged tl') :
    Left tl' page where
  flight := hsame.flight.trans h.flight
  error := hsame.error.trans h.error
  waiting := by
    intro d hd
    obtain ⟨hdirection, hexhausted, hrows, hcursor⟩ :=
      h.waiting d (hsame.pendingDirectionRef ▸ hd)
    rw [hsame.exhausted, hsame.pageMatchesRef]
    exact ⟨hdirection, hexhausted, hrows, fun hsome => hsame.kept d (hcursor hsome)⟩
  settled := by
    rw [hsame.pendingDirectionRef, hsame.activeFilterApiRef, hsame.continueDirection]
    exact h.settled

theorem Inv.unpaged (hi : Inv p) (hsame : p.refs.Unpaged tl) : Inv ⟨tl, p.requests, p.ended⟩ where
  bound := by
    show p.requests ≤ 1 + tl.iterationRef
    rw [hsame.iterationRef]
    exact hi.bound
  cap := by
    show tl.iterationRef ≤ ITERATION_CAP
    rw [hsame.iterationRef]
    exact hi.cap
  flight := by
    intro request hflight
    show tl.pendingDirectionRef = _ ∧ tl.error = _ ∧ _
    rw [hsame.pendingDirectionRef, hsame.error]
    exact hi.flight request (hsame.flight ▸ hflight)
  ended := fun page hended => (hi.ended page hended).unpaged hsame

/-! ### What follows a handler -/

/-- The events that end no page by themselves. -/
def Continues (p : Paging) : PagingEvent → Prop
  | .on (.pageEnd _ _) => p.refs.flight = none
  | .on .cancelScan => False
  | _ => True

theorem endedAfter_of_continues (h : p.Continues event) (tl : TimelineRefs) :
    p.endedAfter event tl = if tl.generation = p.refs.generation then p.ended else none := by
  unfold endedAfter
  split
  · rename_i hflight
    have hnone : p.refs.flight = none := h
    rw [hnone] at hflight
    cases hflight
  · exact h.elim
  · rfl

theorem endedAfter_pageEnd {request : Request} (hflight : p.refs.flight = some request)
    (cursor : Option (List Position)) (exhausted : Bool) (tl : TimelineRefs) :
    p.endedAfter (.on (.pageEnd cursor exhausted)) tl = if tl.flight.isSome then none
      else some ⟨request.direction, exhausted, p.refs.pageMatchesRef,
        tl.edgeCursorFor request.direction⟩ := by
  simp only [endedAfter, hflight]

theorem Inv.after_unasked (hi : Inv ⟨tl, p.requests, p.ended⟩) (h : p.Continues event)
    (hgen : tl.generation = p.refs.generation) : Inv (p.after event tl) := by
  have hloads : p.loads event tl = 0 := by
    rw [loads, hgen, Nat.sub_self, Nat.zero_sub]
  have hafter : p.after event tl = ⟨tl, p.requests, p.ended⟩ := by
    rw [after, hloads, endedAfter_of_continues h, if_pos hgen]
    simp
  rw [hafter]
  exact hi

theorem Inv.after_unpaged (hi : Inv p) (h : p.Continues event) (hsame : p.refs.Unpaged tl) :
    Inv (p.after event tl) :=
  (hi.unpaged hsame).after_unasked h hsame.generation

/-- A gesture's request is the first of its count. -/
theorem inv_after_asked (h : p.Continues event) (hgesture : event.gesture = true)
    (hgen : tl.generation = p.refs.generation + p.cancels event) (request : Request) :
    Inv (p.after event (tl.runPage request true)) := by
  have hmoved : (tl.runPage request true).generation = tl.generation + 1 := rfl
  have hloads : p.loads event (tl.runPage request true) = 1 := by
    rw [loads]
    omega
  have hnew : (tl.runPage request true).generation ≠ p.refs.generation := by omega
  have hafter : p.after event (tl.runPage request true) = ⟨tl.runPage request true, 1, none⟩ := by
    rw [after, hloads, endedAfter_of_continues h, if_neg hnew, hgesture]
    rfl
  rw [hafter]
  exact inv_runPage tl request

/-- A page that no gesture asks for is counted. -/
theorem Inv.after_retried (hi : Inv p) (tl : TimelineRefs) (hquiet : event.gesture = false)
    (hcancels : p.cancels event = 0) (hroom : p.refs.iterationRef < ITERATION_CAP)
    (hgen : tl.generation = p.refs.generation)
    (hcounted : tl.iterationRef = p.refs.iterationRef + 1) {request : Request}
    (hended : p.endedAfter event (tl.runPage request false) = none) :
    Inv (p.after event (tl.runPage request false)) := by
  have hmoved : (tl.runPage request false).generation = tl.generation + 1 := rfl
  have hloads : p.loads event (tl.runPage request false) = 1 := by
    rw [loads]
    omega
  have hafter : p.after event (tl.runPage request false) =
      ⟨tl.runPage request false, p.requests + 1, none⟩ := by
    rw [after, hloads, hended, hquiet]
    rfl
  rw [hafter]
  exact hi.retry hroom hcounted request

/-! ### Steps -/

theorem Inv.pageEnd (hi : Inv p) {cursor : Option (List Position)} {exhausted : Bool}
    (hok : p.refs.onPageEnd cursor exhausted = .ok tl) :
    Inv (p.after (.on (.pageEnd cursor exhausted)) tl) := by
  cases hflight : p.refs.flight with
  | none =>
    rw [TimelineRefs.onPageEnd, hflight] at hok
    cases hok
    exact hi.after_unpaged hflight (.refl _)
  | some request =>
    obtain ⟨hpending, herror, hnone⟩ := hi.flight request hflight
    rcases TimelineRefs.onPageEnd_cases hflight hok with hlands | ⟨hroom, tl₁, request', hgen, rfl⟩
    · have hafter : p.after (.on (.pageEnd cursor exhausted)) tl = ⟨tl, p.requests,
          some ⟨request.direction, exhausted, p.refs.pageMatchesRef,
            tl.edgeCursorFor request.direction⟩⟩ := by
        simp [after, loads, endedAfter_pageEnd hflight, hlands.generation, hlands.flight]
      rw [hafter]
      refine ⟨?_, ?_, ?_, ?_⟩
      · exact hlands.iterationRef ▸ hi.bound
      · exact hlands.iterationRef ▸ hi.cap
      · intro request' hother
        have hflown : tl.flight = some request' := hother
        rw [hlands.flight] at hflown
        cases hflown
      · intro page hended
        cases hended
        refine ⟨hlands.flight, hlands.error.trans herror, ?_, ?_⟩
        · intro d hd
          rw [hlands.pendingDirectionRef, hpending] at hd
          cases hd
          exact ⟨rfl, hlands.exhausted, hlands.pageMatchesRef, id⟩
        · intro hidle
          rw [hlands.pendingDirectionRef, hpending] at hidle
          cases hidle
    · refine hi.after_retried { tl₁ with iterationRef := p.refs.iterationRef + 1 } rfl rfl hroom
        hgen rfl ?_
      rw [endedAfter_pageEnd hflight]
      rfl

theorem Inv.pageError (hi : Inv p) : Inv (p.after (.on .pageError) p.refs.onPageError) := by
  cases hflight : p.refs.flight with
  | none =>
    have hsame : p.refs.onPageError = p.refs := by rw [TimelineRefs.onPageError, hflight]; rfl
    rw [hsame]
    exact hi.after_unpaged trivial (.refl _)
  | some request =>
    obtain ⟨-, -, hnone⟩ := hi.flight request hflight
    have hfailed : p.refs.onPageError = { p.refs with flight := none, error := true } := by
      rw [TimelineRefs.onPageError, hflight]
      rfl
    rw [hfailed]
    refine Inv.after_unasked ⟨hi.bound, hi.cap, fun _ h => (by cases h), fun page h => ?_⟩
      trivial rfl
    have hended : p.ended = some page := h
    rw [hnone] at hended
    cases hended

theorem Inv.pageMatches (hi : Inv p) (msgs : List MessageOut) :
    Inv (p.after (.on (.pageMatches msgs)) (p.refs.onMatches msgs)) := by
  cases hflight : p.refs.flight with
  | none =>
    have hsame : p.refs.onMatches msgs = p.refs := by rw [TimelineRefs.onMatches, hflight]; rfl
    rw [hsame]
    exact hi.after_unpaged trivial (.refl _)
  | some request =>
    obtain ⟨-, -, hnone⟩ := hi.flight request hflight
    rw [TimelineRefs.onMatches_of_flight hflight]
    refine Inv.after_unasked ⟨hi.bound, hi.cap, hi.flight, fun page h => ?_⟩ trivial rfl
    have hended : p.ended = some page := h
    rw [hnone] at hended
    cases hended

/-- The effect has run, and the page that ended asks for no other. -/
theorem Inv.concluded (hi : Inv p) (hflight : p.refs.flight = none)
    (hgen : tl.generation = p.refs.generation) (hflown : tl.flight = p.refs.flight)
    (hiteration : tl.iterationRef = p.refs.iterationRef) (herror : tl.error = p.refs.error)
    (hpending : tl.pendingDirectionRef = none)
    (hsettled : ∀ page, p.ended = some page → tl.activeFilterApiRef.isSome = true →
      page.exhausted = false → page.rows < PAGE_LIMIT → page.cursor.isSome = true →
      tl.continueDirection = some page.direction) :
    Inv (p.after (.on .afterPage) tl) := by
  refine Inv.after_unasked ⟨?_, ?_, ?_, ?_⟩ trivial hgen
  · show p.requests ≤ 1 + tl.iterationRef
    rw [hiteration]
    exact hi.bound
  · show tl.iterationRef ≤ ITERATION_CAP
    rw [hiteration]
    exact hi.cap
  · intro request h
    have hsome : tl.flight = some request := h
    rw [hflown, hflight] at hsome
    cases hsome
  · intro page hended
    refine ⟨hflown.trans hflight, herror.trans (hi.ended page hended).error, ?_, fun _ =>
      hsettled page hended⟩
    intro d hd
    rw [hpending] at hd
    cases hd

theorem Inv.afterPage (hi : Inv p) : Inv (p.after (.on .afterPage) p.refs.afterPage) := by
  unfold TimelineRefs.afterPage
  split
  · exact hi.after_unpaged trivial (.refl _)
  · rename_i hover
    have hflight : p.refs.flight = none := by simpa using hover
    cases hpending : p.refs.pendingDirectionRef with
    | none => exact hi.after_unpaged trivial (.refl _)
    | some d =>
      dsimp only
      -- what the table was asked
      set input := TimelineRefs.postPageInput { p.refs with pendingDirectionRef := none } d
        with hinput
      have hasked {page : EndedPage} (hended : p.ended = some page) : d = page.direction ∧
          input.error = false ∧ input.exhausted = page.exhausted ∧
          input.pageMatches = page.rows ∧
          (page.cursor.isSome = true → input.nextCursor.isSome = true) := by
        have hleft := hi.ended page hended
        obtain ⟨hdirection, hexhausted, hrows, hcursor⟩ := hleft.waiting d hpending
        exact ⟨hdirection, hleft.error, hexhausted, hrows, hcursor⟩
      have hgrounds := decidePostPage_grounds input
      cases hdecision : decidePostPage input with
      | errorDropOverlay =>
        rw [hdecision] at hgrounds
        refine hi.concluded hflight rfl rfl rfl rfl rfl ?_
        intro page hended
        have herror : input.error = true := hgrounds
        rw [(hasked hended).2.1] at herror
        cases herror
      | stop =>
        rw [hdecision] at hgrounds
        refine hi.concluded hflight rfl rfl rfl rfl rfl ?_
        intro page hended hfilter hopen hshort hcursor
        obtain ⟨-, -, hexhausted, hrows, hnext⟩ := hasked hended
        rcases hgrounds with hend | hfull | hnone
        · rw [hexhausted, hopen] at hend
          cases hend
        · have hfilter' : input.filterActive = true := hfilter
          have hlimit : input.pageLimit = PAGE_LIMIT := rfl
          rw [hfilter', hrows, hlimit, Bool.true_and] at hfull
          exact absurd hshort (of_decide_eq_false hfull)
        · have hsome := hnext hcursor
          rw [hnone] at hsome
          cases hsome
      | offerContinue =>
        refine hi.concluded hflight rfl rfl rfl rfl rfl ?_
        intro page hended _ _ _ _
        exact congrArg some (hasked hended).1
      | «continue» cursor =>
        have hroom : p.refs.iterationRef < ITERATION_CAP := (decidePostPage_continue hdecision).2
        dsimp only
        refine hi.after_retried
          { p.refs with pendingDirectionRef := none, iterationRef := p.refs.iterationRef + 1 }
          rfl rfl hroom rfl rfl ?_
        have hcontinues : p.Continues (.on .afterPage) := trivial
        rw [endedAfter_of_continues hcontinues]
        exact if_neg (Nat.succ_ne_self _)

theorem Inv.cancelScan (hi : Inv p) : Inv (p.after (.on .cancelScan) p.refs.handleCancelScan) := by
  have hafter : p.after (.on .cancelScan) p.refs.handleCancelScan =
      ⟨p.refs.handleCancelScan, p.requests, none⟩ := by
    have hloads : p.loads (.on .cancelScan) p.refs.handleCancelScan = 0 := by
      show p.refs.generation + 1 - p.refs.generation - 1 = 0
      omega
    rw [after, hloads]
    rfl
  rw [hafter]
  exact ⟨hi.bound, hi.cap, fun _ h => (by cases h), fun _ h => (by cases h)⟩

theorem Inv.loadEdge (hi : Inv p) {d : Direction} (h : p.Continues event)
    (hgesture : event.gesture = true) (hcancels : p.cancels event = 0) :
    Inv (p.after event (p.refs.loadEdge d)) := by
  unfold TimelineRefs.loadEdge
  split
  · exact hi.after_unpaged h (.refl _)
  · refine inv_after_asked h hgesture ?_ _
    rw [hcancels]
    rfl

/-- A click on the pill or on play and pause: a jump, or nothing about pages. -/
theorem Inv.click (hi : Inv p) {pressed : PauseEvent} (h : p.Continues event)
    (hgesture : event.gesture = true)
    (hcancels : p.cancels event = if (nextPause p.refs.pauseInput pressed).jumpToNow then 1 else 0)
    (hok : (if (nextPause p.refs.pauseInput pressed).jumpToNow then .ok (p.refs.handleJump .now)
      else p.refs.actOn (nextPause p.refs.pauseInput pressed) TimelineRefs.flushBuffer) = .ok tl) :
    Inv (p.after event tl) := by
  split at hok
  · rename_i hjump
    cases hok
    refine inv_after_asked h hgesture ?_ _
    rw [hcancels, if_pos hjump]
    rfl
  · exact hi.after_unpaged h (.actOn (fun _ => TimelineRefs.Unpaged.flushBuffer) hok)

/-- One event, if a scroll not one that asks at both ends. -/
theorem Inv.step (hi : Inv p) (hone : ¬ p.Overtakes event) (hstep : p.step env event = .ok p') :
    Inv p' := by
  obtain ⟨tl, hok, rfl⟩ := except_map_ok hstep
  cases event with
  | scroll m trimmedSince =>
    rcases TimelineRefs.handleScrollPaging_cases hok hone with hsame | ⟨paused, request, hsame, rfl⟩
    · exact hi.after_unpaged trivial hsame
    · have hcontinues : p.Continues (.scroll m trimmedSince) := trivial
      exact inv_after_asked hcontinues rfl hsame.generation request
  | on event =>
    cases event with
    | message m => exact hi.after_unpaged trivial (.onMessage hok)
    | toggleExpand key => exact hi.after_unpaged trivial (.handleToggleExpand hok)
    | scroll pinnedTop => exact hi.after_unpaged trivial (.handleScroll hok)
    | pageEnd cursor exhausted => exact hi.pageEnd hok
    | pageMatches msgs =>
      cases hok
      exact hi.pageMatches msgs
    | pageError =>
      cases hok
      exact hi.pageError
    | afterPage =>
      cases hok
      exact hi.afterPage
    | cancelScan =>
      cases hok
      exact hi.cancelScan
    | loadEdge direction =>
      cases hok
      exact hi.loadEdge trivial rfl rfl
    | continueScan =>
      cases hok
      unfold TimelineRefs.continueScan
      split
      · exact hi.after_unpaged trivial (.refl _)
      · exact hi.loadEdge trivial rfl rfl
    | pillClick => exact hi.click trivial rfl rfl hok
    | playPauseToggle => exact hi.click trivial rfl rfl hok
    | jump target =>
      cases hok
      have hcontinues : p.Continues (.on (.jump target)) := trivial
      exact inv_after_asked hcontinues rfl rfl _
    | applyFilter text =>
      cases hok
      have hcontinues : p.Continues (.on (.applyFilter text)) := trivial
      exact inv_after_asked hcontinues rfl rfl _

theorem Reached.inv {windowCap : Nat} (h : Reached env windowCap p) : Inv p := by
  induction h with
  | mount => exact inv_runPage _ _
  | step event _ hone hstep ih => exact ih.step hone hstep

/-- **Paging is bounded and does not stop silently.**  As long as no scroll asks for a page at
    both ends of the list: since the last gesture there were at most `ITERATION_CAP` requests
    besides its own.  And where paging rests, after a page that ended with fewer than
    `PAGE_LIMIT` matches before the end of the topic and left an edge, a filter being active,
    the affordance to go on is there. -/
theorem paging_bounded_and_continued {windowCap : Nat} (h : Reached env windowCap p) :
    p.requests ≤ 1 + ITERATION_CAP ∧
      ∀ page, p.ended = some page → p.refs.pendingDirectionRef = none →
        p.refs.activeFilterApiRef.isSome = true → page.exhausted = false →
        page.rows < PAGE_LIMIT → page.cursor.isSome = true →
        p.refs.flight = none ∧ p.refs.continueDirection = some page.direction := by
  have hi := h.inv
  refine ⟨hi.bound.trans (Nat.add_le_add_left hi.cap 1), ?_⟩
  intro page hended hpending hfilter hopen hshort hcursor
  have hleft := hi.ended page hended
  exact ⟨hleft.flight, hleft.settled hpending hfilter hopen hshort hcursor⟩

/-- The scrolls left out are those that ask twice, the second request closing the first. -/
theorem overtaking_asks_twice (hover : p.Overtakes event) (hstep : p.step env event = .ok p') :
    p'.requests = 2 := by
  obtain ⟨tl, hok, rfl⟩ := except_map_ok hstep
  cases event with
  | on event => exact hover.elim
  | scroll m trimmedSince =>
    obtain ⟨htop, hbottom, hnewer, holder⟩ := hover
    have hedge {d : Direction} (h : p.refs.asks trimmedSince d = true) :
        (p.refs.edgeCursorFor d).isSome = true :=
      (Bool.and_eq_true_iff.mp (Bool.and_eq_true_iff.mp h).1).2
    have hgen : tl.generation = p.refs.generation + 2 := by
      change p.refs.handleScrollPaging m trimmedSince = .ok tl at hok
      unfold TimelineRefs.handleScrollPaging at hok
      dsimp only at hok
      split at hok
      · cases hok
      · rename_i paused hpaused
        have hsame : p.refs.Unpaged paused := .handleScroll hpaused
        obtain ⟨newer, hforward⟩ :=
          TimelineRefs.scrollEdge_of_asks hnewer (hsame.kept _ (hedge hnewer))
        have hkept : ((paused.runPage newer true).edgeCursorFor .back).isSome = true :=
          hsame.kept _ (hedge holder)
        obtain ⟨older, hback⟩ := TimelineRefs.scrollEdge_of_asks holder hkept
        rw [htop, hbottom, if_pos rfl, if_pos rfl, hforward, hback] at hok
        cases hok
        exact congrArg (· + 2) hsame.generation
    have hloads : p.loads (.scroll m trimmedSince) tl = 2 := by
      show tl.generation - p.refs.generation - 0 = 2
      omega
    rw [after, hloads]
    rfl

/-! ### A short list -/

theorem Reached.run_on {windowCap : Nat} (h : Reached env windowCap p)
    (events : List TimelineEvent) (hrun : p.run env (events.map .on) = .ok p') :
    Reached env windowCap p' := by
  induction events generalizing p with
  | nil =>
    cases hrun
    exact h
  | cons event events ih =>
    obtain ⟨p₁, hstep, hrest⟩ := except_bind_ok hrun
    exact ih (h.step (.on event) id hstep) hrest

/-- A filtered page with one match, the scan budget being used up. -/
def filteredPage : List TimelineEvent :=
  [.applyFilter "\"a\"", .pageMatches [shortMessage 0 7], .pageEnd (some [(0, 7)]) false,
    .afterPage]

theorem filteredPage_continued :
    ∃ p, (mount shortEnv 10).run shortEnv (filteredPage.map .on) = .ok p ∧
      p.requests ≤ 1 + ITERATION_CAP ∧ p.refs.continueDirection = some .back := by
  have hview : ((mount shortEnv 10).run shortEnv (filteredPage.map .on)).toOption.map (fun p =>
      (p.refs.pendingDirectionRef, p.refs.activeFilterApiRef.isSome, p.ended)) =
      some (none, true, some ⟨.back, false, 1, some [(0, 7)]⟩) := by decide +kernel
  generalize hrun : (mount shortEnv 10).run shortEnv (filteredPage.map .on) = result at hview ⊢
  cases result with
  | error e => cases hview
  | ok p =>
    obtain ⟨hpending, hrest⟩ := Prod.mk.inj (Option.some.inj hview)
    obtain ⟨hfilter, hended⟩ := Prod.mk.inj hrest
    have hreached : Reached shortEnv 10 p := Reached.mount.run_on filteredPage hrun
    obtain ⟨hbound, hcontinued⟩ := paging_bounded_and_continued hreached
    exact ⟨p, rfl, hbound, (hcontinued _ hended hpending hfilter rfl (by decide) rfl).2⟩

/-- A jump to an offset brings one row, the scan budget being used up, and the list is hardly
    longer than its viewport. -/
def shortList : List PagingEvent :=
  [.on (.jump (.offset 0 200007)), .on (.pageMatches [shortMessage 0 200007]),
    .on (.pageEnd (some [(0, 205007)]) false), .on .afterPage,
    .scroll ⟨5, 310, 300⟩ fun _ => false]

/-- Older pages that scan 5000 offsets without a match, each followed by the effect. -/
def emptyPages (n : Nat) : List PagingEvent :=
  (List.range n).flatMap fun i =>
    [.on (.pageEnd (some [(0, 200007 - 5000 * (i + 1))]) false), .on .afterPage]

/-- The scroll of the short list asks for a newer and an older page, and twenty more follow. -/
theorem shortList_overruns :
    ¬ ∀ (env : TextEnv) (windowCap : Nat) (events : List PagingEvent) (p : Paging),
      (mount env windowCap).run env events = .ok p → p.requests ≤ 1 + ITERATION_CAP := by
  intro hbound
  have hcount : ((mount shortEnv 10).run shortEnv (shortList ++ emptyPages 20)).toOption.map
      Paging.requests = some 22 := by decide +kernel
  generalize hrun : (mount shortEnv 10).run shortEnv (shortList ++ emptyPages 20) = result at hcount
  cases result with
  | error e => cases hcount
  | ok p =>
    have hover : p.requests = 22 := Option.some.inj hcount
    have hle := hbound shortEnv 10 (shortList ++ emptyPages 20) p hrun
    rw [hover] at hle
    exact absurd hle (by decide)

end Paging

end Arne.Client
