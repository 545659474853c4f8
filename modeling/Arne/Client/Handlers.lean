import Mathlib
import Arne.Client.FilterQuery
import Arne.Client.Pause

/-!
# The handlers of the timeline (`pages/timeline/Timeline.tsx`)

The refs the component lives on and the handlers that change them.  `useTimelinePage` is in
`flight`, `error` and `exhausted`, `useLiveTail` in `onMessage`.  A handler that throws is
an `error`.  Rendering, scroll anchoring and the flags that only decide whether a scroll
asks for a further page are left out.
-/

namespace Arne.Client

open Arne.Message Arne.Timeline

def PAGE_LIMIT : Nat := 100

def ITERATION_CAP : Nat := 20

def BUFFER_CAP : Nat := 500

/-- A row's identity. -/
def rowKey (m : MessageOut) : Int × Int := (m.partition, m.offset)

/-- `flight` is the page that is loading, of the stream `generation`; `flushes` is history,
    how often the buffer was drained. -/
structure TimelineRefs where
  store : Store
  liveBuffer : LiveBuffer
  predicateRef : MessageOut → Bool
  activeFilterApiRef : Option FilterQueryApi
  attachedRef : Bool
  pauseReasonRef : PauseReason
  expandedKeysRef : List (Int × Int)
  inspectingRef : Bool
  pinnedTopRef : Bool
  anchorContextRef : AnchorContext
  pendingDirectionRef : Option Direction
  matchedRef : Bool
  pageMatchesRef : Nat
  iterationRef : Nat
  continueDirection : Option Direction
  pageRowsRef : List MessageOut
  flight : Option Request
  generation : Nat
  error : Bool
  exhausted : Direction → Bool
  flushes : Nat

namespace TimelineRefs

section Handlers

variable (env : TextEnv) (tl : TimelineRefs)

def pauseInput : PauseInput := ⟨tl.pauseReasonRef, tl.attachedRef, tl.inspectingRef, none⟩

/-- What the list shows: the rows held, and over them what the page in flight brought. -/
def displayedRows : List MessageOut :=
  if tl.pageRowsRef.isEmpty then tl.store.rows.2
  else (tl.store.previewWithOverlay tl.pageRowsRef).2

/-! ### Trims and flushes -/

/-- `liveBufferRef.current.drain()` -/
def drain : TimelineRefs × List MessageOut :=
  ({ tl with liveBuffer := tl.liveBuffer.drain.1, flushes := tl.flushes + 1 },
    tl.liveBuffer.drain.2)

/-- A top trim detaches. -/
def noteTrims (outcome : InsertOutcome) : TimelineRefs :=
  { tl with attachedRef := tl.attachedRef && outcome.trimmedTop = 0 }

/-- The keys of rows no longer held are dropped. -/
def pruneKeys : TimelineRefs :=
  let (store, rows) := tl.store.rows
  let keys := tl.expandedKeysRef.filter (rows.map rowKey).contains
  { tl with store := store, expandedKeysRef := keys, inspectingRef := !keys.isEmpty }

/-- What was buffered goes into the store, and `note` is told the outcome. -/
def flushWith (note : TimelineRefs → InsertOutcome → Except String TimelineRefs) :
    Except String TimelineRefs :=
  let (tl, drained) := tl.drain
  if drained.isEmpty then .ok tl
  else match tl.store.insertLive drained with
    | .error e => .error e
    | .ok (store, outcome) => note { tl with store := store } outcome

/-- A decision of the pause table is acted on: first the flush, then the pause. -/
def actOn (decision : PauseDecision) (flush : TimelineRefs → Except String TimelineRefs) :
    Except String TimelineRefs :=
  match if decision.flush then flush tl else .ok tl with
  | .error e => .error e
  | .ok tl => .ok { tl with pauseReasonRef := decision.pause }

/-- With the last expanded row gone the buffer is flushed.  The source calls `noteOutcome`
    again for the flush; by then there is no key (`noteOutcome_of_no_keys`). -/
def noteOutcome (outcome : InsertOutcome) : Except String TimelineRefs :=
  let tl := tl.noteTrims outcome
  if (0 < outcome.trimmedTop || 0 < outcome.trimmedBottom) && !tl.expandedKeysRef.isEmpty then
    let tl := tl.pruneKeys
    if tl.expandedKeysRef.isEmpty && tl.pinnedTopRef then
      tl.actOn (nextPause { tl.pauseInput with inspecting := false } .lastInspectionClosed)
        fun tl => tl.flushWith fun tl outcome => .ok (tl.noteTrims outcome)
    else .ok tl
  else .ok tl

def flushBuffer : Except String TimelineRefs := tl.flushWith noteOutcome

/-- `onMessage` of the live tail. -/
def onMessage (m : MessageOut) : Except String TimelineRefs :=
  if !tl.predicateRef m then .ok tl
  else if tl.attachedRef && tl.pauseReasonRef = .none && !tl.inspectingRef then
    match tl.store.insertLive [m] with
    | .error e => .error e
    | .ok (store, outcome) => noteOutcome { tl with store := store } outcome
  else .ok { tl with liveBuffer := tl.liveBuffer.push m }

def handleToggleExpand (key : Int × Int) : Except String TimelineRefs :=
  let keys := if tl.expandedKeysRef.contains key then tl.expandedKeysRef.filter (· ≠ key)
    else tl.expandedKeysRef ++ [key]
  let tl := { tl with expandedKeysRef := keys, inspectingRef := !keys.isEmpty }
  if !keys.isEmpty || !tl.pinnedTopRef then .ok tl
  else
    tl.actOn (nextPause { tl.pauseInput with inspecting := false } .lastInspectionClosed) flushBuffer

/-! ### Pages -/

def edgeCursorFor (direction : Direction) : Option (List Position) :=
  match direction with
  | .back => tl.store.edges.bottom
  | .forward => tl.store.edges.top

/-- The page replaces the one in flight, and its overlay starts empty. -/
def runPage (request : Request) (resetIteration : Bool) : TimelineRefs :=
  { tl with
    iterationRef := if resetIteration then 0 else tl.iterationRef
    matchedRef := false
    pageMatchesRef := 0
    pendingDirectionRef := some request.direction
    pageRowsRef := []
    continueDirection := none
    flight := some request
    generation := tl.generation + 1
    error := false
    exhausted := fun d => if d = request.direction then false else tl.exhausted d }

/-- A page read on from a cursor of `edges()`. -/
def cursorRequest (direction : Direction) (cursor : List Position) : Request :=
  match direction with
  | .back => .older cursor
  | .forward => .newer cursor

/-- `loadOlder` and `loadNewer`. -/
def loadEdge (direction : Direction) : TimelineRefs :=
  match tl.edgeCursorFor direction with
  | none => tl
  | some cursor => tl.runPage (cursorRequest direction cursor) true

def continueScan : TimelineRefs :=
  match tl.continueDirection with
  | none => tl
  | some direction => tl.loadEdge direction

/-- The page callbacks of a stream that was superseded do nothing. -/
def onMatches (msgs : List MessageOut) : TimelineRefs :=
  if tl.flight.isNone then tl
  else
    { tl with
      matchedRef := true
      pageMatchesRef := tl.pageMatchesRef + msgs.length
      pageRowsRef := tl.pageRowsRef ++ msgs }

/-- A rejected page is asked for again from where the edge is now. -/
def retryStale (direction : Direction) : TimelineRefs :=
  match tl.edgeCursorFor direction with
  | none => tl
  | some cursor =>
      if tl.iterationRef < ITERATION_CAP then
        { tl with iterationRef := tl.iterationRef + 1 }.runPage (cursorRequest direction cursor)
          false
      else { tl with continueDirection := some direction }

/-- The window may have caught up with the tail. -/
def noteAttached (outcome : InsertOutcome) : Except String TimelineRefs :=
  if !tl.attachedRef && outcome.attached then
    { tl with attachedRef := true }.actOn
      (nextPause { tl.pauseInput with attached := false } .reattached) flushBuffer
  else .ok tl

/-- The page of `request` ended: it lands with all the rows it brought. -/
def commitPage (request : Request) (cursor : Option (List Position)) : Except String TimelineRefs :=
  let (store, outcome) := tl.store.land request tl.pageRowsRef cursor
  let tl := { tl with pageRowsRef := [], store := store }
  if outcome.rejectedStale then .ok (tl.retryStale request.direction)
  else match tl.noteOutcome outcome with
    | .error e => .error e
    | .ok tl => tl.noteAttached outcome

def onPageEnd (cursor : Option (List Position)) (exhausted : Bool) : Except String TimelineRefs :=
  match tl.flight with
  | none => .ok tl
  | some request =>
      { tl with
        flight := none
        exhausted := fun d => if d = request.direction then exhausted else tl.exhausted d
      }.commitPage request cursor

def onPageError : TimelineRefs :=
  if tl.flight.isNone then tl else { tl with flight := none, error := true }

def postPageInput (direction : Direction) : PostPageInput :=
  ⟨tl.error, tl.exhausted direction, tl.matchedRef, tl.activeFilterApiRef.isSome, tl.pageMatchesRef,
    PAGE_LIMIT, tl.edgeCursorFor direction, tl.iterationRef, ITERATION_CAP⟩

/-- The effect that runs once `state.loading` fell. -/
def afterPage : TimelineRefs :=
  if tl.flight.isSome then tl
  else match tl.pendingDirectionRef with
    | none => tl
    | some direction =>
        let tl := { tl with pendingDirectionRef := none }
        match decidePostPage (tl.postPageInput direction) with
        | .errorDropOverlay => { tl with pageRowsRef := [] }
        | .stop => tl
        | .offerContinue => { tl with continueDirection := some direction }
        | .continue cursor =>
            { tl with iterationRef := tl.iterationRef + 1 }.runPage (cursorRequest direction cursor)
              false

def handleCancelScan : TimelineRefs :=
  { tl with
    pendingDirectionRef := none
    pageRowsRef := []
    flight := none
    generation := tl.generation + 1 }

/-! ### Jumps and filters -/

def resetWindow : TimelineRefs :=
  { tl with
    store := tl.store.clear
    liveBuffer := tl.liveBuffer.clear
    expandedKeysRef := []
    inspectingRef := false
    flight := none
    generation := tl.generation + 1
    error := false
    exhausted := fun _ => false
    attachedRef := false }

def handleJump (target : JumpTarget) : TimelineRefs :=
  let plan := planJump target
  let tl := { tl.resetWindow with anchorContextRef := plan.anchorContext }
  let decision := nextPause { tl.pauseInput with intent := some plan.pauseIntent } .jump
  { tl with pauseReasonRef := decision.pause }.runPage plan.request true

/-- `baseAnchorParams` -/
def baseRequest : Request :=
  if tl.anchorContextRef = .beginning then .forwardFrom else .latest

def applyFilter (text : String) : TimelineRefs :=
  let parsed := parseFilterQuery env text
  let tl := { tl with
    predicateRef := parsed.predicate
    activeFilterApiRef := parsed.api }.resetWindow
  tl.runPage tl.baseRequest true

/-! ### Clicks and scrolls -/

def handlePillClick : Except String TimelineRefs :=
  let decision := nextPause tl.pauseInput .pillClick
  if decision.jumpToNow then .ok (tl.handleJump .now) else tl.actOn decision flushBuffer

def handlePlayPauseToggle : Except String TimelineRefs :=
  let decision := nextPause tl.pauseInput .toggleClick
  if decision.jumpToNow then .ok (tl.handleJump .now) else tl.actOn decision flushBuffer

/-- `handleScroll` up to the paging. -/
def handleScroll (pinnedTop : Bool) : Except String TimelineRefs :=
  let tl := { tl with pinnedTopRef := pinnedTop }
  tl.actOn (nextPause tl.pauseInput (if pinnedTop then .scrollPinnedTop else .scrollAwayFromTop))
    flushBuffer

end Handlers

/-! ### The recursion of `noteOutcome` -/

/-- Without a key there is nothing to prune. -/
theorem noteOutcome_of_no_keys (tl : TimelineRefs) (h : tl.expandedKeysRef = [])
    (outcome : InsertOutcome) : tl.noteOutcome outcome = .ok (tl.noteTrims outcome) := by
  have hnone : (tl.noteTrims outcome).expandedKeysRef.isEmpty = true := by
    rw [noteTrims, h]
    rfl
  rw [noteOutcome]
  dsimp only
  rw [hnone, Bool.not_true, Bool.and_false, if_neg Bool.false_ne_true]

end TimelineRefs

/-! ### Events -/

inductive TimelineEvent where
  | message (m : MessageOut)
  | pageMatches (msgs : List MessageOut)
  | pageEnd (cursor : Option (List Position)) (exhausted : Bool)
  | pageError
  | afterPage
  | cancelScan
  | toggleExpand (key : Int × Int)
  | loadEdge (direction : Direction)
  | continueScan
  | scroll (pinnedTop : Bool)
  | pillClick
  | playPauseToggle
  | jump (target : JumpTarget)
  | applyFilter (text : String)

namespace TimelineRefs

def handle (env : TextEnv) (tl : TimelineRefs) : TimelineEvent → Except String TimelineRefs
  | .message m => tl.onMessage m
  | .pageMatches msgs => .ok (tl.onMatches msgs)
  | .pageEnd cursor exhausted => tl.onPageEnd cursor exhausted
  | .pageError => .ok tl.onPageError
  | .afterPage => .ok tl.afterPage
  | .cancelScan => .ok tl.handleCancelScan
  | .toggleExpand key => tl.handleToggleExpand key
  | .loadEdge direction => .ok (tl.loadEdge direction)
  | .continueScan => .ok tl.continueScan
  | .scroll pinnedTop => tl.handleScroll pinnedTop
  | .pillClick => tl.handlePillClick
  | .playPauseToggle => tl.handlePlayPauseToggle
  | .jump target => .ok (tl.handleJump target)
  | .applyFilter text => .ok (tl.applyFilter env text)

/-- The refs as they are created. -/
def initial (env : TextEnv) (windowCap : Nat) : TimelineRefs where
  store := createSlidingWindowStore windowCap
  liveBuffer := createLiveBuffer BUFFER_CAP
  predicateRef := (parseFilterQuery env "").predicate
  activeFilterApiRef := none
  attachedRef := false
  pauseReasonRef := .none
  expandedKeysRef := []
  inspectingRef := false
  pinnedTopRef := true
  anchorContextRef := .default
  pendingDirectionRef := none
  matchedRef := false
  pageMatchesRef := 0
  iterationRef := 0
  continueDirection := none
  pageRowsRef := []
  flight := none
  generation := 0
  error := false
  exhausted := fun _ => false
  flushes := 0

/-- Mounting asks for the latest page. -/
def mount (env : TextEnv) (windowCap : Nat) : TimelineRefs :=
  (initial env windowCap).runPage .latest true

/-- The handlers run one after the other. -/
def handleAll (env : TextEnv) : TimelineRefs → List TimelineEvent → Except String TimelineRefs
  | tl, [] => .ok tl
  | tl, event :: events =>
      match tl.handle env event with
      | .error e => .error e
      | .ok tl => tl.handleAll env events

end TimelineRefs

end Arne.Client
