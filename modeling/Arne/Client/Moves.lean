import Arne.Client.Handlers
import Arne.Client.Intact

/-!
# What a handler does

Every handler is a first move, made on the refs as the event finds them, and then moves
that settle its consequences: flushes, the attachment and flags nobody reads between.  The
refs claim no attachment the store does not have, so no move throws.
-/

namespace Arne.Client

open Arne.Message Arne.Timeline

/-! ### Attachment of the store -/

/-- What the outcome of a trim says of the store. -/
structure CapReport (s : Store) (kind : CapKind) (after : Store × InsertOutcome) : Prop where
  attached : after.2.attached = after.1.attached
  kept : after.2.trimmedTop = 0 → after.1.attached = s.attached
  bottom_only : kind = .topInsert → after.2.trimmedTop = 0
  taken : after.2.rejectedStale = false

theorem Store.enforceCap_report (s : Store) (kind : CapKind) :
    CapReport s kind (s.enforceCap kind) := by
  have hstep := Store.enforceCap_step s kind
  generalize s.enforceCap kind = after at hstep ⊢
  cases hstep with
  | room => exact ⟨rfl, fun _ => rfl, fun _ => rfl, rfl⟩
  | newestGone hexcess =>
    have hne := Nat.sub_ne_zero_of_lt hexcess
    exact ⟨rfl, fun hzero => absurd hzero hne, fun hkind => (by cases hkind), rfl⟩
  | oldestGone =>
    have hsame := (Store.removeAll_same s (s.mergeRows.reverse.take (s.totalCount - s.cap))).attached
    exact ⟨hsame.symm, fun _ => hsame, fun _ => rfl, rfl⟩

theorem Store.insertLive_attached {s s' : Store} {rows : List MessageOut} {outcome : InsertOutcome}
    (h : s.insertLive rows = .ok (s', outcome)) : s'.attached = true := by
  obtain ⟨hattached, hcap⟩ := Store.insertLive_ok h
  have hreport := Store.enforceCap_report (s.mergeLive rows) .topInsert
  rw [hcap] at hreport
  exact (hreport.kept (hreport.bottom_only rfl)).trans hattached

/-- A live batch goes into every attached store. -/
theorem Store.insertLive_total {s : Store} (h : s.attached = true) (rows : List MessageOut) :
    ∃ s' outcome, s.insertLive rows = .ok (s', outcome) := by
  rw [Store.insertLive, h]
  exact ⟨_, _, rfl⟩

/-- A page that is taken reports the attachment the store has, and only a top trim ends one. -/
theorem Store.land_report {s s' : Store} {request : Request} {rows : List MessageOut}
    {cont : Option (List Position)} {outcome : InsertOutcome}
    (h : s.land request rows cont = (s', outcome)) :
    outcome.attached = s'.attached ∧
      (s.attached = true → outcome.trimmedTop = 0 → s'.attached = true) := by
  unfold Store.land Store.insertPage at h
  split at h
  · cases h
    exact ⟨rfl, fun hattached _ => hattached⟩
  · have hreport := Store.enforceCap_report
      (s.mergePage rows request.direction request.startPositions cont request.attach)
      (capKindOf request.direction)
    rw [h] at hreport
    refine ⟨hreport.attached, fun hattached htop => (hreport.kept htop).trans ?_⟩
    show s.attachedAfter request.direction _ _ _ = true
    unfold Store.attachedAfter
    rw [hattached]
    split
    · exact Bool.or_true _
    · exact Bool.or_true _

theorem Store.land_rejected {s s' : Store} {request : Request} {rows : List MessageOut}
    {cont : Option (List Position)} {outcome : InsertOutcome}
    (h : s.land request rows cont = (s', outcome)) : outcome.rejectedStale =
      s.isStale request.direction request.startPositions ∧
        (outcome.rejectedStale = true → s' = s) := by
  unfold Store.land Store.insertPage at h
  split at h
  · cases h
    exact ⟨Eq.symm ‹_›, fun _ => rfl⟩
  · rename_i hfresh
    have hreport := Store.enforceCap_report
      (s.mergePage rows request.direction request.startPositions cont request.attach)
      (capKindOf request.direction)
    rw [h] at hreport
    rw [hreport.taken, Bool.eq_false_iff.mpr hfresh]
    exact ⟨rfl, fun hstale => (by cases hstale)⟩

namespace TimelineRefs

theorem onMatches_of_flight {tl : TimelineRefs} {request : Request}
    (hflight : tl.flight = some request) (msgs : List MessageOut) : tl.onMatches msgs = { tl with
      matchedRef := true
      pageMatchesRef := tl.pageMatchesRef + msgs.length
      pageRowsRef := tl.pageRowsRef ++ msgs } := by
  unfold onMatches
  exact if_neg (by rw [hflight]; exact Bool.false_ne_true)

/-! ### Moves -/

/-- The part of `noteOutcome` before the flush. -/
def noteHeld (tl : TimelineRefs) (outcome : InsertOutcome) : TimelineRefs :=
  let tl := tl.noteTrims outcome
  if (0 < outcome.trimmedTop || 0 < outcome.trimmedBottom) && !tl.expandedKeysRef.isEmpty then
    tl.pruneKeys
  else tl

/-- Nothing changed that a message, a page or the list depends on. -/
structure Quiet (tl tl' : TimelineRefs) : Prop where
  store : tl'.store = tl.store
  liveBuffer : tl'.liveBuffer = tl.liveBuffer
  predicateRef : tl'.predicateRef = tl.predicateRef
  attachedRef : tl'.attachedRef = tl.attachedRef
  expandedKeysRef : tl'.expandedKeysRef = tl.expandedKeysRef
  inspectingRef : tl'.inspectingRef = tl.inspectingRef
  pageRowsRef : tl'.pageRowsRef = tl.pageRowsRef
  flight : tl'.flight = tl.flight
  generation : tl'.generation = tl.generation
  flushes : tl'.flushes = tl.flushes

inductive Settles (tl : TimelineRefs) : TimelineRefs → Prop
  | flush {store : Store} {outcome : InsertOutcome} (hattached : tl.attachedRef = true)
      (hlive : tl.store.insertLive tl.liveBuffer.items = .ok (store, outcome)) :
      Settles tl ({ tl.drain.1 with store := store }.noteHeld outcome)
  | drained (hattached : tl.attachedRef = true) (hnone : tl.liveBuffer.items = []) :
      Settles tl tl.drain.1
  | attach (hstore : tl.store.attached = true) : Settles tl { tl with attachedRef := true }
  | quiet {tl' : TimelineRefs} (hquiet : tl.Quiet tl') : Settles tl tl'
  | run {direction : Direction} {cursor : List Position} (hrows : tl.pageRowsRef = [])
      (hedge : tl.edgeCursorFor direction = some cursor) (resetIteration : Bool) :
      Settles tl (tl.runPage (cursorRequest direction cursor) resetIteration)

def Settled : TimelineRefs → TimelineRefs → Prop := Relation.ReflTransGen Settles

/-- The events that drop an overlay without committing it. -/
def Discards (tl : TimelineRefs) : TimelineEvent → Prop
  | .cancelScan => True
  | .loadEdge direction => ∃ cursor, tl.edgeCursorFor direction = some cursor
  | .continueScan => ∃ direction cursor, tl.continueDirection = some direction ∧
      tl.edgeCursorFor direction = some cursor
  | .pageEnd _ _ => ∃ request, tl.flight = some request ∧
      tl.store.isStale request.direction request.startPositions = true
  | .afterPage => tl.flight = none ∧ ∃ direction, tl.pendingDirectionRef = some direction ∧
      (decidePostPage (tl.postPageInput direction) = .errorDropOverlay ∨
        ∃ cursor, decidePostPage (tl.postPageInput direction) = .continue cursor)
  | _ => False

/-- The events that bring no message and change no filter. -/
def Plain : TimelineEvent → Prop
  | .message _ => False
  | .applyFilter _ => False
  | _ => True

/-- The first move of a handler. -/
inductive Enters (env : TextEnv) (tl : TimelineRefs) : TimelineEvent → TimelineRefs → Prop
  | ignored {m : MessageOut} (hpred : tl.predicateRef m = false) : Enters env tl (.message m) tl
  | live {m : MessageOut} {store : Store} {outcome : InsertOutcome}
      (hpred : tl.predicateRef m = true) (hattached : tl.attachedRef = true)
      (hlive : tl.store.insertLive [m] = .ok (store, outcome)) :
      Enters env tl (.message m) ({ tl with store := store }.noteHeld outcome)
  | buffered {m : MessageOut} (hpred : tl.predicateRef m = true)
      (hpaused : tl.attachedRef = false ∨ tl.pauseReasonRef ≠ .none ∨ tl.inspectingRef = true) :
      Enters env tl (.message m) { tl with liveBuffer := tl.liveBuffer.push m }
  | matched {request : Request} (hflight : tl.flight = some request) (msgs : List MessageOut) :
      Enters env tl (.pageMatches msgs) (tl.onMatches msgs)
  | landed {request : Request} {cursor : Option (List Position)} {store : Store}
      {outcome : InsertOutcome} (hflight : tl.flight = some request)
      (hland : tl.store.land request tl.pageRowsRef cursor = (store, outcome))
      (hfresh : tl.store.isStale request.direction request.startPositions = false)
      (exhausted : Bool) (flags : Direction → Bool) :
      Enters env tl (.pageEnd cursor exhausted)
        ({ tl with
            flight := none
            exhausted := flags
            pageRowsRef := []
            store := store }.noteHeld outcome)
  | rejected {request : Request} (hflight : tl.flight = some request)
      (hstale : tl.store.isStale request.direction request.startPositions = true)
      (cursor : Option (List Position)) (exhausted : Bool) (flags : Direction → Bool) :
      Enters env tl (.pageEnd cursor exhausted)
        { tl with
          flight := none
          exhausted := flags
          pageRowsRef := [] }
  | failed {request : Request} (hflight : tl.flight = some request) :
      Enters env tl .pageError { tl with flight := none, error := true }
  | dropped (hdiscards : tl.Discards .afterPage) :
      Enters env tl .afterPage { tl with pendingDirectionRef := none, pageRowsRef := [] }
  | cancelled : Enters env tl .cancelScan tl.handleCancelScan
  | toggled (key : Int × Int) (keys : List (Int × Int))
      (hkeys : ∀ k ∈ keys, k ∈ tl.expandedKeysRef ∨ k = key) :
      Enters env tl (.toggleExpand key)
        { tl with expandedKeysRef := keys, inspectingRef := !keys.isEmpty }
  | asked {event : TimelineEvent} {tl' : TimelineRefs} {direction : Direction}
      {cursor : List Position} (hdiscards : tl.Discards event) (hquiet : tl.Quiet tl')
      (hedge : tl.edgeCursorFor direction = some cursor) (resetIteration : Bool) :
      Enters env tl event (tl'.runPage (cursorRequest direction cursor) resetIteration)
  | quiet {event : TimelineEvent} {tl' : TimelineRefs} (hplain : Plain event)
      (hquiet : tl.Quiet tl') : Enters env tl event tl'
  | restarted {event : TimelineEvent} {tl' : TimelineRefs} {request : Request}
      (hplain : Plain event) (hquiet : tl.resetWindow.Quiet tl')
      (hfirst : request = .latest ∨ request = .forwardFrom) :
      Enters env tl event (tl'.runPage request true)
  | refiltered (text : String) {request : Request}
      (hfirst : request = .latest ∨ request = .forwardFrom) :
      Enters env tl (.applyFilter text)
        (TimelineRefs.runPage { tl with
          predicateRef := (parseFilterQuery env text).predicate
          activeFilterApiRef := (parseFilterQuery env text).api }.resetWindow request true)

/-! ### The two attachments -/

/-- What the refs claim of the store's attachment is true. -/
def Agreed (tl : TimelineRefs) : Prop := tl.attachedRef = true → tl.store.attached = true

variable {env : TextEnv} {tl tl' : TimelineRefs} {event : TimelineEvent}

theorem noteHeld_attached (tl : TimelineRefs) (outcome : InsertOutcome) :
    (tl.noteHeld outcome).attachedRef = (tl.attachedRef && outcome.trimmedTop = 0) ∧
      (tl.noteHeld outcome).store.attached = tl.store.attached := by
  unfold noteHeld
  dsimp only
  split
  · exact ⟨rfl, rfl⟩
  · exact ⟨rfl, rfl⟩

theorem Agreed.noteHeld (h : tl.store.attached = true) (outcome : InsertOutcome) :
    (tl.noteHeld outcome).Agreed := by
  intro _
  exact (noteHeld_attached tl outcome).2.trans h

theorem Quiet.agreed (hquiet : tl.Quiet tl') (h : tl.Agreed) : tl'.Agreed := by
  intro hattached
  rw [hquiet.store]
  exact h (hquiet.attachedRef ▸ hattached)

theorem Agreed.settles (h : tl.Agreed) (hmove : Settles tl tl') : tl'.Agreed := by
  cases hmove with
  | flush hattached hlive =>
    apply Agreed.noteHeld
    exact Store.insertLive_attached hlive
  | drained hattached hnone => exact h
  | attach hstore => exact fun _ => hstore
  | quiet hquiet => exact hquiet.agreed h
  | run hrows hedge resetIteration => exact h

theorem Agreed.settled (h : tl.Agreed) (hmoves : Settled tl tl') : tl'.Agreed := by
  induction hmoves with
  | refl => exact h
  | tail _ hmove ih => exact ih.settles hmove

/-- Nothing that settles detaches the store. -/
theorem Settled.store_attached (hmoves : Settled tl tl') (h : tl.store.attached = true) :
    tl'.store.attached = true := by
  induction hmoves with
  | refl => exact h
  | tail _ hmove ih =>
    cases hmove with
    | flush hattached hlive =>
      rw [(noteHeld_attached _ _).2]
      exact Store.insertLive_attached hlive
    | drained hattached hnone => exact ih
    | attach hstore => exact hstore
    | quiet hquiet =>
      rw [hquiet.store]
      exact ih
    | run hrows hedge resetIteration => exact ih

theorem Agreed.enters (h : tl.Agreed) (henters : Enters env tl event tl') : tl'.Agreed := by
  cases henters with
  | ignored hpred => exact h
  | live hpred hattached hlive =>
    apply Agreed.noteHeld
    exact Store.insertLive_attached hlive
  | buffered hpred hpaused => exact h
  | matched hflight msgs =>
    unfold onMatches
    split
    · exact h
    · exact h
  | landed hflight hland hfresh exhausted flags =>
    intro hattached
    rw [(noteHeld_attached _ _).1] at hattached
    rw [(noteHeld_attached _ _).2]
    obtain ⟨hclaim, htop⟩ := Bool.and_eq_true_iff.mp hattached
    exact (Store.land_report hland).2 (h hclaim) (of_decide_eq_true htop)
  | rejected hflight hstale cursor exhausted flags => exact h
  | failed hflight => exact h
  | dropped hdiscards => exact h
  | cancelled => exact h
  | toggled key keys hkeys => exact h
  | asked hdiscards hquiet hedge resetIteration => exact hquiet.agreed h
  | quiet hplain hquiet => exact hquiet.agreed h
  | restarted hplain hquiet hfirst =>
    intro hattached
    have hdetached : tl.resetWindow.attachedRef = true := hquiet.attachedRef ▸ hattached
    cases hdetached
  | refiltered text hfirst =>
    intro hattached
    cases hattached

/-! ### Handlers as moves -/

theorem Settled.quiet (h : tl.Quiet tl') : Settled tl tl' := .single (.quiet h)

theorem actOn_settles {decision : PauseDecision} {flush : TimelineRefs → Except String TimelineRefs}
    (hflush : decision.flush = true → ∃ tl', flush tl = .ok tl' ∧ Settled tl tl') :
    ∃ tl', tl.actOn decision flush = .ok tl' ∧ Settled tl tl' := by
  unfold actOn
  by_cases hdecision : decision.flush = true
  · obtain ⟨tl', hok, hsettled⟩ := hflush hdecision
    rw [if_pos hdecision, hok]
    exact ⟨_, rfl, hsettled.tail (.quiet ⟨rfl, rfl, rfl, rfl, rfl, rfl, rfl, rfl, rfl, rfl⟩)⟩
  · rw [if_neg hdecision]
    exact ⟨_, rfl, Settled.quiet ⟨rfl, rfl, rfl, rfl, rfl, rfl, rfl, rfl, rfl, rfl⟩⟩

/-- A flush of an attached window. -/
theorem flushWith_settles {note : TimelineRefs → InsertOutcome → Except String TimelineRefs}
    (h : tl.Agreed) (hattached : tl.attachedRef = true)
    (hnote : ∀ tl₁ outcome, tl₁.expandedKeysRef = tl.expandedKeysRef → tl₁.store.attached = true →
      ∃ tl', note tl₁ outcome = .ok tl' ∧ Settled (tl₁.noteHeld outcome) tl') :
    ∃ tl', tl.flushWith note = .ok tl' ∧ Settled tl tl' := by
  unfold flushWith
  cases hitems : tl.liveBuffer.items with
  | nil =>
    have hdrained : tl.drain.2.isEmpty = true := by
      rw [show tl.drain.2 = tl.liveBuffer.items from rfl, hitems]
      rfl
    dsimp only
    rw [if_pos hdrained]
    exact ⟨_, rfl, .single (.drained hattached hitems)⟩
  | cons m items =>
    have hdrained : ¬ tl.drain.2.isEmpty = true := by
      rw [show tl.drain.2 = tl.liveBuffer.items from rfl, hitems]
      exact Bool.false_ne_true
    obtain ⟨store, outcome, hlive⟩ := Store.insertLive_total (h hattached) tl.liveBuffer.items
    obtain ⟨tl', hok, hsettled⟩ := hnote { tl.drain.1 with store := store } outcome rfl
      (Store.insertLive_attached hlive)
    dsimp only
    rw [if_neg hdrained,
      show tl.drain.1.store.insertLive tl.drain.2 = .ok (store, outcome) from hlive]
    exact ⟨tl', hok, .head (.flush hattached hlive) hsettled⟩

/-- The decision that follows the last expanded row. -/
theorem closing_settles {flush : TimelineRefs → Except String TimelineRefs}
    (hflush : tl.attachedRef = true → ∃ tl', flush tl = .ok tl' ∧ Settled tl tl') :
    ∃ tl', tl.actOn (nextPause { tl.pauseInput with inspecting := false } .lastInspectionClosed)
      flush = .ok tl' ∧ Settled tl tl' := by
  apply actOn_settles
  intro hdecision
  apply hflush
  cases hattached : tl.attachedRef with
  | true => rfl
  | false =>
    rw [nextPause_detached hattached (by decide)] at hdecision
    cases hdecision

theorem noteOutcome_settles (outcome : InsertOutcome) (h : (tl.noteHeld outcome).Agreed) :
    ∃ tl', tl.noteOutcome outcome = .ok tl' ∧ Settled (tl.noteHeld outcome) tl' := by
  rw [noteOutcome]
  unfold noteHeld at h ⊢
  dsimp only at h ⊢
  split
  · rename_i htrimmed
    rw [if_pos htrimmed] at h
    split
    · rename_i hclosed
      have hnone : ((tl.noteTrims outcome).pruneKeys).expandedKeysRef = [] :=
        List.isEmpty_iff.mp (Bool.and_eq_true_iff.mp hclosed).1
      apply closing_settles
      intro hattached
      apply flushWith_settles h hattached
      intro tl₁ outcome' hkeys _
      have hheld : tl₁.noteHeld outcome' = tl₁.noteTrims outcome' := by
        unfold noteHeld
        dsimp only
        rw [show (tl₁.noteTrims outcome').expandedKeysRef = [] from hkeys.trans hnone,
          List.isEmpty_nil, Bool.not_true, Bool.and_false, if_neg Bool.false_ne_true]
      exact ⟨_, rfl, hheld ▸ .refl⟩
    · exact ⟨_, rfl, .refl⟩
  · exact ⟨_, rfl, .refl⟩

theorem flushBuffer_settles (h : tl.Agreed) (hattached : tl.attachedRef = true) :
    ∃ tl', tl.flushBuffer = .ok tl' ∧ Settled tl tl' := by
  apply flushWith_settles h hattached
  intro tl₁ outcome _ hstore
  exact noteOutcome_settles outcome (Agreed.noteHeld hstore outcome)

/-- The handler made its moves and returned. -/
def Moved (env : TextEnv) (tl : TimelineRefs) (event : TimelineEvent)
    (result : Except String TimelineRefs) : Prop :=
  ∃ tl₁ tl', Enters env tl event tl₁ ∧ Settled tl₁ tl' ∧ result = .ok tl'

theorem Moved.of_enters (h : Enters env tl event tl') : Moved env tl event (.ok tl') :=
  ⟨tl', tl', h, .refl, rfl⟩

theorem Moved.of_settles {tl₁ : TimelineRefs} {result : Except String TimelineRefs}
    (henters : Enters env tl event tl₁) (h : ∃ tl', result = .ok tl' ∧ Settled tl₁ tl') :
    Moved env tl event result := by
  obtain ⟨tl', hok, hsettled⟩ := h
  exact ⟨tl₁, tl', henters, hsettled, hok⟩

theorem Moved.unchanged (hplain : Plain event) : Moved env tl event (.ok tl) :=
  Moved.of_enters (.quiet hplain ⟨rfl, rfl, rfl, rfl, rfl, rfl, rfl, rfl, rfl, rfl⟩)

theorem onMessage_moved (h : tl.Agreed) (m : MessageOut) :
    Moved env tl (.message m) (tl.onMessage m) := by
  unfold onMessage
  cases hpred : tl.predicateRef m with
  | false => exact Moved.of_enters (.ignored hpred)
  | true =>
    rw [Bool.not_true, if_neg Bool.false_ne_true]
    split
    · rename_i hlive
      obtain ⟨⟨hattached, -⟩, -⟩ := by simpa only [Bool.and_eq_true_iff] using hlive
      obtain ⟨store, outcome, hinsert⟩ := Store.insertLive_total (h hattached) [m]
      rw [hinsert]
      have hinserted : Enters env tl (.message m) _ := .live hpred hattached hinsert
      exact Moved.of_settles hinserted (noteOutcome_settles outcome (h.enters hinserted))
    · rename_i hpaused
      apply Moved.of_enters
      apply Enters.buffered hpred
      cases hattached : tl.attachedRef with
      | false => exact Or.inl rfl
      | true =>
        right
        cases hinspecting : tl.inspectingRef with
        | true => exact Or.inr rfl
        | false =>
          left
          intro hnone
          rw [hattached, hinspecting, hnone] at hpaused
          exact hpaused rfl

theorem handleToggleExpand_moved (h : tl.Agreed) (key : Int × Int) :
    Moved env tl (.toggleExpand key) (tl.handleToggleExpand key) := by
  unfold handleToggleExpand
  generalize hkeys : (if tl.expandedKeysRef.contains key then tl.expandedKeysRef.filter (· ≠ key)
    else tl.expandedKeysRef ++ [key]) = keys
  have hmem : ∀ k ∈ keys, k ∈ tl.expandedKeysRef ∨ k = key := by
    intro k hk
    rw [← hkeys] at hk
    split at hk
    · exact Or.inl (List.mem_of_mem_filter hk)
    · exact (List.mem_append.mp hk).imp id List.mem_singleton.mp
  have htoggled : Enters env tl (.toggleExpand key) { tl with
      expandedKeysRef := keys
      inspectingRef := !keys.isEmpty } := .toggled key keys hmem
  dsimp only
  split
  · exact Moved.of_enters htoggled
  · exact Moved.of_settles htoggled (closing_settles fun hattached => flushBuffer_settles h hattached)

/-! ### Pages -/

theorem retryStale_settles (hrows : tl.pageRowsRef = []) (direction : Direction) :
    Settled tl (tl.retryStale direction) := by
  unfold retryStale
  split
  · exact .refl
  · rename_i cursor hedge
    split
    · have hcounted : Settled tl { tl with iterationRef := tl.iterationRef + 1 } :=
        Settled.quiet ⟨rfl, rfl, rfl, rfl, rfl, rfl, rfl, rfl, rfl, rfl⟩
      refine hcounted.tail (.run ?_ ?_ false)
      · exact hrows
      · exact hedge
    · exact Settled.quiet ⟨rfl, rfl, rfl, rfl, rfl, rfl, rfl, rfl, rfl, rfl⟩

theorem noteAttached_settles {outcome : InsertOutcome}
    (hstore : outcome.attached = true → tl.store.attached = true) :
    ∃ tl', tl.noteAttached outcome = .ok tl' ∧ Settled tl tl' := by
  unfold noteAttached
  split
  · rename_i hcaught
    have hattached : tl.store.attached = true := hstore (Bool.and_eq_true_iff.mp hcaught).2
    have hflush : ∃ tl', TimelineRefs.flushBuffer { tl with attachedRef := true } = .ok tl' ∧
        Settled { tl with attachedRef := true } tl' := flushBuffer_settles (fun _ => hattached) rfl
    obtain ⟨tl', hok, hsettled⟩ := actOn_settles fun
      (_ : (nextPause { tl.pauseInput with attached := false } .reattached).flush = true) => hflush
    exact ⟨tl', hok, .head (.attach hattached) hsettled⟩
  · exact ⟨tl, rfl, .refl⟩

theorem onPageEnd_moved (h : tl.Agreed) (cursor : Option (List Position)) (exhausted : Bool) :
    Moved env tl (.pageEnd cursor exhausted) (tl.onPageEnd cursor exhausted) := by
  unfold onPageEnd
  cases hflight : tl.flight with
  | none => exact Moved.unchanged trivial
  | some request =>
    cases hland : tl.store.land request tl.pageRowsRef cursor with
    | mk store outcome =>
      obtain ⟨hreport, -⟩ := Store.land_report hland
      obtain ⟨hverdict, hsame⟩ := Store.land_rejected hland
      unfold commitPage
      dsimp only
      rw [hland]
      dsimp only
      cases hstale : tl.store.isStale request.direction request.startPositions with
      | true =>
        rw [hstale] at hverdict
        obtain rfl := hsame hverdict
        rw [if_pos hverdict]
        have hentered : Enters env tl (.pageEnd cursor exhausted) _ :=
          .rejected hflight hstale cursor exhausted
            fun d => if d = request.direction then exhausted else tl.exhausted d
        exact Moved.of_settles hentered ⟨_, rfl, retryStale_settles rfl request.direction⟩
      | false =>
        rw [hstale] at hverdict
        have hentered : Enters env tl (.pageEnd cursor exhausted) _ :=
          .landed hflight hland hstale exhausted
            fun d => if d = request.direction then exhausted else tl.exhausted d
        obtain ⟨tl₁, hok, hsettled⟩ := noteOutcome_settles outcome (h.enters hentered)
        rw [if_neg (by rw [hverdict]; exact Bool.false_ne_true), hok]
        have hkept : outcome.attached = true → tl₁.store.attached = true := by
          intro hattached
          apply hsettled.store_attached
          rw [(noteHeld_attached _ _).2]
          exact hreport.symm.trans hattached
        obtain ⟨tl₂, hok', hsettled'⟩ := noteAttached_settles hkept
        exact Moved.of_settles hentered ⟨tl₂, hok', hsettled.trans hsettled'⟩

/-- Once the page is over, the effect either drops its overlay, asks on or does nothing. -/
theorem afterPage_moved : Moved env tl .afterPage (.ok tl.afterPage) := by
  unfold afterPage
  split
  · exact Moved.unchanged trivial
  · rename_i hover
    have hflight : tl.flight = none := by simpa using hover
    cases hpending : tl.pendingDirectionRef with
    | none => exact Moved.unchanged trivial
    | some direction =>
      dsimp only
      have hinput : { tl with pendingDirectionRef := none }.postPageInput direction =
        tl.postPageInput direction := rfl
      rw [hinput]
      cases hdecision : decidePostPage (tl.postPageInput direction) with
      | errorDropOverlay =>
        exact Moved.of_enters (.dropped ⟨hflight, direction, hpending, Or.inl hdecision⟩)
      | stop =>
        exact Moved.of_enters (.quiet trivial ⟨rfl, rfl, rfl, rfl, rfl, rfl, rfl, rfl, rfl, rfl⟩)
      | offerContinue =>
        exact Moved.of_enters (.quiet trivial ⟨rfl, rfl, rfl, rfl, rfl, rfl, rfl, rfl, rfl, rfl⟩)
      | «continue» cursor =>
        have hdiscards : tl.Discards .afterPage :=
          ⟨hflight, direction, hpending, Or.inr ⟨cursor, hdecision⟩⟩
        apply Moved.of_enters
        apply Enters.asked hdiscards
        · exact ⟨rfl, rfl, rfl, rfl, rfl, rfl, rfl, rfl, rfl, rfl⟩
        · exact (decidePostPage_continue hdecision).1

theorem loadEdge_moved (direction : Direction) :
    Moved env tl (.loadEdge direction) (.ok (tl.loadEdge direction)) := by
  unfold loadEdge
  split
  · exact Moved.unchanged trivial
  · rename_i cursor hedge
    have hdiscards : tl.Discards (.loadEdge direction) := ⟨cursor, hedge⟩
    exact Moved.of_enters
      (.asked hdiscards ⟨rfl, rfl, rfl, rfl, rfl, rfl, rfl, rfl, rfl, rfl⟩ hedge true)

theorem continueScan_moved : Moved env tl .continueScan (.ok tl.continueScan) := by
  unfold continueScan
  split
  · exact Moved.unchanged trivial
  · rename_i direction hdirection
    unfold loadEdge
    split
    · exact Moved.unchanged trivial
    · rename_i cursor hedge
      have hdiscards : tl.Discards .continueScan := ⟨direction, cursor, hdirection, hedge⟩
      exact Moved.of_enters
        (.asked hdiscards ⟨rfl, rfl, rfl, rfl, rfl, rfl, rfl, rfl, rfl, rfl⟩ hedge true)

/-! ### Jumps, clicks and scrolls -/

theorem handleJump_moved (hplain : Plain event) (target : JumpTarget) :
    Moved env tl event (.ok (tl.handleJump target)) :=
  Moved.of_enters (.restarted hplain ⟨rfl, rfl, rfl, rfl, rfl, rfl, rfl, rfl, rfl, rfl⟩
    (planJump_first target))

/-- A click on the pill or on play and pause. -/
theorem click_moved (h : tl.Agreed) (hplain : Plain event) {pressed : PauseEvent}
    (hpressed : pressed ≠ .reattached)
    (result : Except String TimelineRefs)
    (hresult : result = if (nextPause tl.pauseInput pressed).jumpToNow then .ok (tl.handleJump .now)
      else tl.actOn (nextPause tl.pauseInput pressed) flushBuffer) : Moved env tl event result := by
  subst hresult
  split
  · exact handleJump_moved hplain .now
  · apply Moved.of_settles (.quiet hplain ⟨rfl, rfl, rfl, rfl, rfl, rfl, rfl, rfl, rfl, rfl⟩)
    apply actOn_settles
    intro hdecision
    apply flushBuffer_settles h
    cases hattached : tl.attachedRef with
    | true => rfl
    | false =>
      rw [nextPause_detached hattached hpressed] at hdecision
      cases hdecision

theorem handleScroll_moved (h : tl.Agreed) (pinnedTop : Bool) :
    Moved env tl (.scroll pinnedTop) (tl.handleScroll pinnedTop) := by
  have hscrolled : Enters env tl (.scroll pinnedTop) { tl with pinnedTopRef := pinnedTop } :=
    .quiet trivial ⟨rfl, rfl, rfl, rfl, rfl, rfl, rfl, rfl, rfl, rfl⟩
  apply Moved.of_settles hscrolled
  apply actOn_settles
  intro hdecision
  apply flushBuffer_settles (h.enters hscrolled)
  show tl.attachedRef = true
  cases hattached : tl.attachedRef with
  | true => rfl
  | false =>
    rw [nextPause_detached hattached (by split <;> decide)] at hdecision
    cases hdecision

theorem applyFilter_moved (text : String) :
    Moved env tl (.applyFilter text) (.ok (tl.applyFilter env text)) := by
  apply Moved.of_enters
  apply Enters.refiltered text
  unfold baseRequest
  split
  · exact Or.inr rfl
  · exact Or.inl rfl

/-- Whatever the event, on refs that claim no attachment the store does not have the handler
    returns. -/
theorem handle_moved (h : tl.Agreed) (event : TimelineEvent) :
    Moved env tl event (tl.handle env event) := by
  cases event with
  | message m => exact onMessage_moved h m
  | pageMatches msgs =>
    cases hflight : tl.flight with
    | some request => exact Moved.of_enters (.matched hflight msgs)
    | none =>
      have hsame : tl.onMatches msgs = tl := by
        rw [onMatches, hflight]
        rfl
      rw [handle, hsame]
      exact Moved.unchanged trivial
  | pageEnd cursor exhausted => exact onPageEnd_moved h cursor exhausted
  | pageError =>
    cases hflight : tl.flight with
    | some request =>
      have hfailed : tl.onPageError = { tl with flight := none, error := true } := by
        rw [onPageError, hflight]
        rfl
      rw [handle, hfailed]
      exact Moved.of_enters (.failed hflight)
    | none =>
      have hsame : tl.onPageError = tl := by
        rw [onPageError, hflight]
        rfl
      rw [handle, hsame]
      exact Moved.unchanged trivial
  | afterPage => exact afterPage_moved
  | cancelScan => exact Moved.of_enters .cancelled
  | toggleExpand key => exact handleToggleExpand_moved h key
  | loadEdge direction => exact loadEdge_moved direction
  | continueScan => exact continueScan_moved
  | scroll pinnedTop => exact handleScroll_moved h pinnedTop
  | pillClick =>
    have hplain : Plain .pillClick := trivial
    exact click_moved h hplain (by decide) _ rfl
  | playPauseToggle =>
    have hplain : Plain .playPauseToggle := trivial
    exact click_moved h hplain (by decide) _ rfl
  | jump target =>
    have hplain : Plain (.jump target) := trivial
    exact handleJump_moved hplain target
  | applyFilter text => exact applyFilter_moved text

/-- The refs after a handler: a first move of its own, then moves that settle. -/
theorem handle_settled (h : tl.Agreed) {event : TimelineEvent}
    (hok : tl.handle env event = .ok tl') :
    ∃ tl₁, Enters env tl event tl₁ ∧ Settled tl₁ tl' := by
  have hmoved : Moved env tl event (tl.handle env event) := handle_moved h event
  obtain ⟨tl₁, tl₂, henters, hsettled, hresult⟩ := hmoved
  rw [hok] at hresult
  obtain rfl := Except.ok.inj hresult
  exact ⟨tl₁, henters, hsettled⟩

theorem Moved.agreed {result : Except String TimelineRefs} (h : tl.Agreed)
    (hmoved : Moved env tl event result) : ∃ tl', result = .ok tl' ∧ tl'.Agreed := by
  obtain ⟨tl₁, tl', henters, hsettled, hok⟩ := hmoved
  exact ⟨tl', hok, (h.enters henters).settled hsettled⟩

/-- No run of the handlers throws, and in the state it leaves the refs claim no attachment
    the store does not have. -/
theorem handlers_never_throw (env : TextEnv) (windowCap : Nat) (events : List TimelineEvent) :
    ∃ tl, (mount env windowCap).handleAll env events = .ok tl ∧
      (tl.attachedRef = true → tl.store.attached = true) := by
  have hrun : ∀ (events : List TimelineEvent) (tl : TimelineRefs), tl.Agreed →
      ∃ tl', tl.handleAll env events = .ok tl' ∧ tl'.Agreed := by
    intro events
    induction events with
    | nil => exact fun tl h => ⟨tl, rfl, h⟩
    | cons event events ih =>
      intro tl h
      have hmoved : Moved env tl event (tl.handle env event) := handle_moved h event
      obtain ⟨tl₁, hok, hagreed⟩ := hmoved.agreed h
      rw [handleAll, hok]
      exact ih tl₁ hagreed
  apply hrun
  intro hattached
  cases hattached

end TimelineRefs

end Arne.Client
