import Mathlib.Data.List.Pairwise
import Mathlib.Logic.Function.Basic
import Arne.Message.Types
import Arne.Timeline.Request

/-!
# The stream of a page (`pages/timeline/useTimelinePage.ts`)

The hook that loads a page as a stream of events.  Its code runs in pieces: a call of
`loadPage`, `cancel` or `reset`, an event of some stream up to the first callback, and what
is left of the handler when the callback returns.  While a callback runs, calls come in
between and events do not.  A state is therefore the refs, the React state, the closures of
all `loadPage` calls so far, and which callback runs.  The history of a run says what
happened; which page is the current one is a matter of the history alone.
-/

namespace Arne.Client

open Arne.Message Arne.Timeline

def BATCH_SIZE : Nat := 25

structure TimelineProgress where
  scanned : Nat
  matches_ : Nat
  budget : Nat
deriving DecidableEq, Repr

structure SseErrorData where
  code : String
  message : String
  cluster : Option String
  retriable : Option Bool
deriving DecidableEq, Repr

/-- `ApiError` (with its status) or a plain `Error`. -/
inductive PageError where
  | api (status : Nat) (error : ApiError)
  | plain (message : String)
deriving DecidableEq, Repr

structure TimelineState where
  loading : Bool
  progress : Option TimelineProgress
  exhausted : Direction → Bool
  error : Option PageError

/-- What a stream may fire.  `onTransportError` is `EventSource`'s own error. -/
inductive StreamEvent where
  | onMatch (m : MessageOut)
  | onProgress (p : TimelineProgress)
  | onPageEnd (cursor : Option String) (exhausted : Bool)
  | onError (e : SseErrorData)
  | onTransportError
deriving DecidableEq

def StreamEvent.terminal : StreamEvent → Bool
  | .onMatch _ => false
  | .onProgress _ => false
  | .onPageEnd _ _ => true
  | .onError _ => true
  | .onTransportError => true

/-- What one `loadPage` call closes over.  `listens`: an `onPageEnd` was given. -/
structure PageStream where
  myGen : Nat
  direction : Direction
  listens : Bool
  batch : List MessageOut
  closed : Bool

/-! ### Histories -/

/-- Pages are numbered in the order of their `loadPage` calls. -/
inductive Act where
  | loadPage (page : Nat)
  | cancel
  | reset
  | event (page : Nat) (e : StreamEvent)
  | onMatches (page : Nat) (msgs : List MessageOut)
  | onPageEnd (page : Nat) (cursor : Option String) (exhausted : Bool)
deriving DecidableEq

/-- The latest act comes first. -/
abbrev History := List Act

/-- The page that was loaded last, unless it was cancelled. -/
def current : History → Option Nat
  | [] => none
  | .loadPage page :: _ => some page
  | .cancel :: _ => none
  | .reset :: _ => none
  | _ :: earlier => current earlier

/-- The current page as long as it has not ended. -/
def pending : History → Option Nat
  | [] => none
  | .loadPage page :: _ => some page
  | .cancel :: _ => none
  | .reset :: _ => none
  | .event page e :: earlier =>
      if e.terminal ∧ pending earlier = some page then none else pending earlier
  | _ :: earlier => pending earlier

/-- The matches that a page received while it was the current one. -/
def received (page : Nat) : History → List MessageOut
  | [] => []
  | .event i (.onMatch m) :: earlier =>
      received page earlier ++ if i = page ∧ current earlier = some page then [m] else []
  | _ :: earlier => received page earlier

/-- The matches that the `onMatches` of a page was given. -/
def delivered (page : Nat) : History → List MessageOut
  | [] => []
  | .onMatches i msgs :: earlier => delivered page earlier ++ if i = page then msgs else []
  | _ :: earlier => delivered page earlier

/-- The stream of the page fired its terminal event. -/
def Ended (page : Nat) (history : History) : Prop :=
  ∃ e : StreamEvent, e.terminal = true ∧ Act.event page e ∈ history

instance (page : Nat) (history : History) : Decidable (Ended page history) :=
  decidable_of_iff (history.any fun a => match a with
      | .event i e => i = page && e.terminal
      | _ => false) (by
    rw [List.any_eq_true]
    constructor
    · rintro ⟨a, ha, h⟩
      cases a with
      | event i e =>
        obtain ⟨hi, he⟩ := Bool.and_eq_true_iff.mp h
        obtain rfl : i = page := of_decide_eq_true hi
        exact ⟨e, he, ha⟩
      | loadPage _ | cancel | reset | onMatches _ _ | onPageEnd _ _ _ => cases h
    · rintro ⟨e, he, ha⟩
      exact ⟨_, ha, by simp [he]⟩)

/-- The `onPageEnd` of the page was called. -/
def Reported (page : Nat) (history : History) : Prop :=
  ∃ cursor exhausted, Act.onPageEnd page cursor exhausted ∈ history

/-- The terminal event of the page came while the page was the current one. -/
def Settled (page : Nat) : History → Prop
  | [] => False
  | a :: earlier =>
      (∃ e : StreamEvent, a = .event page e ∧ e.terminal = true ∧ current earlier = some page) ∨
        Settled page earlier

/-- What may happen after a history: a stream is silent after its terminal event, a callback
    is one of the current page, and `onPageEnd` comes once, when everything is delivered. -/
def Legal (earlier : History) : Act → Prop
  | .loadPage _ => True
  | .cancel => True
  | .reset => True
  | .event page _ => ¬ Ended page earlier
  | .onMatches page _ => current earlier = some page ∧ ¬ Reported page earlier
  | .onPageEnd page _ _ =>
      current earlier = some page ∧ Ended page earlier ∧ ¬ Reported page earlier ∧
        delivered page earlier = received page earlier

inductive Orderly : History → Prop where
  | nil : Orderly []
  | cons {a : Act} {earlier : History} (h : Orderly earlier) (ha : Legal earlier a) :
      Orderly (a :: earlier)

section Histories

variable {page : Nat} {history earlier later : History} {a : Act}

theorem Ended.mono (later : History) (h : Ended page earlier) : Ended page (later ++ earlier) := by
  obtain ⟨e, he, hmem⟩ := h
  exact ⟨e, he, List.mem_append_right _ hmem⟩

theorem Reported.mono (later : History) (h : Reported page earlier) :
    Reported page (later ++ earlier) := by
  obtain ⟨cursor, exhausted, hmem⟩ := h
  exact ⟨cursor, exhausted, List.mem_append_right _ hmem⟩

theorem Settled.ended (h : Settled page history) : Ended page history := by
  induction history with
  | nil => exact h.elim
  | cons a earlier ih =>
    rcases h with ⟨e, rfl, he, -⟩ | h
    · exact ⟨e, he, List.mem_cons_self⟩
    · exact (ih h).mono [a]

theorem settled_of_split {e : StreamEvent} (he : e.terminal = true)
    (hcurrent : current earlier = some page) :
    Settled page (later ++ .event page e :: earlier) := by
  induction later with
  | nil => exact Or.inl ⟨e, rfl, he, hcurrent⟩
  | cons a later ih => exact Or.inr ih

/-- An event that does not end a stream settles no page and leaves the pending one. -/
theorem settled_of_event {e : StreamEvent} (he : e.terminal = false) {i : Nat}
    (h : Settled page (.event i e :: history)) : Settled page history := by
  rcases h with ⟨e', hact, he', -⟩ | h
  · cases hact
    rw [he] at he'
    cases he'
  · exact h

theorem pending_event {e : StreamEvent} (he : e.terminal = false) (i : Nat)
    (history : History) : pending (.event i e :: history) = pending history := by
  rw [pending, he, if_neg fun h => Bool.false_ne_true h.1]

/-- A page that has not ended is the current one. -/
theorem current_of_pending (h : pending history = some page) : current history = some page := by
  induction history with
  | nil => cases h
  | cons a earlier ih =>
    cases a with
    | loadPage i => exact h
    | cancel => cases h
    | reset => cases h
    | event i e =>
      rw [pending] at h
      split at h
      · cases h
      · exact ih h
    | onMatches i msgs => exact ih h
    | onPageEnd i cursor exhausted => exact ih h

theorem Orderly.of_append (h : Orderly (later ++ earlier)) : Orderly earlier := by
  induction later with
  | nil => exact h
  | cons a later ih =>
    cases h with
    | cons h _ => exact ih h

theorem Orderly.legal (h : Orderly (later ++ a :: earlier)) : Legal earlier a := by
  cases h.of_append with
  | cons _ ha => exact ha

theorem Orderly.ended_of_reported (h : Orderly history) (hr : Reported page history) :
    Ended page history := by
  obtain ⟨cursor, exhausted, hmem⟩ := hr
  obtain ⟨later, earlier, rfl⟩ := List.append_of_mem hmem
  have hlegal : Ended page earlier := h.legal.2.1
  exact (hlegal.mono [_]).mono later

/-- Nothing is received after the terminal event. -/
theorem Orderly.received_eq (h : Orderly (later ++ earlier)) (hended : Ended page earlier) :
    received page (later ++ earlier) = received page earlier := by
  induction later with
  | nil => rfl
  | cons a later ih =>
    rw [List.cons_append] at h ⊢
    cases h with
    | cons hrest hlegal =>
      have hsame := ih hrest
      cases a with
      | event i e =>
        have hother : i ≠ page := by
          rintro rfl
          exact hlegal (hended.mono later)
        cases e with
        | onMatch m => rw [received, if_neg (fun h => hother h.1), List.append_nil, hsame]
        | onProgress _ | onPageEnd _ _ | onError _ | onTransportError => exact hsame
      | loadPage _ | cancel | reset | onMatches _ _ | onPageEnd _ _ _ => exact hsame

/-- After `onPageEnd` the page has no callback. -/
theorem Orderly.silent (h : Orderly (later ++ earlier)) (hreported : Reported page earlier) :
    (∀ msgs, Act.onMatches page msgs ∉ later) ∧ ¬ Reported page later := by
  constructor
  · intro msgs hmem
    obtain ⟨after, before, rfl⟩ := List.append_of_mem hmem
    rw [List.append_assoc, List.cons_append] at h
    exact h.legal.2 (hreported.mono before)
  · rintro ⟨cursor, exhausted, hmem⟩
    obtain ⟨after, before, rfl⟩ := List.append_of_mem hmem
    rw [List.append_assoc, List.cons_append] at h
    exact h.legal.2.2.1 (hreported.mono before)

end Histories

/-! ### The hook -/

/-- Which callback runs.  `onMatches` is called by `flush`, and `rest` is what the handler
    still has to do: nothing, or the end of `onPageEnd`. -/
inductive Running where
  | nothing
  | onMatches (page : Nat) (rest : Option (Option String × Bool))
  | onPageEnd (page : Nat)
deriving DecidableEq

structure Hook where
  state : TimelineState
  handleRef : Option Nat
  generationRef : Nat
  streams : List PageStream
  running : Running
  history : History

namespace Hook

def init : Hook where
  state := ⟨false, none, fun _ => false, none⟩
  handleRef := none
  generationRef := 0
  streams := []
  running := .nothing
  history := []

section Calls

variable (h : Hook)

def note (a : Act) : Hook := { h with history := a :: h.history }

/-- `handleRef.current?.close(); handleRef.current = null` -/
def closeHandle : Hook :=
  { h with
    streams := match h.handleRef with
      | none => h.streams
      | some page => h.streams.modify page fun s => { s with closed := true }
    handleRef := none }

def cancel : Hook :=
  { h.closeHandle with
    generationRef := h.generationRef + 1
    state := if h.state.loading then { h.state with loading := false } else h.state }

def reset : Hook :=
  { h.cancel with state := ⟨false, none, fun _ => false, none⟩ }

def loadPage (direction : Direction) (listens : Bool) : Hook :=
  { h.closeHandle with
    generationRef := h.generationRef + 1
    state :=
      { h.state with
        loading := true
        progress := none
        error := none
        exhausted := Function.update h.state.exhausted direction false }
    streams := h.closeHandle.streams ++ [⟨h.generationRef + 1, direction, listens, [], false⟩]
    handleRef := some h.streams.length }

def setBatch (page : Nat) (batch : List MessageOut) : Hook :=
  { h with streams := h.streams.modify page fun s => { s with batch := batch } }

/-- What a handler does behind its `flush()`. -/
def afterFlush (page : Nat) (s : PageStream) : Option (Option String × Bool) → Hook
  | none => { h with running := .nothing }
  | some (cursor, exhausted) =>
      if h.generationRef ≠ s.myGen then { h with running := .nothing }
      else if s.listens then
        { h.note (.onPageEnd page cursor exhausted) with running := .onPageEnd page }
      else { h with running := .nothing }

/-- `flush()`, and what comes behind it if there is nothing to deliver. -/
def flush (page : Nat) (s : PageStream) (rest : Option (Option String × Bool)) : Hook :=
  if s.batch = [] then h.afterFlush page s rest
  else
    { (h.note (.onMatches page s.batch)).setBatch page [] with running := .onMatches page rest }

/-- `handle.close(); handleRef.current = null` -/
def closeStream (page : Nat) : Hook :=
  { h with
    streams := h.streams.modify page fun s => { s with closed := true }
    handleRef := none }

/-- The handlers that `loadPage` gives to the stream. -/
def handle (page : Nat) (s : PageStream) (e : StreamEvent) : Hook :=
  if h.generationRef ≠ s.myGen then h
  else match e with
    | .onMatch m =>
        let s := { s with batch := s.batch ++ [m] }
        let h := h.setBatch page s.batch
        if BATCH_SIZE ≤ s.batch.length then h.flush page s none else h
    | .onProgress p => { h with state := { h.state with progress := some p } }
    | .onPageEnd cursor exhausted =>
        let h := h.closeStream page
        { h with
          state :=
            { h.state with
              loading := false
              exhausted := Function.update h.state.exhausted s.direction exhausted }
        }.flush page s (some (cursor, exhausted))
    | .onError e =>
        let h := h.closeStream page
        let error : ApiError := ⟨e.code, e.message, e.cluster, e.retriable.getD false⟩
        { h with
          state := { h.state with loading := false, error := some (.api 0 error) }
        }.flush page s none
    | .onTransportError =>
        let h := h.closeStream page
        let error := "connection lost — retrying is manual"
        { h with
          state := { h.state with loading := false, error := some (.plain error) }
        }.flush page s none

end Calls

/-- `ret`: the callback that runs returns. -/
inductive Move where
  | loadPage (direction : Direction) (listens : Bool)
  | cancel
  | reset
  | event (page : Nat) (e : StreamEvent)
  | ret
deriving DecidableEq

/-- An event comes when no callback runs, and from a stream that has not fired its terminal
    event; a closed stream may still fire. -/
def step (h : Hook) : Move → Option Hook
  | .loadPage direction listens =>
      some ((h.loadPage direction listens).note (.loadPage h.streams.length))
  | .cancel => some (h.cancel.note .cancel)
  | .reset => some (h.reset.note .reset)
  | .event page e =>
      match h.streams[page]? with
      | none => none
      | some s =>
          if h.running = .nothing ∧ ¬ Ended page h.history then
            some ((h.note (.event page e)).handle page s e)
          else none
  | .ret =>
      match h.running with
      | .nothing => none
      | .onMatches page rest => h.streams[page]?.map fun s => h.afterFlush page s rest
      | .onPageEnd _ => some { h with running := .nothing }

/-- The states that some order of calls, events and returns leads to. -/
inductive Reachable : Hook → Prop where
  | init : Reachable init
  | step {h h' : Hook} (m : Move) (hr : Reachable h) (hstep : h.step m = some h') : Reachable h'

/-! ### What the closures hold -/

section Held

variable (h : Hook)

def gen (page : Nat) : Option Nat := h.streams[page]?.map PageStream.myGen

/-- What was received and is not yet delivered. -/
def held (page : Nat) : List MessageOut := (h.streams[page]?.map PageStream.batch).getD []

variable {h}

theorem gen_of_stream {page : Nat} {s : PageStream} (hs : h.streams[page]? = some s) :
    h.gen page = some s.myGen := by
  rw [gen, hs, Option.map_some]

theorem held_of_stream {page : Nat} {s : PageStream} (hs : h.streams[page]? = some s) :
    h.held page = s.batch := by
  rw [held, hs, Option.map_some, Option.getD_some]

variable (h)

@[simp] theorem gen_note (a : Act) : (h.note a).gen = h.gen := rfl

@[simp] theorem held_note (a : Act) : (h.note a).held = h.held := rfl

/-- Only a batch changes. -/
theorem gen_modify {page : Nat} {f : PageStream → PageStream} (hf : ∀ s, (f s).myGen = s.myGen) :
    ({ h with streams := h.streams.modify page f } : Hook).gen = h.gen := by
  funext i
  rw [gen, gen, List.getElem?_modify]
  cases h.streams[i]? with
  | none => rfl
  | some s =>
    by_cases hi : page = i
    · simp [hi, hf]
    · simp [hi]

theorem held_modify {page : Nat} {f : PageStream → PageStream} (hf : ∀ s, (f s).batch = s.batch) :
    ({ h with streams := h.streams.modify page f } : Hook).held = h.held := by
  funext i
  rw [held, held, List.getElem?_modify]
  cases h.streams[i]? with
  | none => rfl
  | some s =>
    by_cases hi : page = i
    · simp [hi, hf]
    · simp [hi]

@[simp] theorem gen_closeHandle : h.closeHandle.gen = h.gen := by
  unfold closeHandle
  cases h.handleRef with
  | none => rfl
  | some page => exact h.gen_modify fun _ => rfl

@[simp] theorem held_closeHandle : h.closeHandle.held = h.held := by
  unfold closeHandle
  cases h.handleRef with
  | none => rfl
  | some page => exact h.held_modify fun _ => rfl

@[simp] theorem gen_closeStream (page : Nat) : (h.closeStream page).gen = h.gen :=
  h.gen_modify fun _ => rfl

@[simp] theorem held_closeStream (page : Nat) : (h.closeStream page).held = h.held :=
  h.held_modify fun _ => rfl

theorem length_closeHandle : h.closeHandle.streams.length = h.streams.length := by
  unfold closeHandle
  cases h.handleRef with
  | none => rfl
  | some page => exact List.length_modify _ _ _

@[simp] theorem gen_cancel : h.cancel.gen = h.gen := h.gen_closeHandle

@[simp] theorem held_cancel : h.cancel.held = h.held := h.held_closeHandle

theorem gen_loadPage (direction : Direction) (listens : Bool) (page : Nat) :
    (h.loadPage direction listens).gen page =
      if page = h.streams.length then some (h.generationRef + 1) else h.gen page := by
  have hclosed : h.closeHandle.gen page = h.gen page := congrFun h.gen_closeHandle page
  unfold gen at hclosed ⊢
  rw [← hclosed]
  dsimp only [loadPage]
  split
  · rename_i hpage
    rw [hpage, ← h.length_closeHandle, List.getElem?_concat_length, Option.map_some]
  · rename_i hpage
    rcases Nat.lt_or_ge page h.streams.length with hlt | hge
    · rw [List.getElem?_append_left (h.length_closeHandle ▸ hlt)]
    · have hlength := h.length_closeHandle
      rw [List.getElem?_eq_none (by simp only [List.length_append, List.length_singleton]; omega),
        List.getElem?_eq_none (by omega)]

theorem held_loadPage (direction : Direction) (listens : Bool) :
    (h.loadPage direction listens).held = h.held := by
  rw [← h.held_closeHandle]
  funext page
  unfold held
  dsimp only [loadPage]
  rcases Nat.lt_or_ge page h.closeHandle.streams.length with hlt | hge
  · rw [List.getElem?_append_left hlt]
  · rw [List.getElem?_append_right hge, List.getElem?_eq_none hge]
    cases page - h.closeHandle.streams.length with
    | zero => rfl
    | succ n => rfl

@[simp] theorem gen_setBatch (page : Nat) (batch : List MessageOut) :
    (h.setBatch page batch).gen = h.gen :=
  h.gen_modify fun _ => rfl

theorem held_setBatch {page g : Nat} (hg : h.gen page = some g) (batch : List MessageOut)
    (i : Nat) : (h.setBatch page batch).held i = if i = page then batch else h.held i := by
  obtain ⟨s, hs, -⟩ := Option.map_eq_some_iff.mp hg
  unfold held setBatch
  rw [List.getElem?_modify]
  by_cases hi : page = i
  · subst hi
    simp [hs]
  · simp [hi, Ne.symm hi]

end Held

/-! ### The invariant -/

/-- `flush` is needed when a page ended, so what a page still holds then is not part of it. -/
structure Core (h : Hook) : Prop where
  orderly : Orderly h.history
  gens : ∀ page g, h.gen page = some g → g ≤ h.generationRef
  current_iff : ∀ page, current h.history = some page ↔ h.gen page = some h.generationRef
  account : ∀ page, delivered page h.history ++ h.held page = received page h.history
  loading : h.state.loading = (pending h.history).isSome

structure Inv (h : Hook) : Prop extends Core h where
  settled : ∀ page, Settled page h.history → h.held page = []
  rest : ∀ page r, h.running = .onMatches page (some r) →
    Settled page h.history ∧ ¬ Reported page h.history

variable {h h' : Hook}

/-- A given order of moves. -/
def run (h : Hook) : List Move → Option Hook
  | [] => some h
  | m :: rest => (h.step m).bind fun h' => h'.run rest

theorem Reachable.run (hr : Reachable h) (ms : List Move) (hrun : h.run ms = some h') :
    Reachable h' := by
  induction ms generalizing h with
  | nil =>
    cases hrun
    exact hr
  | cons m rest ih =>
    obtain ⟨h₁, hstep, hrest⟩ := Option.bind_eq_some_iff.mp hrun
    exact ih (hr.step m hstep) hrest

theorem inv_init : Inv init where
  orderly := .nil
  gens := by
    intro page g hg
    cases hg
  current_iff := by
    intro page
    constructor
    · intro hcurrent
      cases hcurrent
    · intro hg
      cases hg
  account := fun _ => rfl
  loading := rfl
  settled := fun _ hsettled => hsettled.elim
  rest := by
    intro page r hrunning
    cases hrunning

/-- A call is no event and no callback. -/
theorem settled_of_call {a : Act} (ha : ∀ page e, a ≠ .event page e) {page : Nat}
    {history : History} (h : Settled page (a :: history)) : Settled page history := by
  rcases h with ⟨e, rfl, -⟩ | h
  · exact absurd rfl (ha page e)
  · exact h

theorem reported_of_call {a : Act}
    (ha : ∀ page cursor exhausted, a ≠ .onPageEnd page cursor exhausted) {page : Nat}
    {history : History} (h : Reported page (a :: history)) : Reported page history := by
  obtain ⟨cursor, exhausted, hmem⟩ := h
  rcases List.mem_cons.mp hmem with rfl | hmem
  · exact absurd rfl (ha page cursor exhausted)
  · exact ⟨cursor, exhausted, hmem⟩

/-- What a callback waits for is not undone by a call. -/
theorem Inv.rest_call (hi : Inv h) {a : Act}
    (ha : ∀ page cursor exhausted, a ≠ .onPageEnd page cursor exhausted) {page : Nat}
    {r : Option String × Bool} (hrunning : h.running = .onMatches page (some r)) :
    Settled page (a :: h.history) ∧ ¬ Reported page (a :: h.history) := by
  obtain ⟨hsettled, hfresh⟩ := hi.rest page r hrunning
  exact ⟨Or.inr hsettled, fun hreported => hfresh (reported_of_call ha hreported)⟩

theorem Inv.loadPage (hi : Inv h) (direction : Direction) (listens : Bool) :
    Inv ((h.loadPage direction listens).note (.loadPage h.streams.length)) where
  orderly := .cons hi.orderly trivial
  gens := by
    intro page g hg
    rw [gen_note, gen_loadPage] at hg
    show g ≤ h.generationRef + 1
    split at hg
    · cases hg
      rfl
    · have hold := hi.gens page g hg
      omega
  current_iff := by
    intro page
    rw [gen_note, gen_loadPage]
    show some h.streams.length = some page ↔ _ = some (h.generationRef + 1)
    split
    · rename_i hpage
      simp [hpage]
    · rename_i hpage
      constructor
      · intro hsame
        exact absurd (Option.some.inj hsame).symm hpage
      · intro hg
        have hold := hi.gens page _ hg
        omega
  account := by
    intro page
    rw [held_note, held_loadPage]
    exact hi.account page
  loading := rfl
  settled := by
    intro page hsettled
    rw [held_note, held_loadPage]
    exact hi.settled page (settled_of_call (by simp) hsettled)
  rest := fun page r hrunning => hi.rest_call (by simp) hrunning

/-- A call after which no page is the current one, and which is neither event nor callback. -/
structure Supersedes (a : Act) : Prop where
  legal : ∀ history, Legal history a
  noCurrent : ∀ history, current (a :: history) = none
  noPending : ∀ history, pending (a :: history) = none
  delivers : ∀ page history, delivered page (a :: history) = delivered page history
  receives : ∀ page history, received page (a :: history) = received page history
  noEvent : ∀ page e, a ≠ .event page e
  noReport : ∀ page cursor exhausted, a ≠ .onPageEnd page cursor exhausted

theorem supersedes_cancel : Supersedes .cancel :=
  ⟨fun _ => trivial, fun _ => rfl, fun _ => rfl, fun _ _ => rfl, fun _ _ => rfl, by simp, by simp⟩

theorem supersedes_reset : Supersedes .reset :=
  ⟨fun _ => trivial, fun _ => rfl, fun _ => rfl, fun _ _ => rfl, fun _ _ => rfl, by simp, by simp⟩

/-- After `cancel` and after `reset` no page is the current one. -/
theorem Inv.superseded (hi : Inv h) {a : Act} (ha : Supersedes a)
    (hgen : h'.gen = h.gen) (hheld : h'.held = h.held)
    (hbump : h'.generationRef = h.generationRef + 1) (hrunning : h'.running = h.running)
    (hhistory : h'.history = h.history) (hloading : h'.state.loading = false) :
    Inv (h'.note a) where
  orderly := .cons (hhistory ▸ hi.orderly) (ha.legal _)
  gens := by
    intro page g hg
    rw [gen_note, hgen] at hg
    have hold := hi.gens page g hg
    show g ≤ h'.generationRef
    omega
  current_iff := by
    intro page
    rw [gen_note, hgen]
    show current (a :: h'.history) = some page ↔ h.gen page = some h'.generationRef
    rw [ha.noCurrent]
    constructor
    · intro hcurrent
      cases hcurrent
    · intro hg
      have hold := hi.gens page _ hg
      omega
  account := by
    intro page
    rw [held_note, hheld]
    show delivered page (a :: h'.history) ++ _ = received page (a :: h'.history)
    rw [ha.delivers, ha.receives, hhistory]
    exact hi.account page
  loading := by
    show h'.state.loading = (pending (a :: h'.history)).isSome
    rw [hloading, ha.noPending]
    rfl
  settled := by
    intro page hsettled
    rw [held_note, hheld]
    have hsettled : Settled page h'.history := settled_of_call ha.noEvent hsettled
    exact hi.settled page (hhistory ▸ hsettled)
  rest := by
    intro page r hr
    show Settled page (a :: h'.history) ∧ ¬ Reported page (a :: h'.history)
    rw [hhistory]
    exact hi.rest_call ha.noReport (hrunning ▸ hr)

theorem loading_cancel (h : Hook) : h.cancel.state.loading = false := by
  dsimp only [cancel]
  split
  · rfl
  · rename_i hidle
    exact Bool.eq_false_iff.mpr hidle

/-- What `onPageEnd` was held up for. -/
theorem Inv.afterFlush (hi : Inv h) {page : Nat} {s : PageStream} (hs : h.gen page = some s.myGen)
    {rest : Option (Option String × Bool)}
    (hrest : rest ≠ none → Settled page h.history ∧ ¬ Reported page h.history) :
    Inv (h.afterFlush page s rest) := by
  have hidle : Inv { h with running := .nothing } :=
    { hi with
      rest := by
        intro i r hr
        cases hr }
  cases rest with
  | none => exact hidle
  | some r =>
    obtain ⟨cursor, exhausted⟩ := r
    obtain ⟨hsettled, hfresh⟩ := hrest (Option.some_ne_none _)
    dsimp only [Hook.afterFlush]
    split
    · exact hidle
    · rename_i hgen
      have hgen : h.generationRef = s.myGen := not_not.mp hgen
      have hcurrent : current h.history = some page := by rw [hi.current_iff, hs, hgen]
      split
      · have hdelivered : delivered page h.history = received page h.history := by
          have haccount := hi.account page
          rwa [hi.settled page hsettled, List.append_nil] at haccount
        exact
          { orderly := .cons hi.orderly ⟨hcurrent, hsettled.ended, hfresh, hdelivered⟩
            gens := hi.gens
            current_iff := hi.current_iff
            account := hi.account
            loading := hi.loading
            settled := fun i h => hi.settled i (settled_of_call (by simp) h)
            rest := by
              intro i r hr
              cases hr }
      · exact hidle

/-- The batch is delivered: whatever the page held before, it holds nothing now. -/
theorem Core.flush (hc : Core h) {page : Nat} {s : PageStream} (hs : h.gen page = some s.myGen)
    (hbatch : h.held page = s.batch) (hcurrent : current h.history = some page)
    (hothers : ∀ i, i ≠ page → Settled i h.history → h.held i = [])
    (hfresh : ¬ Reported page h.history) {rest : Option (Option String × Bool)}
    (hrest : rest ≠ none → Settled page h.history) (hrunning : h.running = .nothing) :
    Inv (h.flush page s rest) := by
  unfold Hook.flush
  split
  · rename_i hempty
    refine Inv.afterFlush ⟨hc, ?_, ?_⟩ hs fun hr => ⟨hrest hr, hfresh⟩
    · intro i hsettled
      by_cases hi : i = page
      · rw [hi, hbatch, hempty]
      · exact hothers i hi hsettled
    · intro i r hr
      rw [hrunning] at hr
      cases hr
  · have hheld (i : Nat) := ((h.note (.onMatches page s.batch)).held_setBatch hs [] i)
    exact
      { orderly := .cons hc.orderly ⟨hcurrent, hfresh⟩
        gens := by
          intro i g hg
          exact hc.gens i g ((gen_setBatch _ _ _) ▸ hg)
        current_iff := by
          intro i
          have hgen := gen_setBatch (h.note (.onMatches page s.batch)) page []
          exact (hc.current_iff i).trans (by rw [← gen_note, ← hgen]; rfl)
        account := by
          intro i
          have haccount := hc.account i
          show (delivered i h.history ++ if page = i then s.batch else []) ++
            ((h.note (.onMatches page s.batch)).setBatch page []).held i = received i h.history
          rw [hheld]
          by_cases hi : page = i
          · subst hi
            rw [if_pos rfl, if_pos rfl, List.append_nil, ← hbatch, haccount]
          · rw [if_neg hi, if_neg (Ne.symm hi), List.append_nil]
            exact haccount
        loading := hc.loading
        settled := by
          intro i hsettled
          refine (hheld i).trans ?_
          split
          · rfl
          · rename_i hi
            exact hothers i hi (settled_of_call (by simp) hsettled)
        rest := by
          intro i r hr
          cases hr
          refine ⟨Or.inr (hrest (Option.some_ne_none _)), fun hreported => ?_⟩
          exact hfresh (reported_of_call (by simp) hreported) }

/-- A superseded stream's event is only a part of the history. -/
theorem Inv.superseded_event (hi : Inv h) {page : Nat} (hended : ¬ Ended page h.history)
    (hcurrent : current h.history ≠ some page) (e : StreamEvent) :
    Inv (h.note (.event page e)) where
  orderly := .cons hi.orderly hended
  gens := hi.gens
  current_iff := hi.current_iff
  account := by
    intro i
    have hreceived : received i (.event page e :: h.history) = received i h.history := by
      cases e with
      | onMatch m =>
        have hskip : ¬ (page = i ∧ current h.history = some i) := by
          rintro ⟨rfl, hsame⟩
          exact hcurrent hsame
        rw [received, if_neg hskip, List.append_nil]
      | onProgress _ | onPageEnd _ _ | onError _ | onTransportError => rfl
    exact (hi.account i).trans hreceived.symm
  loading := by
    have hpending : pending (.event page e :: h.history) = pending h.history := by
      rw [pending, if_neg fun hp => hcurrent (current_of_pending hp.2)]
    exact hi.loading.trans (congrArg Option.isSome hpending.symm)
  settled := by
    rintro i (⟨e', hact, -, hi'⟩ | hsettled)
    · cases hact
      exact absurd hi' hcurrent
    · exact hi.settled i hsettled
  rest := fun i r hrunning => hi.rest_call (by simp) hrunning

/-- The core after the terminal event of the current page, when `loading` is taken back. -/
theorem Inv.ended (hi : Inv h) {page : Nat} (hended : ¬ Ended page h.history)
    (hcurrent : current h.history = some page) {e : StreamEvent} (he : e.terminal = true)
    {state : TimelineState} (hloading : state.loading = false) :
    Core { (h.note (.event page e)).closeStream page with state := state } where
  orderly := .cons hi.orderly hended
  gens := by
    intro i g hg
    exact hi.gens i g ((gen_closeStream (h.note (.event page e)) page) ▸ hg)
  current_iff := by
    intro i
    have hgen := gen_closeStream (h.note (.event page e)) page
    exact (hi.current_iff i).trans (by rw [← gen_note, ← hgen]; rfl)
  account := by
    intro i
    have hheld := held_closeStream (h.note (.event page e)) page
    have hreceived : received i (.event page e :: h.history) = received i h.history := by
      cases e with
      | onMatch _ | onProgress _ => cases he
      | onPageEnd _ _ | onError _ | onTransportError => rfl
    exact (congrArg (delivered i h.history ++ ·) (congrFun hheld i)).trans
      ((hi.account i).trans hreceived.symm)
  loading := by
    show state.loading = (pending (.event page e :: h.history)).isSome
    rw [hloading, pending]
    split
    · rfl
    · rename_i hother
      cases hp : pending h.history with
      | none => rfl
      | some i =>
        have hsame : current h.history = some i := current_of_pending hp
        rw [hcurrent] at hsame
        exact absurd ⟨he, hp.trans hsame.symm⟩ hother

/-- A match of the current page waits in the batch. -/
theorem Inv.matched (hi : Inv h) {page : Nat} (hended : ¬ Ended page h.history)
    (hcurrent : current h.history = some page) {s : PageStream} (hs : h.gen page = some s.myGen)
    (hbatch : h.held page = s.batch) (m : MessageOut) :
    Inv ((h.note (.event page (.onMatch m))).setBatch page (s.batch ++ [m])) where
  orderly := .cons hi.orderly hended
  gens := by
    intro i g hg
    exact hi.gens i g ((gen_setBatch _ _ _) ▸ hg)
  current_iff := by
    intro i
    rw [gen_setBatch]
    exact hi.current_iff i
  account := by
    intro i
    have haccount := hi.account i
    show delivered i h.history ++ ((h.note _).setBatch page _).held i = received i h.history ++
      if page = i ∧ current h.history = some i then [m] else []
    rw [held_setBatch _ ((congrFun (gen_note _ _) page).trans hs)]
    by_cases hi : page = i
    · subst hi
      rw [if_pos rfl, if_pos ⟨rfl, hcurrent⟩, ← haccount, hbatch, List.append_assoc]
    · rw [if_neg (Ne.symm hi), if_neg fun h => hi h.1, List.append_nil]
      exact haccount
  loading := hi.loading.trans (congrArg Option.isSome (pending_event rfl page h.history).symm)
  settled := by
    intro i hnow
    have hsettled : Settled i h.history := settled_of_event rfl hnow
    have hi' : i ≠ page := by
      rintro rfl
      exact hended hsettled.ended
    rw [held_setBatch _ ((congrFun (gen_note _ _) page).trans hs), if_neg hi']
    exact hi.settled i hsettled
  rest := fun i r hrunning => hi.rest_call (by simp) hrunning

theorem Inv.progressed (hi : Inv h) {page : Nat} (hended : ¬ Ended page h.history)
    (p : TimelineProgress) :
    Inv { h.note (.event page (.onProgress p)) with
      state := { h.state with progress := some p } } where
  orderly := .cons hi.orderly hended
  gens := hi.gens
  current_iff := hi.current_iff
  account := hi.account
  loading := hi.loading.trans (congrArg Option.isSome (pending_event rfl page h.history).symm)
  settled := fun i hsettled => hi.settled i (settled_of_event rfl hsettled)
  rest := fun i r hrunning => hi.rest_call (by simp) hrunning

/-- The terminal event of the current page, with the flush behind it. -/
theorem Inv.ended_flush (hi : Inv h) {page : Nat} (hended : ¬ Ended page h.history)
    (hcurrent : current h.history = some page) {s : PageStream} (hs : h.gen page = some s.myGen)
    (hbatch : h.held page = s.batch) (hrunning : h.running = .nothing) {e : StreamEvent}
    (he : e.terminal = true) {state : TimelineState} (hloading : state.loading = false)
    (rest : Option (Option String × Bool)) :
    Inv ({ (h.note (.event page e)).closeStream page with state := state }.flush page s rest) := by
  have hheld := held_closeStream (h.note (.event page e)) page
  have hgen := gen_closeStream (h.note (.event page e)) page
  have hfresh : ¬ Reported page (.event page e :: h.history) := fun hreported =>
    hended (hi.orderly.ended_of_reported (reported_of_call (by simp) hreported))
  refine (hi.ended hended hcurrent he hloading).flush ((congrFun hgen page).trans hs)
    ((congrFun hheld page).trans hbatch) hcurrent ?_ hfresh
    (fun _ => Or.inl ⟨e, rfl, he, hcurrent⟩) hrunning
  rintro i hother (⟨e', hact, -⟩ | hsettled)
  · cases hact
    exact absurd rfl hother
  · exact (congrFun hheld i).trans (hi.settled i hsettled)

/-- One event, of whichever stream. -/
theorem Inv.event (hi : Inv h) {page : Nat} {s : PageStream} (hs : h.streams[page]? = some s)
    (hrunning : h.running = .nothing) (hended : ¬ Ended page h.history) (e : StreamEvent) :
    Inv ((h.note (.event page e)).handle page s e) := by
  have hgen := gen_of_stream hs
  have hbatch := held_of_stream hs
  unfold handle
  split
  · rename_i hstale
    refine hi.superseded_event hended ?_ e
    rw [Ne, hi.current_iff, hgen]
    exact fun hsame => hstale (Option.some.inj hsame).symm
  · rename_i hsame
    have hcurrent : current h.history = some page := by
      rw [hi.current_iff, hgen]
      exact congrArg some (not_not.mp hsame).symm
    cases e with
    | onMatch m =>
      have hmatched := hi.matched hended hcurrent hgen hbatch m
      have hfresh : ¬ Reported page (.event page (.onMatch m) :: h.history) := fun hreported =>
        hended (hi.orderly.ended_of_reported (reported_of_call (by simp) hreported))
      dsimp only
      split
      · refine hmatched.toCore.flush ?_ ?_ hcurrent (fun i _ => hmatched.settled i) hfresh
          (fun h => absurd rfl h) hrunning
        · rw [gen_setBatch]
          exact hgen
        · rw [held_setBatch _ ((congrFun (gen_note _ _) page).trans hgen), if_pos rfl]
      · exact hmatched
    | onProgress p => exact hi.progressed hended p
    | onPageEnd cursor exhausted =>
      exact hi.ended_flush hended hcurrent hgen hbatch hrunning rfl rfl _
    | onError e => exact hi.ended_flush hended hcurrent hgen hbatch hrunning rfl rfl _
    | onTransportError => exact hi.ended_flush hended hcurrent hgen hbatch hrunning rfl rfl _

theorem Inv.step (hi : Inv h) {m : Move} (hstep : h.step m = some h') : Inv h' := by
  cases m with
  | loadPage direction listens =>
    cases hstep
    exact hi.loadPage direction listens
  | cancel =>
    cases hstep
    exact hi.superseded supersedes_cancel h.gen_cancel h.held_cancel rfl rfl rfl h.loading_cancel
  | reset =>
    cases hstep
    exact hi.superseded supersedes_reset h.gen_cancel h.held_cancel rfl rfl rfl rfl
  | event page e =>
    dsimp only [Hook.step] at hstep
    split at hstep
    · cases hstep
    · rename_i s hs
      split at hstep
      · rename_i henabled
        cases hstep
        exact hi.event hs henabled.1 henabled.2 e
      · cases hstep
  | ret =>
    dsimp only [Hook.step] at hstep
    split at hstep
    · cases hstep
    · rename_i page rest hrunning
      obtain ⟨s, hs, rfl⟩ := Option.map_eq_some_iff.mp hstep
      refine hi.afterFlush (gen_of_stream hs) fun hrest => ?_
      obtain ⟨r, rfl⟩ := Option.ne_none_iff_exists'.mp hrest
      exact hi.rest page r hrunning
    · cases hstep
      exact
        { hi with
          rest := by
            intro i r hr
            cases hr }

theorem Reachable.inv (hr : Reachable h) : Inv h := by
  induction hr with
  | init => exact inv_init
  | step m _ hstep ih => exact ih.step hstep

/-- **A superseded stream does nothing.**  Whatever the order of calls, events and returns of
    callbacks: an event of a page that is not the current one changes no state and calls
    nothing back; callbacks are those of the current page; once a page had its terminal event
    as the current page, its `onMatches` was given what the page received, once and in order;
    an `onPageEnd` comes when all of this was delivered, once, and nothing of the page
    follows; and `loading` says whether the current page is pending. -/
theorem superseded_streams_inert (hr : Reachable h) :
    (∀ page e h', h.step (.event page e) = some h' → current h.history ≠ some page →
      h'.state = h.state ∧ h'.history = .event page e :: h.history) ∧
    (∀ page msgs later earlier, h.history = later ++ .onMatches page msgs :: earlier →
      current earlier = some page) ∧
    (∀ page e later earlier, h.history = later ++ .event page e :: earlier →
      e.terminal = true → current earlier = some page →
      delivered page h.history = received page h.history) ∧
    (∀ page cursor exhausted later earlier,
      h.history = later ++ .onPageEnd page cursor exhausted :: earlier →
      current earlier = some page ∧ delivered page earlier = received page h.history ∧
        (∀ msgs, Act.onMatches page msgs ∉ later) ∧ ¬ Reported page earlier ∧
        ¬ Reported page later) ∧
    (h.state.loading = true ↔ ∃ page, pending h.history = some page) := by
  have hi := hr.inv
  have horderly := hi.orderly
  refine ⟨?_, ?_, ?_, ?_, ?_⟩
  · intro page e h' hstep hcurrent
    dsimp only [Hook.step] at hstep
    split at hstep
    · cases hstep
    · rename_i s hs
      have hstale : h.generationRef ≠ s.myGen := by
        intro hsame
        rw [Ne, hi.current_iff, gen_of_stream hs, hsame] at hcurrent
        exact hcurrent rfl
      split at hstep
      · cases hstep
        have hskip : (h.note (.event page e)).handle page s e = h.note (.event page e) :=
          if_pos hstale
        rw [hskip]
        exact ⟨rfl, rfl⟩
      · cases hstep
  · intro page msgs later earlier hhistory
    rw [hhistory] at horderly
    exact horderly.legal.1
  · intro page e later earlier hhistory he hcurrent
    have hsettled : Settled page h.history := hhistory ▸ settled_of_split he hcurrent
    have haccount := hi.account page
    rwa [hi.settled page hsettled, List.append_nil] at haccount
  · intro page cursor exhausted later earlier hhistory
    rw [hhistory] at horderly ⊢
    obtain ⟨hcurrent, hended, hfresh, hdelivered⟩ := horderly.legal
    have hsplit : later ++ .onPageEnd page cursor exhausted :: earlier =
        (later ++ [.onPageEnd page cursor exhausted]) ++ earlier := by simp
    have hreceived : received page (later ++ .onPageEnd page cursor exhausted :: earlier) =
        received page earlier := by
      rw [hsplit] at horderly ⊢
      exact horderly.received_eq hended
    obtain ⟨hquiet, honce⟩ := horderly.silent ⟨cursor, exhausted, List.mem_cons_self⟩
    exact ⟨hcurrent, hdelivered.trans hreceived.symm, hquiet, hfresh, honce⟩
  · rw [hi.loading, Option.isSome_iff_exists]

/-- A second page is loaded over the first, whose stream goes on all the same. -/
def twoPages : List Move :=
  let m : MessageOut := ⟨0, 7, none, none, none, []⟩
  [.loadPage .back true, .event 0 (.onMatch m), .loadPage .back true, .event 0 (.onMatch m),
    .event 1 (.onMatch m), .event 0 .onTransportError, .event 1 (.onPageEnd none true), .ret]

theorem twoPages_inert :
    ∃ h, init.run twoPages = some h ∧ h.running = .onPageEnd 1 ∧
      (delivered 1 h.history).length = 1 ∧ delivered 1 h.history = received 1 h.history ∧
      (h.state.loading = true ↔ ∃ page, pending h.history = some page) := by
  refine ⟨_, rfl, rfl, rfl, ?_⟩
  obtain ⟨-, -, hdelivered, -, hloading⟩ :=
    superseded_streams_inert (Reachable.init.run twoPages rfl)
  exact ⟨hdelivered 1 (.onPageEnd none true) [_, _] _ rfl rfl rfl, hloading⟩

end Hook

end Arne.Client
