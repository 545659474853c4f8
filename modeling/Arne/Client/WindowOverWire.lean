import Arne.Client.EventWire
import Arne.Client.PageQuery
import Arne.Client.Session
import Arne.Timeline.Budget

/-!
# A window over the wire (`Timeline.tsx`, `api/sse.ts`, `api/messages.rs`)

`Session` has its pages served as they are asked for.  Here a page is asked for with a query
string, the handler takes the string apart, the page's events go out as text, and the window is
told what a browser makes of the pieces that arrive; a cursor is text on both ways.  All that the
window can come to so, it can come to in `Session`.
-/

namespace Arne.Client

open Arne.Message Arne.Timeline EventStream

/-! ### Cursors that were taken apart -/

/-- The entries of a map depend on what it maps to only. -/
theorem mapToPositions_congr {map map' : OrdMap Int Int} (h : ∀ p, map.get? p = map'.get? p) :
    mapToPositions map = mapToPositions map' := by
  have hperm : (mapToPositions map).Perm (mapToPositions map') := by
    apply (List.perm_ext_iff_of_nodup (mapToPositions_nodup map).of_map
      (mapToPositions_nodup map').of_map).mpr
    intro e
    rw [mem_mapToPositions, mem_mapToPositions, h]
  apply hperm.eq_of_pairwise _ (List.pairwise_insertionSort _ _) (List.pairwise_insertionSort _ _)
  -- two entries of one partition are one entry
  intro a b ha hb hab hba
  have hfst : a.1 = b.1 := le_antisymm hab hba
  have hsnd := (mem_mapToPositions map a).mp ha
  rw [h, hfst, (mem_mapToPositions map' b).mp hb] at hsnd
  exact Prod.ext hfst (Option.some.inj hsnd).symm

theorem decodeCursor_decodeCursor (cursor : List Position) :
    decodeCursor (decodeCursor cursor) = decodeCursor cursor := by
  apply mapToPositions_congr
  intro p
  rw [OrdMap.get?_setAll, OrdMap.get?_setAll, lastFor_decodeCursor]

/-- A store takes a continuation the same way when it was taken apart before. -/
theorem Store.land_decodeCursor (s : Store) (request : Request) (rows : List MessageOut)
    (cont : Option (List Position)) :
    s.land request rows (cont.map decodeCursor) = s.land request rows cont := by
  cases cont with
  | none => rfl
  | some cursor =>
    have hmerge : ∀ map,
        mergeCursorInto map (decodeCursor cursor) = mergeCursorInto map cursor := by
      intro map
      rw [mergeCursorInto, mergeCursorInto, decodeCursor_decodeCursor]
    simp only [Store.land, Store.insertPage, Store.mergePage, Store.extend, Option.map_some,
      Option.elim_some, hmerge, Option.isNone_some]

/-! ### What is on the wire -/

/-- What the two ends are given besides the window: how they mend bytes that are no UTF-8, what
    is said of a text that is no cursor, the budget of a page, the topic and the filter box. -/
structure Wire where
  lossy : List UInt8 → String
  textDecoder : List UInt8 → List Char
  cursorError : String → String
  budget : Nat
  topic : String
  filterText : String

/-- The parameters that a page is asked for with.  The numbers that a jump's texts show have
    types on the server. -/
inductive Request.SentAs : Request → PageParams → Prop where
  | jump {target : JumpTarget}
      (hfits : PositionSource.Fits (.fromAnchor (shownAnchor (planJump target).params.anchor))) :
      SentAs (planJump target).request (anchorParams (planJump target).params)
  | older (cursor : List Position) : SentAs (.older cursor) (cursorParams .back cursor)
  | newer (cursor : List Position) : SentAs (.newer cursor) (cursorParams .forward cursor)

def Wire.api (wire : Wire) (v : View) : Option FilterQueryApi :=
  (parseFilterQuery v.handle.text wire.filterText).api

def Wire.query (wire : Wire) (v : View) (p : PageParams) : List UInt8 :=
  queryString (withFilter (wire.api v) p)

/-- The rows that the handlers were given. -/
def rowsOf (calls : List StreamEvent) : List MessageOut :=
  calls.filterMap fun c => match c with
    | .onMatch m => some m
    | _ => none

/-- A page over the wire: the handler takes the query, the page runs for a client that may leave,
    and of its stream some part arrives, in some pieces. -/
structure Wire.Exchange (wire : Wire) (w : LiveTopic) (v : View) (p : PageParams) (call : PageCall)
    (run : PageRun) (calls : List StreamEvent) : Prop where
  taken : ∃ cluster, watermarksBlocking cluster wire.topic = .ok w.watermarks ∧
    Timeline.timelineSse v.handle.text wire.lossy wire.cursorError wire.budget (.ok cluster) false
      wire.topic (wire.query v p) = .page call.req
  handle : call.handle = v.handle
  documented : ScansDocumented w.topic call
  ran : runPage call = some run
  arrived : ∃ text pieces, StreamText (run.events.map timelineSse) text ∧
    pieces.flatten <+: text ∧ calls = timelinePage pieces

/-- The steps of `Session`, but for the answer: it is what was received by the time that the
    handler of `page_end` is called, and its cursor is taken apart. -/
inductive WireStep (wire : Wire) (v : View) : Event → Session → Session → Prop
  | own {e : Event} {σ σ' : Session} (hown : e ≠ .answer) (h : Step v e σ σ') :
      WireStep wire v e σ σ'
  | answer {σ : Session} {request : Request} {p : PageParams} {call : PageCall} {run : PageRun}
      {calls : List StreamEvent} {cursor : Option String} {exhausted : Bool}
      (hissued : σ.flight = .issued request) (hsent : request.SentAs p)
      (hexchange : wire.Exchange σ.topic v p call run calls)
      (hend : .onPageEnd cursor exhausted ∈ calls) :
      WireStep wire v .answer σ
        { σ with
          flight := .answered ⟨request, call.req.positions, σ.topic.high, rowsOf calls,
            cursor.bind (decodeCursorText wire.textDecoder)⟩ }

def WireRun (wire : Wire) (v : View) : Session → Session → Prop :=
  Relation.ReflTransGen fun σ σ' => ∃ e, WireStep wire v e σ σ'

/-! ### Numbers -/

/-- Nothing that is told of the topic is changed by being read as a double. -/
structure LiveTopic.Exact (w : LiveTopic) (v : View) : Prop where
  parts : ∀ p ∈ w.parts, FitsI32 p
  messages : ∀ p, ∀ m ∈ w.matching v p, roundMessage m = m

/-- A topic that grows to an exact one was exact before. -/
theorem LiveTopic.Grows.exact {w w' : LiveTopic} (h : w.Grows w') {v : View} (hexact : w'.Exact v) :
    w.Exact v where
  parts p hp := hexact.parts p (h.parts ▸ hp)
  messages p m hm := hexact.messages p m (h.mem_matching.mp hm).1

/-- A position between the watermarks is exact. -/
theorem LiveTopic.Exact.position {w : LiveTopic} {v : View} (h : w.Exact v) {e : Position}
    (hpart : e.1 ∈ w.parts) (hbounds : w.low e.1 ≤ e.2 ∧ e.2 ≤ w.high e.1) :
    JsNumber.Exact e.1 ∧ JsNumber.Exact e.2 := by
  refine ⟨exact_of_fitsI32 (h.parts e.1 hpart), ?_⟩
  rcases w.exact e.1 hpart with ⟨hlow, hhigh⟩
  unfold JsNumber.Exact at hlow hhigh ⊢
  omega

/-! ### What was asked for -/

theorem initialPositions_of_resolve {cluster : Cluster} {watermarks : List Watermark}
    {input : TimelineAnchorInput} {direction : Direction} {positions : List Position}
    (h : resolvePositionsBlocking cluster watermarks input direction = .ok positions) :
    ∃ anchor, resolveAnchor cluster watermarks input direction = .ok anchor ∧
      positions = initialPositions watermarks anchor := by
  unfold resolvePositionsBlocking at h
  cases hanchor : resolveAnchor cluster watermarks input direction with
  | error e =>
    rw [hanchor] at h
    cases h
  | ok anchor =>
    rw [hanchor] at h
    cases h
    exact ⟨anchor, rfl, rfl⟩

/-- The cursor that a page reads on from. -/
def Request.cursor? : Request → Option (List Position)
  | .older cursor => some cursor
  | .newer cursor => some cursor
  | _ => none

/-- The numbers of the cursor have types on the server, and are exact on the client. -/
def Request.Fits (request : Request) : Prop :=
  ∀ cursor, request.cursor? = some cursor →
    ∀ e ∈ cursor, FitsPosition e ∧ JsNumber.Exact e.1 ∧ JsNumber.Exact e.2

/-- Such a cursor is read as it is. -/
theorem Request.Fits.asked {request : Request} (h : request.Fits) {cursor : List Position}
    (hcursor : request.cursor? = some cursor) (direction : Direction) :
    Asked (cursorParams direction cursor) direction (.fromCursor cursor) := by
  have hshown := map_shownPosition fun e he => (h cursor hcursor e he).2
  have hasked := @Asked.cursor direction cursor
  rw [hshown] at hasked
  exact hasked fun e he => (h cursor hcursor e he).1

/-- The page that a request is sent for is the one that it asks for. -/
theorem Request.SentAs.asked {request : Request} {p : PageParams} (h : request.SentAs p)
    (hfits : request.Fits) : ∃ source, Asked p request.direction source ∧
      ∀ cluster (w : LiveTopic) positions,
        source.resolve cluster w.watermarks request.direction = .ok positions →
          request.Asks w positions := by
  cases h with
  | @jump target hjump =>
    refine ⟨.fromAnchor (shownAnchor (planJump target).params.anchor), ?_, ?_⟩
    · cases target <;> exact .jump hjump
    · intro cluster w positions hresolve
      rcases initialPositions_of_resolve hresolve with ⟨anchor, hanchor, rfl⟩
      cases target with
      | now =>
        cases hanchor
        rfl
      | beginning => exact ⟨anchor, rfl⟩
      | offset => exact ⟨anchor, rfl⟩
      | timestamp => exact ⟨anchor, rfl⟩
  | older cursor =>
    refine ⟨.fromCursor cursor, hfits.asked rfl .back, ?_⟩
    intro cluster w positions hresolve
    exact (Except.ok.inj hresolve).symm
  | newer cursor =>
    refine ⟨.fromCursor cursor, hfits.asked rfl .forward, ?_⟩
    intro cluster w positions hresolve
    exact (Except.ok.inj hresolve).symm

section

variable {wire : Wire} {w : LiveTopic} {v : View} {p : PageParams} {call : PageCall}
  {run : PageRun} {calls : List StreamEvent}

/-- The page that runs is the one that the window asked for. -/
theorem Wire.Exchange.reads (h : wire.Exchange w v p call run calls) {request : Request}
    (hsent : request.SentAs p) (hfits : request.Fits)
    (hfilter : FilterTaken v.handle.text (wire.api v) v.filter) :
    (w.reading v request.direction).Reads call.req.positions call ∧
      call.req.limit = PAGE_LIMIT ∧ request.Asks w call.req.positions := by
  rcases h.taken with ⟨cluster, hwatermarks, htaken⟩
  rcases timelineSse_page htaken with ⟨raw, req, cluster', hraw, hreq, hcluster, hpage⟩
  obtain rfl := Except.ok.inj hcluster
  rw [Wire.query, extractQuery_queryString] at hraw
  obtain rfl := Option.some.inj hraw
  rcases hsent.asked hfits with ⟨source, hasked, hresolves⟩
  rw [validate_asked wire.cursorError wire.topic hfilter hasked] at hreq
  obtain rfl := Except.ok.inj hreq
  rcases page_made hpage with ⟨hmarks, hpositions, hdirection, hfiltered⟩
  have hlimit : call.req.limit = PAGE_LIMIT := (page_of_request hpage).2.1
  have hsame : call.req.watermarks = w.watermarks := by
    rw [hwatermarks] at hmarks
    exact (Except.ok.inj hmarks).symm
  rw [hsame] at hpositions
  have htyped : call.req.Typed :=
    ⟨hsame ▸ w.fits v request.direction, by rw [hlimit]; decide⟩
  exact ⟨⟨htyped, h.handle, rfl, hsame, hdirection, hfiltered, h.documented⟩, hlimit,
    hresolves cluster w _ hpositions⟩

/-! ### What was received -/

theorem rowsOf_told (events : List Timeline.TimelineEvent) :
    rowsOf (events.map tellsTimeline) = (messagesOf events).map roundMessage := by
  rw [rowsOf, messagesOf, List.filterMap_map, List.map_filterMap]
  apply List.filterMap_congr
  intro e _
  cases e <;> rfl

/-- Once the handler of `page_end` is called the whole page has come. -/
theorem Wire.Exchange.ended (h : wire.Exchange w v p call run calls) {cursor : Option String}
    {exhausted : Bool} (hend : .onPageEnd cursor exhausted ∈ calls) :
    ∃ c, run.ending = .pageEnd c exhausted ∧ cursor = c.map Cursor.encode ∧
      rowsOf calls = (messagesOf run.events).map roundMessage := by
  rcases h.arrived with ⟨text, pieces, htext, hpieces, rfl⟩
  have htold : timelinePage pieces <+: run.events.map tellsTimeline :=
    (calls_told timelineSse_sendable timelinePageCall_told htext hpieces).first
  rcases List.mem_map.mp (htold.subset hend) with ⟨e, he, htells⟩
  cases e with
  | «match» m => cases htells
  | progress scanned matches_ budget => cases htells
  | error code message cluster retriable => cases htells
  | pageEnd c exhausted' =>
    cases htells
    rcases runPage_sent_pageEnd h.ran he with ⟨hending, sent, hevents, hopen⟩
    refine ⟨c, hending, rfl, ?_⟩
    rw [hevents, List.map_append, List.map_singleton, List.prefix_concat_iff] at htold
    rcases htold with hwhole | hpart
    · rw [hwhole, ← List.map_singleton, ← List.map_append, ← hevents, rowsOf_told]
    · -- short of its last event the stream tells of no end
      rcases List.mem_map.mp (hpart.subset hend) with ⟨e, hmem, htells⟩
      have hnone := hopen e hmem
      cases e with
      | «match» m => cases htells
      | progress scanned matches_ budget => cases htells
      | error code message cluster retriable => cases htells
      | pageEnd => cases hnone

/-- A cursor of positions between the watermarks is taken apart on the client's side. -/
theorem LiveTopic.Exact.decodeCursorText (hexact : w.Exact v) (lossy : List UInt8 → List Char)
    {c : Cursor} (h : ∀ e ∈ c.positions, e.1 ∈ w.parts ∧ w.low e.1 ≤ e.2 ∧ e.2 ≤ w.high e.1) :
    Client.decodeCursorText lossy c.encode = some (decodeCursor c.positions) := by
  have hround : c.positions.map roundPosition = c.positions := by
    conv_rhs => rw [← List.map_id c.positions]
    apply List.map_congr_left
    intro e he
    exact roundPosition_exact (hexact.position (h e he).1 (h e he).2)
  rw [decodeCursorText_encode, hround]

/-- Of an exact topic the window receives what the server answers. -/
theorem Wire.Exchange.answers (h : wire.Exchange w v p call run calls) {request : Request}
    (hsent : request.SentAs p) (hfits : request.Fits)
    (hfilter : FilterTaken v.handle.text (wire.api v) v.filter) (hexact : w.Exact v)
    (hnodup : (call.req.positions.map Prod.fst).Nodup)
    (hknown : ∀ e ∈ call.req.positions, e.1 ∈ w.parts) {cursor : Option String} {exhausted : Bool}
    (hend : .onPageEnd cursor exhausted ∈ calls) :
    ∃ cont, w.Answers v request.direction call.req.positions (rowsOf calls) cont ∧
      cursor.bind (decodeCursorText wire.textDecoder) = cont.map decodeCursor := by
  rcases h.reads hsent hfits hfilter with ⟨hreads, hlimit, -⟩
  have hserves := LiveTopic.serves hreads (by rw [hlimit]; decide) hnodup
  rcases h.ended hend with ⟨c, hending, rfl, hrows⟩
  have hanswers : w.Answers v request.direction call.req.positions (messagesOf run.events)
      (c.map Cursor.positions) := ⟨call, run, c, exhausted, hserves, h.ran, hending, rfl, rfl⟩
  refine ⟨c.map Cursor.positions, ?_, ?_⟩
  · rcases hanswers.read hnodup hknown with ⟨stop, hread⟩
    have hround : (messagesOf run.events).map roundMessage = messagesOf run.events := by
      conv_rhs => rw [← List.map_id (messagesOf run.events)]
      apply List.map_congr_left
      intro m hm
      rcases (hread.rows_iff m).mp hm with ⟨e, -, hmatching, -⟩
      exact hexact.messages e.1 m hmatching
    rw [hrows, hround]
    exact hanswers
  · have hordered : Ordered call.req.watermarks := hserves.watermarks ▸ w.ordered
    have hended := pageEnded hserves.documented hserves.typed hordered hnodup h.ran hending
    have hbounds := hended.inv.bounds
    have hfound := fun e he => hended.inv.known (e := e) he
    rw [hserves.watermarks] at hbounds hfound
    cases c with
    | none => rfl
    | some c =>
      have hpositions : c.positions = run.last.curPositions := by
        have heq := hended.cursor_eq
        split at heq
        · cases heq
        · rw [Option.some.inj heq]
      simp only [Option.map_some, Option.bind_some]
      apply hexact.decodeCursorText
      rw [hpositions]
      intro e he
      rcases hfound e he with ⟨⟨lo, hi⟩, hmarks⟩
      have hwithin := hbounds e he lo hi hmarks (w.ordered _ _ _ hmarks)
      rcases LiveTopic.findWatermark_eq.mp hmarks with ⟨hpart, rfl, rfl⟩
      exact ⟨hpart, hwithin⟩

end

/-! ### The window follows -/

/-- A page whose continuation was taken apart. -/
def Page.parsed (page : Page) : Page := { page with cont := page.cont.map decodeCursor }

def Flight.parsed : Flight → Flight
  | .answered page => .answered page.parsed
  | flight => flight

def Session.parsed (σ : Session) : Session :=
  { σ with flight := σ.flight.parsed, landed := σ.landed.map Page.parsed }

theorem Flight.idle_of_parsed {flight : Flight} (h : flight.parsed = .idle) : flight = .idle := by
  cases flight with
  | idle => rfl
  | issued request => exact h
  | answered page => cases h

theorem Flight.issued_of_parsed {flight : Flight} {request : Request}
    (h : flight.parsed = .issued request) : flight = .issued request := by
  cases flight with
  | idle => cases h
  | issued request => exact h
  | answered page => cases h

theorem Flight.answered_of_parsed {flight : Flight} {page : Page}
    (h : flight.parsed = .answered page) :
    ∃ served, flight = .answered served ∧ page = served.parsed := by
  cases flight with
  | idle => cases h
  | issued request => cases h
  | answered served =>
    cases h
    exact ⟨served, rfl, rfl⟩

theorem Session.settle_parsed (τ : Session) (page : Page) :
    τ.parsed.settle page.parsed = (τ.settle page).parsed := by
  have hland : τ.store.land page.request page.rows (page.cont.map decodeCursor) =
      τ.store.land page.request page.rows page.cont :=
    Store.land_decodeCursor τ.store page.request page.rows page.cont
  simp only [Session.settle, Session.parsed, Page.parsed, hland, Flight.parsed]
  split
  · rfl
  · rw [List.map_append]
    rfl

section

variable {wire : Wire} {v : View} {debt : Int → Int} {τ σ σ' : Session} {e : Event}

/-- The window's own steps. -/
theorem Step.of_parsed (hown : e ≠ .answer) (h : Step v e τ.parsed σ') :
    ∃ τ', Step v e τ τ' ∧ σ' = τ'.parsed := by
  cases h with
  | grow hgrow => exact ⟨_, .grow hgrow, rfl⟩
  | older hidle hedge => exact ⟨_, .older (Flight.idle_of_parsed hidle) hedge, rfl⟩
  | newer hidle hedge => exact ⟨_, .newer (Flight.idle_of_parsed hidle) hedge, rfl⟩
  | answer => exact absurd rfl hown
  | drop => exact ⟨_, .drop, rfl⟩
  | land hanswered =>
    rcases Flight.answered_of_parsed hanswered with ⟨served, hserved, rfl⟩
    exact ⟨_, .land hserved, τ.settle_parsed served⟩
  | live hfeed hok => exact ⟨_, .live hfeed hok, rfl⟩

/-- The positions that a page is served from name partitions of the topic, and each once. -/
theorem Session.Whole.asked_named {pending : Int → Set Int} (h : τ.Whole v debt pending)
    {request : Request} (hissued : τ.flight = .issued request) {positions : List Position}
    (hasks : request.Asks τ.topic positions) :
    (positions.map Prod.fst).Nodup ∧ ∀ e ∈ positions, e.1 ∈ τ.topic.parts := by
  have hready := h.flight
  rw [hissued] at hready
  have hall : ∀ anchor, ((initialPositions τ.topic.watermarks anchor).map Prod.fst).Nodup ∧
      ∀ e ∈ initialPositions τ.topic.watermarks anchor, e.1 ∈ τ.topic.parts := by
    intro anchor
    have hfst := τ.topic.initialPositions_fst anchor
    exact ⟨hfst ▸ τ.topic.nodup, fun e he => hfst ▸ List.mem_map_of_mem he⟩
  cases request with
  | latest =>
    rw [show positions = _ from hasks]
    exact hall .latest
  | forwardFrom =>
    rcases hasks with ⟨anchor, rfl⟩
    exact hall anchor
  | older cursor =>
    obtain rfl : positions = cursor := hasks
    refine ⟨hready.1, fun e he => ?_⟩
    rcases (hready.2 e he).2 with ⟨b, hb, -⟩
    exact h.sliding.bottom_known e.1 b hb
  | newer cursor =>
    obtain rfl : positions = cursor := hasks
    exact ⟨hready.1, fun e he => h.sliding.top_known e.1 e.2 ((hready.2.2 e).mp he)⟩

theorem WireStep.of_parsed (hfollowed : τ.Followed v debt) (hexact : τ.topic.Exact v)
    (hfits : ∀ request, τ.flight = .issued request → request.Fits)
    (hfilter : FilterTaken v.handle.text (wire.api v) v.filter)
    (h : WireStep wire v e τ.parsed σ') : ∃ τ', Step v e τ τ' ∧ σ' = τ'.parsed := by
  cases h with
  | own hown hstep => exact hstep.of_parsed hown
  | @answer _ request p call run calls cursor exhausted hissued hsent hexchange hend =>
    have hissued := Flight.issued_of_parsed hissued
    have hfits := hfits request hissued
    have hasks := (hexchange.reads hsent hfits hfilter).2.2
    rcases hfollowed.whole.asked_named hissued hasks with ⟨hnodup, hknown⟩
    rcases hexchange.answers hsent hfits hfilter hexact hnodup hknown hend with
      ⟨cont, hanswers, hcont⟩
    refine ⟨_, .answer hissued hasks hanswers, ?_⟩
    rw [hcont]
    rfl

theorem WireStep.exact (h : WireStep wire v e σ σ') (hexact : σ'.topic.Exact v) :
    σ.topic.Exact v := by
  cases h with
  | own _ hstep =>
    cases hstep with
    | grow hgrow => exact hgrow.exact hexact
    | older => exact hexact
    | newer => exact hexact
    | answer => exact hexact
    | drop => exact hexact
    | live => exact hexact
    | @land _ page _ =>
      rw [show (σ.settle page).topic = σ.topic from rfl] at hexact
      exact hexact
  | answer => exact hexact

variable {cap : Nat} {request : Request}

/-- An older page in flight was asked for from no further down than the topic goes. -/
theorem Session.Followed.older_low {allowed : Event → Prop} (h : σ.Followed v debt)
    (hnone : ∀ cursor, σ.flight.request? ≠ some (.older cursor)) (hrun : Run v allowed σ τ)
    {cursor : List Position} (holder : τ.flight.request? = some (.older cursor)) :
    ∀ e ∈ cursor, τ.topic.low e.1 ≤ e.2 := by
  induction hrun with
  | refl => exact absurd holder (hnone cursor)
  | @tail τ τ' hτ hstep ih =>
    rcases hstep with ⟨e, -, hstep⟩
    cases hstep with
    | grow hgrow =>
      rw [hgrow.low]
      exact ih holder
    | older hidle hedge =>
      cases holder
      intro e he
      have hcursor := Store.edges_bottom hedge
      subst hcursor
      have hb := (mem_encodeCursor _ e).mp he
      exact (((h.run hτ).whole.sliding.sound e.1).bottom_mem e.2 hb).1
    | newer => cases holder
    | answer hissued =>
      apply ih
      rw [hissued]
      exact holder
    | drop => cases holder
    | live => exact ih holder
    | @land _ page _ => cases holder

/-- What is in flight fits the types of the server, and is exact. -/
theorem Session.Followed.fits (h : τ.Followed v debt) (hexact : τ.topic.Exact v) {asked : Request}
    (hissued : τ.flight = .issued asked)
    (hlow : ∀ cursor, asked = .older cursor → ∀ e ∈ cursor, τ.topic.low e.1 ≤ e.2) :
    asked.Fits := by
  have hready := h.whole.flight
  rw [hissued] at hready
  have hbetween : ∀ e : Position, e.1 ∈ τ.topic.parts →
      τ.topic.low e.1 ≤ e.2 ∧ e.2 ≤ τ.topic.high e.1 →
        FitsPosition e ∧ JsNumber.Exact e.1 ∧ JsNumber.Exact e.2 := by
    intro e hpart hbounds
    have hexact' := hexact.position hpart hbounds
    refine ⟨⟨hexact.parts e.1 hpart, ?_⟩, hexact'⟩
    have hnumber := hexact'.2
    unfold JsNumber.Exact JsNumber.maxExact at hnumber
    omega
  intro cursor hcursor e he
  cases asked with
  | latest => cases hcursor
  | forwardFrom => cases hcursor
  | older =>
    cases hcursor
    rcases hready.2 e he with ⟨hhigh, b, hb, -⟩
    exact hbetween e (h.whole.sliding.bottom_known e.1 b hb) ⟨hlow cursor rfl e he, hhigh⟩
  | newer =>
    cases hcursor
    have ht := (hready.2.2 e).mp he
    exact hbetween e (h.whole.sliding.top_known e.1 e.2 ht)
      ((h.whole.sliding.sound e.1).top_mem e.2 ht)

/-- Whatever a window has in flight, at whatever point of its run. -/
theorem Session.Opens.asked_fits (hopens : σ.Opens cap request)
    (hfirst : request = .latest ∨ request = .forwardFrom) {allowed : Event → Prop}
    (hrun : Run v allowed σ τ) (hexact : τ.topic.Exact v) {asked : Request}
    (hissued : τ.flight = .issued asked) : asked.Fits := by
  have hfollowed := hopens.followed hfirst (v := v)
  apply (hfollowed.run hrun).fits hexact hissued
  rintro cursor rfl
  apply hfollowed.older_low _ hrun
  · rw [hissued]
    rfl
  · intro cursor hrequest
    rw [hopens.flight] at hrequest
    cases hrequest
    rcases hfirst with hfirst | hfirst <;> cases hfirst

theorem wireRun_parsed (hopens : σ.Opens cap request)
    (hfirst : request = .latest ∨ request = .forwardFrom)
    (hfilter : FilterTaken v.handle.text (wire.api v) v.filter) (hexact : σ'.topic.Exact v)
    (hrun : WireRun wire v σ σ') : ∃ τ, Run v (fun _ => True) σ τ ∧ σ' = τ.parsed := by
  induction hrun with
  | refl =>
    refine ⟨σ, .refl, ?_⟩
    rcases σ with ⟨topic, handed, store, flight, landed⟩
    obtain rfl : flight = .issued request := hopens.flight
    obtain rfl : landed = [] := hopens.landed
    rfl
  | tail _ hstep ih =>
    rcases hstep with ⟨e, hstep⟩
    rcases ih (hstep.exact hexact) with ⟨τ, hτ, rfl⟩
    have hfollowed := (hopens.followed hfirst (v := v)).run hτ
    have hfits := fun request => @Session.Opens.asked_fits v τ σ cap _ hopens hfirst _ hτ
      (hstep.exact hexact) request
    rcases hstep.of_parsed hfollowed (hstep.exact hexact) hfits hfilter with ⟨τ', hτ', rfl⟩
    exact ⟨τ', hτ.tail ⟨e, trivial, hτ'⟩, rfl⟩

/-- Whatever a window comes to over the wire, through any run of its pages, its scrolling, its feed
    and its topic's growth, it comes to where pages are served as they are asked for: with the
    same rows, the same edges and the same page in flight. -/
theorem window_over_wire (hopens : σ.Opens cap request)
    (hfirst : request = .latest ∨ request = .forwardFrom)
    (hfilter : FilterTaken v.handle.text (wire.api v) v.filter) (hexact : σ'.topic.Exact v)
    (hrun : WireRun wire v σ σ') :
    ∃ τ, Run v (fun _ => True) σ τ ∧ τ.topic = σ'.topic ∧ τ.handed = σ'.handed ∧
      τ.store = σ'.store ∧ τ.flight.request? = σ'.flight.request? ∧
      τ.landed.map Page.rows = σ'.landed.map Page.rows := by
  rcases wireRun_parsed hopens hfirst hfilter hexact hrun with ⟨τ, hτ, rfl⟩
  refine ⟨τ, hτ, rfl, rfl, rfl, ?_, ?_⟩
  · rcases τ with ⟨topic, handed, store, flight, landed⟩
    cases flight <;> rfl
  · rw [Session.parsed, List.map_map]
    rfl

end

/-! ### The short topic over the wire -/

theorem shortMessage_exact {p o : Int} (h : JsNumber.Exact p ∧ JsNumber.Exact o) :
    roundMessage (toOneMessageOut plainView.handle.decoder ⟨p, o, some o, none, none, []⟩) =
      toOneMessageOut plainView.handle.decoder ⟨p, o, some o, none, none, []⟩ := by
  have hnone : plainView.handle.decoder.decodePayload none = none := rfl
  simp [roundMessage, toOneMessageOut, hnone, h.1, h.2]

theorem shortTopic_parts : ∀ p ∈ (shortTopic 3 0).parts, FitsI32 p := by
  unfold FitsI32
  decide

theorem shortTopic_exact : (shortTopic 3 0).Exact plainView where
  parts := shortTopic_parts
  messages p m hm := by
    rcases LiveTopic.mem_matching.mp hm with ⟨⟨r, hr, rfl⟩, -⟩
    have hpart : p ∈ [0, 1] := ((shortTopic 3 0).inside p r hr).1
    rcases List.mem_map.mp hr with ⟨e, he, rfl⟩
    have hlog : e ∈ shortLog 3 := by
      revert he
      simp only
      split
      · exact id
      · split
        · intro he
          cases he
        · intro he
          cases he
    rcases List.mem_map.mp hlog with ⟨i, hi, rfl⟩
    have hsmall := List.mem_range.mp hi
    apply shortMessage_exact
    refine ⟨?_, ?_⟩
    · exact exact_of_fitsI32 (shortTopic_parts p hpart)
    · show (i : Int).natAbs ≤ 2 ^ 53
      omega
def shortWire : Wire := ⟨fun _ => "", fun _ => [], fun _ => "", 2, "short", ""⟩

def shortCluster : Cluster where
  name := "local"
  fetchMetadata := .ok [("short", [0, 1])]
  listOffsets spec _ := match spec with
    | .earliest => .ok [⟨0, 0, none⟩, ⟨1, 0, none⟩]
    | .latest => .ok [⟨0, 3, none⟩, ⟨1, 0, none⟩]
  offsetsForTimes _ := .ok []
  fetchOneRecord _ _ := .ok none

/-- A page that its budget ends. -/
def shortCall : PageCall where
  handle := plainView.handle
  req := ⟨[(0, 3), (1, 0)], (shortTopic 3 0).watermarks, .back, PAGE_LIMIT, none, 2⟩
  scanChunk := scanAll (shortTopic 3 0).topic
  client := .connected

/-- The tail of the short topic in a window that has room. -/
def shortWide : Session :=
  ⟨shortTopic 3 0, (shortTopic 3 0).high, createSlidingWindowStore 10, .issued .latest, []⟩

/-- The page as it comes over the wire. -/
def shortReceived : Page :=
  ⟨.latest, [(0, 3), (1, 0)], (shortTopic 3 0).high, [shortMessage 0 2, shortMessage 0 1],
    some [(0, 1), (1, 0)]⟩

def shortLanded : Session := shortWide.settle shortReceived

def shortCursor : Cursor := ⟨.back, [(0, 1), (1, 0)]⟩

def shortRun : PageRun := (runPage shortCall).get rfl

def shortEvents : List Timeline.TimelineEvent :=
  [.match (shortMessage 0 2), .match (shortMessage 0 1), .progress 2 2 2,
    .pageEnd (some shortCursor) false]

def shortText : List Char := (shortEvents.map timelineSse).flatMap frame

theorem shortText_told : timelinePage [shortText] = shortEvents.map tellsTimeline := by
  have hone : [shortText].flatten = shortText := List.flatten_singleton
  have hpart : [shortText].flatten <+: shortText := by
    rw [hone]
  have htold := calls_told timelineSse_sendable timelinePageCall_told
    (streamText_frames (shortEvents.map timelineSse)) hpart
  exact htold.all hone

theorem shortWire_filter :
    FilterTaken plainView.handle.text (shortWire.api plainView) plainView.filter := rfl

theorem shortCall_exchange : shortWire.Exchange (shortTopic 3 0) plainView
    (anchorParams (planJump .now).params) shortCall shortRun (timelinePage [shortText]) := by
  have hasked : Asked (anchorParams (planJump .now).params) .back (.fromAnchor .latest) :=
    @Asked.jump .now trivial
  have hvalid := validate_asked shortWire.cursorError "short" shortWire_filter hasked
  refine ⟨⟨shortCluster, rfl, ?_⟩, rfl, scanAll_documented _, (Option.some_get rfl).symm, ?_⟩
  · simp only [Timeline.timelineSse, Wire.query, extractQuery_queryString, shortWire] at hvalid ⊢
    rw [hvalid]
    rfl
  · exact ⟨shortText, [shortText], streamText_frames (shortEvents.map timelineSse),
      by rw [List.flatten_singleton], rfl⟩

theorem shortWide_opens : shortWide.Opens 10 .latest := ⟨rfl, rfl, rfl, fun _ => le_refl _⟩

theorem shortWide_run : WireRun shortWire plainView shortWide shortLanded := by
  have hend : .onPageEnd (some shortCursor.encode) false ∈ timelinePage [shortText] := by
    rw [shortText_told]
    simp [shortEvents, tellsTimeline]
  have hrows : rowsOf (timelinePage [shortText]) = [shortMessage 0 2, shortMessage 0 1] := by
    rw [shortText_told]
    rfl
  have hanswer : WireStep shortWire plainView .answer shortWide
      { shortWide with flight := .answered shortReceived } := by
    have hstep := @WireStep.answer shortWire plainView shortWide .latest _ _ _ _ _ _ rfl
      (@Request.SentAs.jump .now trivial) shortCall_exchange hend
    rw [hrows, Option.bind_some, decodeCursorText_encode] at hstep
    exact hstep
  have hland : WireStep shortWire plainView .land
      { shortWide with flight := .answered shortReceived } shortLanded :=
    .own (by decide) (@Step.land _ { shortWide with flight := .answered shortReceived } _ rfl)
  exact (Relation.ReflTransGen.single ⟨_, hanswer⟩).tail ⟨_, hland⟩

/-- Two rows and a cursor come over the wire, and land. -/
theorem short_window_over_wire :
    shortLanded.store.rowsOf 0 = [shortMessage 0 1, shortMessage 0 2] ∧ ∃ τ,
      Run plainView (fun _ => True) shortWide τ ∧ τ.store = shortLanded.store := by
  refine ⟨rfl, ?_⟩
  rcases window_over_wire shortWide_opens (Or.inl rfl) shortWire_filter shortTopic_exact
    shortWide_run with ⟨τ, hτ, -, -, hstore, -⟩
  exact ⟨τ, hτ, hstore⟩

/-! ### What is asked for is accepted -/

section

variable {wire : Wire} {v : View} {debt : Int → Int} {τ σ σ' : Session} {cap : Nat}
  {request : Request}

/-- No page that the window asks for over the wire is refused, at whatever point of whatever run:
    the handler reads out of the query string the direction, the filter and the position that the
    window meant. -/
theorem pages_asked_for_accepted (hopens : σ.Opens cap request)
    (hfirst : request = .latest ∨ request = .forwardFrom)
    (hfilter : FilterTaken v.handle.text (wire.api v) v.filter) (hexact : σ'.topic.Exact v)
    (hrun : WireRun wire v σ σ') {asked : Request} (hissued : σ'.flight = .issued asked)
    {p : PageParams} (hsent : asked.SentAs p) :
    ∃ raw source, extractQuery wire.lossy (wire.query v p) = some raw ∧
      validate v.handle.text wire.cursorError wire.topic raw =
        .ok ⟨wire.topic, asked.direction, PAGE_LIMIT, source, v.filter⟩ ∧
      ∀ cluster positions,
        source.resolve cluster σ'.topic.watermarks asked.direction = .ok positions →
          asked.Asks σ'.topic positions := by
  rcases wireRun_parsed hopens hfirst hfilter hexact hrun with ⟨τ, hτ, rfl⟩
  have hfits := hopens.asked_fits hfirst hτ hexact (Flight.issued_of_parsed hissued)
  rcases hsent.asked hfits with ⟨source, hasked, hresolves⟩
  exact ⟨_, source, extractQuery_queryString wire.lossy _,
    validate_asked wire.cursorError wire.topic hfilter hasked,
    fun cluster positions => hresolves cluster _ positions⟩

end

/-- The page below those. -/
theorem short_older_accepted : ∃ raw source,
    extractQuery shortWire.lossy
      (shortWire.query plainView (cursorParams .back [(0, 1), (1, 0)])) = some raw ∧
    validate plainView.handle.text shortWire.cursorError "short" raw =
      .ok ⟨"short", .back, PAGE_LIMIT, source, none⟩ := by
  have holder : WireStep shortWire plainView .older shortLanded
      { shortLanded with flight := .issued (.older [(0, 1), (1, 0)]) } :=
    .own (by decide) (.older rfl rfl)
  rcases pages_asked_for_accepted shortWide_opens (Or.inl rfl) shortWire_filter shortTopic_exact
    (shortWide_run.tail ⟨_, holder⟩) rfl (.older [(0, 1), (1, 0)]) with
    ⟨raw, source, hraw, hvalid, -⟩
  exact ⟨raw, source, hraw, hvalid⟩

end Arne.Client
