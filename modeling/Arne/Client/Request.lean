import Arne.Client.Landing

/-!
# The page in flight

What a window asks for, and what must still be true of the window when the page lands.
A page asked from an edge is safe to take while the window's edge is where the page
assumed it, and the store's staleness check tells just that.
-/

namespace Arne.Client

open Arne.Message Arne.Timeline Arne.SortedLog

/-- The pages a window asks for: the two kinds of first page, and the pages that read on
    from the cursors of `edges()`. -/
inductive Request where
  | latest
  | forwardFrom
  | older (cursor : List Position)
  | newer (cursor : List Position)
deriving DecidableEq, Repr

namespace Request

def direction : Request → Direction
  | .latest => .back
  | .forwardFrom => .forward
  | .older _ => .back
  | .newer _ => .forward

/-- `pendingStartPositionsRef`: what the cursor of the request decodes to. -/
def startPositions : Request → Option (List Position)
  | .latest => none
  | .forwardFrom => none
  | .older cursor => some (decodeCursor cursor)
  | .newer cursor => some (decodeCursor cursor)

/-- `pendingAttachRef`. -/
def attach : Request → Bool
  | .latest => true
  | _ => false

/-- The positions a request is served from.  An anchor is resolved when the page is
    served, against the watermarks of that moment. -/
def Asks (w : LiveTopic) : Request → List Position → Prop
  | .latest, positions => positions = initialPositions w.watermarks .latest
  | .forwardFrom, positions => ∃ anchor, positions = initialPositions w.watermarks anchor
  | .older cursor, positions => positions = cursor
  | .newer cursor, positions => positions = cursor

end Request

/-- The store after a page landed. -/
def Store.land (s : Store) (request : Request) (rows : List MessageOut)
    (cont : Option (List Position)) : Store × InsertOutcome :=
  s.insertPage rows request.direction request.startPositions cont request.attach

variable {w w' : LiveTopic} {v : View} {debt : Int → Int} {pending : Int → Set Int} {s s' : Store}

/-! ### Edges -/

theorem mem_encodeCursor (map : OrdMap Int Int) (e : Position) :
    e ∈ encodeCursor (mapToPositions map) ↔ map.get? e.1 = some e.2 :=
  mem_mapToPositions map e

theorem Store.edges_bottom {cursor : List Position} (h : s.edges.bottom = some cursor) :
    cursor = encodeCursor (mapToPositions s.bottomMap) := by
  simp only [Store.edges] at h
  split at h
  · cases h
  · exact (Option.some.inj h).symm

theorem Store.edges_top {cursor : List Position} (h : s.edges.top = some cursor) :
    s.attached = false ∧ cursor = encodeCursor (mapToPositions s.topMap) := by
  simp only [Store.edges] at h
  split at h
  · cases h
  · rename_i hopen
    refine ⟨?_, (Option.some.inj h).symm⟩
    cases hatt : s.attached with
    | false => rfl
    | true => exact absurd (by simp [hatt]) hopen

theorem mem_decodeCursor {cursor : List Position} (h : (cursor.map Prod.fst).Nodup) {e : Position}
    (he : e ∈ cursor) : e ∈ decodeCursor cursor := by
  have hlast := OrdMap.lastFor_of_mem h (show (e.1, e.2) ∈ cursor from he)
  rw [← lastFor_decodeCursor] at hlast
  exact OrdMap.lastFor_mem hlast

/-! ### Before the page is served -/

/-- A request is good for the window it was issued by. -/
def Request.Ready (w : LiveTopic) (v : View) (debt : Int → Int) (pending : Int → Set Int)
    (s : Store) : Request → Prop
  | .latest | .forwardFrom => (∃ cap, s = createSlidingWindowStore cap) ∧
      OwedFrom w v debt pending ∧ ∀ p, debt p ≤ w.high p
  | .older cursor => (cursor.map Prod.fst).Nodup ∧
      ∀ e ∈ cursor, e.2 ≤ w.high e.1 ∧ ∃ b, s.bottomMap.get? e.1 = some b ∧ e.2 ≤ b
  | .newer cursor => (cursor.map Prod.fst).Nodup ∧ s.attached = false ∧
      ∀ e, e ∈ cursor ↔ s.topMap.get? e.1 = some e.2

theorem Sliding.ready_older (h : Sliding w v debt pending s) {cursor : List Position}
    (hedge : s.edges.bottom = some cursor) : (Request.older cursor).Ready w v debt pending s := by
  have hcursor := Store.edges_bottom hedge
  subst hcursor
  refine ⟨mapToPositions_nodup _, ?_⟩
  intro e he
  have hb := (mem_encodeCursor _ e).mp he
  exact ⟨((h.sound e.1).bottom_mem e.2 hb).2, e.2, hb, le_refl _⟩

theorem ready_newer {cursor : List Position} (hedge : s.edges.top = some cursor) (w : LiveTopic)
    (v : View) (debt : Int → Int) (pending : Int → Set Int) :
    (Request.newer cursor).Ready w v debt pending s := by
  obtain ⟨hdetached, rfl⟩ := Store.edges_top hedge
  exact ⟨mapToPositions_nodup _, hdetached, mem_encodeCursor _⟩

/-- The topic grows by records that are pending. -/
structure GrowsPending (w w' : LiveTopic) (v : View) (pending : Int → Set Int) : Prop where
  grows : w.Grows w'
  owed : ∀ p, ∀ o ∈ w'.real v p, w.high p ≤ o → o ∈ pending p

theorem OwedFrom.grow (h : OwedFrom w v debt pending) (hgrow : GrowsPending w w' v pending) :
    OwedFrom w' v debt pending := by
  intro p o ho hle
  rcases lt_or_ge o (w.high p) with hlt | hge
  · exact h p o (hgrow.grows.real.mpr ⟨ho, hlt⟩) hle
  · exact hgrow.owed p o ho hge

theorem Request.Ready.grow {request : Request} (h : request.Ready w v debt pending s)
    (hgrow : GrowsPending w w' v pending) : request.Ready w' v debt pending s := by
  cases request with
  | latest =>
    obtain ⟨hcap, howed, hle⟩ := h
    exact ⟨hcap, howed.grow hgrow, fun p => (hle p).trans (hgrow.grows.high p)⟩
  | forwardFrom =>
    obtain ⟨hcap, howed, hle⟩ := h
    exact ⟨hcap, howed.grow hgrow, fun p => (hle p).trans (hgrow.grows.high p)⟩
  | older cursor =>
    exact ⟨h.1, fun e he => ⟨(h.2 e he).1.trans (hgrow.grows.high e.1), (h.2 e he).2⟩⟩
  | newer cursor => exact h

/-! ### From the answer to the landing -/

/-- A page that read as `PageRead` may land on the window. -/
def Request.Landable (w : LiveTopic) (v : View) (debt : Int → Int) (pending : Int → Set Int)
    (s : Store) (positions : List Position) (mark : Int → Int) : Request → Prop
  | .latest => (∃ cap, s = createSlidingWindowStore cap) ∧ (∀ e ∈ positions, e.2 = mark e.1) ∧
      (∀ p ∈ w.parts, p ∈ positions.map Prod.fst) ∧
        OwedFrom w v debt pending ∧ ∀ p, debt p ≤ mark p
  | .forwardFrom => (∃ cap, s = createSlidingWindowStore cap) ∧
      (∀ p ∈ w.parts, p ∈ positions.map Prod.fst) ∧
        OwedFrom w v debt pending ∧ ∀ p, debt p ≤ mark p
  | .older cursor => positions = cursor ∧
      ∀ e ∈ cursor, e.2 ≤ mark e.1 ∧ ∃ b, s.bottomMap.get? e.1 = some b ∧ e.2 ≤ b
  | .newer cursor => positions = cursor ∧ s.attached = false ∧
      (∀ e, e ∈ cursor ↔ s.topMap.get? e.1 = some e.2) ∧ (∀ e ∈ cursor, e.2 ≤ mark e.1) ∧
        ∀ p, ∀ o ∈ w.real v p, mark p ≤ o → o ∈ pending p

/-- A page was served and may land. -/
structure Answered (w : LiveTopic) (v : View) (debt : Int → Int) (pending : Int → Set Int)
    (s : Store) (request : Request) (positions : List Position) (mark : Int → Int)
    (rows : List MessageOut) (cont : Option (List Position)) : Prop where
  read : ∃ stop, PageRead w v mark request.direction positions rows cont stop
  landable : request.Landable w v debt pending s positions mark

theorem initialPositions_latest {e : Position}
    (he : e ∈ initialPositions w.watermarks .latest) : e.2 = w.high e.1 := by
  obtain ⟨x, hx, rfl⟩ := List.mem_map.mp he
  obtain ⟨p, hp, heq⟩ := List.mem_filterMap.mp hx
  simp only [watermarkOf, Option.some.injEq] at heq
  subst heq
  rfl

/-- The page is served. -/
theorem Request.Ready.answer {request : Request} (h : request.Ready w v debt pending s)
    (hs : Sliding w v debt pending s) {positions : List Position} {rows : List MessageOut}
    {cont : Option (List Position)} (hasks : request.Asks w positions)
    (hanswer : w.Answers v request.direction positions rows cont) :
    Answered w v debt pending s request positions w.high rows cont := by
  cases request with
  | latest =>
    obtain ⟨hcap, hdebt⟩ := h
    have hfst : positions.map Prod.fst = w.parts := by
      rw [show positions = _ from hasks]
      exact w.initialPositions_fst .latest
    refine ⟨hanswer.read (hfst ▸ w.nodup) fun e he => hfst ▸ List.mem_map_of_mem he, hcap, ?_,
      fun p hp => hfst ▸ hp, hdebt⟩
    intro e he
    rw [show positions = _ from hasks] at he
    exact initialPositions_latest he
  | forwardFrom =>
    obtain ⟨hcap, hdebt⟩ := h
    obtain ⟨anchor, rfl⟩ := hasks
    have hfst := w.initialPositions_fst anchor
    exact ⟨hanswer.read (hfst ▸ w.nodup) fun e he => hfst ▸ List.mem_map_of_mem he, hcap,
      fun p hp => hfst ▸ hp, hdebt⟩
  | older cursor =>
    obtain rfl : positions = cursor := hasks
    refine ⟨hanswer.read h.1 fun e he => ?_, rfl, h.2⟩
    obtain ⟨-, b, hb, -⟩ := h.2 e he
    exact hs.bottom_known e.1 b hb
  | newer cursor =>
    obtain rfl : positions = cursor := hasks
    obtain ⟨hnodup, hdetached, hedge⟩ := h
    refine ⟨hanswer.read hnodup fun e he => hs.top_known e.1 e.2 ((hedge e).mp he), rfl, hdetached,
      hedge, fun e he => ((hs.sound e.1).top_mem e.2 ((hedge e).mp he)).2, ?_⟩
    intro p o ho hle
    -- nothing lies past the high watermark yet
    have := (LiveTopic.real_bounds o ho).2
    omega

theorem Answered.grow {request : Request} {positions : List Position} {mark : Int → Int}
    {rows : List MessageOut} {cont : Option (List Position)}
    (h : Answered w v debt pending s request positions mark rows cont)
    (hgrow : GrowsPending w w' v pending) :
    Answered w' v debt pending s request positions mark rows cont := by
  obtain ⟨⟨stop, hread⟩, hland⟩ := h
  refine ⟨⟨stop, hread.grow hgrow.grows⟩, ?_⟩
  cases request with
  | latest =>
    obtain ⟨hcap, hlatest, hall, howed, hle⟩ := hland
    exact ⟨hcap, hlatest, hgrow.grows.parts ▸ hall, howed.grow hgrow, hle⟩
  | forwardFrom =>
    obtain ⟨hcap, hall, howed, hle⟩ := hland
    exact ⟨hcap, hgrow.grows.parts ▸ hall, howed.grow hgrow, hle⟩
  | older cursor => exact hland
  | newer cursor =>
    obtain ⟨hpos, hdetached, hedge, hmark, hpast⟩ := hland
    refine ⟨hpos, hdetached, hedge, hmark, ?_⟩
    intro p o ho hle
    rcases lt_or_ge o (w.high p) with hlt | hge
    · exact hpast p o (hgrow.grows.real.mpr ⟨ho, hlt⟩) hle
    · exact hgrow.owed p o ho hge

/-! ### Landing -/

/-- Whatever page lands, the window stays sound. -/
theorem Answered.land {request : Request} {positions : List Position} {mark : Int → Int}
    {rows : List MessageOut} {cont : Option (List Position)} (hs : Sliding w v debt pending s)
    (h : Answered w v debt pending s request positions mark rows cont) :
    Sliding w v debt pending (s.land request rows cont).1 := by
  obtain ⟨⟨stop, hread⟩, hland⟩ := h
  rw [Store.land, Store.insertPage]
  cases hstale : s.isStale request.direction request.startPositions with
  | true => exact hs
  | false =>
    refine Sliding.enforceCap ?_ _
    cases request with
    | latest =>
      obtain ⟨⟨cap, rfl⟩, hlatest, hall, howed, hle⟩ := hland
      exact sliding_latest hread hlatest hall fun p o ho hmark => howed p o ho ((hle p).trans hmark)
    | forwardFrom =>
      obtain ⟨⟨cap, rfl⟩, hall, howed, hle⟩ := hland
      exact sliding_forward hread hall howed hle
    | older cursor =>
      obtain ⟨rfl, hedge⟩ := hland
      refine hs.mergeBack hread (fun e he => ?_) _ _
      -- the edge has not moved past the page, and it never moves the other way
      obtain ⟨hmark, b, hb, hle⟩ := hedge e he
      have hnot := Store.not_isStale hstale (mem_decodeCursor hread.nodup he) b hb
      rw [hb, le_antisymm hnot hle]
      exact ⟨rfl, hmark⟩
    | newer cursor =>
      obtain ⟨rfl, hdetached, hedge, hmark, hpast⟩ := hland
      refine hs.mergeForward hdetached hread
        (fun e he => ⟨(hedge e).mp he, hmark e he⟩) (fun p t ht => ?_) (fun _ => hpast) _ _
      exact List.mem_map_of_mem ((hedge (p, t)).mpr ht)

/-! ### Live rows while a page is in flight -/

/-- What the feed hands to an attached window: matching rows no older than where its
    deliveries began, after which it owes `pending'`. -/
structure Delivery (w : LiveTopic) (v : View) (debt : Int → Int) (pending pending' : Int → Set Int)
    (rows : List MessageOut) : Prop where
  matching : ∀ m ∈ rows, m ∈ w.matching v m.partition ∧ debt m.partition ≤ m.offset
  rest : ∀ p, ∀ o ∈ pending p, o ∈ w.real v p →
    (∃ m ∈ rows, m.partition = p ∧ m.offset = o) ∨ o ∈ pending' p

variable {pending' : Int → Set Int} {rows : List MessageOut} {outcome : InsertOutcome}

theorem Sliding.live (h : Sliding w v debt pending s)
    (hdelivery : Delivery w v debt pending pending' rows)
    (hok : s.insertLive rows = .ok (s', outcome)) : Sliding w v debt pending' s' := by
  obtain ⟨hattached, hcap⟩ := Store.insertLive_ok hok
  have hmerged := h.mergeLive hattached hdelivery.matching hdelivery.rest
  have hs' : s' = ((s.mergeLive rows).enforceCap .topInsert).1 := by rw [hcap]
  exact hs' ▸ hmerged.enforceCap .topInsert

/-- A bottom trim only raises lower edges. -/
theorem TrimmedBottom.bottom_le (h : Sliding w v debt pending s) (ht : TrimmedBottom s s')
    {p b : Int} (hb : s.bottomMap.get? p = some b) : ∃ b', s'.bottomMap.get? p = some b' ∧ b ≤ b' := by
  obtain ⟨lost, hrows, hbottom⟩ := ht.rows p
  cases hlast : lost.getLast? with
  | none =>
    rw [hlast, hb] at hbottom
    exact ⟨b, hbottom, le_refl _⟩
  | some m =>
    rw [hlast] at hbottom
    refine ⟨m.offset + 1, hbottom, ?_⟩
    obtain ⟨β, hf⟩ := (h.sound p).floor
    obtain rfl := hf.eq_bottom b hb
    have hm : m ∈ s.rowsOf p := hrows ▸ List.mem_append_left _ (List.mem_of_getLast? hlast)
    have := hf.le_held m.offset ⟨m, hm, rfl⟩
    omega

/-- A live batch only raises lower edges and leaves the window attached. -/
theorem Sliding.live_edges (h : Sliding w v debt pending s)
    (hdelivery : Delivery w v debt pending pending' rows)
    (hok : s.insertLive rows = .ok (s', outcome)) :
    s'.attached = true ∧
      ∀ p b, s.bottomMap.get? p = some b → ∃ b', s'.bottomMap.get? p = some b' ∧ b ≤ b' := by
  obtain ⟨hattached, hcap⟩ := Store.insertLive_ok hok
  have hmerged := h.mergeLive hattached hdelivery.matching hdelivery.rest
  obtain ⟨least, greatest, hm⟩ := Store.mergeLive_spec h.filed rows
  have hresult := Store.enforceCap_result hmerged.filed .topInsert
  rw [hcap] at hresult
  cases hresult with
  | fits =>
    refine ⟨hm.attached.trans hattached, fun p b hb => ⟨b, ?_, le_refl _⟩⟩
    rw [hm.bottomMap]
    exact hb
  | bottom _ ht =>
    refine ⟨ht.attached.trans (hm.attached.trans hattached), ?_⟩
    intro p b hb
    exact ht.bottom_le hmerged (by rw [hm.bottomMap]; exact hb)

/-- While a window is attached, only a page below it can be in flight. -/
theorem Request.Ready.live {request : Request} (h : request.Ready w v debt pending s)
    (hs : Sliding w v debt pending s) (hdelivery : Delivery w v debt pending pending' rows)
    (hok : s.insertLive rows = .ok (s', outcome)) : request.Ready w v debt pending' s' := by
  have hattached := (Store.insertLive_ok hok).1
  cases request with
  | latest =>
    obtain ⟨⟨cap, rfl⟩, -⟩ := h
    cases hattached
  | forwardFrom =>
    obtain ⟨⟨cap, rfl⟩, -⟩ := h
    cases hattached
  | newer cursor =>
    rw [h.2.1] at hattached
    cases hattached
  | older cursor =>
    refine ⟨h.1, fun e he => ⟨(h.2 e he).1, ?_⟩⟩
    obtain ⟨-, b, hb, hle⟩ := h.2 e he
    obtain ⟨b', hb', hle'⟩ := (hs.live_edges hdelivery hok).2 e.1 b hb
    exact ⟨b', hb', hle.trans hle'⟩

theorem Answered.live {request : Request} {positions : List Position} {mark : Int → Int}
    {page : List MessageOut} {cont : Option (List Position)}
    (h : Answered w v debt pending s request positions mark page cont)
    (hs : Sliding w v debt pending s)
    (hdelivery : Delivery w v debt pending pending' rows)
    (hok : s.insertLive rows = .ok (s', outcome)) :
    Answered w v debt pending' s' request positions mark page cont := by
  have hattached := (Store.insertLive_ok hok).1
  refine ⟨h.read, ?_⟩
  have hland := h.landable
  cases request with
  | latest =>
    obtain ⟨⟨cap, rfl⟩, -⟩ := hland
    cases hattached
  | forwardFrom =>
    obtain ⟨⟨cap, rfl⟩, -⟩ := hland
    cases hattached
  | newer cursor =>
    rw [hland.2.1] at hattached
    cases hattached
  | older cursor =>
    obtain ⟨hpos, hedge⟩ := hland
    refine ⟨hpos, fun e he => ⟨(hedge e he).1, ?_⟩⟩
    obtain ⟨-, b, hb, hle⟩ := hedge e he
    obtain ⟨b', hb', hle'⟩ := (hs.live_edges hdelivery hok).2 e.1 b hb
    exact ⟨b', hb', hle.trans hle'⟩

/-- A cleared window owes nothing but what the feed owes. -/
theorem cleared_sliding (howed : OwedFrom w v debt pending) (cap : Nat) :
    Sliding w v debt pending (createSlidingWindowStore cap) where
  filed := createSlidingWindowStore_filed cap
  held := no_rows_cleared
  sound p := Stretch.sound_cleared (not_held_cleared p) rfl rfl (howed p)
  bottom_known _ _ hb := by cases hb
  top_known _ _ ht := by cases ht

end Arne.Client
