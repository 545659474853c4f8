import Arne.Lib.JsNumber
import Arne.Timeline.Following
import Arne.Timeline.Request
import Arne.Client.StoreSpec

/-!
# A growing topic and the pages read from it

The server's side of the window: a topic whose partitions only grow at the high end, and
what a page that ended with `page_end` told the client, partition by partition.
-/

namespace Arne.Client

open Arne.Message Arne.Timeline Arne.SortedLog

/-- A topic at one moment, with the watermarks of its partitions: numbers that are the same on
    both sides, words and doubles. -/
structure LiveTopic where
  parts : List Int
  topic : Topic
  low : Int → Int
  high : Int → Int
  low_le_high : ∀ p, low p ≤ high p
  exact : ∀ p ∈ parts, JsNumber.Exact (low p) ∧ JsNumber.Exact (high p)
  nodup : parts.Nodup
  inside : ∀ p, ∀ r ∈ topic.log p, p ∈ parts ∧ low p ≤ r.offset ∧ r.offset < high p

/-- Records are appended at or past the high watermark, and nothing else changes. -/
structure LiveTopic.Grows (w w' : LiveTopic) : Prop where
  parts : w'.parts = w.parts
  low : w'.low = w.low
  high : ∀ p, w.high p ≤ w'.high p
  log : ∀ p, ∃ extra, w'.topic.log p = w.topic.log p ++ extra ∧ ∀ r ∈ extra, w.high p ≤ r.offset

/-- What a window looks through: one cluster handle and one filter. -/
structure View where
  handle : ClusterHandle
  filter : Option Filter

/-- The messages of a partition the filter keeps, in offset order. -/
def LiveTopic.matching (w : LiveTopic) (v : View) (p : Int) : List MessageOut :=
  keptMessages v.handle v.filter (w.topic.log p)

/-- The offsets of those messages. -/
def LiveTopic.real (w : LiveTopic) (v : View) (p : Int) : Set Int :=
  {o | ∃ m ∈ w.matching v p, m.offset = o}

def LiveTopic.watermarks (w : LiveTopic) : List Watermark :=
  w.parts.filterMap (watermarkOf (fun p => some (w.low p)) fun p => some (w.high p))

def LiveTopic.reading (w : LiveTopic) (v : View) (direction : Direction) : Reading :=
  ⟨w.topic, v.handle, w.watermarks, direction, v.filter⟩

/-! ### Matching messages -/

theorem LiveTopic.mem_matching {w : LiveTopic} {v : View} {p : Int} {m : MessageOut} :
    m ∈ w.matching v p ↔
      (∃ r ∈ w.topic.log p, toOneMessageOut v.handle.decoder r = m) ∧ keeps v.handle v.filter m :=
  List.mem_filter.trans (and_congr_left' List.mem_map)

theorem LiveTopic.matching_bounds {w : LiveTopic} {v : View} {p : Int} {m : MessageOut}
    (h : m ∈ w.matching v p) :
    m.partition = p ∧ p ∈ w.parts ∧ w.low p ≤ m.offset ∧ m.offset < w.high p := by
  obtain ⟨⟨r, hr, rfl⟩, -⟩ := LiveTopic.mem_matching.mp h
  exact ⟨w.topic.partition_eq p r hr, w.inside p r hr⟩

theorem LiveTopic.matching_ascending (w : LiveTopic) (v : View) (p : Int) :
    Ascending MessageOut.offset (w.matching v p) := by
  have hall : Ascending MessageOut.offset
      ((w.topic.log p).map (toOneMessageOut v.handle.decoder)) :=
    List.pairwise_map.mpr (w.topic.ascending p)
  exact hall.filter _

theorem LiveTopic.real_bounds {w : LiveTopic} {v : View} {p : Int} :
    ∀ o ∈ w.real v p, w.low p ≤ o ∧ o < w.high p := by
  rintro o ⟨m, hm, rfl⟩
  exact (LiveTopic.matching_bounds hm).2.2

/-- A matching message is told by its partition and offset. -/
theorem LiveTopic.matching_eq {w : LiveTopic} {v : View} {p : Int} {m m' : MessageOut}
    (hm : m ∈ w.matching v p) (hm' : m' ∈ w.matching v p) (h : m.offset = m'.offset) : m = m' :=
  (w.matching_ascending v p).eq_of_key hm hm' h

theorem LiveTopic.Grows.matching {w w' : LiveTopic} (h : w.Grows w') (v : View) (p : Int) :
    ∃ extra, w'.matching v p = w.matching v p ++ extra ∧ ∀ m ∈ extra, w.high p ≤ m.offset := by
  obtain ⟨extra, hlog, hpast⟩ := h.log p
  refine ⟨keptMessages v.handle v.filter extra, ?_, ?_⟩
  · rw [LiveTopic.matching, hlog, keptMessages_append]
    rfl
  · intro m hm
    obtain ⟨r, hr, rfl⟩ := List.mem_map.mp (List.mem_filter.mp hm).1
    exact hpast r hr

/-- Below the old high watermark growth changes nothing. -/
theorem LiveTopic.Grows.mem_matching {w w' : LiveTopic} (h : w.Grows w') {v : View} {p : Int}
    {m : MessageOut} : m ∈ w.matching v p ↔ m ∈ w'.matching v p ∧ m.offset < w.high p := by
  obtain ⟨extra, heq, hpast⟩ := h.matching v p
  rw [heq, List.mem_append]
  constructor
  · exact fun hm => ⟨Or.inl hm, (LiveTopic.matching_bounds hm).2.2.2⟩
  · rintro ⟨hm | hm, hlt⟩
    · exact hm
    · have := hpast m hm
      omega

theorem LiveTopic.Grows.real {w w' : LiveTopic} (h : w.Grows w') {v : View} {p o : Int} :
    o ∈ w.real v p ↔ o ∈ w'.real v p ∧ o < w.high p := by
  constructor
  · rintro ⟨m, hm, rfl⟩
    have := h.mem_matching.mp hm
    exact ⟨⟨m, this.1, rfl⟩, this.2⟩
  · rintro ⟨⟨m, hm, rfl⟩, hlt⟩
    exact ⟨m, h.mem_matching.mpr ⟨hm, hlt⟩, rfl⟩

/-! ### Watermarks -/

theorem LiveTopic.findWatermark_eq {w : LiveTopic} {p l u : Int} :
    findWatermark w.watermarks p = some (l, u) ↔ p ∈ w.parts ∧ w.low p = l ∧ w.high p = u := by
  rw [LiveTopic.watermarks, findWatermark_read]
  simp

theorem LiveTopic.ordered (w : LiveTopic) : Ordered w.watermarks := by
  intro p lo hi h
  obtain ⟨-, rfl, rfl⟩ := LiveTopic.findWatermark_eq.mp h
  exact w.low_le_high p

theorem LiveTopic.watermarks_fst (w : LiveTopic) : w.watermarks.map Prod.fst = w.parts := by
  rw [LiveTopic.watermarks, List.map_filterMap]
  exact List.filterMap_some

/-- Every anchor places every partition. -/
theorem LiveTopic.initialPositions_fst (w : LiveTopic) (anchor : Anchor) :
    (initialPositions w.watermarks anchor).map Prod.fst = w.parts := by
  rw [initialPositions, List.map_map]
  exact w.watermarks_fst

/-! ### Pages -/

/-- A page read from `positions` that ended with `page_end`: the rows the client received
    and the continuation, as `run_page` gives them. -/
def LiveTopic.Answers (w : LiveTopic) (v : View) (direction : Direction) (positions : List Position)
    (rows : List MessageOut) (cont : Option (List Position)) : Prop :=
  ∃ call run cursor exhausted, (w.reading v direction).Serves positions call ∧
    runPage call = some run ∧ run.ending = .pageEnd cursor exhausted ∧
    rows = messagesOf run.events ∧ cont = cursor.map Cursor.positions

theorem LiveTopic.fits (w : LiveTopic) (v : View) (direction : Direction) :
    (w.reading v direction).Fits := by
  rintro ⟨p, l, u⟩ hmem
  obtain ⟨q, hq, heq⟩ := List.mem_filterMap.mp hmem
  cases heq
  have hexact := w.exact p hq
  unfold JsNumber.Exact JsNumber.maxExact at hexact
  unfold MachineWord.FitsI64
  simp only
  omega

/-- No page of such a topic reaches the ends of the words. -/
theorem LiveTopic.serves {w : LiveTopic} {v : View} {direction : Direction}
    {positions : List Position} {call : PageCall}
    (hreads : (w.reading v direction).Reads positions call) (hlimit : call.req.limit ≤ 2 ^ 62)
    (hnodup : (positions.map Prod.fst).Nodup) : (w.reading v direction).Serves positions call := by
  refine ⟨hreads, hreads.roomy_of_le w.ordered hnodup ?_⟩
  rintro ⟨p, l, u⟩ hmem
  obtain ⟨q, hq, heq⟩ := List.mem_filterMap.mp hmem
  cases heq
  have hexact := w.exact p hq
  have hspan : max call.req.limit chunkSpanMax ≤ 2 ^ 62 := by
    unfold chunkSpanMax
    omega
  unfold JsNumber.Exact JsNumber.maxExact at hexact
  simp only
  omega

/-- A page for a client that stays. -/
def LiveTopic.page (w : LiveTopic) (v : View) (direction : Direction) (positions : List Position)
    (limit : Nat) : PageCall where
  handle := v.handle
  req := ⟨positions, w.watermarks, direction, limit, v.filter, 100⟩
  scanChunk := scanAll w.topic
  client := .connected

theorem LiveTopic.page_answers {w : LiveTopic} {v : View} {direction : Direction}
    {positions : List Position} {limit : Nat} {rows : List MessageOut} {cursor : Option Cursor}
    {exhausted : Bool} (hlimit : limit ≤ 2 ^ 62) (hnodup : (positions.map Prod.fst).Nodup)
    (h : (runPage (w.page v direction positions limit)).map
      (fun run => (run.ending, messagesOf run.events)) =
        some (.pageEnd cursor exhausted, rows)) :
    w.Answers v direction positions rows (cursor.map Cursor.positions) := by
  obtain ⟨run, hrun, heq⟩ := Option.map_eq_some_iff.mp h
  obtain ⟨hend, rfl⟩ := Prod.mk.inj heq
  have htyped : (w.page v direction positions limit).req.Typed :=
    ⟨w.fits v direction, by show limit < 2 ^ 64; omega⟩
  have hreads : (w.reading v direction).Reads positions (w.page v direction positions limit) :=
    ⟨htyped, rfl, rfl, rfl, rfl, rfl, scanAll_documented w.topic⟩
  exact ⟨_, run, cursor, exhausted, LiveTopic.serves hreads hlimit hnodup, hrun, hend, rfl, rfl⟩

/-- Where a listed position really starts, with the high watermark `mark p` of its page. -/
def LiveTopic.startOf (w : LiveTopic) (mark : Int → Int) (e : Position) : Int :=
  clamp e.2 (w.low e.1) (mark e.1)

/-- The end a page of this direction runs towards. -/
def LiveTopic.edge (w : LiveTopic) (mark : Int → Int) (direction : Direction) (p : Int) : Int :=
  match direction with
  | .back => w.low p
  | .forward => mark p

/-- What such a page read: of every partition asked for the matching messages between its
    start and `stop`, and of no other partition anything. -/
structure PageRead (w : LiveTopic) (v : View) (mark : Int → Int) (direction : Direction)
    (positions : List Position) (rows : List MessageOut) (cont : Option (List Position))
    (stop : Int → Int) : Prop where
  nodup : (positions.map Prod.fst).Nodup
  known : ∀ e ∈ positions, e.1 ∈ w.parts
  low_le_mark : ∀ p, w.low p ≤ mark p
  mark_le : ∀ p, mark p ≤ w.high p
  onward : ∀ e ∈ positions, Onward direction (w.startOf mark e) (stop e.1)
  stop_mem : ∀ e ∈ positions, w.low e.1 ≤ stop e.1 ∧ stop e.1 ≤ mark e.1
  rows_iff : ∀ m, m ∈ rows ↔ ∃ e ∈ positions, m ∈ w.matching v e.1 ∧
    Covers direction (w.startOf mark e) (stop e.1) m.offset
  cont_eq : ∀ c, cont = some c → ∀ p,
    OrdMap.lastFor p c = (OrdMap.lastFor p positions).map fun _ => stop p
  exhausted : cont = none → ∀ e ∈ positions, stop e.1 = w.edge mark direction e.1

/-- Positions of the same partitions: where one has an entry, so has the other. -/
theorem lastFor_congr_fst {l l' : List Position} (h : l.map Prod.fst = l'.map Prod.fst) (p : Int) :
    OrdMap.lastFor p l =
      (OrdMap.lastFor p l').map fun _ => (OrdMap.lastFor p l).getD 0 := by
  have hnone : OrdMap.lastFor p l = none ↔ OrdMap.lastFor p l' = none := by
    rw [OrdMap.lastFor_eq_none_iff, OrdMap.lastFor_eq_none_iff, h]
  cases hl : OrdMap.lastFor p l with
  | none => rw [hnone.mp hl, Option.map_none]
  | some o =>
    cases hl' : OrdMap.lastFor p l' with
    | none => rw [hnone.mpr hl'] at hl; cases hl
    | some o' => rfl

/-- A page starts from the positions asked for, each moved into its partition's bounds. -/
theorem LiveTopic.clampPositions_eq {w : LiveTopic} {positions : List Position}
    (hknown : ∀ e ∈ positions, e.1 ∈ w.parts) :
    clampPositions positions w.watermarks = positions.map fun e => (e.1, w.startOf w.high e) := by
  rw [clampPositions, ← List.filterMap_eq_map]
  apply List.filterMap_congr
  intro e he
  simp only [clampPosition, LiveTopic.findWatermark_eq.mpr ⟨hknown e he, rfl, rfl⟩, Option.map_some]
  rfl

/-- The rows that a page decoded from what it read. -/
theorem LiveTopic.mem_decoded_iff {w : LiveTopic} {v : View} {direction : Direction}
    {positions : List Position} {popped : List RawRecord} {start stop : Position → Int}
    (hto : ∀ e ∈ positions, ReadTo w.topic direction popped (e.1, start e) (e.1, stop e))
    (hnamed : ∀ r ∈ popped, r.partition ∈ positions.map Prod.fst) (m : MessageOut) :
    m ∈ keptMessages v.handle v.filter popped ↔
      ∃ e ∈ positions, m ∈ w.matching v e.1 ∧ Covers direction (start e) (stop e) m.offset := by
  constructor
  · intro hm
    obtain ⟨hdec, hkeep⟩ := List.mem_filter.mp hm
    obtain ⟨r, hr, rfl⟩ := List.mem_map.mp hdec
    obtain ⟨e, he, hpe⟩ := List.mem_map.mp (hnamed r hr)
    have hmem : r ∈ popped.filter (·.partition == e.1) :=
      List.mem_filter.mpr ⟨hr, by simp [hpe]⟩
    rw [(hto e he).2.2] at hmem
    obtain ⟨hlog, hcov⟩ := mem_passed.mp hmem
    exact ⟨e, he, LiveTopic.mem_matching.mpr ⟨⟨r, hlog, rfl⟩, hkeep⟩, hcov⟩
  · rintro ⟨e, he, hm, hcov⟩
    obtain ⟨⟨r, hr, rfl⟩, hkeep⟩ := LiveTopic.mem_matching.mp hm
    have hmem : r ∈ popped.filter (·.partition == e.1) := by
      rw [(hto e he).2.2]
      exact mem_passed.mpr ⟨hr, hcov⟩
    exact List.mem_filter.mpr ⟨List.mem_map_of_mem (List.mem_filter.mp hmem).1, hkeep⟩

theorem LiveTopic.Answers.read {w : LiveTopic} {v : View} {direction : Direction}
    {positions : List Position} {rows : List MessageOut} {cont : Option (List Position)}
    (h : w.Answers v direction positions rows cont) (hnodup : (positions.map Prod.fst).Nodup)
    (hknown : ∀ e ∈ positions, e.1 ∈ w.parts) :
    ∃ stop, PageRead w v w.high direction positions rows cont stop := by
  obtain ⟨call, run, cursor, exhausted, hserves, hrun, hend, rfl, rfl⟩ := h
  obtain ⟨hended, -, hemitted⟩ := hserves.page w.ordered hnodup hrun hend
  have hasked := hended.inv.read
  have hbounds := hended.inv.bounds
  have hcursor := hended.cursor_eq
  have hedge := hended.edge_iff.mpr hserves.roomy
  rw [hserves.positions, hserves.watermarks, hserves.direction] at hasked
  rw [hserves.watermarks] at hbounds
  rw [hserves.direction] at hcursor
  rw [hserves.watermarks, hserves.direction] at hedge
  have hfound : ∀ e ∈ positions, findWatermark w.watermarks e.1 = some (w.low e.1, w.high e.1) :=
    fun e he => LiveTopic.findWatermark_eq.mpr ⟨hknown e he, rfl, rfl⟩
  have hread : List.Forall₂ (ReadTo w.topic direction run.popped)
      (positions.map fun e => (e.1, w.startOf w.high e)) run.last.curPositions := by
    rw [← LiveTopic.clampPositions_eq hknown]
    exact hasked
  have hfst : run.last.curPositions.map Prod.fst = positions.map Prod.fst := by
    rw [readTo_map_fst hread, List.map_map]
    rfl
  let stop : Int → Int := fun p => (OrdMap.lastFor p run.last.curPositions).getD 0
  -- the entry of the final positions for each of the asked
  have hentry : ∀ e ∈ positions, (e.1, stop e.1) ∈ run.last.curPositions ∧
      ReadTo w.topic direction run.popped (e.1, w.startOf w.high e) (e.1, stop e.1) := by
    intro e he
    obtain ⟨⟨q, o⟩, hnew, hto⟩ := readTo_exists hread (List.mem_map_of_mem he)
    obtain rfl : q = e.1 := hto.1
    have hstop : stop e.1 = o := by
      simp only [stop, OrdMap.lastFor_of_mem (hfst ▸ hnodup) hnew, Option.getD_some]
    rw [hstop]
    exact ⟨hnew, hto⟩
  have hnamed : ∀ r ∈ run.popped, r.partition ∈ positions.map Prod.fst := by
    intro r hr
    rw [← hfst]
    exact hended.inv.named r hr
  refine ⟨stop, hnodup, hknown, w.low_le_high, fun _ => le_refl _, ?_, ?_, ?_, ?_, ?_⟩
  · intro e he
    exact (hentry e he).2.2.1
  · intro e he
    exact hbounds _ (hentry e he).1 _ _ (hfound e he) (w.low_le_high _)
  · intro m
    rw [hemitted.mem_iff]
    exact LiveTopic.mem_decoded_iff (fun e he => (hentry e he).2) hnamed m
  · intro c hc p
    cases exhausted with
    | true => simp [hcursor] at hc
    | false =>
      obtain rfl : run.last.curPositions = c := by simpa [hcursor] using hc
      exact lastFor_congr_fst hfst p
  · intro hnone e he
    have hexhausted : exhausted = true := by
      cases exhausted with
      | true => rfl
      | false => simp [hcursor] at hnone
    have hat := hedge hexhausted _ (hentry e he).1 _ _ (hfound e he)
    cases direction with
    | back => simpa [atEdge, LiveTopic.reading, LiveTopic.edge] using hat
    | forward => simpa [atEdge, LiveTopic.reading, LiveTopic.edge] using hat

/-- What a page read stays true while the topic grows. -/
theorem PageRead.grow {w w' : LiveTopic} {v : View} {mark : Int → Int} {direction : Direction}
    {positions : List Position} {rows : List MessageOut} {cont : Option (List Position)}
    {stop : Int → Int} (h : PageRead w v mark direction positions rows cont stop)
    (hgrow : w.Grows w') : PageRead w' v mark direction positions rows cont stop := by
  have hstart : ∀ e, w'.startOf mark e = w.startOf mark e := fun e => by
    rw [LiveTopic.startOf, LiveTopic.startOf, hgrow.low]
  refine ⟨h.nodup, fun e he => hgrow.parts ▸ h.known e he, fun p => hgrow.low ▸ h.low_le_mark p,
    fun p => (h.mark_le p).trans (hgrow.high p), fun e he => hstart e ▸ h.onward e he,
    fun e he => hgrow.low ▸ h.stop_mem e he, fun m => (h.rows_iff m).trans ?_, h.cont_eq,
    fun hnone e he => ?_⟩
  case refine_2 =>
    rw [h.exhausted hnone e he]
    cases direction with
    | back => simp only [LiveTopic.edge, hgrow.low]
    | forward => rfl
  refine exists_congr fun e => and_congr_right fun he => ?_
  rw [hstart, hgrow.mem_matching]
  constructor
  · exact fun ⟨⟨hm, _⟩, hcov⟩ => ⟨hm, hcov⟩
  · rintro ⟨hm, hcov⟩
    -- what a page covers lies below its high watermark
    refine ⟨⟨hm, ?_⟩, hcov⟩
    have hclamp := clamp_mem e.2 (h.low_le_mark e.1)
    have hmark := h.mark_le e.1
    have hstop := h.stop_mem e he
    cases direction with
    | back =>
      simp only [Covers, LiveTopic.startOf] at hcov
      omega
    | forward =>
      simp only [Covers] at hcov
      omega

/-! ### A short topic -/

def shortLog (n : Nat) : List (Int × Option Int) :=
  (List.range n).map fun i : Nat => ((i : Int), some (i : Int))

theorem mem_shortLog {n : Nat} {e : Int × Option Int} (h : e ∈ shortLog n) :
    0 ≤ e.1 ∧ e.1 < n := by
  obtain ⟨i, hi, rfl⟩ := List.mem_map.mp h
  have := List.mem_range.mp hi
  show (0 : Int) ≤ i ∧ (i : Int) < n
  omega

theorem shortLog_pairwise (n : Nat) : (shortLog n).Pairwise fun a b => a.1 < b.1 :=
  List.pairwise_map.mpr (List.pairwise_lt_range.imp fun h => Int.ofNat_lt.mpr h)

/-- Two partitions without holes. -/
def shortTopic (n₀ n₁ : UInt16) : LiveTopic where
  parts := [0, 1]
  topic := Topic.ofEntries
    (fun p => if p = 0 then shortLog n₀.toNat else if p = 1 then shortLog n₁.toNat else [])
    fun p => by
      split
      · exact shortLog_pairwise n₀.toNat
      · split
        · exact shortLog_pairwise n₁.toNat
        · exact List.Pairwise.nil
  low _ := 0
  high p := if p = 0 then n₀.toNat else if p = 1 then n₁.toNat else 0
  low_le_high p := by split <;> [omega; split <;> omega]
  exact p _ := by
    have h₀ := n₀.toNat_lt
    have h₁ := n₁.toNat_lt
    refine ⟨Nat.zero_le _, ?_⟩
    unfold JsNumber.Exact JsNumber.maxExact
    split <;> [omega; split <;> omega]
  nodup := by decide
  inside p r hr := by
    obtain ⟨e, he, rfl⟩ := List.mem_map.mp hr
    dsimp only at he ⊢
    split at he
    · rename_i h
      rw [if_pos h, h]
      exact ⟨by decide, mem_shortLog he⟩
    · rename_i h
      rw [if_neg h]
      split at he
      · rename_i h'
        rw [if_pos h', h']
        exact ⟨by decide, mem_shortLog he⟩
      · cases he

theorem shortLog_append {n m : Nat} (h : n ≤ m) :
    ∃ extra, shortLog m = shortLog n ++ extra ∧ ∀ e ∈ extra, (n : Int) ≤ e.1 := by
  obtain ⟨k, rfl⟩ := Nat.exists_eq_add_of_le h
  refine ⟨((List.range k).map (n + ·)).map fun i : Nat => ((i : Int), some (i : Int)), ?_, ?_⟩
  · rw [shortLog, List.range_add, List.map_append]
    rfl
  · intro e he
    obtain ⟨i, hi, rfl⟩ := List.mem_map.mp he
    obtain ⟨j, -, rfl⟩ := List.mem_map.mp hi
    show (n : Int) ≤ ((n + j : Nat) : Int)
    omega

theorem shortTopic_grows {n₀ n₁ m₀ m₁ : UInt16} (h₀ : n₀ ≤ m₀) (h₁ : n₁ ≤ m₁) :
    (shortTopic n₀ n₁).Grows (shortTopic m₀ m₁) where
  parts := rfl
  low := rfl
  high p := by
    have h₀ := UInt16.le_iff_toNat_le.mp h₀
    have h₁ := UInt16.le_iff_toNat_le.mp h₁
    simp only [shortTopic]
    split
    · omega
    · split <;> omega
  log p := by
    have happend : ∀ {n m : Nat}, n ≤ m → ∃ extra : List RawRecord,
        ((shortLog m).map fun e => ⟨p, e.1, e.2, none, none, []⟩) =
          (shortLog n).map (fun e => ⟨p, e.1, e.2, none, none, []⟩) ++ extra ∧
            ∀ r ∈ extra, (n : Int) ≤ r.offset := by
      intro n m h
      obtain ⟨extra, heq, hle⟩ := shortLog_append h
      refine ⟨extra.map fun e => ⟨p, e.1, e.2, none, none, []⟩, by rw [heq, List.map_append], ?_⟩
      intro r hr
      obtain ⟨e, he, rfl⟩ := List.mem_map.mp hr
      exact hle e he
    simp only [shortTopic, Topic.ofEntries]
    split
    · exact happend (UInt16.le_iff_toNat_le.mp h₀)
    · split
      · exact happend (UInt16.le_iff_toNat_le.mp h₁)
      · exact ⟨[], rfl, fun r hr => by cases hr⟩

def plainView : View := ⟨.plain "short", none⟩

def shortEnv : TextEnv := plainView.handle.text

def shortMessage (p o : Int) : MessageOut :=
  toOneMessageOut plainView.handle.decoder ⟨p, o, some o, none, none, []⟩

theorem shortMessage_matching {n₀ : UInt16} {i : Nat} (h : i < n₀.toNat) (n₁ : UInt16) :
    shortMessage 0 i ∈ (shortTopic n₀ n₁).matching plainView 0 := by
  refine LiveTopic.mem_matching.mpr ⟨?_, rfl⟩
  refine ⟨⟨0, (i : Int), some (i : Int), none, none, []⟩, ?_, rfl⟩
  refine List.mem_map.mpr ⟨((i : Int), some (i : Int)), ?_, rfl⟩
  exact List.mem_map.mpr ⟨i, List.mem_range.mpr h, rfl⟩

end Arne.Client
