import Arne.Timeline.Paging
import Arne.Timeline.Request

/-!
# What `exhausted` says of a request

A request covers the partitions its topic's metadata lists: all of them, or those
its cursor names.  A partition whose low or high watermark could not be read is
dropped before the page starts, so the page neither reads it nor names it in its
cursor; of every other covered partition `exhausted` tells the truth, if the windows
planned do not wrap.
-/

namespace Arne.Timeline

open Arne.Message Arne.SortedLog

/-- The bounds of a topic's partitions, as the brokers hold them. -/
structure Brokers where
  low : Int → Int
  high : Int → Int
  low_le_high : ∀ p, low p ≤ high p

def Brokers.edge (b : Brokers) (direction : Direction) (p : Int) : Int :=
  match direction with
  | .back => b.low p
  | .forward => b.high p

/-- An entry that did not fail tells the partition's bound. -/
structure Brokers.Answers (b : Brokers) (cluster : Cluster) : Prop where
  earliest : ∀ wanted entries, cluster.listOffsets .earliest wanted = .ok entries →
    ∀ e ∈ entries, e.error = none → e.offset = b.low e.partition
  latest : ∀ wanted entries, cluster.listOffsets .latest wanted = .ok entries →
    ∀ e ∈ entries, e.error = none → e.offset = b.high e.partition

/-- Every record a scan delivers lies in a window that was asked for. -/
def ScansWithin (call : PageCall) : Prop :=
  ∀ n windows outcome, call.scanChunk n windows = .ok outcome → ∀ r ∈ outcome.records,
    ∃ w ∈ windows, r.partition = w.partition ∧ w.start ≤ r.offset ∧ r.offset < w.end_

/-- A request that streams the page `call`, with the metadata and the two batches
    behind it. -/
structure Streamed (b : Brokers) (cluster : Cluster) (req : TimelineRequest) (call : PageCall)
    (wanted : List Int) (lo hi : List ListedOffset) : Prop where
  answers : b.Answers cluster
  page : ∃ budget, req.page cluster budget = .ok call.req
  typed : call.req.Typed
  read : WatermarksRead cluster req.topic wanted lo hi
  within : ScansWithin call

/-- The partitions of the metadata a request covers. -/
def Covered (req : TimelineRequest) (wanted : List Int) (p : Int) : Prop :=
  p ∈ wanted ∧ ∀ positions, req.source = .fromCursor positions → p ∈ positions.map Prod.fst

/-- Neither batch failed for the partition. -/
def Readable (lo hi : List ListedOffset) (p : Int) : Prop :=
  (offsetsByPartition lo p).isSome ∧ (offsetsByPartition hi p).isSome

/-- `exhausted` only when every covered partition was read, and no covered partition
    missing from a cursor. -/
structure Truthful (covered read : Int → Prop) (cursor : Option Cursor) (exhausted : Bool) :
    Prop where
  exhausted_read : exhausted = true → ∀ p, covered p → read p
  cursor_names : ∀ c, cursor = some c → ∀ p, covered p → p ∈ c.positions.map Prod.fst

/-- The page tracked `p` and left it at the true edge. -/
def ToEdge (b : Brokers) (direction : Direction) (run : PageRun) (p : Int) : Prop :=
  p ∈ run.last.curPositions.map Prod.fst ∧
    ∀ e ∈ run.last.curPositions, e.1 = p → e.2 = b.edge direction p

/-- The page took every record of `p` from where the request put it to the edge. -/
def ReadToEdge (b : Brokers) (topic : Topic) (call : PageCall) (run : PageRun) (p : Int) : Prop :=
  ToEdge b call.req.direction run p ∧
    ∀ e ∈ call.req.positions, e.1 = p → run.popped.filter (·.partition == p) =
      passed call.req.direction (topic.log p) (clamp e.2 (b.low p) (b.high p))
        (b.edge call.req.direction p)

/-! ### Positions stay between the watermarks -/

/-- A committed chunk keeps the positions between the watermarks, whatever
    partitions the windows name. -/
theorem Committed.inBounds_of_within {call : PageCall} {s : PageState} {outcome : FetchOutcome}
    {taken : ChunkTaken} (h : Committed call s outcome taken) (hwithin : ScansWithin call)
    (hb : InBounds call.req.watermarks s.curPositions) :
    InBounds call.req.watermarks (s.advance call outcome taken) := by
  have hwindows : ∀ w ∈ s.windows call, ∀ lo hi,
      findWatermark call.req.watermarks w.partition = some (lo, hi) →
        lo ≤ w.start ∧ w.start < w.end_ ∧ w.end_ ≤ hi := by
    intro w hw lo hi hfind
    obtain ⟨e, -, hplan⟩ := mem_windows hw
    have hplanned := pageWindow_planned hplan
    rw [hplanned.partition_eq] at hfind
    exact ⟨(hplanned.bounds lo hi hfind).1, hplanned.nonempty, (hplanned.bounds lo hi hfind).2⟩
  intro e' he' lo hi hfind hle
  obtain ⟨e, he, rfl⟩ := List.mem_map.mp he'
  rw [advancePosition_fst] at hfind
  have hstay := hb e he lo hi hfind hle
  cases hidx : (s.windows call).findIdx? fun w => w.partition == e.1 with
  | none => simpa only [advancePosition, hidx] using hstay
  | some i =>
    obtain ⟨hlt, hp, -⟩ := List.findIdx?_eq_some_iff_getElem.mp hidx
    have hp : (s.windows call)[i].partition = e.1 := by simpa using hp
    have hget : (s.windows call)[i]? = some (s.windows call)[i] := List.getElem?_eq_getElem hlt
    have hw := hwindows _ (List.getElem_mem hlt) lo hi (hp ▸ hfind)
    obtain ⟨src, hsrc⟩ : ∃ src, (partitionStreams outcome.complete call.req.direction
        outcome.records (s.windows call))[i]? = some src :=
      ⟨_, List.getElem?_eq_getElem (by rwa [partitionStreams_length])⟩
    obtain ⟨pre, rest, rfl, -, hmin, hmax⟩ := h.inv.drawn i src hsrc
    -- what was taken lies in some window of the partition
    have hpre : ∀ o ∈ pre.map RawRecord.offset, lo ≤ o ∧ o < hi := by
      intro o ho
      obtain ⟨r, hr, rfl⟩ := List.mem_map.mp ho
      obtain ⟨hrec, hrp⟩ := mem_partitionStreams hget hsrc (List.mem_append_left _ hr)
      obtain ⟨v, hv, hvp, hoff⟩ := hwithin _ _ _ h.scanned r hrec
      have := hwindows v hv lo hi (by rw [← hvp, hrp, hp]; exact hfind)
      omega
    simp only [advancePosition, hidx, hget]
    split
    · cases call.req.direction <;> simp only [windowEdge] <;> omega
    · cases call.req.direction with
      | back =>
        have htaken : taken.takenMin.getD i none = (pre.map RawRecord.offset).min? := by
          simp [List.getD_eq_getElem?_getD, hmin]
        simp only [htaken]
        cases hm : (pre.map RawRecord.offset).min? with
        | none => exact hstay
        | some m =>
          have := hpre m (List.min?_mem hm)
          exact ⟨this.1, by simp only; omega⟩
      | forward =>
        have htaken : taken.takenMax.getD i none = (pre.map RawRecord.offset).max? := by
          simp [List.getD_eq_getElem?_getD, hmax]
        simp only [htaken]
        cases hm : (pre.map RawRecord.offset).max? with
        | none => exact hstay
        | some m =>
          have := hpre m (List.max?_mem hm)
          exact ⟨by simp only; omega, by simp only; omega⟩

/-- What every page keeps, whatever its cursor lists: the partitions it started
    with, between their watermarks. -/
structure Keeping (call : PageCall) (s : PageState) : Prop where
  fst_eq : s.curPositions.map Prod.fst =
    (clampPositions call.req.positions call.req.watermarks).map Prod.fst
  bounds : InBounds call.req.watermarks s.curPositions

theorem Keeping.commit {call : PageCall} {s : PageState} {outcome : FetchOutcome}
    {taken : ChunkTaken} (h : Keeping call s) (hwithin : ScansWithin call)
    (hc : Committed call s outcome taken) : Keeping call (s.commit call outcome taken).1 where
  fst_eq := by
    rw [commit_curPositions, advance_map_fst]
    exact h.fst_eq
  bounds := hc.inBounds_of_within hwithin h.bounds

theorem running_keeping {call : PageCall} (hwithin : ScansWithin call) {s : PageState}
    (h : Running call s) : Keeping call s := by
  induction h with
  | start => exact ⟨rfl, inBounds_clampPositions _ _⟩
  | @next s s' _ hstep ih =>
    cases chunkStep_result hstep with
    | committed outcome taken hc hcommit =>
      have hs' : s' = (s.commit call outcome taken).1 := by rw [hcommit]
      exact hs' ▸ ih.commit hwithin hc

theorem Keeping.known {call : PageCall} {s : PageState} (h : Keeping call s) {e : Position}
    (he : e ∈ s.curPositions) : ∃ w, findWatermark call.req.watermarks e.1 = some w := by
  have hmem : e.1 ∈ s.curPositions.map Prod.fst := List.mem_map_of_mem he
  rw [h.fst_eq] at hmem
  obtain ⟨e₀, he₀, heq⟩ := List.mem_map.mp hmem
  exact heq ▸ clampPositions_known he₀

/-- A page that ends with `page_end`, for any cursor. -/
structure PageStopped (call : PageCall) (run : PageRun) (cursor : Option Cursor)
    (exhausted : Bool) : Prop where
  keeping : Keeping call run.last
  cursor_eq : cursor = if exhausted then none else
    some ⟨call.req.direction, run.last.curPositions⟩
  edge_iff : (exhausted = true →
    AllAtEdge call.req.watermarks call.req.direction run.last.curPositions) ↔ call.Roomy

theorem pageStopped {call : PageCall} (hwithin : ScansWithin call) (htyped : call.req.Typed)
    (hordered : Ordered call.req.watermarks) {run : PageRun} (hrun : runPage call = some run)
    {cursor : Option Cursor} {exhausted : Bool} (hend : run.ending = .pageEnd cursor exhausted) :
    PageStopped call run cursor exhausted := by
  have hrunning := fun s hs => running_keeping (s := s) hwithin hs
  obtain ⟨s₀, s, hs₀, hstep, hcursor, rfl, hlast⟩ := runPage_pageEnd hrun hend
  have hkeep : Keeping call s := by
    have hkeep := hrunning s₀ hs₀
    cases chunkStep_result hstep with
    | finished => exact hkeep
    | atEdge planning hnil => exact ⟨hkeep.fst_eq, hkeep.bounds⟩
    | committed outcome taken hc hcommit =>
      obtain rfl : s = (s₀.commit call outcome taken).1 := by rw [hcommit]
      exact hkeep.commit hwithin hc
  have hedge := pageEnd_roomy htyped hordered (fun s hs => (hrunning s hs).bounds) hrun hend
  rw [hlast] at hedge ⊢
  exact ⟨hkeep, hcursor.symm, hedge fun e he => hkeep.known he⟩

/-! ### Truth and readability -/

/-- A truthful entry of a batch. -/
theorem offsetsByPartition_truth {entries : List ListedOffset} {bound : Int → Int}
    (h : ∀ e ∈ entries, e.error = none → e.offset = bound e.partition) {p o : Int}
    (hp : offsetsByPartition entries p = some o) : o = bound p := by
  obtain ⟨e, hfind, rfl⟩ := Option.map_eq_some_iff.mp hp
  obtain ⟨hmem, herr⟩ := List.mem_filter.mp (List.mem_reverse.mp (List.mem_of_find?_eq_some hfind))
  have hpart : e.partition = p := by simpa using List.find?_some hfind
  rw [h e hmem (by simpa using herr), hpart]

section Streamed

variable {b : Brokers} {cluster : Cluster} {req : TimelineRequest} {call : PageCall}
  {wanted : List Int} {lo hi : List ListedOffset}

theorem Streamed.built (h : Streamed b cluster req call wanted lo hi) :
    PageBuilt req cluster call.req wanted lo hi := by
  obtain ⟨budget, hpage⟩ := h.page
  obtain ⟨wanted', lo', hi', hbuilt⟩ := TimelineRequest.page_ok hpage
  have hread := hbuilt.read
  obtain rfl : wanted' = wanted := by
    simpa [h.read.partitions] using hread.partitions.symm
  obtain rfl : lo' = lo := by simpa [h.read.earliest] using hread.earliest.symm
  obtain rfl : hi' = hi := by simpa [h.read.latest] using hread.latest.symm
  exact hbuilt

theorem Streamed.findWatermark_iff (h : Streamed b cluster req call wanted lo hi) {p l u : Int} :
    findWatermark call.req.watermarks p = some (l, u) ↔
      p ∈ wanted ∧ offsetsByPartition lo p = some l ∧ offsetsByPartition hi p = some u := by
  rw [h.built.watermarks]
  exact findWatermark_read

/-- The watermarks a page works with are the true ones. -/
theorem Streamed.truth (h : Streamed b cluster req call wanted lo hi) {p : Int} {w : Int × Int}
    (hw : findWatermark call.req.watermarks p = some w) : w = (b.low p, b.high p) := by
  obtain ⟨-, hl, hu⟩ := h.findWatermark_iff.mp hw
  exact Prod.ext (offsetsByPartition_truth (h.answers.earliest _ _ h.read.earliest) hl)
    (offsetsByPartition_truth (h.answers.latest _ _ h.read.latest) hu)

theorem Streamed.ordered (h : Streamed b cluster req call wanted lo hi) :
    Ordered call.req.watermarks := by
  intro p l u hw
  cases h.truth hw
  exact b.low_le_high p

theorem Streamed.readable_iff (h : Streamed b cluster req call wanted lo hi) {p : Int}
    (hp : p ∈ wanted) : Readable lo hi p ↔ ∃ w, findWatermark call.req.watermarks p = some w := by
  constructor
  · rintro ⟨hl, hu⟩
    obtain ⟨l, hl⟩ := Option.isSome_iff_exists.mp hl
    obtain ⟨u, hu⟩ := Option.isSome_iff_exists.mp hu
    exact ⟨(l, u), h.findWatermark_iff.mpr ⟨hp, hl, hu⟩⟩
  · rintro ⟨⟨l, u⟩, hw⟩
    obtain ⟨-, hl, hu⟩ := h.findWatermark_iff.mp hw
    exact ⟨by simp [hl], by simp [hu]⟩

/-- The page tracks the covered partitions it could read, and no other covered one. -/
theorem Streamed.tracked_iff (h : Streamed b cluster req call wanted lo hi) {p : Int}
    (hp : Covered req wanted p) :
    p ∈ (clampPositions call.req.positions call.req.watermarks).map Prod.fst ↔
      Readable lo hi p := by
  rw [h.readable_iff hp.1]
  constructor
  · intro hmem
    obtain ⟨e, he, rfl⟩ := List.mem_map.mp hmem
    exact clampPositions_known he
  · rintro ⟨⟨l, u⟩, hw⟩
    have hlisted : p ∈ call.req.positions.map Prod.fst := by
      rcases h.built.positions with hcursor | ⟨-, anchor, heq⟩
      · exact hp.2 _ hcursor
      · rw [heq]
        exact mem_initialPositions.mpr ⟨_, hw⟩
    obtain ⟨e, he, rfl⟩ := List.mem_map.mp hlisted
    exact List.mem_map.mpr ⟨(e.1, clamp e.2 l u), mem_clampPositions.mpr ⟨e.2, l, u, he, hw, rfl⟩,
      rfl⟩

variable {run : PageRun} {cursor : Option Cursor} {exhausted : Bool}

/-- The positions a page tracks are of partitions that the request covers. -/
theorem Streamed.covered (h : Streamed b cluster req call wanted lo hi)
    (hstop : PageStopped call run cursor exhausted) {e : Position}
    (he : e ∈ run.last.curPositions) : Covered req wanted e.1 := by
  have hmem : e.1 ∈ run.last.curPositions.map Prod.fst := List.mem_map_of_mem he
  rw [hstop.keeping.fst_eq] at hmem
  obtain ⟨w, hw⟩ := hstop.keeping.known he
  refine ⟨(h.findWatermark_iff.mp hw).1, ?_⟩
  intro positions hsource
  have hlisted := (clampPositions_fst_sublist _ _).subset hmem
  rcases h.built.positions with hcursor | ⟨⟨input, hinput⟩, -⟩
  · rw [hcursor] at hsource
    cases hsource
    exact hlisted
  · rw [hinput] at hsource
    cases hsource

/-- The edge of the watermarks is the true one. -/
theorem Streamed.edge_eq (h : Streamed b cluster req call wanted lo hi) {p : Int} {w : Int × Int}
    (hw : findWatermark call.req.watermarks p = some w) :
    edgeOf call.req.watermarks call.req.direction p = b.edge call.req.direction p := by
  cases h.truth hw
  rw [edgeOf, hw]
  cases call.req.direction <;> rfl

/-- Whatever reading means beyond reaching the edge: the answer is truthful exactly
    when every covered partition could be read and every chunk planned had room. -/
theorem Streamed.truthful_iff (h : Streamed b cluster req call wanted lo hi)
    (hstop : PageStopped call run cursor exhausted) {read : Int → Prop}
    (hread : ∀ p, read p → ToEdge b call.req.direction run p)
    (hto : exhausted = true → ∀ p, Covered req wanted p → Readable lo hi p →
      ToEdge b call.req.direction run p → read p) :
    Truthful (Covered req wanted) read cursor exhausted ↔
      (∀ p, Covered req wanted p → Readable lo hi p) ∧ call.Roomy := by
  have hfst := hstop.keeping.fst_eq
  have hcursor := hstop.cursor_eq
  constructor
  · intro htruth
    refine ⟨fun p hp => ?_, hstop.edge_iff.mp fun hex e he l u hw => ?_⟩
    · rw [← h.tracked_iff hp, ← hfst]
      cases exhausted with
      | true => exact (hread p (htruth.exhausted_read rfl p hp)).1
      | false => exact htruth.cursor_names _ hcursor p hp
    · have hedge := (hread _ (htruth.exhausted_read hex _ (h.covered hstop he))).2 e he rfl
      rw [← h.edge_eq hw] at hedge
      simp only [edgeOf, hw] at hedge
      rw [hedge]
      cases call.req.direction <;> simp [atEdge]
  · rintro ⟨hall, hroomy⟩
    refine ⟨fun hex p hp => hto hex p hp (hall p hp) ⟨?_, fun e he heq => ?_⟩,
      fun c hc p hp => ?_⟩
    · rw [hfst]
      exact (h.tracked_iff hp).mpr (hall p hp)
    · obtain ⟨w, hw⟩ := hstop.keeping.known he
      rw [(hstop.edge_iff.mpr hroomy hex).eq_edgeOf he hw, h.edge_eq hw, heq]
    · cases exhausted with
      | true => rw [hcursor] at hc; cases hc
      | false =>
        rw [hcursor] at hc
        cases hc
        rw [hfst]
        exact (h.tracked_iff hp).mpr (hall p hp)

/-- A partition left at its edge was read to it. -/
theorem Streamed.readToEdge (h : Streamed b cluster req call wanted lo hi) {topic : Topic}
    (hended : PageEnded topic call run cursor exhausted) {p : Int}
    (hedge : ToEdge b call.req.direction run p) : ReadToEdge b topic call run p := by
  refine ⟨hedge, ?_⟩
  intro e he hp
  have hread := hended.inv.read
  have hmem : p ∈ (clampPositions call.req.positions call.req.watermarks).map Prod.fst := by
    rw [← readTo_map_fst hread]
    exact hedge.1
  obtain ⟨e₀, he₀, rfl⟩ := List.mem_map.mp hmem
  obtain ⟨⟨l, u⟩, hw⟩ := clampPositions_known he₀
  have hstart : (e.1, clamp e.2 l u) ∈ clampPositions call.req.positions call.req.watermarks :=
    mem_clampPositions.mpr ⟨e.2, l, u, he, hp ▸ hw, rfl⟩
  obtain ⟨i, hi, hget⟩ := List.mem_iff_getElem.mp hstart
  have hlt : i < run.last.curPositions.length := hread.length_eq ▸ hi
  obtain ⟨hfst, -, hpopped⟩ := hread.get hi hlt
  simp only [List.get_eq_getElem, hget] at hfst hpopped
  have hlast := hedge.2 _ (List.getElem_mem hlt) (hfst.trans hp)
  rw [hp, hlast] at hpopped
  cases h.truth hw
  exact hpopped

/-- At `page_end`: exhausted only with every covered partition at its true edge, and
    no covered partition dropped from the cursor, exactly when both watermarks of
    every covered partition were read and every chunk planned had room.  For a cursor
    that lists its partitions once and documented scans, also with every record up to
    the edge taken. -/
theorem exhausted_truthful_iff_readable (h : Streamed b cluster req call wanted lo hi)
    (hrun : runPage call = some run) (hend : run.ending = .pageEnd cursor exhausted) :
    (Truthful (Covered req wanted) (ToEdge b call.req.direction run) cursor exhausted ↔
      (∀ p, Covered req wanted p → Readable lo hi p) ∧ call.Roomy) ∧
    ∀ topic, ScansDocumented topic call → (call.req.positions.map Prod.fst).Nodup →
      (Truthful (Covered req wanted) (ReadToEdge b topic call run) cursor exhausted ↔
        (∀ p, Covered req wanted p → Readable lo hi p) ∧ call.Roomy) := by
  have hstop := pageStopped h.within h.typed h.ordered hrun hend
  refine ⟨h.truthful_iff hstop (fun _ hp => hp) (fun _ _ _ _ hp => hp), ?_⟩
  intro topic hdoc hnodup
  have hended := pageEnded hdoc h.typed h.ordered hnodup hrun hend
  exact h.truthful_iff hstop (fun _ hp => hp.1) fun _ _ _ _ hp => h.readToEdge hended hp

end Streamed

/-- The small topic's bounds. -/
def smallBrokers : Brokers where
  low _ := 0
  high p := if p = 0 then 5 else 1
  low_le_high p := by split <;> decide

/-- A cluster with the small topic; the head of `failed` cannot be read. -/
def smallCluster (failed : Option Int) : Cluster where
  name := "small"
  fetchMetadata := .ok [("small", [0, 1])]
  listOffsets spec wanted := .ok <| wanted.map fun p => match spec with
    | .earliest => ⟨p, smallBrokers.low p, none⟩
    | .latest => ⟨p, smallBrokers.high p, if failed = some p then some "no leader" else none⟩
  offsetsForTimes wanted := .ok (wanted.map fun w => (w.1, none))
  fetchOneRecord _ _ := .ok none

theorem smallCluster_answers (failed : Option Int) :
    smallBrokers.Answers (smallCluster failed) := by
  constructor <;>
  · intro wanted entries h e he herr
    cases h
    obtain ⟨p, -, rfl⟩ := List.mem_map.mp he
    rfl

def smallRequest : TimelineRequest := ⟨"small", .back, 10, .fromAnchor .latest, none⟩

/-- The page the small request streams when the watermarks read were `watermarks`. -/
def smallPage (watermarks : List Watermark) : PageCall where
  handle := .plain "small"
  req := ⟨initialPositions watermarks .latest, watermarks, .back, 10, none, 100⟩
  scanChunk := scanAll smallTopic
  client := .connected

theorem smallPage_within (watermarks : List Watermark) : ScansWithin (smallPage watermarks) := by
  intro n windows outcome h r hr
  cases h
  obtain ⟨w, hw, hr⟩ := List.mem_flatMap.mp hr
  obtain ⟨hlog, hoff⟩ := Topic.mem_slice.mp hr
  exact ⟨w, hw, smallTopic.partition_eq _ r hlog, hoff⟩

theorem smallPage_typed (watermarks : List Watermark)
    (h : ∀ w ∈ watermarks, MachineWord.FitsI64 w.2.1 ∧ MachineWord.FitsI64 w.2.2) :
    (smallPage watermarks).req.Typed :=
  ⟨h, (by decide : 10 < 2 ^ 64)⟩

/-- With both heads read, the exhausted page of the small topic is truthful. -/
theorem small_exhausted_truthful :
    ∃ run, runPage (smallPage [(0, 0, 5), (1, 0, 1)]) = some run ∧
      run.ending = .pageEnd none true ∧
      Truthful (Covered smallRequest [0, 1])
        (ReadToEdge smallBrokers smallTopic (smallPage [(0, 0, 5), (1, 0, 1)]) run) none true := by
  have hrun := (Option.some_get (x := runPage (smallPage [(0, 0, 5), (1, 0, 1)])) (by decide)).symm
  have hstreamed : Streamed smallBrokers (smallCluster none) smallRequest
      (smallPage [(0, 0, 5), (1, 0, 1)]) [0, 1] [⟨0, 0, none⟩, ⟨1, 0, none⟩]
      [⟨0, 5, none⟩, ⟨1, 1, none⟩] :=
    ⟨smallCluster_answers none, ⟨100, rfl⟩, smallPage_typed _ (by decide), ⟨rfl, rfl, rfl⟩,
      smallPage_within _⟩
  have hroomy : (smallPage [(0, 0, 5), (1, 0, 1)]).Roomy :=
    roomy_of_le hstreamed.ordered (fun s hs => (running_keeping hstreamed.within hs).bounds)
      (by decide)
  refine ⟨_, hrun, by decide, ((exhausted_truthful_iff_readable hstreamed hrun (by decide)).2
    smallTopic (scanAll_documented smallTopic) (by decide)).mpr ⟨fun p hp => ?_, hroomy⟩⟩
  obtain rfl | rfl : p = 0 ∨ p = 1 := by simpa using hp.1
  · exact ⟨rfl, rfl⟩
  · exact ⟨rfl, rfl⟩

/-- The head of partition 1 could not be read: the page still reports `exhausted`
    and never looks at that partition, which holds a record. -/
theorem unread_head_reported_exhausted :
    Streamed smallBrokers (smallCluster (some 1)) smallRequest (smallPage [(0, 0, 5)]) [0, 1]
      [⟨0, 0, none⟩, ⟨1, 0, none⟩] [⟨0, 5, none⟩, ⟨1, 1, some "no leader"⟩] ∧
    ∃ run, runPage (smallPage [(0, 0, 5)]) = some run ∧ run.ending = .pageEnd none true ∧
      smallTopic.slice 1 0 1 ≠ [] ∧ run.popped.filter (·.partition == 1) = [] ∧
      ¬ Truthful (Covered smallRequest [0, 1]) (ToEdge smallBrokers .back run) none true := by
  have hrun := (Option.some_get (x := runPage (smallPage [(0, 0, 5)])) (by decide)).symm
  refine ⟨⟨smallCluster_answers _, ⟨100, rfl⟩, smallPage_typed _ (by decide), ⟨rfl, rfl, rfl⟩,
    smallPage_within _⟩, _, hrun, by decide, by decide, by decide, ?_⟩
  intro htruth
  have hcovered : Covered smallRequest [0, 1] 1 := ⟨by decide, fun positions h => by cases h⟩
  exact absurd (htruth.exhausted_read rfl 1 hcovered).1 (by decide)

end Arne.Timeline
