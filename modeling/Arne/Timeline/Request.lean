import Arne.Timeline.Engine

/-!
# From a request to a page (`message/fetch.rs`, `timeline/anchor.rs`, `api/messages.rs`)

Before a page runs, the request reads the topic's watermarks, once, and turns its
anchor into positions.  What the cluster answers to these reads is a `Cluster`.
A partition whose entry of a `ListOffsets` batch failed is absent from the
watermarks, and so from everything computed from them.
-/

namespace Arne.Timeline

open Arne.Message MachineWord

def ApiError.topicNotFound (cluster topic : String) : ApiError :=
  ⟨"topic_not_found", "topic '" ++ topic ++ "' does not exist", some cluster, false⟩

/-- One entry of a `ListOffsets` answer. -/
structure ListedOffset where
  partition : Int
  offset : Int
  error : Option String
deriving DecidableEq, Repr

/-- `OffsetSpec`, less the variants no request uses. -/
inductive OffsetSpec where
  | earliest
  | latest
deriving DecidableEq, Repr

/-- What a cluster answers to the reads that come before a page. -/
structure Cluster where
  name : String
  /-- The topics of the metadata, each with its partitions. -/
  fetchMetadata : Except ApiError (List (String × List Int))
  listOffsets : OffsetSpec → List Int → Except ApiError (List ListedOffset)
  offsetsForTimes : List (Int × Int) → Except ApiError (List (Int × Option Int))
  fetchOneRecord : Int → Int → Except ApiError (Option RawRecord)

/-! ### Watermarks -/

/-- The entries without an error, as a map; of two entries the later one counts. -/
def offsetsByPartition (entries : List ListedOffset) (p : Int) : Option Int :=
  ((entries.filter (·.error.isNone)).reverse.find? (·.partition == p)).map ListedOffset.offset

/-- The partitions the metadata lists for the topic. -/
def Cluster.partitions (cluster : Cluster) (topic : String) : Except ApiError (List Int) :=
  match cluster.fetchMetadata with
  | .error e => .error e
  | .ok topics =>
      match topics.find? fun t => t.1 == topic && !t.2.isEmpty with
      | none => .error (ApiError.topicNotFound cluster.name topic)
      | some t => .ok t.2

def watermarkOf (lo hi : Int → Option Int) (p : Int) : Option Watermark :=
  match lo p, hi p with
  | some l, some h => some (p, l, h)
  | _, _ => none

/-- The two batches, then one entry for each partition that is in both. -/
def watermarksBlocking (cluster : Cluster) (topic : String) : Except ApiError (List Watermark) :=
  match cluster.partitions topic with
  | .error e => .error e
  | .ok wanted =>
      match cluster.listOffsets .earliest wanted, cluster.listOffsets .latest wanted with
      | .error e, _ => .error e
      | .ok _, .error e => .error e
      | .ok lo, .ok hi =>
          .ok (wanted.filterMap (watermarkOf (offsetsByPartition lo) (offsetsByPartition hi)))

/-! ### Anchors -/

inductive Anchor where
  | latest
  | beginning
  | offset (partition offset : Int)
  | timestampResolved (resolved : List (Int × Option Int))
  | offsetForwardAligned (partition offset : Int) (aligned : List (Int × Option Int))
deriving DecidableEq, Repr

/-- What a lookup by timestamp found for `p`; nothing found means the head. -/
def resolvedAt (resolved : List (Int × Option Int)) (p hi : Int) : Int :=
  ((resolved.find? (·.1 == p)).bind Prod.snd).getD hi

/-- Where an anchor puts a partition with the given watermarks. -/
def Anchor.position (anchor : Anchor) (w : Watermark) : Int :=
  match anchor with
  | .latest => w.2.2
  | .beginning => w.2.1
  | .offset partition o => if w.1 = partition then wrappingAdd o 1 else w.2.2
  | .timestampResolved resolved => resolvedAt resolved w.1 w.2.2
  | .offsetForwardAligned partition o aligned =>
      if w.1 = partition then o else resolvedAt aligned w.1 w.2.2

def initialPositions (watermarks : List Watermark) (anchor : Anchor) : List Position :=
  watermarks.map fun w => (w.1, anchor.position w)

inductive TimelineAnchorInput where
  | latest
  | beginning
  | offset (partition offset : Int)
  | timestamp (tsMs : Int)
deriving DecidableEq, Repr

def resolveTimestampOffsets (cluster : Cluster) (watermarks : List Watermark) (tsMs : Int) :
    Except ApiError (List (Int × Option Int)) :=
  cluster.offsetsForTimes (watermarks.map fun w => (w.1, tsMs))

def noTimestampError (partition offset : Int) : ApiError :=
  ApiError.badRequest ("no message with a timestamp at partition " ++ toString partition ++
    " offset " ++ toString offset)

/-- The anchor behind the input; a forward offset anchor reads the anchored
    message's timestamp first. -/
def resolveAnchor (cluster : Cluster) (watermarks : List Watermark) (input : TimelineAnchorInput)
    (direction : Direction) : Except ApiError Anchor :=
  match input with
  | .latest => .ok .latest
  | .beginning => .ok .beginning
  | .offset partition offset =>
      match direction with
      | .back => .ok (.offset partition offset)
      | .forward => do
          let record ← cluster.fetchOneRecord partition offset
          match record.bind RawRecord.timestampMs with
          | none => .error (noTimestampError partition offset)
          | some ts =>
              let aligned ← resolveTimestampOffsets cluster watermarks ts
              .ok (.offsetForwardAligned partition offset aligned)
  | .timestamp tsMs => do
      let resolved ← resolveTimestampOffsets cluster watermarks tsMs
      .ok (.timestampResolved resolved)

def resolvePositionsBlocking (cluster : Cluster) (watermarks : List Watermark)
    (input : TimelineAnchorInput) (direction : Direction) : Except ApiError (List Position) :=
  (resolveAnchor cluster watermarks input direction).map (initialPositions watermarks)

/-! ### Requests -/

inductive PositionSource where
  | fromCursor (positions : List Position)
  | fromAnchor (input : TimelineAnchorInput)
deriving DecidableEq, Repr

/-- A request whose parameters were valid. -/
structure TimelineRequest where
  topic : String
  direction : Direction
  limit : Nat
  source : PositionSource
  filter : Option Filter

def PositionSource.resolve (source : PositionSource) (cluster : Cluster)
    (watermarks : List Watermark) (direction : Direction) : Except ApiError (List Position) :=
  match source with
  | .fromCursor positions => .ok positions
  | .fromAnchor input => resolvePositionsBlocking cluster watermarks input direction

/-- The page a request streams, or the error it is answered with. -/
def TimelineRequest.page (req : TimelineRequest) (cluster : Cluster) (budget : Nat) :
    Except ApiError PageRequest := do
  let watermarks ← watermarksBlocking cluster req.topic
  let positions ← req.source.resolve cluster watermarks req.direction
  .ok ⟨positions, watermarks, req.direction, req.limit, req.filter, budget⟩

/-! ### What a page request holds -/

/-- The reads behind a set of watermarks. -/
structure WatermarksRead (cluster : Cluster) (topic : String) (wanted : List Int)
    (lo hi : List ListedOffset) : Prop where
  partitions : cluster.partitions topic = .ok wanted
  earliest : cluster.listOffsets .earliest wanted = .ok lo
  latest : cluster.listOffsets .latest wanted = .ok hi

theorem watermarksBlocking_ok {cluster : Cluster} {topic : String} {watermarks : List Watermark}
    (h : watermarksBlocking cluster topic = .ok watermarks) :
    ∃ wanted lo hi, WatermarksRead cluster topic wanted lo hi ∧
      watermarks =
        wanted.filterMap (watermarkOf (offsetsByPartition lo) (offsetsByPartition hi)) := by
  unfold watermarksBlocking at h
  cases hpartitions : cluster.partitions topic with
  | error e => rw [hpartitions] at h; cases h
  | ok wanted =>
    simp only [hpartitions] at h
    cases hlo : cluster.listOffsets .earliest wanted with
    | error e => simp only [hlo] at h; cases h
    | ok lo =>
      cases hhi : cluster.listOffsets .latest wanted with
      | error e => simp only [hlo, hhi] at h; cases h
      | ok hi =>
        simp only [hlo, hhi, Except.ok.injEq] at h
        exact ⟨wanted, lo, hi, ⟨hpartitions, hlo, hhi⟩, h.symm⟩

/-- The watermarks found for a partition are its entries of the two batches. -/
theorem findWatermark_read {wanted : List Int} {lo hi : Int → Option Int} {p l h : Int} :
    findWatermark (wanted.filterMap (watermarkOf lo hi)) p = some (l, h) ↔
      p ∈ wanted ∧ lo p = some l ∧ hi p = some h := by
  induction wanted with
  | nil => simp [findWatermark]
  | cons q wanted ih =>
    have hentry : ∀ w, watermarkOf lo hi q = some w → w.1 = q ∧ lo q = some w.2.1 ∧
        hi q = some w.2.2 := by
      intro w hw
      unfold watermarkOf at hw
      split at hw
      · rename_i l h hl hh
        cases hw
        exact ⟨rfl, hl, hh⟩
      · cases hw
    cases hq : watermarkOf lo hi q with
    | none =>
      rw [List.filterMap_cons_none hq, ih, List.mem_cons]
      have hnot : ¬ (lo q = some l ∧ hi q = some h) := by
        rintro ⟨hl, hh⟩
        simp [watermarkOf, hl, hh] at hq
      constructor
      · exact fun ⟨hp, hread⟩ => ⟨Or.inr hp, hread⟩
      · rintro ⟨rfl | hp, hread⟩
        · exact (hnot hread).elim
        · exact ⟨hp, hread⟩
    | some w =>
      obtain ⟨hfst, hl, hh⟩ := hentry w hq
      rw [List.filterMap_cons_some hq]
      by_cases hp : q = p
      · subst hp
        have hfind : findWatermark (w :: wanted.filterMap (watermarkOf lo hi)) q = some w.2 := by
          simp [findWatermark, hfst]
        rw [hfind, hl, hh]
        simp [Prod.ext_iff]
      · have hskip : findWatermark (w :: wanted.filterMap (watermarkOf lo hi)) p =
            findWatermark (wanted.filterMap (watermarkOf lo hi)) p := by
          simp [findWatermark, hfst, hp]
        rw [hskip, ih, List.mem_cons]
        simp [Ne.symm hp]

theorem mem_initialPositions {watermarks : List Watermark} {anchor : Anchor} {p : Int} :
    p ∈ (initialPositions watermarks anchor).map Prod.fst ↔
      ∃ w, findWatermark watermarks p = some w := by
  rw [initialPositions, List.map_map]
  constructor
  · intro h
    obtain ⟨w, hw, rfl⟩ := List.mem_map.mp h
    cases hfind : watermarks.find? (fun v => v.1 == w.1) with
    | none => exact absurd (List.find?_eq_none.mp hfind w hw) (by simp)
    | some v => exact ⟨v.2, by simp [findWatermark, hfind]⟩
  · rintro ⟨w, hw⟩
    obtain ⟨v, hfind, -⟩ := Option.map_eq_some_iff.mp hw
    have hp := List.find?_some hfind
    exact List.mem_map.mpr ⟨v, List.mem_of_find?_eq_some hfind, by simpa using hp⟩

/-- What a streamed page was built from. -/
structure PageBuilt (req : TimelineRequest) (cluster : Cluster) (page : PageRequest)
    (wanted : List Int) (lo hi : List ListedOffset) : Prop where
  read : WatermarksRead cluster req.topic wanted lo hi
  watermarks : page.watermarks =
    wanted.filterMap (watermarkOf (offsetsByPartition lo) (offsetsByPartition hi))
  direction : page.direction = req.direction
  positions : req.source = .fromCursor page.positions ∨
    (∃ input, req.source = .fromAnchor input) ∧
      ∃ anchor, page.positions = initialPositions page.watermarks anchor

theorem TimelineRequest.page_ok {req : TimelineRequest} {cluster : Cluster} {budget : Nat}
    {page : PageRequest} (h : req.page cluster budget = .ok page) :
    ∃ wanted lo hi, PageBuilt req cluster page wanted lo hi := by
  obtain ⟨watermarks, hwm, h⟩ := except_bind_ok h
  obtain ⟨positions, hpos, h⟩ := except_bind_ok h
  obtain ⟨wanted, lo, hi, hread, rfl⟩ := watermarksBlocking_ok hwm
  cases h
  refine ⟨wanted, lo, hi, hread, rfl, rfl, ?_⟩
  cases hsource : req.source with
  | fromCursor cursor =>
    rw [hsource] at hpos
    cases hpos
    exact Or.inl rfl
  | fromAnchor input =>
    simp only [hsource, PositionSource.resolve, resolvePositionsBlocking] at hpos
    cases hanchor : resolveAnchor cluster
        (wanted.filterMap (watermarkOf (offsetsByPartition lo) (offsetsByPartition hi)))
        input req.direction with
    | error e => rw [hanchor] at hpos; cases hpos
    | ok anchor =>
      rw [hanchor] at hpos
      cases hpos
      exact Or.inr ⟨⟨input, rfl⟩, anchor, rfl⟩

end Arne.Timeline
