import Arne.Timeline.Merge
import Arne.Message.Filter

/-!
# The page engine (`timeline/engine.rs`, `timeline/event.rs`)

`run_page` is a task that reads chunks of a topic and sends events until the page
ends.  What the task does not decide itself is a parameter: what a scan of the
windows returns, and what the client does (`Client`).  The loop is fuelled; that
the fuel it is given suffices is `runPage_isSome`.
-/

namespace Arne.Timeline

open Arne.Message MachineWord

inductive TimelineEvent where
  | «match» (m : MessageOut)
  | progress (scanned matches_ budget : Nat)
  | pageEnd (cursor : Option Cursor) (exhausted : Bool)
  | error (code message : String) (cluster : Option String) (retriable : Bool)
deriving DecidableEq, Repr

def TimelineEvent.ofApiError (e : ApiError) : TimelineEvent :=
  .error e.code e.message e.cluster e.retriable

/-- A chunk made no progress when nothing was taken, some window was left
    incomplete and the scan was not cancelled. -/
def pageMadeNoProgress (takenIsEmpty anyIncompleteWindow cancelled : Bool) : Bool :=
  takenIsEmpty && anyIncompleteWindow && !cancelled

def noProgressMessage : String :=
  "the cluster didn't return new records within the fetch deadline"

def noProgressError (cluster : String) : ApiError :=
  ApiError.fetchDeadline cluster noProgressMessage

/-- `CHUNK_SPAN`. -/
def chunkSpanMax : Nat := 5000

/-- `PROGRESS_INTERVAL`. -/
def progressInterval : Nat := 2000

def midChunkProgress (totalScanned recordsPoppedThisChunk : Nat) : Option Nat :=
  if 0 < recordsPoppedThisChunk ∧ recordsPoppedThisChunk % progressInterval = 0 then
    some (totalScanned + recordsPoppedThisChunk)
  else none

structure PageRequest where
  positions : List Position
  watermarks : List Watermark
  direction : Direction
  limit : Nat
  filter : Option Filter
  budget : Nat

/-- What the types of the fields say: the watermarks are words, and so is the limit. -/
structure PageRequest.Typed (req : PageRequest) : Prop where
  watermarks : ∀ w ∈ req.watermarks, FitsI64 w.2.1 ∧ FitsI64 w.2.2
  limit : req.limit < 2 ^ 64

/-- What the engine uses of a `ClusterHandle`. -/
structure ClusterHandle where
  name : String
  decoder : Decoder
  text : TextEnv

/-- The client at the other end: whether it has disconnected when chunk `n` looks,
    at the head of the loop and after its merge, and whether send `n` still
    finds it.  A disconnect is never taken back. -/
structure Client where
  cancelledAtHead : Nat → Bool
  cancelledAfterMerge : Nat → Bool
  accepts : Nat → Bool
  sticky : ∀ n, cancelledAfterMerge n = true → cancelledAtHead (n + 1) = true

/-- A client that stays to the end. -/
def Client.connected : Client where
  cancelledAtHead := fun _ => false
  cancelledAfterMerge := fun _ => false
  accepts := fun _ => true
  sticky := by simp

/-- A call of `run_page`, with the answer of every scan it may make. -/
structure PageCall where
  handle : ClusterHandle
  req : PageRequest
  scanChunk : Nat → List PartitionRange → Except ApiError FetchOutcome
  client : Client

/-- `let budget = budget.max(1)`. -/
def PageCall.budget (call : PageCall) : Nat := max call.req.budget 1

/-! ### Planning a chunk -/

/-- A position counts as active when it has watermarks and is away from its edge. -/
def isActive (watermarks : List Watermark) (direction : Direction) (position : Position) : Bool :=
  match findWatermark watermarks position.1 with
  | some (lo, hi) => !atEdge position.2 lo hi direction
  | none => false

def chunkSpan (filter : Option Filter) (chunkIndex limit remainingBudget : Nat)
    (positions : List Position) (watermarks : List Watermark) (direction : Direction) : Nat :=
  let activePartitions := positions.countP (isActive watermarks direction)
  let perPartitionShare := max (remainingBudget / max activePartitions 1) 1
  let baseSpan := if filter.isNone && chunkIndex == 0 then limit else chunkSpanMax
  max (min baseSpan perPartitionShare) 1

def planChunkWindows (positions : List Position) (watermarks : List Watermark)
    (direction : Direction) (span remainingBudget : Nat) : List PartitionRange :=
  capWindowsToBudget (pageWindows positions watermarks direction span) remainingBudget

/-! ### Trusted streams -/

/-- `v.sort_by_key(|r| r.offset)`. -/
def sortByOffset (records : List RawRecord) : List RawRecord :=
  records.insertionSort fun a b => a.offset ≤ b.offset

/-- Offset-ascending records, nearest to the position first. -/
def adjacentFirst {α : Type} (direction : Direction) (l : List α) : List α :=
  match direction with
  | .back => l.reverse
  | .forward => l

def trustAsIs (complete : List Int) (direction : Direction) (w : PartitionRange)
    (fetched : List RawRecord) : Bool :=
  complete.contains w.partition || fetched.any fun r => r.offset == adjacentOffset w direction

/-- The stream of a window: what was fetched for its partition, if the window is
    complete or its adjacent record arrived; nothing otherwise. -/
def trustedStream (complete : List Int) (direction : Direction) (w : PartitionRange)
    (fetched : List RawRecord) : List RawRecord :=
  if trustAsIs complete direction w (sortByOffset fetched) then
    adjacentFirst direction (sortByOffset fetched)
  else []

/-- `by_partition.remove` hands a partition's records to its first window; they
    are gone for a later window of the same partition. -/
def partitionStreams (complete : List Int) (direction : Direction) :
    List RawRecord → List PartitionRange → List (List RawRecord)
  | _, [] => []
  | records, w :: windows =>
      trustedStream complete direction w (records.filter (·.partition == w.partition)) ::
        partitionStreams complete direction (records.filter (·.partition != w.partition)) windows

def selectPartitionStreams (outcome : FetchOutcome) (windows : List PartitionRange)
    (direction : Direction) : List (List RawRecord) × List Bool :=
  (partitionStreams outcome.complete direction outcome.records windows,
    windows.map fun w => outcome.complete.contains w.partition)

/-! ### The merge of a chunk -/

/-- The filter's verdict on a decoded message; no filter keeps everything. -/
def keeps (handle : ClusterHandle) (filter : Option Filter) (m : MessageOut) : Bool :=
  match filter with
  | none => true
  | some f => f.matches handle.text m

/-- The running values of a page at the start of a chunk. -/
structure MergeChunkArgs where
  totalMatches : Nat
  totalScanned : Nat

/-- The local variables of `merge_chunk_records`.  Of the popped records the code
    keeps the count only. -/
structure ChunkTaken where
  streams : List (List RawRecord)
  popped : List RawRecord
  matches_ : List MessageOut
  takenMin : List (Option Int)
  takenMax : List (Option Int)
  sent : List TimelineEvent

def ChunkTaken.anyTaken (t : ChunkTaken) : Bool := !t.popped.isEmpty

/-- Pop `rec` from stream `i`: note its offset, decode it, keep it if it matches. -/
def ChunkTaken.pop (call : PageCall) (t : ChunkTaken) (i : Nat) (rec : RawRecord) : ChunkTaken :=
  let decoded := toOneMessageOut call.handle.decoder rec
  { t with
    streams := KWayMerge.popAt i t.streams
    popped := t.popped ++ [rec]
    matches_ := if keeps call.handle call.req.filter decoded then t.matches_ ++ [decoded]
      else t.matches_
    takenMin := t.takenMin.modify i fun m => some (m.elim rec.offset (min · rec.offset))
    takenMax := t.takenMax.modify i fun m => some (m.elim rec.offset (max · rec.offset)) }

/-- The merge loop; the flag says whether the client is still there. -/
def mergeLoop (call : PageCall) (args : MergeChunkArgs) : Nat → ChunkTaken → ChunkTaken × Bool
  | 0, t => (t, true)
  | fuel + 1, t =>
      if call.req.limit ≤ args.totalMatches + t.matches_.length then (t, true)
      else
        match KWayMerge.pick (mergePrefers call.req.direction) t.streams with
        | none => (t, true)
        | some (i, rec) =>
            let t := t.pop call i rec
            match midChunkProgress args.totalScanned t.popped.length with
            | none => mergeLoop call args fuel t
            | some scanned =>
                if call.client.accepts t.sent.length then
                  mergeLoop call args fuel
                    { t with sent := t.sent ++ [.progress scanned
                        (args.totalMatches + t.matches_.length) call.budget] }
                else (t, false)

/-- One pop a round: the records in the streams bound the rounds. -/
def mergeChunkRecords (call : PageCall) (args : MergeChunkArgs) (streams : List (List RawRecord))
    (sent : List TimelineEvent) : ChunkTaken × Bool :=
  mergeLoop call args (KWayMerge.size streams)
    { streams := streams
      popped := []
      matches_ := []
      takenMin := List.replicate streams.length none
      takenMax := List.replicate streams.length none
      sent := sent }

/-! ### Committing a chunk -/

/-- The boundary a drained complete window jumps to. -/
def windowEdge (w : PartitionRange) (direction : Direction) : Int :=
  match direction with
  | .back => w.start
  | .forward => w.end_

def advancePosition (windows : List PartitionRange) (isComplete : List Bool) (taken : ChunkTaken)
    (direction : Direction) (position : Position) : Position :=
  match windows.findIdx? fun w => w.partition == position.1 with
  | none => position
  | some i =>
      match windows[i]? with
      | none => position
      | some w =>
          if isComplete.getD i false && (taken.streams.getD i []).isEmpty then
            (position.1, windowEdge w direction)
          else
            match direction with
            | .back =>
                match taken.takenMin.getD i none with
                | some minOffset => (position.1, minOffset)
                | none => position
            | .forward =>
                match taken.takenMax.getD i none with
                | some maxOffset => (position.1, maxOffset + 1)
                | none => position

def advancePositions (curPositions : List Position) (windows : List PartitionRange)
    (isComplete : List Bool) (taken : ChunkTaken) (direction : Direction) : List Position :=
  curPositions.map (advancePosition windows isComplete taken direction)

/-- The offsets each position advanced over, holes included. -/
def chargeBudget (oldPositions newPositions : List Position) : Nat :=
  (List.zipWith (fun old new => (old.2 - new.2).natAbs) oldPositions newPositions).sum

def allPartitionsAtEdge (positions : List Position) (watermarks : List Watermark)
    (direction : Direction) : Bool :=
  positions.all fun position =>
    match findWatermark watermarks position.1 with
    | some (lo, hi) => atEdge position.2 lo hi direction
    | none => false

/-- Send events until one finds the client gone. -/
def sendAll (client : Client) : List TimelineEvent → List TimelineEvent → List TimelineEvent × Bool
  | sent, [] => (sent, true)
  | sent, e :: events =>
      if client.accepts sent.length then sendAll client (sent ++ [e]) events else (sent, false)

/-- The matches of a chunk in display order, then its progress. -/
def emitChunk (call : PageCall) (sent : List TimelineEvent) (matches_ : List MessageOut)
    (totalScanned totalMatches : Nat) : List TimelineEvent × Bool :=
  sendAll call.client sent
    ((chunkDisplayOrder matches_ call.req.direction).map TimelineEvent.match ++
      [.progress totalScanned totalMatches call.budget])

/-! ### The page -/

/-- A committed chunk, as the page's own variables saw it. -/
structure ChunkLog where
  windows : List PartitionRange
  popped : List RawRecord
  oldPositions : List Position
  newPositions : List Position
deriving Repr

structure PageState where
  curPositions : List Position
  totalMatches : Nat
  totalScanned : Nat
  chunkIndex : Nat
  exhausted : Bool
  sent : List TimelineEvent
  -- the chunks committed so far; no variable of the source
  chunks : List ChunkLog

/-- How an iteration leaves the loop. -/
inductive Flow where
  | next
  | broke
  | failed (e : ApiError)
  | clientGone
deriving DecidableEq, Repr

def PageState.start (call : PageCall) : PageState where
  curPositions := clampPositions call.req.positions call.req.watermarks
  totalMatches := 0
  totalScanned := 0
  chunkIndex := 0
  exhausted := false
  sent := []
  chunks := []

def PageState.remainingBudget (call : PageCall) (s : PageState) : Nat :=
  call.budget - s.totalScanned

def PageState.span (call : PageCall) (s : PageState) : Nat :=
  chunkSpan call.req.filter s.chunkIndex call.req.limit (s.remainingBudget call)
    s.curPositions call.req.watermarks call.req.direction

/-- The windows the next chunk asks for. -/
def PageState.windows (call : PageCall) (s : PageState) : List PartitionRange :=
  planChunkWindows s.curPositions call.req.watermarks call.req.direction (s.span call)
    (s.remainingBudget call)

/-- The merge of the chunk whose scan returned `outcome`. -/
def PageState.merge (call : PageCall) (s : PageState) (outcome : FetchOutcome) :
    ChunkTaken × Bool :=
  mergeChunkRecords call ⟨s.totalMatches, s.totalScanned⟩
    (selectPartitionStreams outcome (s.windows call) call.req.direction).1 s.sent

/-- The completeness flags of the chunk's windows. -/
def PageState.isComplete (call : PageCall) (s : PageState) (outcome : FetchOutcome) : List Bool :=
  (selectPartitionStreams outcome (s.windows call) call.req.direction).2

def PageState.advance (call : PageCall) (s : PageState) (outcome : FetchOutcome)
    (taken : ChunkTaken) : List Position :=
  advancePositions s.curPositions (s.windows call) (s.isComplete call outcome) taken
    call.req.direction

/-- Commit the chunk and emit it. -/
def PageState.commit (call : PageCall) (s : PageState) (outcome : FetchOutcome)
    (taken : ChunkTaken) : PageState × Flow :=
  let newPositions := s.advance call outcome taken
  let totalScanned := s.totalScanned + chargeBudget s.curPositions newPositions
  let totalMatches := s.totalMatches + taken.matches_.length
  let exhausted := allPartitionsAtEdge newPositions call.req.watermarks call.req.direction
  let (sent, delivered) := emitChunk call taken.sent taken.matches_ totalScanned totalMatches
  ({ curPositions := newPositions
     totalMatches := totalMatches
     totalScanned := totalScanned
     chunkIndex := s.chunkIndex + 1
     exhausted := exhausted
     sent := sent
     chunks := s.chunks ++ [⟨s.windows call, taken.popped, s.curPositions, newPositions⟩] },
    if !delivered then .clientGone else if exhausted then .broke else .next)

def chunkStep (call : PageCall) (s : PageState) : PageState × Flow :=
  if call.req.limit ≤ s.totalMatches ∨ call.budget ≤ s.totalScanned then (s, .broke)
  else if call.client.cancelledAtHead s.chunkIndex then (s, .clientGone)
  else if (s.windows call).isEmpty then ({ s with exhausted := true }, .broke)
  else
    match call.scanChunk s.chunkIndex (s.windows call) with
    | .error e => (s, .failed e)
    | .ok outcome =>
        match s.merge call outcome with
        | (taken, false) => ({ s with sent := taken.sent }, .clientGone)
        | (taken, true) =>
            if pageMadeNoProgress (!taken.anyTaken) ((s.isComplete call outcome).any (!·))
                (call.client.cancelledAfterMerge s.chunkIndex) then
              ({ s with sent := taken.sent }, .failed (noProgressError call.handle.name))
            else s.commit call outcome taken

def chunkLoop (call : PageCall) : Nat → PageState → Option (PageState × Flow)
  | 0, _ => none
  | fuel + 1, s =>
      match chunkStep call s with
      | (s', .next) => chunkLoop call fuel s'
      | left => some left

/-- How the task ended. -/
inductive PageEnding where
  | pageEnd (cursor : Option Cursor) (exhausted : Bool)
  | failed (e : ApiError)
  | clientGone
deriving DecidableEq, Repr

structure PageRun where
  /-- What the client received. -/
  events : List TimelineEvent
  ending : PageEnding
  /-- The page's variables as the loop left them. -/
  last : PageState

def resumeCursor (call : PageCall) (s : PageState) : Option Cursor :=
  if s.exhausted then none else some ⟨call.req.direction, s.curPositions⟩

/-- What follows the loop: the last event, whether or not it still arrives. -/
def finishPage (call : PageCall) (s : PageState) (flow : Flow) : PageRun :=
  match flow with
  | .failed e =>
      ⟨(sendAll call.client s.sent [TimelineEvent.ofApiError e]).1, .failed e, s⟩
  | .clientGone => ⟨s.sent, .clientGone, s⟩
  | _ =>
      let cursor := resumeCursor call s
      ⟨(sendAll call.client s.sent [.pageEnd cursor s.exhausted]).1,
        .pageEnd cursor s.exhausted, s⟩

/-- Every iteration but a cancelled one advances, so two more than the budget
    are enough. -/
def runPage (call : PageCall) : Option PageRun :=
  (chunkLoop call (call.budget + 2) (PageState.start call)).map fun left =>
    finishPage call left.1 left.2

end Arne.Timeline
