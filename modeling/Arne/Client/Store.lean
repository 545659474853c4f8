import Arne.Lib.KWayMerge
import Arne.Lib.OrdMap
import Arne.Lib.Bisect
import Arne.Timeline.Window

/-!
# The sliding window store (`lib/timelineStore.ts`)

The rows a reader has loaded, per partition in offset order, with two position maps:
below `bottomMap` older records are read, from `topMap` on newer ones.  The methods of
the closure `createSlidingWindowStore` returns are functions on its variables.
-/

namespace Arne.Client

open Arne.Message Arne.Timeline

/-! ### Cursors (`lib/timelineCursor.ts`) -/

/-- A `Record<number, number>` the way `Object.entries` lists it, keys ascending. -/
def mapToPositions (map : OrdMap Int Int) : List Position :=
  map.entries.insertionSort fun a b => a.1 ≤ b.1

/-- The wire form is base64 of the positions' JSON: a cursor is its positions here. -/
def encodeCursor (positions : List Position) : List Position := positions

/-- A partition listed twice keeps its last offset. -/
def decodeCursor (cursor : List Position) : List Position :=
  mapToPositions (OrdMap.empty.setAll cursor)

/-! ### State -/

/-- `${partition}:${offset}`. -/
def partitionKey (m : MessageOut) : Int × Int := (m.partition, m.offset)

structure InsertOutcome where
  trimmedTop : Nat
  trimmedBottom : Nat
  attached : Bool
  rejectedStale : Bool
deriving DecidableEq, Repr

structure Store where
  cap : Nat
  partitions : OrdMap Int (List MessageOut)
  seen : List (Int × Int)
  bottomMap : OrdMap Int Int
  topMap : OrdMap Int Int
  attached : Bool
  topCompletenessMatters : Bool
  cachedRows : Option (List MessageOut)
deriving DecidableEq, Repr

def createSlidingWindowStore (cap : Nat) : Store :=
  ⟨cap, .empty, [], .empty, .empty, false, false, none⟩

def Store.clear (s : Store) : Store := createSlidingWindowStore s.cap

def Store.totalCount (s : Store) : Nat := (s.partitions.entries.map fun e => e.2.length).sum

/-! ### Merging -/

/-- `ts > bestTs`, where a message without a timestamp counts as `-Infinity`. -/
def newerThan (candidate best : MessageOut) : Bool :=
  match candidate.timestampMs, best.timestampMs with
  | some ts, some bestTs => decide (bestTs < ts)
  | some _, none => true
  | none, _ => false

/-- Newest first: every array is read from its end, and of equal heads the one of the
    smaller partition goes first. -/
def mergeRowsFrom (parts : OrdMap Int (List MessageOut)) : List MessageOut :=
  KWayMerge.merge newerThan
    ((parts.entries.insertionSort fun a b => a.1 ≤ b.1).map fun e => e.2.reverse)

def Store.mergeRows (s : Store) : List MessageOut := mergeRowsFrom s.partitions

def Store.rows (s : Store) : Store × List MessageOut :=
  let merged := s.cachedRows.getD s.mergeRows
  ({ s with cachedRows := some merged }, merged)

/-! ### Inserting and removing rows -/

/-- `map.set(p, Math.min(map.get(p) ?? Infinity, v))`. -/
def lowerTo (map : OrdMap Int Int) (e : Int × Int) : OrdMap Int Int :=
  map.set e.1 ((map.get? e.1).elim e.2 (min · e.2))

/-- `map.set(p, Math.max(map.get(p) ?? -Infinity, v))`. -/
def raiseTo (map : OrdMap Int Int) (e : Int × Int) : OrdMap Int Int :=
  map.set e.1 ((map.get? e.1).elim e.2 (max · e.2))

/-- `if (!map.has(p)) map.set(p, v)`. -/
def seed (map : OrdMap Int Int) (e : Int × Int) : OrdMap Int Int :=
  if map.has e.1 then map else map.set e.1 e.2

/-- The variables of the loop in `insertRows`. -/
structure Inserting where
  partitions : OrdMap Int (List MessageOut)
  seen : List (Int × Int)
  insertedMin : OrdMap Int Int
  insertedMax : OrdMap Int Int
  changed : Bool

def Inserting.insertRow (acc : Inserting) (msg : MessageOut) : Inserting :=
  if partitionKey msg ∈ acc.seen then acc
  else
    { partitions := acc.partitions.set msg.partition
        (Bisect.insert MessageOut.offset ((acc.partitions.get? msg.partition).getD []) msg)
      seen := acc.seen ++ [partitionKey msg]
      insertedMin := lowerTo acc.insertedMin (msg.partition, msg.offset)
      insertedMax := raiseTo acc.insertedMax (msg.partition, msg.offset)
      changed := true }

def Store.inserting (s : Store) : Inserting := ⟨s.partitions, s.seen, .empty, .empty, false⟩

/-- The rows not held yet go in; the maps give the least and greatest new offset of each
    partition that got one. -/
def Store.insertRows (s : Store) (rows : List MessageOut) :
    Store × OrdMap Int Int × OrdMap Int Int :=
  let acc := rows.foldl Inserting.insertRow s.inserting
  ({ s with
      partitions := acc.partitions
      seen := acc.seen
      cachedRows := if acc.changed then none else s.cachedRows },
    acc.insertedMin, acc.insertedMax)

/-- The variables of the loop in `previewWithOverlay`. -/
structure Overlaying where
  temp : OrdMap Int (List MessageOut)
  tempSeen : List (Int × Int)
  cloned : List Int

/-- The array of a partition is copied before the first row goes into it. -/
def Overlaying.addRow (seen : List (Int × Int)) (acc : Overlaying) (msg : MessageOut) : Overlaying :=
  if partitionKey msg ∈ seen ∨ partitionKey msg ∈ acc.tempSeen then acc
  else
    let (temp, cloned) := if msg.partition ∈ acc.cloned then (acc.temp, acc.cloned)
      else (acc.temp.set msg.partition ((acc.temp.get? msg.partition).getD []),
        acc.cloned ++ [msg.partition])
    { temp := temp.set msg.partition
        (Bisect.insert MessageOut.offset ((temp.get? msg.partition).getD []) msg)
      tempSeen := acc.tempSeen ++ [partitionKey msg]
      cloned := cloned }

/-- The rows held merged with rows that are only shown. -/
def Store.previewWithOverlay (s : Store) (extraRows : List MessageOut) : Store × List MessageOut :=
  if extraRows.isEmpty then s.rows
  else (s, mergeRowsFrom (extraRows.foldl (Overlaying.addRow s.seen) ⟨s.partitions, [], []⟩).temp)

/-- `if (idx >= 0) arr.splice(idx, 1)`, with the index of the offset. -/
def spliceOut (arr : List MessageOut) (offset : Int) : List MessageOut :=
  match Bisect.findIndex MessageOut.offset arr offset with
  | some idx => arr.eraseIdx idx
  | none => arr

def Store.removeMessage (s : Store) (msg : MessageOut) : Store :=
  match s.partitions.get? msg.partition with
  | none => s
  | some arr =>
      let left := spliceOut arr msg.offset
      { s with
        partitions := if left.isEmpty then s.partitions.erase msg.partition
          else s.partitions.set msg.partition left
        seen := s.seen.filter (· ≠ partitionKey msg) }

/-! ### The cap -/

inductive CapKind where
  | bottomInsert
  | topInsert
deriving DecidableEq, Repr

/-- `recordTrim`: the offsets trimmed so far, by partition. -/
def recordTrim (trimmedByPartition : OrdMap Int (List Int)) (msg : MessageOut) :
    OrdMap Int (List Int) :=
  trimmedByPartition.set msg.partition
    ((trimmedByPartition.get? msg.partition).getD [] ++ [msg.offset])

/-- `map.set(p, of(offsets))` for every partition trimmed; no list of trimmed offsets is
    empty. -/
def setTrimmed (map : OrdMap Int Int) (trimmedByPartition : OrdMap Int (List Int))
    (of : List Int → Option Int) : OrdMap Int Int :=
  map.setAll (trimmedByPartition.entries.filterMap fun e => (of e.2).map (e.1, ·))

/-- The completeness backfill: one past the last row, for every partition that still
    holds rows and lost none. -/
def backfill (trimmedByPartition : OrdMap Int (List Int)) (partitions : OrdMap Int (List MessageOut)) :
    List (Int × Int) :=
  partitions.entries.filterMap fun e =>
    if trimmedByPartition.has e.1 then none
    else e.2.getLast?.map fun last => (e.1, last.offset + 1)

/-- Rows over the cap go from the end opposite the one that grew, and the map of that end
    is set from exactly the rows that went.  Losing newest rows detaches the window. -/
def Store.enforceCap (s : Store) (kind : CapKind) : Store × InsertOutcome :=
  let excess := s.totalCount - s.cap
  if excess = 0 then (s, ⟨0, 0, s.attached, false⟩)
  else
    let merged := s.mergeRows
    match kind with
    | .bottomInsert =>
        let gone := merged.take excess
        let trimmedByPartition := gone.foldl recordTrim .empty
        let left := gone.foldl Store.removeMessage s
        ({ left with
            topMap := (setTrimmed s.topMap trimmedByPartition List.min?).setAll
              (backfill trimmedByPartition left.partitions)
            attached := false
            cachedRows := none },
          ⟨excess, 0, false, false⟩)
    | .topInsert =>
        let gone := merged.reverse.take excess
        let trimmedByPartition := gone.foldl recordTrim .empty
        let left := gone.foldl Store.removeMessage s
        ({ left with
            bottomMap := setTrimmed s.bottomMap trimmedByPartition fun xs => xs.max?.map (· + 1)
            cachedRows := none },
          ⟨0, excess, s.attached, false⟩)

/-! ### Pages and live rows -/

/-- Has the map on the page's own side moved past what the page assumed? -/
def Store.isStale (s : Store) (direction : Direction) (startPositions : Option (List Position)) :
    Bool :=
  match startPositions with
  | none => false
  | some positions =>
      positions.any fun e =>
        match direction with
        | .back => match s.bottomMap.get? e.1 with
          | some current => decide (e.2 < current)
          | none => false
        | .forward => match s.topMap.get? e.1 with
          | some current => decide (current < e.2)
          | none => false

def mergeCursorInto (map : OrdMap Int Int) (cursor : List Position) : OrdMap Int Int :=
  map.setAll (decodeCursor cursor)

/-- The anchor page's seed of the side it did not read. -/
def Store.seedOpposite (s : Store) (direction : Direction) (attach : Bool)
    (insertedMin insertedMax : OrdMap Int Int) : Store :=
  match direction with
  | .back =>
      { s with
        topCompletenessMatters := s.topCompletenessMatters || !attach
        topMap := (insertedMax.entries.map fun e => (e.1, e.2 + 1)).foldl seed s.topMap }
  | .forward => { s with bottomMap := insertedMin.entries.foldl seed s.bottomMap }

/-- The page's own side: first from the rows, then from the cursor where there is one. -/
def Store.extend (s : Store) (direction : Direction) (contCursor : Option (List Position))
    (insertedMin insertedMax : OrdMap Int Int) : Store :=
  let merge (map : OrdMap Int Int) := contCursor.elim map (mergeCursorInto map)
  match direction with
  | .back => { s with bottomMap := merge (insertedMin.entries.foldl lowerTo s.bottomMap) }
  | .forward =>
      { s with
        topMap := merge ((insertedMax.entries.map fun e => (e.1, e.2 + 1)).foldl raiseTo s.topMap) }

/-- The page's attached transition. -/
def Store.attachedAfter (s : Store) (direction : Direction) (anchored attach exhausted : Bool) :
    Bool :=
  match direction with
  | .back => (anchored && attach) || s.attached
  | .forward => exhausted || s.attached

/-- `insertPage` up to the cap. -/
def Store.mergePage (s : Store) (rows : List MessageOut) (direction : Direction)
    (startPositions contCursor : Option (List Position)) (attach : Bool) : Store :=
  let (inserted, insertedMin, insertedMax) := s.insertRows rows
  let seeded := if startPositions.isNone then
      inserted.seedOpposite direction attach insertedMin insertedMax
    else inserted
  let extended := seeded.extend direction contCursor insertedMin insertedMax
  { extended with
    attached := s.attachedAfter direction startPositions.isNone attach contCursor.isNone }

def capKindOf : Direction → CapKind
  | .back => .bottomInsert
  | .forward => .topInsert

def Store.insertPage (s : Store) (rows : List MessageOut) (direction : Direction)
    (startPositions contCursor : Option (List Position)) (attach : Bool) : Store × InsertOutcome :=
  if s.isStale direction startPositions then (s, ⟨0, 0, s.attached, true⟩)
  else (s.mergePage rows direction startPositions contCursor attach).enforceCap (capKindOf direction)

/-- `insertLive` up to the cap, for an attached store. -/
def Store.mergeLive (s : Store) (rows : List MessageOut) : Store :=
  let safeRows := rows.filter fun r => (s.bottomMap.get? r.partition).all (· ≤ r.offset)
  let (inserted, _, insertedMax) := s.insertRows safeRows
  { inserted with
    topMap := (insertedMax.entries.map fun e => (e.1, e.2 + 1)).foldl raiseTo inserted.topMap }

def Store.insertLive (s : Store) (rows : List MessageOut) : Except String (Store × InsertOutcome) :=
  if !s.attached then
    .error ("insertLive called while detached: live rows must be buffered by the caller until " ++
      "the window re-attaches (isAttached() / InsertOutcome.attached becomes true)")
  else .ok ((s.mergeLive rows).enforceCap .topInsert)

structure Edges where
  top : Option (List Position)
  bottom : Option (List Position)
deriving DecidableEq, Repr

def Store.topComplete (s : Store) : Bool :=
  !s.topCompletenessMatters || s.bottomMap.keys.all s.topMap.has

def Store.edges (s : Store) : Edges where
  bottom := if s.bottomMap.size = 0 then none else some (encodeCursor (mapToPositions s.bottomMap))
  top := if s.attached || s.topMap.size = 0 || !s.topComplete then none
    else some (encodeCursor (mapToPositions s.topMap))

end Arne.Client
