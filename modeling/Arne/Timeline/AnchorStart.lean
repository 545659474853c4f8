import Arne.Timeline.Fetch
import Arne.Timeline.Request
import Mathlib.Order.Bounds.Basic

/-!
# Where an anchor starts (`timeline/anchor.rs`, `timeline/window.rs`, `api/messages.rs`)

A position is an exclusive bound for a page that reads back and an inclusive one for a page
that reads forward, so the anchor of a message is put one past it when its page reads back.
That sum, and the one that makes a range of a single offset, are taken of the number a
client asked for, and the one number that has no successor wraps to the far end of the
integers.  A window that would end past them wraps too.
-/

namespace Arne.Timeline

open Arne.Message Arne.SortedLog MachineWord

/-! ### Numbers of a query string -/

/-- The digits of a number, of which there is at least one. -/
def parseDigits (digits : List Char) : Option Nat :=
  if digits ≠ [] ∧ digits.all Char.isDigit then
    some (digits.foldl (fun n c => n * 10 + (c.toNat - '0'.toNat)) 0)
  else none

/-- `str::parse` of an integer type with the bounds `lo` and `hi`. -/
def parseNumber (lo hi : Int) (text : String) : Option Int :=
  let value : Option Int := match text.toList with
    | '+' :: digits => (parseDigits digits).map Int.ofNat
    | '-' :: digits => if lo < 0 then (parseDigits digits).map fun n => -Int.ofNat n else none
    | digits => (parseDigits digits).map Int.ofNat
  value.filter fun n => decide (lo ≤ n) && decide (n ≤ hi)

def parseNumericField (lo hi : Int) (field : String) (raw : Option String) :
    Except ApiError (Option Int) :=
  match raw with
  | none => .ok none
  | some s =>
      match parseNumber lo hi s with
      | some n => .ok (some n)
      | none => .error (ApiError.badRequest (field ++ ": invalid number '" ++ s ++ "'"))

/-- The numbers among the parameters, as the query string has them. -/
structure RawTimelineParams where
  limit : Option String
  partition : Option String
  offset : Option String
  tsMs : Option String
deriving DecidableEq, Repr

structure TimelineParams where
  limit : Option Int
  partition : Option Int
  offset : Option Int
  tsMs : Option Int
deriving DecidableEq, Repr

def parseRaw (raw : RawTimelineParams) : Except ApiError TimelineParams := do
  let limit ← parseNumericField 0 (2 ^ 64 - 1) "limit" raw.limit
  let partition ← parseNumericField (-2 ^ 31) (2 ^ 31 - 1) "partition" raw.partition
  let offset ← parseNumericField (-2 ^ 63) (2 ^ 63 - 1) "offset" raw.offset
  let tsMs ← parseNumericField (-2 ^ 63) (2 ^ 63 - 1) "ts_ms" raw.tsMs
  .ok ⟨limit, partition, offset, tsMs⟩

/-- A field that the anchor cannot do without. -/
def requiredField (anchor field : String) : Option Int → Except ApiError Int
  | some n => .ok n
  | none => .error (ApiError.badRequest ("anchor=" ++ anchor ++ " requires " ++ field))

/-- `parse_anchor_input`, for a request that has an anchor. -/
def parseAnchorInput (anchor : String) (params : TimelineParams) :
    Except ApiError TimelineAnchorInput :=
  if anchor = "latest" then .ok .latest
  else if anchor = "beginning" then .ok .beginning
  else if anchor = "offset" then do
    let partition ← requiredField "offset" "partition" params.partition
    let offset ← requiredField "offset" "offset" params.offset
    .ok (.offset partition offset)
  else if anchor = "timestamp" then do
    let tsMs ← requiredField "timestamp" "ts_ms" params.tsMs
    .ok (.timestamp tsMs)
  else .error (ApiError.badRequest ("unknown anchor '" ++ anchor ++ "'"))

theorem parseNumericField_fits {lo hi : Int} {field : String} {raw : Option String} {n : Int}
    (h : parseNumericField lo hi field raw = .ok (some n)) : lo ≤ n ∧ n ≤ hi := by
  cases raw with
  | none => cases h
  | some s =>
    rw [parseNumericField] at h
    cases hparse : parseNumber lo hi s with
    | none =>
      simp only [hparse] at h
      cases h
    | some m =>
      simp only [hparse, Except.ok.injEq, Option.some.injEq] at h
      subst h
      have hfits := (Option.filter_eq_some_iff.mp hparse).2
      simpa using hfits

/-- The only check of the offset of an anchor is that it is a number. -/
theorem parseAnchorInput_fits {raw : RawTimelineParams} {params : TimelineParams} {anchor : String}
    {partition offset : Int} (hraw : parseRaw raw = .ok params)
    (h : parseAnchorInput anchor params = .ok (.offset partition offset)) : FitsI64 offset := by
  obtain ⟨limit, _, hraw⟩ := except_bind_ok hraw
  obtain ⟨partition', _, hraw⟩ := except_bind_ok hraw
  obtain ⟨offset', hoffset, hraw⟩ := except_bind_ok hraw
  obtain ⟨tsMs, _, hraw⟩ := except_bind_ok hraw
  cases hraw
  unfold parseAnchorInput at h
  split at h
  · cases h
  split at h
  · cases h
  split at h
  · obtain ⟨p, _, h⟩ := except_bind_ok h
    obtain ⟨o, ho, h⟩ := except_bind_ok h
    cases h
    cases offset' with
    | none => cases ho
    | some o =>
      cases ho
      exact parseNumericField_fits hoffset
  split at h
  · obtain ⟨ts, _, h⟩ := except_bind_ok h
    cases h
  · cases h

/-! ### The sums -/

/-- `Anchor.position` with checked sums. -/
def Anchor.position? (anchor : Anchor) (w : Watermark) : Option Int :=
  match anchor with
  | .offset partition o => if w.1 = partition then checkedAdd o 1 else some w.2.2
  | anchor => some (anchor.position w)

/-- `initial_positions` with checked sums. -/
def initialPositions? (watermarks : List Watermark) (anchor : Anchor) : Option (List Position) :=
  watermarks.mapM fun w => (anchor.position? w).map fun pos => (w.1, pos)

/-- The range of `fetch_one_record_blocking`. -/
def oneRecordRange (partition offset : Int) : PartitionRange :=
  ⟨partition, offset, wrappingAdd offset 1⟩

def oneRecordRange? (partition offset : Int) : Option PartitionRange :=
  (checkedAdd offset 1).map fun stop => ⟨partition, offset, stop⟩

/-- `fetch_one_record_blocking`. -/
def fetchOneRecord (setup : Except ApiError Unit) (partition offset : Int) (turns : List Turn) :
    Option (Except ApiError (Option RawRecord)) :=
  (fetchRanges setup [oneRecordRange partition offset] 1 turns).map fun result =>
    result.map fun outcome => outcome.records.head?

/-- The sums taken of the requested offset on the way to the positions do not overflow: the
    one that puts an anchored message below a bound, and for a forward anchor the one that
    fetched it. -/
def SumsFit (watermarks : List Watermark) (anchor : Anchor) : Prop :=
  (initialPositions? watermarks anchor).isSome ∧
    match anchor with
    | .offsetForwardAligned partition o _ => (oneRecordRange? partition o).isSome
    | _ => True

/-- What a fetch of one record returns is the record there. -/
theorem fetchOneRecord_exact {topic : Topic} {partition offset : Int} {turns : List Turn}
    (hpolls : Consistent topic (assigned [oneRecordRange partition offset]) (turns.map Turn.poll))
    (hoffset : FitsI64 offset) (hmax : offset ≠ 2 ^ 63 - 1) {setup : Except ApiError Unit}
    {r : RawRecord} (h : fetchOneRecord setup partition offset turns = some (.ok (some r))) :
    r ∈ topic.log partition ∧ r.offset = offset := by
  have hstop : wrappingAdd offset 1 = offset + 1 := by
    obtain ⟨h1, h2⟩ := hoffset
    exact wrappingAdd_of_fits ⟨by omega, by omega⟩
  have hd : Distinct [oneRecordRange partition offset] := List.nodup_singleton _
  rw [fetchOneRecord] at h
  cases setup with
  | error e =>
    rw [fetchRanges] at h
    split at h
    · cases h
    · cases h
  | ok =>
    obtain ⟨n, s, hrun, hfetched⟩ := fetchRanges_ok hd hpolls 1
    rw [hrun] at h
    have hhead : s.out.head? = some r := by simpa [Except.map] using h
    have hr : r ∈ s.out := List.mem_of_head? hhead
    obtain ⟨w, hw, hp⟩ := hfetched.requested (hpolls.take n) hr
    obtain ⟨hw, _⟩ := mem_assigned.mp hw
    obtain rfl := List.mem_singleton.mp hw
    have hslice := (hfetched.prefix_slice hd (hpolls.take n) hw).subset
      (List.mem_filter.mpr ⟨hr, by simp [hp]⟩)
    obtain ⟨hlog, h1, h2⟩ := Topic.mem_slice.mp hslice
    simp only [oneRecordRange, hstop] at hlog h1 h2
    exact ⟨hlog, by omega⟩

/-! ### Where a page starts -/

/-- The offsets of a partition on the far side of an anchor. -/
def Anchor.Reads (anchor : Anchor) (direction : Direction) (w : Watermark) (x : Int) : Prop :=
  w.2.1 ≤ x ∧ x < w.2.2 ∧
    match anchor, direction with
    | .latest, .back => True
    | .latest, .forward => False
    | .beginning, .back => False
    | .beginning, .forward => True
    | .offset partition o, .back => w.1 = partition → x ≤ o
    | .offset partition o, .forward => w.1 = partition ∧ o < x
    | .timestampResolved resolved, .back =>
        ∀ o, (resolved.find? (·.1 == w.1)).bind Prod.snd = some o → x < o
    | .timestampResolved resolved, .forward =>
        ∃ o, (resolved.find? (·.1 == w.1)).bind Prod.snd = some o ∧ o ≤ x
    | .offsetForwardAligned partition o aligned, .back =>
        if w.1 = partition then x < o
        else ∀ o', (aligned.find? (·.1 == w.1)).bind Prod.snd = some o' → x < o'
    | .offsetForwardAligned partition o aligned, .forward =>
        if w.1 = partition then o ≤ x
        else ∃ o', (aligned.find? (·.1 == w.1)).bind Prod.snd = some o' ∧ o' ≤ x

/-- The next one in the direction of the page. -/
def Nearest (direction : Direction) (offsets : Set Int) (x : Int) : Prop :=
  match direction with
  | .back => IsGreatest offsets x
  | .forward => IsLeast offsets x

/-- The first offset a page of windows of `span` offsets reads of a partition. -/
def FirstRead (positions : List Position) (watermarks : List Watermark) (direction : Direction)
    (span : Nat) (p x : Int) : Prop :=
  ∃ w ∈ positions.filterMap (pageWindow watermarks direction span),
    w.partition = p ∧ adjacentOffset w direction = x

/-- The positions of a fresh page. -/
def freshPositions (watermarks : List Watermark) (anchor : Anchor) : List Position :=
  clampPositions (initialPositions watermarks anchor) watermarks

/-- An anchor lands where it says: every partition has a position between its watermarks,
    from which the first offset read is the nearest one on the far side of the anchor, if
    there is one, and no sum of the requested offset overflows. -/
structure Lands (watermarks : List Watermark) (direction : Direction) (span : Nat)
    (anchor : Anchor) : Prop where
  named : (freshPositions watermarks anchor).map Prod.fst = watermarks.map Prod.fst
  inside : ∀ e ∈ freshPositions watermarks anchor, ∃ w ∈ watermarks,
    w.1 = e.1 ∧ w.2.1 ≤ e.2 ∧ e.2 ≤ w.2.2
  first : ∀ w ∈ watermarks, ∀ x,
    FirstRead (freshPositions watermarks anchor) watermarks direction span w.1 x ↔
      Nearest direction {y | anchor.Reads direction w y} x
  sums : SumsFit watermarks anchor

/-- The requested offset has a successor where one is taken. -/
def HasSuccessor (watermarks : List Watermark) : Anchor → Prop
  | .offset partition o => partition ∈ watermarks.map Prod.fst → o ≠ 2 ^ 63 - 1
  | .offsetForwardAligned _ o _ => o ≠ 2 ^ 63 - 1
  | _ => True

/-- The first window of a page that reads forward ends at a number of 64 bits. -/
def WindowFits (watermarks : List Watermark) (direction : Direction) (span : Nat)
    (anchor : Anchor) : Prop :=
  direction = .forward → ∀ w ∈ watermarks, ∀ x,
    Nearest .forward {y | anchor.Reads .forward w y} x → x + span ≤ 2 ^ 63 - 1

/-- Watermarks of a topic: every partition once, offsets in order and of 64 bits. -/
structure Plausible (watermarks : List Watermark) : Prop where
  distinct : (watermarks.map Prod.fst).Nodup
  nonneg : ∀ w ∈ watermarks, 0 ≤ w.2.1
  ordered : ∀ w ∈ watermarks, w.2.1 ≤ w.2.2
  fits : ∀ w ∈ watermarks, FitsI64 w.2.2

/-- The offset an anchor was requested with is a number of the query string. -/
def Anchor.FromQuery : Anchor → Prop
  | .offset _ o => FitsI64 o
  | .offsetForwardAligned _ o _ => FitsI64 o
  | _ => True

/-- The bound of the offsets an anchor reads. -/
def Anchor.bound (anchor : Anchor) (w : Watermark) : Int :=
  match anchor with
  | .offset partition o => if w.1 = partition then o + 1 else w.2.2
  | anchor => anchor.position w

section

variable {watermarks : List Watermark} {anchor : Anchor} {direction : Direction}

theorem Anchor.position_eq_bound (hquery : anchor.FromQuery) (h : HasSuccessor watermarks anchor)
    {w : Watermark} (hw : w ∈ watermarks) : anchor.position w = anchor.bound w := by
  cases anchor with
  | offset partition o =>
    simp only [position, bound]
    split
    · rename_i hp
      have hne := h (hp ▸ List.mem_map_of_mem hw)
      obtain ⟨hmin, hmax⟩ := hquery
      exact wrappingAdd_of_fits ⟨by omega, by omega⟩
    · rfl
  | latest => rfl
  | beginning => rfl
  | timestampResolved => rfl
  | offsetForwardAligned => rfl

theorem initialPositions?_isSome :
    (initialPositions? watermarks anchor).isSome ↔
      ∀ w ∈ watermarks, (anchor.position? w).isSome := by
  rw [initialPositions?]
  induction watermarks with
  | nil => simp
  | cons w watermarks ih =>
    rw [List.mapM_cons, List.forall_mem_cons, ← ih]
    cases anchor.position? w with
    | none => simp
    | some pos =>
      cases watermarks.mapM fun w => (anchor.position? w).map fun pos => (w.1, pos) <;> simp

/-- The sums fit exactly when the requested offset has a successor. -/
theorem sumsFit_iff (hquery : anchor.FromQuery) :
    SumsFit watermarks anchor ↔ HasSuccessor watermarks anchor := by
  have hsum : ∀ n, FitsI64 n → ((checkedAdd n 1).isSome ↔ n ≠ 2 ^ 63 - 1) := by
    intro n hn
    rw [checkedAdd_one hn]
    split <;> simp_all
  unfold SumsFit
  rw [initialPositions?_isSome]
  cases anchor with
  | latest => simp [Anchor.position?, HasSuccessor]
  | beginning => simp [Anchor.position?, HasSuccessor]
  | timestampResolved resolved => simp [Anchor.position?, HasSuccessor]
  | offset partition o =>
    simp only [Anchor.position?, HasSuccessor, and_true]
    constructor
    · intro hall hp
      obtain ⟨w, hw, rfl⟩ := List.mem_map.mp hp
      have hsome := hall w hw
      rw [if_pos rfl] at hsome
      exact (hsum o hquery).mp hsome
    · intro hne w hw
      split
      · rename_i hp
        exact (hsum o hquery).mpr (hne (hp ▸ List.mem_map_of_mem hw))
      · rfl
  | offsetForwardAligned partition o aligned =>
    simp only [Anchor.position?, HasSuccessor, Option.isSome_some, implies_true, true_and,
      oneRecordRange?, Option.isSome_map]
    exact hsum o hquery

/-- What an anchor reads is bounded by one offset. -/
theorem Anchor.reads_iff {w : Watermark} {x : Int} :
    anchor.Reads direction w x ↔ w.2.1 ≤ x ∧ x < w.2.2 ∧
      match direction with
      | .back => x < anchor.bound w
      | .forward => anchor.bound w ≤ x := by
  unfold Anchor.Reads
  refine and_congr_right fun hlo => and_congr_right fun hhi => ?_
  have hresolved : ∀ resolved : List (Int × Option Int),
      (x < resolvedAt resolved w.1 w.2.2 ↔
        ∀ o, (resolved.find? (·.1 == w.1)).bind Prod.snd = some o → x < o) ∧
      (resolvedAt resolved w.1 w.2.2 ≤ x ↔
        ∃ o, (resolved.find? (·.1 == w.1)).bind Prod.snd = some o ∧ o ≤ x) := by
    intro resolved
    rw [resolvedAt]
    cases (resolved.find? (·.1 == w.1)).bind Prod.snd with
    | none => simp [hhi, hhi.not_ge]
    | some o => simp
  cases anchor with
  | latest => cases direction <;> simp [Anchor.bound, Anchor.position, hhi, hhi.not_ge]
  | beginning => cases direction <;> simp [Anchor.bound, Anchor.position, hlo, hlo.not_gt]
  | offset partition o =>
    cases direction with
    | back =>
      simp only [Anchor.bound]
      split
      · rename_i hp
        simp only [hp, true_imp_iff]
        omega
      · rename_i hp
        simp [hp, hhi]
    | forward =>
      simp only [Anchor.bound]
      split
      · rename_i hp
        simp only [hp, true_and]
        omega
      · rename_i hp
        simp [hp, hhi.not_ge]
  | timestampResolved resolved =>
    cases direction with
    | back => exact (hresolved resolved).1.symm
    | forward => exact (hresolved resolved).2.symm
  | offsetForwardAligned partition o aligned =>
    cases direction with
    | back =>
      simp only [Anchor.bound, Anchor.position]
      split
      · rfl
      · exact (hresolved aligned).1.symm
    | forward =>
      simp only [Anchor.bound, Anchor.position]
      split
      · rfl
      · exact (hresolved aligned).2.symm

theorem findWatermark_of_mem (hd : (watermarks.map Prod.fst).Nodup) {w : Watermark}
    (hw : w ∈ watermarks) : findWatermark watermarks w.1 = some w.2 := by
  rw [findWatermark]
  cases hfind : watermarks.find? (fun v => v.1 == w.1) with
  | none => exact absurd (beq_self_eq_true _) (List.find?_eq_none.mp hfind w hw)
  | some v =>
    have hp : v.1 = w.1 := by simpa using List.find?_some hfind
    rw [List.inj_on_of_nodup_map hd (List.mem_of_find?_eq_some hfind) hw hp, Option.map_some]

/-- Each watermark's position, clamped. -/
theorem freshPositions_eq (hd : (watermarks.map Prod.fst).Nodup) :
    freshPositions watermarks anchor =
      watermarks.map fun w => (w.1, clamp (anchor.position w) w.2.1 w.2.2) := by
  rw [freshPositions, clampPositions, initialPositions, List.filterMap_map, ← List.filterMap_eq_map]
  apply List.filterMap_congr
  intro w hw
  simp only [Function.comp_apply, clampPosition, findWatermark_of_mem hd hw, Option.map_some]

/-- A page reads first what stands next to the position, if its window does not wrap. -/
theorem firstRead_iff (h : Plausible watermarks) {w : Watermark} (hw : w ∈ watermarks) {span : Nat}
    (hspan : 0 < span) (hfits : (span : Int) ≤ 2 ^ 63 - 1) {x : Int} :
    FirstRead (freshPositions watermarks anchor) watermarks direction span w.1 x ↔
      match direction with
      | .back => w.2.1 < clamp (anchor.position w) w.2.1 w.2.2 ∧
          x = clamp (anchor.position w) w.2.1 w.2.2 - 1
      | .forward => (clamp (anchor.position w) w.2.1 w.2.2 < w.2.2 ∧
          clamp (anchor.position w) w.2.1 w.2.2 + span ≤ 2 ^ 63 - 1) ∧
          x = clamp (anchor.position w) w.2.1 w.2.2 := by
  obtain ⟨hlo, hhi⟩ := clamp_mem (anchor.position w) (h.ordered w hw)
  have hzero := h.nonneg w hw
  obtain ⟨_, hmax⟩ := h.fits w hw
  have hwindow : FirstRead (freshPositions watermarks anchor) watermarks direction span w.1 x ↔
      ∃ window, pageWindow watermarks direction span
        (w.1, clamp (anchor.position w) w.2.1 w.2.2) = some window ∧
        adjacentOffset window direction = x := by
    rw [FirstRead, freshPositions_eq h.distinct]
    constructor
    · rintro ⟨window, hmem, hp, hx⟩
      obtain ⟨e, he, hplan⟩ := List.mem_filterMap.mp hmem
      obtain ⟨v, hv, rfl⟩ := List.mem_map.mp he
      have hpart := (pageWindow_planned hplan).partition_eq
      have hsame : v = w := List.inj_on_of_nodup_map h.distinct hv hw (hpart.symm.trans hp)
      exact ⟨window, hsame ▸ hplan, hx⟩
    · rintro ⟨window, hplan, hx⟩
      exact ⟨window, List.mem_filterMap.mpr ⟨_, List.mem_map.mpr ⟨w, hw, rfl⟩, hplan⟩,
        (pageWindow_planned hplan).partition_eq, hx⟩
  have hguard : ∀ (c : Prop) [Decidable c] (window : PartitionRange),
      (∃ window', (if c then some window else none) = some window' ∧
        adjacentOffset window' direction = x) ↔ c ∧ x = adjacentOffset window direction := by
    intro c _ window
    split
    · simp_all [eq_comm]
    · simp_all
  have hfound := findWatermark_of_mem h.distinct hw
  rw [hwindow]
  generalize clamp (anchor.position w) w.2.1 w.2.2 = pos at hlo hhi
  have hpos : FitsI64 pos := ⟨by omega, by omega⟩
  cases direction with
  | back =>
    have hdown : FitsI64 (pos - span) := ⟨by omega, by omega⟩
    rw [pageWindow_back hfound hlo hhi hdown, hguard]
    exact and_congr_left' (and_iff_left hspan)
  | forward =>
    by_cases hsum : FitsI64 (pos + span)
    · rw [pageWindow_forward hfound hlo hhi hsum, hguard]
      have hmost := hsum.2
      apply and_congr_left'
      simp only [hspan, hmost]
    · have hout : ¬ InWords .forward span pos := hsum
      rw [pageWindow_of_not_inWords hfound hlo hhi hpos (by omega) hout]
      constructor
      · rintro ⟨window, hplan, -⟩
        cases hplan
      · rintro ⟨⟨-, hle⟩, -⟩
        exact absurd ⟨by omega, hle⟩ hsum

/-- The nearest offset on the far side of a bound stands next to the clamped bound. -/
theorem nearest_iff {lo hi bound x : Int} (hle : lo ≤ hi) :
    Nearest direction {y | lo ≤ y ∧ y < hi ∧
      match direction with
      | .back => y < bound
      | .forward => bound ≤ y} x ↔
      match direction with
      | .back => lo < clamp bound lo hi ∧ x = clamp bound lo hi - 1
      | .forward => clamp bound lo hi < hi ∧ x = clamp bound lo hi := by
  obtain ⟨hlo, hhi⟩ := clamp_mem bound hle
  have hback : ∀ y, lo ≤ y ∧ y < hi ∧ y < bound ↔ lo ≤ y ∧ y < clamp bound lo hi := by
    intro y
    unfold clamp
    split_ifs <;> omega
  have hforward : ∀ y, lo ≤ y ∧ y < hi ∧ bound ≤ y ↔ clamp bound lo hi ≤ y ∧ y < hi := by
    intro y
    unfold clamp
    split_ifs <;> omega
  cases direction with
  | back =>
    simp only [hback, Nearest, IsGreatest, upperBounds, Set.mem_ofPred_eq]
    constructor
    · rintro ⟨⟨h1, h2⟩, hmax⟩
      have := @hmax (clamp bound lo hi - 1)
      omega
    · rintro ⟨h1, rfl⟩
      refine ⟨by omega, ?_⟩
      rintro y ⟨_, hy⟩
      omega
  | forward =>
    simp only [hforward, Nearest, IsLeast, lowerBounds, Set.mem_ofPred_eq]
    constructor
    · rintro ⟨⟨h1, h2⟩, hmin⟩
      have := @hmin (clamp bound lo hi)
      omega
    · rintro ⟨h1, rfl⟩
      refine ⟨by omega, ?_⟩
      rintro y ⟨hy, _⟩
      exact hy

end

/-- An anchor lands where it says exactly when the requested offset is not the greatest
    integer, where a sum is taken of it, and the first window read forward does not end past
    the integers. -/
theorem lands_iff {watermarks : List Watermark} (hw : Plausible watermarks) {anchor : Anchor}
    (hquery : anchor.FromQuery) {span : Nat} (hspan : 0 < span) (hfits : (span : Int) ≤ 2 ^ 63 - 1)
    (direction : Direction) :
    Lands watermarks direction span anchor ↔
      HasSuccessor watermarks anchor ∧ WindowFits watermarks direction span anchor := by
  constructor
  · intro h
    have hsucc := (sumsFit_iff hquery).mp h.sums
    refine ⟨hsucc, ?_⟩
    rintro rfl w hmem x hx
    have hread := (h.first w hmem x).mpr hx
    obtain ⟨⟨_, hsum⟩, rfl⟩ := (firstRead_iff hw hmem hspan hfits).mp hread
    exact hsum
  · rintro ⟨hsucc, hwindow⟩
    refine ⟨?_, ?_, ?_, (sumsFit_iff hquery).mpr hsucc⟩
    · rw [freshPositions_eq hw.distinct, List.map_map]
      rfl
    · intro e he
      rw [freshPositions_eq hw.distinct] at he
      obtain ⟨w, hmem, rfl⟩ := List.mem_map.mp he
      exact ⟨w, hmem, rfl, clamp_mem _ (hw.ordered w hmem)⟩
    · intro w hmem x
      have hnearest : Nearest direction {y | anchor.Reads direction w y} x ↔ _ :=
        (iff_of_eq (congrArg (Nearest direction · x) (Set.ext fun y => anchor.reads_iff))).trans
          (nearest_iff (hw.ordered w hmem))
      rw [firstRead_iff hw hmem hspan hfits, anchor.position_eq_bound hquery hsucc hmem]
      cases direction with
      | back => exact hnearest.symm
      | forward =>
        rw [hnearest, and_congr_left_iff]
        rintro rfl
        apply and_iff_left_of_imp
        intro hlt
        exact hwindow rfl w hmem _ (hnearest.mpr ⟨hlt, rfl⟩)

/-! ### The offset without a successor -/

def pairWatermarks : List Watermark := [(0, 10, 110), (1, 0, 5)]

theorem pairWatermarks_plausible : Plausible pairWatermarks where
  distinct := by decide
  nonneg := by decide
  ordered := by decide
  fits := by
    unfold FitsI64
    decide

/-- An anchor at a message lands at it. -/
theorem middle_offset_lands : Lands pairWatermarks .back 100 (.offset 0 42) :=
  (lands_iff pairWatermarks_plausible
    (by unfold Anchor.FromQuery FitsI64; decide : Anchor.FromQuery (.offset 0 42))
    (by decide) (by decide) .back).mpr
    ⟨fun _ => by decide, fun h => Direction.noConfusion h⟩

/-- The greatest offset a query string can carry wraps to the smallest integer, is clamped
    to the low watermark and reads nothing, where 109 is the greatest offset at or below
    it. -/
theorem greatest_offset_reads_nothing :
    (parseRaw ⟨none, some "0", some "9223372036854775807", none⟩).bind
        (parseAnchorInput "offset") = .ok (.offset 0 (2 ^ 63 - 1)) ∧
      initialPositions pairWatermarks (.offset 0 (2 ^ 63 - 1)) = [(0, -2 ^ 63), (1, 5)] ∧
      freshPositions pairWatermarks (.offset 0 (2 ^ 63 - 1)) = [(0, 10), (1, 5)] ∧
      ¬ Lands pairWatermarks .back 100 (.offset 0 (2 ^ 63 - 1)) := by
  refine ⟨by rfl, by decide, by decide, ?_⟩
  intro h
  have hgreatest : Nearest .back
      {y | Anchor.Reads (.offset 0 (2 ^ 63 - 1)) .back (0, 10, 110) y} 109 := by
    constructor
    · exact ⟨by decide, by decide, fun _ => by decide⟩
    · rintro y ⟨_, hy, _⟩
      exact Int.le_sub_one_of_lt hy
  have hread := (h.first (0, 10, 110) List.mem_cons_self 109).mpr hgreatest
  revert hread
  unfold FirstRead
  decide

end Arne.Timeline
