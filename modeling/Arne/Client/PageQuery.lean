import Arne.Client.CursorText
import Arne.Client.FilterQuery
import Arne.Client.Handlers
import Arne.Timeline.QueryParams

/-!
# What a page is asked for with (`api/sse.ts`, `lib/timeline/jumpPlan.ts`, `Timeline.tsx`)

The parameters of a page go into a query string, where a cursor wins over an anchor.  Whatever
page a reader asks for, with whatever text in the filter box, the server takes the request and
reads the page out of it that was meant.
-/

namespace Arne.Client

open Arne.Message Arne.Timeline

/-- The members of `TimelinePageParams`, a missing one being `undefined`. -/
structure PageParams where
  direction : Direction
  limit : Nat
  anchor : Option String
  partition : Option Int
  offset : Option Int
  tsMs : Option Int
  cursor : Option String
  filter : Option TimelineFilterKind
  q : Option String
  path : Option String
  op : Option CmpOpWire

/-- `String(n)` of an integer. -/
def integerText (n : Int) : String := String.ofList (JsNumber.text n)

/-- `qs.set(name, value)`, of a member that is there. -/
def param (name : String) (value : Option String) : List (String × String) :=
  (value.map fun v => (name, v)).toList

def sourceParams (p : PageParams) : List (String × String) :=
  match p.cursor with
  | some cursor => [("cursor", cursor)]
  | none =>
      match p.anchor with
      | none => []
      | some anchor =>
          ("anchor", anchor) :: (param "partition" (p.partition.map integerText) ++
            (param "offset" (p.offset.map integerText) ++
              param "ts_ms" (p.tsMs.map integerText)))

def filterParams (p : PageParams) : List (String × String) :=
  match p.filter with
  | none => []
  | some filter =>
      ("filter", filter.wire) :: (param "q" p.q ++ (param "path" p.path ++
        param "op" (p.op.map CmpOpWire.wire)))

def searchParams (p : PageParams) : List (String × String) :=
  ("direction", p.direction.name) :: ("limit", integerText p.limit) ::
    (sourceParams p ++ filterParams p)

/-- The query string, as bytes. -/
def queryString (p : PageParams) : List UInt8 :=
  FormUrlencoded.serialize
    ((searchParams p).map fun e => (Bytes.asBytes e.1.toList, Bytes.asBytes e.2.toList))

/-- The parameters of a first page. -/
def anchorParams (p : TimelinePageParams) : PageParams :=
  match p.anchor with
  | .latest => ⟨p.direction, PAGE_LIMIT, some "latest", none, none, none, none, none, none, none, none⟩
  | .beginning =>
      ⟨p.direction, PAGE_LIMIT, some "beginning", none, none, none, none, none, none, none, none⟩
  | .offset partition offset =>
      ⟨p.direction, PAGE_LIMIT, some "offset", some partition, some offset, none, none, none, none,
        none, none⟩
  | .timestamp tsMs =>
      ⟨p.direction, PAGE_LIMIT, some "timestamp", none, none, some tsMs, none, none, none, none,
        none⟩

/-- The parameters of a page that reads on from a cursor. -/
def cursorParams (direction : Direction) (positions : List Position) : PageParams :=
  ⟨direction, PAGE_LIMIT, none, none, none, none, some (encodeCursorText positions), none, none,
    none, none⟩

def withFilter (api : Option FilterQueryApi) (p : PageParams) : PageParams :=
  match api with
  | none => p
  | some api => { p with filter := some api.filter, q := some api.q, path := api.path, op := api.op }

/-! ### The query string is read back -/

theorem queryPairs_queryString (lossy : List UInt8 → String) (p : PageParams) :
    queryPairs lossy (queryString p) = searchParams p := by
  rw [queryPairs, queryString, FormUrlencoded.parse_serialize, List.map_map]
  conv_rhs => rw [← List.map_id (searchParams p)]
  apply List.map_congr_left
  intro e _
  simp [decodeText]

/-- A parameter that is set is the one of its name. -/
theorem filter_param (name name' : String) (value : Option String) :
    (param name' value).filter (fun e => e.1 == name) =
      if name' = name then param name' value else [] := by
  cases value with
  | none => simp [param]
  | some v =>
    by_cases h : name' = name
    · simp [param, h]
    · simp [param, h]

theorem queryField_param (pairs : List (String × String)) (name : String) (value : Option String)
    (h : pairs.filter (fun e => e.1 == name) = param name value) :
    queryField pairs name = some value := by
  rw [queryField, h]
  cases value <;> rfl

/-- The fields that reach the server: a cursor drives an anchor out, and neither the numbers of
    an anchor nor the texts of a filter come without it. -/
def sentQuery (p : PageParams) : RawTimelineQuery where
  direction := some p.direction.name
  limit := some (integerText p.limit)
  cursor := p.cursor
  anchor := if p.cursor.isSome then none else p.anchor
  partition := if p.cursor.isSome ∨ p.anchor.isNone then none else p.partition.map integerText
  offset := if p.cursor.isSome ∨ p.anchor.isNone then none else p.offset.map integerText
  tsMs := if p.cursor.isSome ∨ p.anchor.isNone then none else p.tsMs.map integerText
  filter := p.filter.map TimelineFilterKind.wire
  q := p.filter.bind fun _ => p.q
  path := p.filter.bind fun _ => p.path
  op := p.filter.bind fun _ => p.op.map CmpOpWire.wire

theorem searchParams_eq (p : PageParams) :
    searchParams p =
      param "direction" (sentQuery p).direction ++ (param "limit" (sentQuery p).limit ++
        (param "cursor" (sentQuery p).cursor ++ (param "anchor" (sentQuery p).anchor ++
          (param "partition" (sentQuery p).partition ++ (param "offset" (sentQuery p).offset ++
            (param "ts_ms" (sentQuery p).tsMs ++ (param "filter" (sentQuery p).filter ++
              (param "q" (sentQuery p).q ++ (param "path" (sentQuery p).path ++
                param "op" (sentQuery p).op))))))))) := by
  rcases p with ⟨direction, limit, anchor, partition, offset, tsMs, cursor, filter, q, path, op⟩
  cases cursor <;> cases anchor <;> cases filter <;>
    simp [searchParams, sourceParams, filterParams, sentQuery, param]

theorem extractQuery_queryString (lossy : List UInt8 → String) (p : PageParams) :
    extractQuery lossy (queryString p) = some (sentQuery p) := by
  have hfield : ∀ name value,
      (searchParams p).filter (fun e => e.1 == name) = param name value →
        queryField (searchParams p) name = some value :=
    fun name value => queryField_param (searchParams p) name value
  have hpairs := searchParams_eq p
  simp only [extractQuery, queryPairs_queryString]
  rw [hfield "direction" (sentQuery p).direction (by simp [hpairs, filter_param]),
    hfield "limit" (sentQuery p).limit (by simp [hpairs, filter_param]),
    hfield "anchor" (sentQuery p).anchor (by simp [hpairs, filter_param]),
    hfield "cursor" (sentQuery p).cursor (by simp [hpairs, filter_param]),
    hfield "partition" (sentQuery p).partition (by simp [hpairs, filter_param]),
    hfield "offset" (sentQuery p).offset (by simp [hpairs, filter_param]),
    hfield "ts_ms" (sentQuery p).tsMs (by simp [hpairs, filter_param]),
    hfield "filter" (sentQuery p).filter (by simp [hpairs, filter_param]),
    hfield "q" (sentQuery p).q (by simp [hpairs, filter_param]),
    hfield "path" (sentQuery p).path (by simp [hpairs, filter_param]),
    hfield "op" (sentQuery p).op (by simp [hpairs, filter_param])]
  rfl

/-! ### The numbers are read back -/

theorem parseDigits_ofNat (n : Nat) : parseDigits (Decimal.ofNat n) = some n := by
  have hall : (Decimal.ofNat n).all Char.isDigit = true := by
    rw [List.all_eq_true]
    intro c hc
    exact Decimal.isDigit_of_mem hc
  have hvalue := Decimal.toNat_ofNat n
  rw [Decimal.toNat, Nat.ofDigitChars_eq_foldl] at hvalue
  simp only [Nat.mul_comm 10] at hvalue
  rw [parseDigits, if_pos ⟨Decimal.ofNat_ne_nil n, hall⟩, hvalue]

theorem parseNumber_ofInt {lo hi n : Int} (h : lo ≤ n ∧ n ≤ hi) (hsign : 0 ≤ n ∨ lo < 0) :
    parseNumber lo hi (String.ofList (Decimal.ofInt n)) = some n := by
  have hfilter : (some n).filter (fun n => decide (lo ≤ n) && decide (n ≤ hi)) = some n := by
    simp [Option.filter, h.1, h.2]
  cases n with
  | ofNat n =>
    rcases hdigits : Decimal.ofNat n with _ | ⟨c, digits⟩
    · exact absurd hdigits (Decimal.ofNat_ne_nil n)
    · have hparse := parseDigits_ofNat n
      have hc : c.isDigit = true := by
        apply Decimal.isDigit_of_mem (n := n)
        rw [hdigits]
        exact List.mem_cons_self
      rw [hdigits] at hparse
      unfold parseNumber
      rw [String.toList_ofList, Decimal.ofInt, hdigits]
      split
      · rename_i heq
        rw [List.head_eq_of_cons_eq heq] at hc
        exact absurd hc (by decide)
      · rename_i heq
        rw [List.head_eq_of_cons_eq heq] at hc
        exact absurd hc (by decide)
      · rw [hparse]
        exact hfilter
  | negSucc n =>
    have hneg : lo < 0 := by omega
    unfold parseNumber
    rw [String.toList_ofList, Decimal.ofInt]
    simp only [if_pos hneg, parseDigits_ofNat, Option.map_some]
    exact hfilter

/-- A number is read as what its text shows. -/
theorem parseNumericField_integerText {lo hi n : Int} (field : String)
    (h : lo ≤ JsNumber.shown n ∧ JsNumber.shown n ≤ hi) (hsign : 0 ≤ JsNumber.shown n ∨ lo < 0)
    (hrange : -10 ^ 21 < lo ∧ hi < 10 ^ 21) :
    parseNumericField lo hi field (some (integerText n)) = .ok (some (JsNumber.shown n)) := by
  have hsmall : (JsNumber.shown n).natAbs < 10 ^ 21 := by omega
  simp only [parseNumericField, integerText, JsNumber.text, if_pos hsmall,
    parseNumber_ofInt h hsign]

/-! ### The filter is taken -/

section

variable {env : TextEnv}

/-- The server's filter of a request that asks for one, or none. -/
def FilterTaken (env : TextEnv) (api : Option FilterQueryApi) (filter : Option Filter) : Prop :=
  match api with
  | none => filter = none
  | some api => ∃ f, filter = some f ∧
      Filter.parse env api.filter.wire api.q api.path (api.op.map CmpOpWire.wire) = .ok f

/-- A filter that the server can make: paths and operators where it wants them. -/
def Takeable (env : TextEnv) (parsed : ParsedFilterQuery) : Prop :=
  ∃ filter, FilterTaken env parsed.api filter

theorem takeable_of_parse {api : FilterQueryApi} {predicate : MessageOut → Bool} {f : Filter}
    (h : Filter.parse env api.filter.wire api.q api.path (api.op.map CmpOpWire.wire) = .ok f) :
    Takeable env ⟨some api, predicate⟩ := ⟨some f, f, rfl, h⟩

theorem opWire_parse (op : CmpOpWire) (kind : String) :
    ∃ o, CmpOp.parse (some op.wire) kind = .ok o := by
  cases op with
  | gt => exact ⟨.gt, rfl⟩
  | gte => exact ⟨.gte, rfl⟩
  | lt => exact ⟨.lt, rfl⟩
  | lte => exact ⟨.lte, rfl⟩

theorem takeable_field {rest : List Char} {parsed : ParsedFilterQuery}
    (h : parseFieldQuery env rest = some parsed) : Takeable env parsed := by
  unfold parseFieldQuery at h
  split at h
  · cases h
  · cases h
  · split at h
    · cases h
      exact takeable_of_parse rfl
    · cases h
      exact takeable_of_parse rfl
    · cases h
      exact takeable_of_parse rfl
    · rcases Option.map_eq_some_iff.mp h with ⟨c, -, rfl⟩
      rcases opWire_parse c.1 "json_cmp" with ⟨o, ho⟩
      apply takeable_of_parse
      simp only [TimelineFilterKind.wire, Filter.parse, requirePath, Option.map_some, ho]
      rfl

theorem takeable_unquoted (text : List Char) : Takeable env (parseUnquoted env text) := by
  unfold parseUnquoted
  split
  · exact takeable_of_parse rfl
  split
  · exact takeable_of_parse rfl
  split
  · exact takeable_of_parse rfl
  split
  · rename_i op q _
    rcases opWire_parse op "key_cmp" with ⟨o, ho⟩
    apply takeable_of_parse
    simp only [TimelineFilterKind.wire, Filter.parse, Option.map_some, ho]
    rfl
  split
  · exact takeable_of_parse rfl
  split
  · exact takeable_of_parse rfl
  split
  · exact takeable_of_parse rfl
  split
  · rename_i op q _
    rcases opWire_parse op "value_cmp" with ⟨o, ho⟩
    apply takeable_of_parse
    simp only [TimelineFilterKind.wire, Filter.parse, Option.map_some, ho]
    rfl
  split
  · cases hfield : parseFieldQuery env (text.drop 6) with
    | none => exact takeable_of_parse rfl
    | some parsed => exact takeable_field hfield
  · exact takeable_of_parse rfl

/-- The server takes whatever filter the box makes of its text. -/
theorem takeable_text (text : String) : Takeable env (parseFilterQuery env text) := by
  unfold parseFilterQuery
  split
  · exact ⟨none, rfl⟩
  · split
    · exact ⟨none, rfl⟩
    · exact takeable_of_parse rfl
    · exact takeable_unquoted text.toList

/-! ### The page is read as it was meant -/

/-- The anchor that its text shows: the anchor itself, while its numbers are exact. -/
def shownAnchor : TimelineAnchorInput → TimelineAnchorInput
  | .offset partition offset => .offset (JsNumber.shown partition) (JsNumber.shown offset)
  | .timestamp tsMs => .timestamp (JsNumber.shown tsMs)
  | anchor => anchor

/-- The pages a reader asks for, with what the server is to make of them: where a jump leads, and
    what follows on a cursor.  The numbers that their texts show have types on the server. -/
inductive Asked : PageParams → Direction → PositionSource → Prop where
  | jump {target : JumpTarget}
      (hfits : PositionSource.Fits (.fromAnchor (shownAnchor (planJump target).params.anchor))) :
      Asked (anchorParams (planJump target).params) (planJump target).params.direction
        (.fromAnchor (shownAnchor (planJump target).params.anchor))
  | cursor (direction : Direction) {positions : List Position}
      (hfits : ∀ e ∈ positions.map shownPosition, FitsPosition e) :
      Asked (cursorParams direction positions) direction
        (.fromCursor (positions.map shownPosition))

/-- The fields of a request with a filter. -/
def filtered (api : Option FilterQueryApi) (raw : RawTimelineQuery) : RawTimelineQuery :=
  { raw with
    filter := api.map fun a => a.filter.wire
    q := api.map fun a => a.q
    path := api.bind fun a => a.path
    op := api.bind fun a => a.op.map CmpOpWire.wire }

theorem sentQuery_withFilter (api : Option FilterQueryApi) {p : PageParams} (h : p.filter = none) :
    sentQuery (withFilter api p) = filtered api (sentQuery p) := by
  rcases p with ⟨direction, limit, anchor, partition, offset, tsMs, cursor, filter, q, path, op⟩
  obtain rfl : filter = none := h
  cases api with
  | none => rfl
  | some api => rfl

theorem parseFilter_filtered {api : Option FilterQueryApi} {filter : Option Filter}
    (h : FilterTaken env api filter) (raw : RawTimelineQuery) :
    parseFilter env (filtered api raw) = .ok filter := by
  cases api with
  | none =>
    cases h
    rfl
  | some api =>
    rcases h with ⟨f, rfl, hparse⟩
    simp only [parseFilter, filtered, Option.map_some, Option.bind_some, hparse]

theorem parseDirection_name (d : Direction) : parseDirection d.name = .ok d := by
  cases d <;> rfl

/-- What is left to check of a request whose filter is taken. -/
theorem validate_filtered {cursorError : String → String} {topic : String}
    {api : Option FilterQueryApi} {filter : Option Filter} (hfilter : FilterTaken env api filter)
    {raw : RawTimelineQuery} (params : TimelineParams) {direction : Direction}
    {source : PositionSource} (hparams : parseRaw raw.toRawTimelineParams = .ok params)
    (hdirection : raw.direction = some direction.name)
    (hlimit : params.limit = some PAGE_LIMIT) (hone : raw.cursor.isSome ≠ raw.anchor.isSome)
    (hsource : parseSource cursorError raw params = .ok source) :
    validate env cursorError topic (filtered api raw) =
      .ok ⟨topic, direction, PAGE_LIMIT, source, filter⟩ := by
  have hparams' : parseRaw (filtered api raw).toRawTimelineParams = .ok params := hparams
  have hdirection' : parseDirection ((filtered api raw).direction.getD "") = .ok direction := by
    rw [show (filtered api raw).direction = some direction.name from hdirection]
    exact parseDirection_name direction
  have hlimit' : parseLimit params.limit = .ok PAGE_LIMIT := by
    rw [hlimit]
    rfl
  have hone' : (filtered api raw).cursor.isSome ≠ (filtered api raw).anchor.isSome := hone
  have hsource' : parseSource cursorError (filtered api raw) params = .ok source := hsource
  simp only [validate, hparams', hdirection', hlimit', if_neg hone', parseFilter_filtered hfilter,
    hsource', bind, Except.bind]

theorem parseRaw_ok {raw : RawTimelineParams} {params : TimelineParams}
    (hlimit : parseNumericField 0 (2 ^ 64 - 1) "limit" raw.limit = .ok params.limit)
    (hpartition : parseNumericField (-2 ^ 31) (2 ^ 31 - 1) "partition" raw.partition =
      .ok params.partition)
    (hoffset : parseNumericField (-2 ^ 63) (2 ^ 63 - 1) "offset" raw.offset = .ok params.offset)
    (htsMs : parseNumericField (-2 ^ 63) (2 ^ 63 - 1) "ts_ms" raw.tsMs = .ok params.tsMs) :
    parseRaw raw = .ok params := by
  simp only [parseRaw, hlimit, hpartition, hoffset, htsMs, bind, Except.bind]

theorem parse_limit : parseNumericField 0 (2 ^ 64 - 1) "limit" (some (integerText PAGE_LIMIT)) =
    .ok (some (PAGE_LIMIT : Int)) := by
  have hshown : JsNumber.shown (PAGE_LIMIT : Int) = PAGE_LIMIT := JsNumber.shown_exact (by decide)
  have hparse := @parseNumericField_integerText 0 (2 ^ 64 - 1) PAGE_LIMIT "limit"
  rw [hshown] at hparse
  exact hparse (by decide) (Or.inl (by decide)) (by decide)

/-- The fields of such a request, with a filter that the server takes. -/
theorem validate_asked (cursorError : String → String) (topic : String)
    {api : Option FilterQueryApi} {filter : Option Filter} (hfilter : FilterTaken env api filter)
    {p : PageParams} {direction : Direction} {source : PositionSource}
    (h : Asked p direction source) :
    validate env cursorError topic (sentQuery (withFilter api p)) =
      .ok ⟨topic, direction, PAGE_LIMIT, source, filter⟩ := by
  cases h with
  | @jump target hfits =>
    cases target with
    | now =>
      rw [sentQuery_withFilter _ rfl]
      exact validate_filtered hfilter ⟨some PAGE_LIMIT, none, none, none⟩
        (parseRaw_ok parse_limit rfl rfl rfl) rfl rfl (by decide) rfl
    | beginning =>
      rw [sentQuery_withFilter _ rfl]
      exact validate_filtered hfilter ⟨some PAGE_LIMIT, none, none, none⟩
        (parseRaw_ok parse_limit rfl rfl rfl) rfl rfl (by decide) rfl
    | offset partition offset =>
      rw [sentQuery_withFilter _ rfl]
      have hpartition := parseNumericField_integerText "partition" hfits.1 (Or.inr (by decide))
        (by decide)
      have hoffset := parseNumericField_integerText "offset" hfits.2 (Or.inr (by decide))
        (by decide)
      exact validate_filtered hfilter
        ⟨some PAGE_LIMIT, some (JsNumber.shown partition), some (JsNumber.shown offset), none⟩
        (parseRaw_ok parse_limit hpartition hoffset rfl) rfl rfl (show false ≠ true by decide) rfl
    | timestamp tsMs =>
      rw [sentQuery_withFilter _ rfl]
      have htsMs := parseNumericField_integerText "ts_ms" hfits (Or.inr (by decide)) (by decide)
      exact validate_filtered hfilter ⟨some PAGE_LIMIT, none, none, some (JsNumber.shown tsMs)⟩
        (parseRaw_ok parse_limit rfl rfl htsMs) rfl rfl (show false ≠ true by decide) rfl
  | @cursor _ positions hfits =>
    rw [sentQuery_withFilter _ rfl]
    apply validate_filtered hfilter ⟨some PAGE_LIMIT, none, none, none⟩
      (parseRaw_ok parse_limit rfl rfl rfl) rfl rfl
    · show true ≠ false
      decide
    · simp only [parseSource, sentQuery, cursorParams, decode_minted hfits]

/-- Every page that is asked for is accepted, whatever stands in the filter box, and the server
    serves it from the anchor or the cursor that its texts show, filtered as the box says. -/
theorem page_read_as_meant (env : TextEnv) (lossy : List UInt8 → String)
    (cursorError : String → String) (topic text : String) {p : PageParams} {direction : Direction}
    {source : PositionSource} (h : Asked p direction source) :
    ∃ raw filter,
      extractQuery lossy (queryString (withFilter (parseFilterQuery env text).api p)) = some raw ∧
      validate env cursorError topic raw = .ok ⟨topic, direction, PAGE_LIMIT, source, filter⟩ ∧
      FilterTaken env (parseFilterQuery env text).api filter := by
  have htakeable : Takeable env (parseFilterQuery env text) := takeable_text text
  rcases htakeable with ⟨filter, hfilter⟩
  exact ⟨_, filter, extractQuery_queryString lossy _, validate_asked cursorError topic hfilter h,
    hfilter⟩

def plainEnv : TextEnv where
  parse _ := none
  toLowercase text := String.ofList (text.toList.map Char.toLower)

/-- Older messages of two partitions, filtered by a field. -/
theorem older_page_read : ∃ raw filter,
    extractQuery (fun _ => "") (queryString (withFilter
      (parseFilterQuery plainEnv "value.total>=5").api
      (cursorParams .back [(0, 60), (3, 7)]))) = some raw ∧
    validate plainEnv (fun _ => "") "orders" raw =
      .ok ⟨"orders", .back, PAGE_LIMIT, .fromCursor [(0, 60), (3, 7)], filter⟩ ∧
    FilterTaken plainEnv (parseFilterQuery plainEnv "value.total>=5").api filter := by
  have hshown : [(0, 60), (3, 7)].map shownPosition = [(0, 60), (3, 7)] :=
    map_shownPosition (by decide)
  have hasked := @Asked.cursor .back [(0, 60), (3, 7)]
  rw [hshown] at hasked
  exact page_read_as_meant plainEnv (fun _ => "") (fun _ => "") "orders" "value.total>=5"
    (hasked (by unfold FitsPosition FitsI32; decide))

end

end Arne.Client
