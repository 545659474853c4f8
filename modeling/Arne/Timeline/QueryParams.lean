import Arne.Lib.FormUrlencoded
import Arne.Message.Filter
import Arne.Timeline.AnchorStart
import Arne.Timeline.CursorText
import Arne.Timeline.Engine

/-!
# The parameters of a request (`api/messages.rs`)

The query string is taken apart into texts, and the texts are made into a request by the handler
itself, so that whatever is wrong with them is told in one kind of error.  The first thing wrong
is the one that is told.
-/

namespace Arne.Timeline

open MachineWord Arne.Message

/-- The fields as texts. -/
structure RawTimelineQuery extends RawTimelineParams where
  direction : Option String
  anchor : Option String
  cursor : Option String
  filter : Option String
  q : Option String
  path : Option String
  op : Option String
deriving DecidableEq, Repr

/-- A field of the query string: one that is given twice makes the whole unreadable. -/
def queryField (pairs : List (String × String)) (name : String) : Option (Option String) :=
  match pairs.filter fun e => e.1 == name with
  | [] => some none
  | [e] => some (some e.2)
  | _ => none

section

/- `String::from_utf8_lossy`, where it has something to replace. -/
variable (lossy : List UInt8 → String)

def decodeText (bytes : List UInt8) : String := (Bytes.fromUtf8 bytes).getD (lossy bytes)

def queryPairs (query : List UInt8) : List (String × String) :=
  (FormUrlencoded.parse query).map fun e => (decodeText lossy e.1, decodeText lossy e.2)

/-- `Query(raw)`.  Names that are no field are skipped. -/
def extractQuery (query : List UInt8) : Option RawTimelineQuery := do
  let pairs := queryPairs lossy query
  let direction ← queryField pairs "direction"
  let limit ← queryField pairs "limit"
  let anchor ← queryField pairs "anchor"
  let cursor ← queryField pairs "cursor"
  let partition ← queryField pairs "partition"
  let offset ← queryField pairs "offset"
  let tsMs ← queryField pairs "ts_ms"
  let filter ← queryField pairs "filter"
  let q ← queryField pairs "q"
  let path ← queryField pairs "path"
  let op ← queryField pairs "op"
  return ⟨⟨limit, partition, offset, tsMs⟩, direction, anchor, cursor, filter, q, path, op⟩

end

/-- A direction that is missing is an empty one. -/
def parseDirection (direction : String) : Except ApiError Direction :=
  if direction = "back" then .ok .back
  else if direction = "forward" then .ok .forward
  else if direction = "" then .error (ApiError.badRequest "direction is required")
  else .error (ApiError.badRequest ("unknown direction '" ++ direction ++ "'"))

def MAX_LIMIT : Nat := 500

def parseLimit (limit : Option Int) : Except ApiError Nat :=
  let limit := limit.getD 100
  if limit = 0 then .error (ApiError.badRequest "limit must be >= 1")
  else .ok (min limit.toNat MAX_LIMIT)

section

variable (env : TextEnv)

def parseFilter (raw : RawTimelineQuery) : Except ApiError (Option Filter) :=
  match raw.filter with
  | none => .ok none
  | some kind =>
      match raw.q with
      | none => .error (ApiError.badRequest "filter requires q")
      | some q =>
          match Filter.parse env kind q raw.path raw.op with
          | .ok f => .ok (some f)
          | .error e => .error (ApiError.badRequest e)

/- What the decoder of cursors says about a text that is none. -/
variable (cursorError : String → String)

def parseSource (raw : RawTimelineQuery) (params : TimelineParams) :
    Except ApiError PositionSource :=
  match raw.cursor with
  | some cursor =>
      match Cursor.decode cursor with
      | some decoded => .ok (.fromCursor decoded.positions)
      | none => .error (ApiError.badRequest ("bad cursor: " ++ cursorError cursor))
  | none => (parseAnchorInput (raw.anchor.getD "") params).map .fromAnchor

/-- `validated`, with the topic of the path. -/
def validate (topic : String) (raw : RawTimelineQuery) : Except ApiError TimelineRequest := do
  let params ← parseRaw raw.toRawTimelineParams
  let direction ← parseDirection (raw.direction.getD "")
  let limit ← parseLimit params.limit
  if raw.cursor.isSome = raw.anchor.isSome then
    .error (ApiError.badRequest "exactly one of cursor or anchor is required")
  else do
    let filter ← parseFilter env raw
    let source ← parseSource cursorError raw params
    .ok ⟨topic, direction, limit, source, filter⟩

/-! ### What is accepted is well formed -/

/-- Numbers that the server has types for. -/
def PositionSource.Fits : PositionSource → Prop
  | .fromCursor positions => ∀ e ∈ positions, FitsPosition e
  | .fromAnchor .latest => True
  | .fromAnchor .beginning => True
  | .fromAnchor (.offset partition offset) => FitsPosition (partition, offset)
  | .fromAnchor (.timestamp tsMs) => FitsI64 tsMs

/-- The numbers of the parameters are in the ranges of their types. -/
structure TimelineParams.Fits (params : TimelineParams) : Prop where
  limit : ∀ n, params.limit = some n → 0 ≤ n
  partition : ∀ n, params.partition = some n → FitsI32 n
  offset : ∀ n, params.offset = some n → FitsI64 n
  tsMs : ∀ n, params.tsMs = some n → FitsI64 n

theorem parseRaw_fits {raw : RawTimelineParams} {params : TimelineParams}
    (h : parseRaw raw = .ok params) : params.Fits := by
  rcases except_bind_ok h with ⟨limit, hlimit, h⟩
  rcases except_bind_ok h with ⟨partition, hpartition, h⟩
  rcases except_bind_ok h with ⟨offset, hoffset, h⟩
  rcases except_bind_ok h with ⟨tsMs, htsMs, h⟩
  cases h
  constructor
  · rintro n rfl
    exact (parseNumericField_fits hlimit).1
  · rintro n rfl
    exact parseNumericField_fits hpartition
  · rintro n rfl
    exact parseNumericField_fits hoffset
  · rintro n rfl
    exact parseNumericField_fits htsMs

theorem requiredField_ok {anchor field : String} {value : Option Int} {n : Int}
    (h : requiredField anchor field value = .ok n) : value = some n := by
  unfold requiredField at h
  split at h
  · cases h
    rfl
  · cases h

theorem parseAnchorInput_source {anchor : String} {params : TimelineParams} (hfits : params.Fits)
    {input : TimelineAnchorInput} (h : parseAnchorInput anchor params = .ok input) :
    PositionSource.Fits (.fromAnchor input) := by
  unfold parseAnchorInput at h
  split at h
  · cases h
    trivial
  split at h
  · cases h
    trivial
  split at h
  · rcases except_bind_ok h with ⟨partition, hpartition, h⟩
    rcases except_bind_ok h with ⟨offset, hoffset, h⟩
    cases h
    exact ⟨hfits.partition _ (requiredField_ok hpartition),
      hfits.offset _ (requiredField_ok hoffset)⟩
  split at h
  · rcases except_bind_ok h with ⟨tsMs, htsMs, h⟩
    cases h
    exact hfits.tsMs _ (requiredField_ok htsMs)
  · cases h

variable {env cursorError}

theorem parseSource_fits {raw : RawTimelineQuery} {params : TimelineParams} (hfits : params.Fits)
    {source : PositionSource} (h : parseSource cursorError raw params = .ok source) :
    source.Fits := by
  unfold parseSource at h
  split at h
  · split at h
    · rename_i decoded hdecoded
      cases h
      exact Cursor.decode_fits hdecoded
    · cases h
  · rcases except_map_ok h with ⟨input, hinput, rfl⟩
    exact parseAnchorInput_source hfits hinput

theorem parseLimit_ok {limit : Option Int} (hfits : ∀ n, limit = some n → 0 ≤ n) {n : Nat}
    (h : parseLimit limit = .ok n) : 1 ≤ n ∧ n ≤ MAX_LIMIT := by
  unfold parseLimit at h
  simp only at h
  split at h
  · cases h
  · rename_i hzero
    cases h
    have hpos : 0 < limit.getD 100 := by
      cases limit with
      | none => decide
      | some m =>
        have := hfits m rfl
        rw [Option.getD_some] at hzero ⊢
        omega
    unfold MAX_LIMIT
    omega

/-- What a request that was accepted holds. -/
structure Accepted (topic : String) (raw : RawTimelineQuery) (req : TimelineRequest) : Prop where
  topic_eq : req.topic = topic
  direction : raw.direction = some req.direction.name
  limit : 1 ≤ req.limit ∧ req.limit ≤ MAX_LIMIT
  one_source : raw.cursor.isSome ≠ raw.anchor.isSome
  source : req.source.Fits
  filter : req.filter.isSome = raw.filter.isSome

theorem parseDirection_ok {text : String} {direction : Direction}
    (h : parseDirection text = .ok direction) : text = direction.name := by
  unfold parseDirection at h
  split at h
  · rename_i heq
    cases h
    exact heq
  split at h
  · rename_i heq
    cases h
    exact heq
  split at h
  · cases h
  · cases h

theorem direction_given {direction : Option String} {d : Direction}
    (h : parseDirection (direction.getD "") = .ok d) : direction = some d.name := by
  have hname := parseDirection_ok h
  cases direction with
  | none => cases d <;> exact absurd hname (by decide)
  | some text => exact congrArg some hname

theorem parseFilter_ok {raw : RawTimelineQuery} {filter : Option Filter}
    (h : parseFilter env raw = .ok filter) : filter.isSome = raw.filter.isSome := by
  unfold parseFilter at h
  split at h
  · rename_i hnone
    cases h
    rw [hnone]
    rfl
  · rename_i kind hkind
    rw [hkind]
    split at h
    · cases h
    · split at h
      · cases h
        rfl
      · cases h

theorem validate_accepted {topic : String} {raw : RawTimelineQuery} {req : TimelineRequest}
    (h : validate env cursorError topic raw = .ok req) : Accepted topic raw req := by
  rcases except_bind_ok h with ⟨params, hparams, h⟩
  rcases except_bind_ok h with ⟨direction, hdirection, h⟩
  rcases except_bind_ok h with ⟨limit, hlimit, h⟩
  split at h
  · cases h
  rename_i hone
  rcases except_bind_ok h with ⟨filter, hfilter, h⟩
  rcases except_bind_ok h with ⟨source, hsource, h⟩
  cases h
  have hfits := parseRaw_fits hparams
  exact {
    topic_eq := rfl
    direction := direction_given hdirection
    limit := parseLimit_ok hfits.limit hlimit
    one_source := hone
    source := parseSource_fits hfits hsource
    filter := parseFilter_ok hfilter }

/-! ### What is refused is a bad request -/

def Refuses {α : Type} (x : Except ApiError α) : Prop :=
  ∀ e, x = .error e → ∃ message, e = ApiError.badRequest message

theorem refuses_ok {α : Type} (a : α) : Refuses (.ok a : Except ApiError α) := by
  intro e h
  cases h

theorem refuses_badRequest {α : Type} (message : String) :
    Refuses (.error (ApiError.badRequest message) : Except ApiError α) := by
  intro e h
  cases h
  exact ⟨message, rfl⟩

theorem Refuses.bind {α β : Type} {x : Except ApiError α} (hx : Refuses x)
    {f : α → Except ApiError β} (hf : ∀ a, Refuses (f a)) : Refuses (x >>= f) := by
  cases x with
  | ok a => exact hf a
  | error e =>
    intro e' h
    cases h
    exact hx e rfl

theorem Refuses.map {α β : Type} {x : Except ApiError α} (hx : Refuses x) (f : α → β) :
    Refuses (x.map f) := by
  cases x with
  | ok a => exact refuses_ok (f a)
  | error e =>
    intro e' h
    cases h
    exact hx e rfl

theorem parseNumericField_refuses (lo hi : Int) (field : String) (raw : Option String) :
    Refuses (parseNumericField lo hi field raw) := by
  unfold parseNumericField
  split
  · exact refuses_ok _
  split
  · exact refuses_ok _
  · exact refuses_badRequest _

theorem parseRaw_refuses (raw : RawTimelineParams) : Refuses (parseRaw raw) := by
  refine (parseNumericField_refuses _ _ _ _).bind fun limit => ?_
  refine (parseNumericField_refuses _ _ _ _).bind fun partition => ?_
  refine (parseNumericField_refuses _ _ _ _).bind fun offset => ?_
  exact (parseNumericField_refuses _ _ _ _).bind fun tsMs => refuses_ok _

theorem parseDirection_refuses (text : String) : Refuses (parseDirection text) := by
  unfold parseDirection
  split
  · exact refuses_ok _
  split
  · exact refuses_ok _
  split
  · exact refuses_badRequest _
  · exact refuses_badRequest _

theorem requiredField_refuses (anchor field : String) (value : Option Int) :
    Refuses (requiredField anchor field value) := by
  cases value with
  | none => exact refuses_badRequest _
  | some n => exact refuses_ok n

theorem parseAnchorInput_refuses (anchor : String) (params : TimelineParams) :
    Refuses (parseAnchorInput anchor params) := by
  unfold parseAnchorInput
  split
  · exact refuses_ok _
  split
  · exact refuses_ok _
  split
  · refine (requiredField_refuses _ _ _).bind fun partition => ?_
    exact (requiredField_refuses _ _ _).bind fun offset => refuses_ok _
  split
  · exact (requiredField_refuses _ _ _).bind fun tsMs => refuses_ok _
  · exact refuses_badRequest _

theorem parseSource_refuses (raw : RawTimelineQuery) (params : TimelineParams) :
    Refuses (parseSource cursorError raw params) := by
  unfold parseSource
  split
  · split
    · exact refuses_ok _
    · exact refuses_badRequest _
  · exact (parseAnchorInput_refuses _ _).map _

theorem parseFilter_refuses (raw : RawTimelineQuery) : Refuses (parseFilter env raw) := by
  unfold parseFilter
  split
  · exact refuses_ok _
  split
  · exact refuses_badRequest _
  split
  · exact refuses_ok _
  · exact refuses_badRequest _

theorem parseLimit_refuses (limit : Option Int) : Refuses (parseLimit limit) := by
  unfold parseLimit
  simp only
  split
  · exact refuses_badRequest _
  · exact refuses_ok _

theorem validate_refuses (topic : String) (raw : RawTimelineQuery) :
    Refuses (validate env cursorError topic raw) := by
  refine (parseRaw_refuses _).bind fun params => ?_
  refine (parseDirection_refuses _).bind fun direction => ?_
  refine (parseLimit_refuses _).bind fun limit => ?_
  split
  · exact refuses_badRequest _
  · refine (parseFilter_refuses raw).bind fun filter => ?_
    exact (parseSource_refuses raw params).bind fun source => refuses_ok _

end

/-! ### The handler -/

/-- What a request for a page is answered with: a refusal of the extractor, an error before the
    stream, a stream with one event, or the stream of a page. -/
inductive SseResponse where
  | rejected
  | failed (e : ApiError)
  | told (event : TimelineEvent)
  | page (req : PageRequest)

section

variable (env : TextEnv) (lossy : List UInt8 → String) (cursorError : String → String)
  (budget : Nat)

/-- `timeline_sse`.  The task that resolves the positions may panic: its join error is the one
    thing but the cluster that is told before the stream. -/
def timelineSse (registry : Except ApiError Cluster) (panicked : Bool) (topic : String)
    (query : List UInt8) : SseResponse :=
  match extractQuery lossy query with
  | none => .rejected
  | some raw =>
      match validate env cursorError topic raw with
      | .error e => .told (.ofApiError e)
      | .ok req =>
          match registry with
          | .error e => .failed e
          | .ok cluster =>
              if panicked then .failed ApiError.taskJoin
              else
                match req.page cluster budget with
                | .error e => .told (.ofApiError e)
                | .ok page => .page page

variable {env lossy cursorError budget}

/-- Why a request fails before its stream. -/
inductive FailsBefore (registry : Except ApiError Cluster) (panicked : Bool) : ApiError → Prop
  | cluster {e : ApiError} (missing : registry = .error e) : FailsBefore registry panicked e
  | task {cluster : Cluster} (found : registry = .ok cluster) (panic : panicked = true) :
      FailsBefore registry panicked ApiError.taskJoin

theorem timelineSse_failed {registry : Except ApiError Cluster} {panicked : Bool} {topic : String}
    {query : List UInt8} {e : ApiError}
    (h : timelineSse env lossy cursorError budget registry panicked topic query = .failed e) :
    FailsBefore registry panicked e ∧ ∃ raw req, extractQuery lossy query = some raw ∧
      validate env cursorError topic raw = .ok req := by
  unfold timelineSse at h
  split at h
  · cases h
  rename_i raw hraw
  split at h
  · cases h
  rename_i req hreq
  refine ⟨?_, raw, req, hraw, hreq⟩
  split at h
  · cases h
    exact .cluster rfl
  split at h
  · rename_i hpanic
    cases h
    exact .task rfl hpanic
  split at h
  · cases h
  · cases h

/-- A request that is well formed fails for these two reasons always. -/
theorem timelineSse_of_failsBefore {registry : Except ApiError Cluster} {panicked : Bool}
    {topic : String} {query : List UInt8} {raw : RawTimelineQuery} {req : TimelineRequest}
    {e : ApiError} (hraw : extractQuery lossy query = some raw)
    (hreq : validate env cursorError topic raw = .ok req) (h : FailsBefore registry panicked e) :
    timelineSse env lossy cursorError budget registry panicked topic query = .failed e := by
  rcases h with hmissing | ⟨hfound, hpanic⟩
  · simp only [timelineSse, hraw, hreq, hmissing]
  · simp only [timelineSse, hraw, hreq, hfound, hpanic, if_true]

theorem timelineSse_page {registry : Except ApiError Cluster} {panicked : Bool} {topic : String}
    {query : List UInt8} {page : PageRequest}
    (h : timelineSse env lossy cursorError budget registry panicked topic query = .page page) :
    ∃ raw req cluster, extractQuery lossy query = some raw ∧
      validate env cursorError topic raw = .ok req ∧ registry = .ok cluster ∧
      req.page cluster budget = .ok page := by
  unfold timelineSse at h
  split at h
  · cases h
  rename_i raw hraw
  split at h
  · cases h
  rename_i req hreq
  split at h
  · cases h
  rename_i cluster
  split at h
  · cases h
  split at h
  · cases h
  · rename_i hpage
    cases h
    exact ⟨raw, req, cluster, hraw, hreq, rfl, hpage⟩

/-- What a page is made of. -/
theorem page_made {req : TimelineRequest} {cluster : Cluster} {page : PageRequest}
    (h : req.page cluster budget = .ok page) :
    watermarksBlocking cluster req.topic = .ok page.watermarks ∧
      req.source.resolve cluster page.watermarks req.direction = .ok page.positions ∧
      page.direction = req.direction ∧ page.filter = req.filter := by
  rcases except_bind_ok h with ⟨watermarks, hwatermarks, h⟩
  rcases except_bind_ok h with ⟨positions, hpositions, h⟩
  cases h
  exact ⟨hwatermarks, hpositions, rfl, rfl⟩

/-- What a page takes over from its request. -/
theorem page_of_request {req : TimelineRequest} {cluster : Cluster} {page : PageRequest}
    (h : req.page cluster budget = .ok page) :
    page.direction = req.direction ∧ page.limit = req.limit ∧ page.budget = budget ∧
      ∀ positions, req.source = .fromCursor positions → page.positions = positions := by
  rcases except_bind_ok h with ⟨watermarks, -, h⟩
  rcases except_bind_ok h with ⟨positions, hpositions, h⟩
  cases h
  refine ⟨rfl, rfl, rfl, ?_⟩
  intro positions' hsource
  rw [hsource] at hpositions
  cases hpositions
  rfl

/-- Any query string at all.  One that can be taken apart and has something wrong with it is told
    so in the stream, whatever becomes of the cluster and of the task; a request with nothing wrong
    fails before its stream for want of the cluster or because the task panicked, and for nothing
    else; and a page is served to a request that names a direction, has one source and a limit in
    its bounds, and holds no number out of the range of its type. -/
theorem query_answered (registry : Except ApiError Cluster) (panicked : Bool) (topic : String)
    (query : List UInt8) :
    (∀ raw e, extractQuery lossy query = some raw → validate env cursorError topic raw = .error e →
      (∃ message, e = ApiError.badRequest message) ∧
        timelineSse env lossy cursorError budget registry panicked topic query =
          .told (.ofApiError e)) ∧
    (∀ e, timelineSse env lossy cursorError budget registry panicked topic query = .failed e ↔
      FailsBefore registry panicked e ∧ ∃ raw req, extractQuery lossy query = some raw ∧
        validate env cursorError topic raw = .ok req) ∧
    (∀ page,
      timelineSse env lossy cursorError budget registry panicked topic query = .page page →
      ∃ raw req, extractQuery lossy query = some raw ∧ Accepted topic raw req ∧
        page.direction = req.direction ∧ page.limit = req.limit ∧
        ∀ positions, req.source = .fromCursor positions → page.positions = positions) := by
  refine ⟨?_, ?_, ?_⟩
  · intro raw e hraw he
    refine ⟨validate_refuses topic raw e he, ?_⟩
    simp only [timelineSse, hraw, he]
  · intro e
    constructor
    · intro h
      exact timelineSse_failed h
    · rintro ⟨hfails, raw, req, hraw, hreq⟩
      exact timelineSse_of_failsBefore hraw hreq hfails
  · intro page h
    rcases timelineSse_page h with ⟨raw, req, cluster, hraw, hreq, -, hpage⟩
    have htaken := page_of_request hpage
    exact ⟨raw, req, hraw, validate_accepted hreq, htaken.1, htaken.2.1, htaken.2.2.2⟩

end

end Arne.Timeline
