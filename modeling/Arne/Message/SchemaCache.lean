import Arne.Lib.Interleaving
import Arne.Lib.Machine
import Arne.Message.Payload

/-!
# The caches of the schema registry (`message/schema_registry.rs`)

`schema` looks an id up in a cache, refuses one that failed less than `NEGATIVE_TTL` ago, and
asks the registry otherwise; `parsed` keeps the parsed schemas in a cache of their own.  Any
number of lookups run at once, and no lock is held from one look to the next.  The log says
what they asked, heard and stored, in order.
-/

namespace Arne.Message

open Arne.Interleaving Arne.Machine

/-- In milliseconds. -/
def NEGATIVE_TTL : Nat := 30000

structure RegisteredSchema where
  schemaType : SchemaType
  schema : String
deriving DecidableEq, Repr

/-- What comes back of a request for an id. -/
inductive SrResponse where
  | unreachable (e : String)
  | status (code : String)
  | badBody (e : String)
  | body (schema : String) (schemaType : Option String)
deriving DecidableEq, Repr

/-- What `schema` makes of a response. -/
def SrResponse.read (id : Int) : SrResponse → Except String RegisteredSchema
  | .unreachable e => .error s!"schema registry unreachable fetching id {id}: {e}"
  | .status code => .error s!"schema registry returned {code} for schema id {id}"
  | .badBody e => .error s!"schema registry bad body for id {id}: {e}"
  | .body schema none => .ok ⟨.avro, schema⟩
  | .body schema (some "AVRO") => .ok ⟨.avro, schema⟩
  | .body schema (some "PROTOBUF") => .ok ⟨.protobuf, schema⟩
  | .body schema (some "JSON") => .ok ⟨.json, schema⟩
  | .body _ (some other) => .error s!"unsupported schema type '{other}' for id {id}"

/-- `schema(id)` or `parsed(id)`. -/
inductive Lookup where
  | schema (id : Int)
  | parsed (id : Int)

def Lookup.id : Lookup → Int
  | .schema id => id
  | .parsed id => id

inductive LookupAnswer where
  | schema (answer : Except String RegisteredSchema)
  | parsed (answer : Except String ParsedSchema)

/-! ### Lookups -/

/-- `at_` is the clock; `looked` is how long the log was when the cache was read. -/
inductive SchemaEvent (τ : Type) where
  | sent (t : τ) (id : Int) (looked at_ : Nat)
  | answered (t : τ) (id : Int) (response : SrResponse)
  | failed (t : τ) (id : Int) (message : String) (at_ : Nat)
  | stored (t : τ) (id : Int) (schema : RegisteredSchema)
  | refused (t : τ) (id : Int) (at_ : Nat)
  | kept (t : τ) (id : Int) (parsed : ParsedSchema)

/-- What the lookups share.  An entry of the negative cache is the message with the time it was
    stored at; its `until` is that and `NEGATIVE_TTL`. -/
structure SchemaCaches (τ : Type) where
  cache : Int → Option RegisteredSchema
  parsedCache : Int → Option ParsedSchema
  negativeCache : Int → Option (String × Nat)
  now : Nat
  log : List (SchemaEvent τ)

inductive LookupPhase where
  | entered
  | looking
  | missed (looked : Nat)
  | waiting
  | heard (result : Except String RegisteredSchema)
  | parsing (schema : RegisteredSchema)
  | built (parsed : ParsedSchema)
  | gave (answer : LookupAnswer)

inductive LookupMove where
  | go
  | respond (response : SrResponse)

section

variable {τ : Type}

/- `avro::parse_schema` and `proto::build_descriptor`. -/
variable (parseSchema : String → Except String (List UInt8 → Except String String))
  (buildDescriptor : String → Except String FileDescriptor)

/-- What `parsed` makes of a schema. -/
def parsedOf (id : Int) (s : RegisteredSchema) : Except String ParsedSchema :=
  match s.schemaType with
  | .avro => (parseSchema s.schema).map .avro
  | .protobuf => (buildDescriptor s.schema).map .protobuf
  | .json => .error s!"schema id {id} is JSON-typed and has no parsed artifact"

def SchemaCaches.note (s : SchemaCaches τ) (e : SchemaEvent τ) : SchemaCaches τ :=
  { s with log := s.log ++ [e] }

/-- `schema` returned: that is the answer, or `parsed` goes on with it. -/
def returned : Lookup → Except String RegisteredSchema → LookupPhase
  | .schema _, result => .gave (.schema result)
  | .parsed _, .error e => .gave (.parsed (.error e))
  | .parsed _, .ok s => .parsing s

/-- The read of the cache that `schema` begins with. -/
def lookUp (job : Lookup) (s : SchemaCaches τ) : LookupPhase :=
  match s.cache job.id with
  | some hit => returned job (.ok hit)
  | none => .missed s.log.length

/-- One step of a lookup. -/
def lookupAct (job : τ → Lookup) (t : τ) (m : LookupMove) (s : SchemaCaches τ) (l : LookupPhase) :
    Option (SchemaCaches τ × LookupPhase) :=
  match l, m with
  | .entered, .go =>
      match job t with
      | .schema _ => some (s, lookUp (job t) s)
      | .parsed id =>
          match s.parsedCache id with
          | some hit => some (s, .gave (.parsed (.ok hit)))
          | none => some (s, .looking)
  | .looking, .go => some (s, lookUp (job t) s)
  | .missed looked, .go =>
      match s.negativeCache (job t).id with
      | some (message, at_) =>
          if s.now < at_ + NEGATIVE_TTL then
            some (s.note (.refused t (job t).id s.now), returned (job t) (.error message))
          else some (s.note (.sent t (job t).id looked s.now), .waiting)
      | none => some (s.note (.sent t (job t).id looked s.now), .waiting)
  | .waiting, .respond response =>
      some (s.note (.answered t (job t).id response), .heard (response.read (job t).id))
  | .heard (.error message), .go =>
      some ({ s.note (.failed t (job t).id message s.now) with
        negativeCache := Function.update s.negativeCache (job t).id (some (message, s.now)) },
        returned (job t) (.error message))
  | .heard (.ok schema), .go =>
      some ({ s.note (.stored t (job t).id schema) with
        cache := Function.update s.cache (job t).id (some schema) }, returned (job t) (.ok schema))
  | .parsing schema, .go =>
      match parsedOf parseSchema buildDescriptor (job t).id schema with
      | .error e => some (s, .gave (.parsed (.error e)))
      | .ok parsed => some (s, .built parsed)
  | .built parsed, .go =>
      some ({ s.note (.kept t (job t).id parsed) with
        parsedCache := Function.update s.parsedCache (job t).id (some parsed) },
        .gave (.parsed (.ok parsed)))
  | _, _ => none

/-- Any number of lookups, while time goes by. -/
def schemaCaches (job : τ → Lookup) :
    System τ LookupMove Nat (SchemaCaches τ) LookupPhase where
  act := lookupAct parseSchema buildDescriptor job
  env := fun d s => some { s with now := s.now + d }

def emptyCaches (now : Nat) : Config τ (SchemaCaches τ) LookupPhase where
  shared := ⟨fun _ => none, fun _ => none, fun _ => none, now, []⟩
  locals := fun _ => .entered

/-! ### What the log says -/

/-- Somebody heard this schema of the registry. -/
def Heard (log : List (SchemaEvent τ)) (id : Int) (s : RegisteredSchema) : Prop :=
  ∃ t response, .answered t id response ∈ log ∧ response.read id = .ok s

/-- A failure that `t` heard itself, or that somebody heard and stored less than
    `NEGATIVE_TTL` before `t` was refused for it. -/
def FailedFor (log : List (SchemaEvent τ)) (t : τ) (id : Int) (message : String) : Prop :=
  (∃ response, .answered t id response ∈ log ∧ response.read id = .error message) ∨
    ∃ u response at_ served, .answered u id response ∈ log ∧ response.read id = .error message ∧
      .failed u id message at_ ∈ log ∧ .refused t id served ∈ log ∧ served < at_ + NEGATIVE_TTL

/-- What an answer rests on. -/
def Rests (log : List (SchemaEvent τ)) (t : τ) (id : Int) : LookupAnswer → Prop
  | .schema (.ok s) => Heard log id s
  | .schema (.error e) => FailedFor log t id e
  | .parsed (.ok p) => ∃ s, Heard log id s ∧ parsedOf parseSchema buildDescriptor id s = .ok p
  | .parsed (.error e) => FailedFor log t id e ∨
      ∃ s, Heard log id s ∧ parsedOf parseSchema buildDescriptor id s = .error e

/-- Why a lookup asked or stored something. -/
def SchemaReason (before : List (SchemaEvent τ)) : SchemaEvent τ → Prop
  | .sent _ id looked at_ =>
      looked ≤ before.length ∧ (∀ u s, .stored u id s ∉ before.take looked) ∧
        ∀ u message failedAt, .failed u id message failedAt ∈ before →
          failedAt + NEGATIVE_TTL ≤ at_
  | .answered t id _ => ∃ looked at_, .sent t id looked at_ ∈ before
  | .failed t id message _ =>
      ∃ response, .answered t id response ∈ before ∧ response.read id = .error message
  | .stored t id s => ∃ response, .answered t id response ∈ before ∧ response.read id = .ok s
  | .refused _ _ _ => True
  | .kept _ id p =>
      ∃ s, Heard before id s ∧ parsedOf parseSchema buildDescriptor id s = .ok p

/-- What holds of the caches between any two steps. -/
structure CachesSound (s : SchemaCaches τ) : Prop where
  hit : ∀ id schema, s.cache id = some schema → ∃ u, .stored u id schema ∈ s.log
  miss : ∀ id, s.cache id = none → ∀ u schema, .stored u id schema ∉ s.log
  negative : ∀ id message at_, s.negativeCache id = some (message, at_) →
    (∃ u, .failed u id message at_ ∈ s.log) ∧
      ∀ u message' at', .failed u id message' at' ∈ s.log → at' ≤ at_
  positive : ∀ id, s.negativeCache id = none → ∀ u message at_, .failed u id message at_ ∉ s.log
  past : ∀ u id message at_, .failed u id message at_ ∈ s.log → at_ ≤ s.now
  parsed : ∀ id p, s.parsedCache id = some p → ∃ u, .kept u id p ∈ s.log
  justified : Justified (SchemaReason parseSchema buildDescriptor) s.log

/-- What a lookup knows of the log. -/
def LookupKnows (job : Lookup) (t : τ) (log : List (SchemaEvent τ)) : LookupPhase → Prop
  | .entered => True
  | .looking => True
  | .missed looked => looked ≤ log.length ∧ ∀ u s, .stored u job.id s ∉ log.take looked
  | .waiting => ∃ looked at_, .sent t job.id looked at_ ∈ log
  | .heard result => ∃ response, .answered t job.id response ∈ log ∧ response.read job.id = result
  | .parsing s => Heard log job.id s
  | .built p =>
      ∃ s, Heard log job.id s ∧ parsedOf parseSchema buildDescriptor job.id s = .ok p
  | .gave answer => Rests parseSchema buildDescriptor log t job.id answer

variable {parseSchema buildDescriptor}

section

variable {log more : List (SchemaEvent τ)} {t : τ} {id : Int}

theorem Heard.append {schema : RegisteredSchema} (h : Heard log id schema)
    (more : List (SchemaEvent τ)) : Heard (log ++ more) id schema := by
  obtain ⟨u, response, hanswered, hread⟩ := h
  exact ⟨u, response, List.mem_append_left _ hanswered, hread⟩

theorem FailedFor.append {message : String} (h : FailedFor log t id message)
    (more : List (SchemaEvent τ)) : FailedFor (log ++ more) t id message := by
  rcases h with ⟨response, hanswered, hread⟩ |
    ⟨u, response, at_, served, hanswered, hread, hfailed, hrefused, hyoung⟩
  · exact .inl ⟨response, List.mem_append_left _ hanswered, hread⟩
  · exact .inr ⟨u, response, at_, served, List.mem_append_left _ hanswered, hread,
      List.mem_append_left _ hfailed, List.mem_append_left _ hrefused, hyoung⟩

theorem Rests.append {answer : LookupAnswer}
    (h : Rests parseSchema buildDescriptor log t id answer) (more : List (SchemaEvent τ)) :
    Rests parseSchema buildDescriptor (log ++ more) t id answer := by
  cases answer with
  | schema result =>
    cases result with
    | ok s => exact Heard.append h more
    | error e => exact FailedFor.append h more
  | parsed result =>
    cases result with
    | ok p =>
      obtain ⟨s, hheard, hparsed⟩ := h
      exact ⟨s, hheard.append more, hparsed⟩
    | error e =>
      apply h.imp
      · exact fun hfailed => hfailed.append more
      · rintro ⟨s, hheard, hparsed⟩
        exact ⟨s, hheard.append more, hparsed⟩

/-- What a lookup knows stays true whatever is added to the log. -/
theorem LookupKnows.append {job : Lookup} {l : LookupPhase}
    (h : LookupKnows parseSchema buildDescriptor job t log l) (more : List (SchemaEvent τ)) :
    LookupKnows parseSchema buildDescriptor job t (log ++ more) l := by
  cases l with
  | entered => trivial
  | looking => trivial
  | missed looked =>
    obtain ⟨hlooked, hmissed⟩ := h
    refine ⟨?_, ?_⟩
    · rw [List.length_append]
      omega
    · rw [List.take_append_of_le_length hlooked]
      exact hmissed
  | waiting =>
    obtain ⟨looked, at_, hsent⟩ := h
    exact ⟨looked, at_, List.mem_append_left _ hsent⟩
  | heard result =>
    obtain ⟨response, hanswered, hread⟩ := h
    exact ⟨response, List.mem_append_left _ hanswered, hread⟩
  | parsing s => exact Heard.append h more
  | built p =>
    obtain ⟨s, hheard, hparsed⟩ := h
    exact ⟨s, hheard.append more, hparsed⟩
  | gave answer => exact Rests.append h more

theorem mem_note {e : SchemaEvent τ} : e ∈ log ++ [e] :=
  List.mem_append_right _ List.mem_cons_self

theorem mem_concat_iff {e x : SchemaEvent τ} : x ∈ log ++ [e] ↔ x ∈ log ∨ x = e := by
  rw [List.mem_append, List.mem_singleton]

end

/-! ### Every order of the lookups -/

section

variable {job : τ → Lookup} {t : τ} {s s' : SchemaCaches τ} {l l' : LookupPhase}

/-- An event that says nothing of what a cache holds. -/
theorem CachesSound.note (h : CachesSound parseSchema buildDescriptor s) {e : SchemaEvent τ}
    (hreason : SchemaReason parseSchema buildDescriptor s.log e)
    (hstored : ∀ u id schema, e ≠ .stored u id schema)
    (hfailed : ∀ u id message at_, e ≠ .failed u id message at_) :
    CachesSound parseSchema buildDescriptor (s.note e) := by
  have hnot {u : τ} {id : Int} {message : String} {at_ : Nat}
      (hmem : .failed u id message at_ ∈ s.log ++ [e]) : .failed u id message at_ ∈ s.log :=
    (mem_concat_iff.mp hmem).resolve_right fun heq => hfailed u id message at_ heq.symm
  refine ⟨?_, ?_, ?_, ?_, ?_, ?_, h.justified.concat hreason⟩
  · intro id schema hhit
    obtain ⟨u, hu⟩ := h.hit id schema hhit
    exact ⟨u, List.mem_append_left _ hu⟩
  · intro id hmiss u schema hmem
    rcases mem_concat_iff.mp hmem with hold | hnew
    · exact h.miss id hmiss u schema hold
    · exact hstored u id schema hnew.symm
  · intro id message at_ hnegative
    obtain ⟨⟨u, hu⟩, hlatest⟩ := h.negative id message at_ hnegative
    exact ⟨⟨u, List.mem_append_left _ hu⟩, fun u' message' at' hmem =>
      hlatest u' message' at' (hnot hmem)⟩
  · intro id hnone u message at_ hmem
    exact h.positive id hnone u message at_ (hnot hmem)
  · intro u id message at_ hmem
    exact h.past u id message at_ (hnot hmem)
  · intro id p hparsed
    obtain ⟨u, hu⟩ := h.parsed id p hparsed
    exact ⟨u, List.mem_append_left _ hu⟩

/-- `self.cache.write().await.insert(id, entry)`. -/
theorem CachesSound.store (h : CachesSound parseSchema buildDescriptor s) {id : Int}
    {schema : RegisteredSchema}
    (hheard : ∃ response, .answered t id response ∈ s.log ∧ response.read id = .ok schema) :
    CachesSound parseSchema buildDescriptor { s.note (.stored t id schema) with
      cache := Function.update s.cache id (some schema) } := by
  have hnot {u : τ} {id' : Int} {message : String} {at_ : Nat}
      (hmem : .failed u id' message at_ ∈ s.log ++ [.stored t id schema]) :
      .failed u id' message at_ ∈ s.log :=
    (mem_concat_iff.mp hmem).resolve_right (by simp)
  refine ⟨?_, ?_, ?_, ?_, ?_, ?_, h.justified.concat hheard⟩
  · intro id' schema' hhit
    by_cases hid : id' = id
    · subst hid
      dsimp only at hhit
      rw [Function.update_self] at hhit
      cases hhit
      exact ⟨t, mem_note⟩
    · dsimp only at hhit
      rw [Function.update_of_ne hid] at hhit
      obtain ⟨u, hu⟩ := h.hit id' schema' hhit
      exact ⟨u, List.mem_append_left _ hu⟩
  · intro id' hmiss u schema' hmem
    by_cases hid : id' = id
    · subst hid
      dsimp only at hmiss
      rw [Function.update_self] at hmiss
      cases hmiss
    · dsimp only at hmiss
      rw [Function.update_of_ne hid] at hmiss
      rcases mem_concat_iff.mp hmem with hold | hnew
      · exact h.miss id' hmiss u schema' hold
      · cases hnew
        exact hid rfl
  · intro id' message at_ hnegative
    obtain ⟨⟨u, hu⟩, hlatest⟩ := h.negative id' message at_ hnegative
    exact ⟨⟨u, List.mem_append_left _ hu⟩, fun u' message' at' hmem =>
      hlatest u' message' at' (hnot hmem)⟩
  · intro id' hnone u message at_ hmem
    exact h.positive id' hnone u message at_ (hnot hmem)
  · intro u id' message at_ hmem
    exact h.past u id' message at_ (hnot hmem)
  · intro id' p hparsed
    obtain ⟨u, hu⟩ := h.parsed id' p hparsed
    exact ⟨u, List.mem_append_left _ hu⟩

/-- `fail`: the entry it leaves is the latest. -/
theorem CachesSound.fail (h : CachesSound parseSchema buildDescriptor s) {id : Int}
    {message : String}
    (hheard : ∃ response, .answered t id response ∈ s.log ∧ response.read id = .error message) :
    CachesSound parseSchema buildDescriptor { s.note (.failed t id message s.now) with
      negativeCache := Function.update s.negativeCache id (some (message, s.now)) } := by
  refine ⟨?_, ?_, ?_, ?_, ?_, ?_, h.justified.concat hheard⟩
  · intro id' schema hhit
    obtain ⟨u, hu⟩ := h.hit id' schema hhit
    exact ⟨u, List.mem_append_left _ hu⟩
  · intro id' hmiss u schema hmem
    exact h.miss id' hmiss u schema ((mem_concat_iff.mp hmem).resolve_right (by simp))
  · intro id' message' at_ hnegative
    by_cases hid : id' = id
    · subst hid
      dsimp only at hnegative
      rw [Function.update_self] at hnegative
      cases hnegative
      refine ⟨⟨t, mem_note⟩, ?_⟩
      intro u message' at' hmem
      rcases mem_concat_iff.mp hmem with hold | hnew
      · exact h.past u id' message' at' hold
      · cases hnew
        exact Nat.le_refl _
    · dsimp only at hnegative
      rw [Function.update_of_ne hid] at hnegative
      obtain ⟨⟨u, hu⟩, hlatest⟩ := h.negative id' message' at_ hnegative
      refine ⟨⟨u, List.mem_append_left _ hu⟩, ?_⟩
      intro u' message'' at' hmem
      rcases mem_concat_iff.mp hmem with hold | hnew
      · exact hlatest u' message'' at' hold
      · cases hnew
        exact absurd rfl hid
  · intro id' hnone u message' at_ hmem
    by_cases hid : id' = id
    · subst hid
      dsimp only at hnone
      rw [Function.update_self] at hnone
      cases hnone
    · dsimp only at hnone
      rw [Function.update_of_ne hid] at hnone
      rcases mem_concat_iff.mp hmem with hold | hnew
      · exact h.positive id' hnone u message' at_ hold
      · cases hnew
        exact hid rfl
  · intro u id' message' at_ hmem
    rcases mem_concat_iff.mp hmem with hold | hnew
    · exact h.past u id' message' at_ hold
    · cases hnew
      exact Nat.le_refl _
  · intro id' p hparsed
    obtain ⟨u, hu⟩ := h.parsed id' p hparsed
    exact ⟨u, List.mem_append_left _ hu⟩

/-- `self.parsed_cache.write().await.insert(id, entry)`. -/
theorem CachesSound.keep (h : CachesSound parseSchema buildDescriptor s) {id : Int}
    {p : ParsedSchema}
    (hbuilt : ∃ schema, Heard s.log id schema ∧
      parsedOf parseSchema buildDescriptor id schema = .ok p) :
    CachesSound parseSchema buildDescriptor { s.note (.kept t id p) with
      parsedCache := Function.update s.parsedCache id (some p) } := by
  have hnoted : CachesSound parseSchema buildDescriptor (s.note (.kept t id p)) :=
    h.note hbuilt (by simp) (by simp)
  refine { hnoted with parsed := ?_ }
  intro id' p' hparsed
  by_cases hid : id' = id
  · subst hid
    dsimp only at hparsed
    rw [Function.update_self] at hparsed
    cases hparsed
    exact ⟨t, mem_note⟩
  · dsimp only at hparsed
    rw [Function.update_of_ne hid] at hparsed
    exact hnoted.parsed id' p' hparsed

/-- A schema that was stored was heard. -/
theorem CachesSound.heard (h : CachesSound parseSchema buildDescriptor s) {u : τ} {id : Int}
    {schema : RegisteredSchema} (hstored : .stored u id schema ∈ s.log) : Heard s.log id schema := by
  obtain ⟨before, after, hlog⟩ := List.append_of_mem hstored
  obtain ⟨response, hanswered, hread⟩ := h.justified before _ after hlog
  refine ⟨u, response, ?_, hread⟩
  rw [hlog]
  exact List.mem_append_left _ hanswered

theorem CachesSound.heard_failed (h : CachesSound parseSchema buildDescriptor s) {u : τ} {id : Int}
    {message : String} {at_ : Nat} (hfailed : .failed u id message at_ ∈ s.log) :
    ∃ response, .answered u id response ∈ s.log ∧ response.read id = .error message := by
  obtain ⟨before, after, hlog⟩ := List.append_of_mem hfailed
  obtain ⟨response, hanswered, hread⟩ := h.justified before _ after hlog
  refine ⟨response, ?_, hread⟩
  rw [hlog]
  exact List.mem_append_left _ hanswered

theorem CachesSound.built (h : CachesSound parseSchema buildDescriptor s) {u : τ} {id : Int}
    {p : ParsedSchema} (hkept : .kept u id p ∈ s.log) : ∃ schema, Heard s.log id schema ∧
      parsedOf parseSchema buildDescriptor id schema = .ok p := by
  obtain ⟨before, after, hlog⟩ := List.append_of_mem hkept
  obtain ⟨schema, hheard, hparsed⟩ := h.justified before _ after hlog
  refine ⟨schema, ?_, hparsed⟩
  rw [hlog]
  exact hheard.append _

/-- What `schema` returned is known by the lookup that called it. -/
theorem returned_knows {log : List (SchemaEvent τ)} {job : Lookup}
    {result : Except String RegisteredSchema}
    (hok : ∀ schema, result = .ok schema → Heard log job.id schema)
    (herror : ∀ message, result = .error message → FailedFor log t job.id message) :
    LookupKnows parseSchema buildDescriptor job t log (returned job result) := by
  cases job with
  | schema id =>
    cases result with
    | ok s => exact hok s rfl
    | error e => exact herror e rfl
  | parsed id =>
    cases result with
    | ok s => exact hok s rfl
    | error e => exact .inl (herror e rfl)

theorem lookUp_knows (h : CachesSound parseSchema buildDescriptor s) (job : Lookup) :
    LookupKnows parseSchema buildDescriptor job t s.log (lookUp job s) := by
  unfold lookUp
  cases hcache : s.cache job.id with
  | some hit =>
    apply returned_knows
    · intro schema hschema
      cases hschema
      obtain ⟨u, hu⟩ := h.hit job.id _ hcache
      exact h.heard hu
    · intro message hmessage
      cases hmessage
  | none =>
    refine ⟨Nat.le_refl _, ?_⟩
    rw [List.take_length]
    exact h.miss job.id hcache

/-- The look at the negative cache: a young failure is served, and otherwise a request is sent,
    with no failure of the id still young. -/
theorem missed_keeps {looked : Nat} (h : CachesSound parseSchema buildDescriptor s)
    (hknows : LookupKnows parseSchema buildDescriptor (job t) t s.log (.missed looked))
    (hact : lookupAct parseSchema buildDescriptor job t .go s (.missed looked) = some (s', l')) :
    CachesSound parseSchema buildDescriptor s' ∧
      LookupKnows parseSchema buildDescriptor (job t) t s'.log l' ∧
      ∃ more, s'.log = s.log ++ more := by
  obtain ⟨hlooked, hmissed⟩ := hknows
  have hasks (hold : ∀ u message at_, .failed u (job t).id message at_ ∈ s.log →
      at_ + NEGATIVE_TTL ≤ s.now) :
      CachesSound parseSchema buildDescriptor (s.note (.sent t (job t).id looked s.now)) :=
    h.note ⟨hlooked, hmissed, hold⟩ (by simp) (by simp)
  have hwaits : LookupKnows parseSchema buildDescriptor (job t) t
      (s.note (.sent t (job t).id looked s.now)).log .waiting := ⟨looked, s.now, mem_note⟩
  unfold lookupAct at hact
  dsimp only at hact
  split at hact
  · rename_i message at_ hnegative
    obtain ⟨⟨u, hfailed⟩, hlatest⟩ := h.negative _ message at_ hnegative
    split at hact
    · rename_i hyoung
      cases hact
      obtain ⟨response, hanswered, hread⟩ := h.heard_failed hfailed
      refine ⟨h.note trivial (by simp) (by simp), ?_, _, rfl⟩
      apply returned_knows
      · intro schema hschema
        cases hschema
      · intro message' hmessage
        cases hmessage
        exact .inr ⟨u, response, at_, s.now, List.mem_append_left _ hanswered, hread,
          List.mem_append_left _ hfailed, mem_note, hyoung⟩
    · rename_i hold
      cases hact
      refine ⟨hasks ?_, hwaits, _, rfl⟩
      intro u' message' at' hmem
      have hle := hlatest u' message' at' hmem
      omega
  · rename_i hnone
    cases hact
    refine ⟨hasks ?_, hwaits, _, rfl⟩
    intro u' message' at' hmem
    exact absurd hmem (h.positive _ hnone u' message' at')

/-- A response was read: its schema or its failure is stored. -/
theorem heard_keeps {result : Except String RegisteredSchema}
    (h : CachesSound parseSchema buildDescriptor s)
    (hknows : LookupKnows parseSchema buildDescriptor (job t) t s.log (.heard result))
    (hact : lookupAct parseSchema buildDescriptor job t .go s (.heard result) = some (s', l')) :
    CachesSound parseSchema buildDescriptor s' ∧
      LookupKnows parseSchema buildDescriptor (job t) t s'.log l' ∧
      ∃ more, s'.log = s.log ++ more := by
  obtain ⟨response, hanswered, hread⟩ := hknows
  cases result with
  | ok schema =>
    cases hact
    refine ⟨h.store ⟨response, hanswered, hread⟩, ?_, _, rfl⟩
    apply returned_knows
    · intro schema' hschema
      cases hschema
      exact ⟨t, response, List.mem_append_left _ hanswered, hread⟩
    · intro message hmessage
      cases hmessage
  | error message =>
    cases hact
    refine ⟨h.fail ⟨response, hanswered, hread⟩, ?_, _, rfl⟩
    apply returned_knows
    · intro schema hschema
      cases hschema
    · intro message' hmessage
      cases hmessage
      exact .inl ⟨response, List.mem_append_left _ hanswered, hread⟩

/-- One step of a lookup, wherever it is. -/
theorem lookupAct_keeps {m : LookupMove} (h : CachesSound parseSchema buildDescriptor s)
    (hknows : LookupKnows parseSchema buildDescriptor (job t) t s.log l)
    (hact : lookupAct parseSchema buildDescriptor job t m s l = some (s', l')) :
    CachesSound parseSchema buildDescriptor s' ∧
      LookupKnows parseSchema buildDescriptor (job t) t s'.log l' ∧
      ∃ more, s'.log = s.log ++ more := by
  have hsame : ∃ more, s.log = s.log ++ more := ⟨[], (List.append_nil _).symm⟩
  cases l with
  | entered =>
    cases m with
    | respond response => cases hact
    | go =>
      unfold lookupAct at hact
      dsimp only at hact
      split at hact
      · cases hact
        exact ⟨h, lookUp_knows h (job t), hsame⟩
      · rename_i id hjob
        split at hact
        · rename_i hit hcache
          cases hact
          obtain ⟨u, hkept⟩ := h.parsed id hit hcache
          obtain ⟨schema, hheard, hparsed⟩ := h.built hkept
          have hid : (job t).id = id := by rw [hjob, Lookup.id]
          refine ⟨h, ?_, hsame⟩
          rw [← hid] at hheard hparsed
          exact ⟨schema, hheard, hparsed⟩
        · cases hact
          exact ⟨h, trivial, hsame⟩
  | looking =>
    cases m with
    | respond response => cases hact
    | go =>
      cases hact
      exact ⟨h, lookUp_knows h (job t), hsame⟩
  | missed looked =>
    cases m with
    | respond response => cases hact
    | go => exact missed_keeps h hknows hact
  | waiting =>
    cases m with
    | go => cases hact
    | respond response =>
      cases hact
      exact ⟨h.note hknows (by simp) (by simp), ⟨response, mem_note, rfl⟩, _, rfl⟩
  | heard result =>
    cases m with
    | respond response => cases result <;> cases hact
    | go => exact heard_keeps h hknows hact
  | parsing schema =>
    cases m with
    | respond response => cases hact
    | go =>
      unfold lookupAct at hact
      dsimp only at hact
      split at hact
      · rename_i e hparsed
        cases hact
        exact ⟨h, .inr ⟨schema, hknows, hparsed⟩, hsame⟩
      · rename_i p hparsed
        cases hact
        exact ⟨h, ⟨schema, hknows, hparsed⟩, hsame⟩
  | built p =>
    cases m with
    | respond response => cases hact
    | go =>
      cases hact
      obtain ⟨schema, hheard, hparsed⟩ := hknows
      exact ⟨h.keep ⟨schema, hheard, hparsed⟩, ⟨schema, hheard.append _, hparsed⟩, _, rfl⟩
  | gave answer => cases m <;> cases hact

end

theorem schemaCaches_outline (job : τ → Lookup) :
    Outline (schemaCaches parseSchema buildDescriptor job) (fun _ _ _ _ => True)
      (CachesSound parseSchema buildDescriptor)
      (fun t s l => LookupKnows parseSchema buildDescriptor (job t) t s.log l)
      (fun _ s s' => ∃ more, s'.log = s.log ++ more) where
  act := fun h hknows _ hact => lookupAct_keeps h hknows hact
  env := by
    intro d s s' h henv
    cases henv
    exact ⟨{ h with past := fun u id message at_ hmem =>
      (h.past u id message at_ hmem).trans (Nat.le_add_right _ _) }, [], (List.append_nil _).symm⟩
  stable := by
    intro o u s s' l _ _ hknows hgrows
    obtain ⟨more, hmore⟩ := hgrows
    rw [hmore]
    exact hknows.append more

theorem reachable_cachesSound [DecidableEq τ] {job : τ → Lookup} {start : Nat}
    {c : Config τ (SchemaCaches τ) LookupPhase}
    (h : (schemaCaches parseSchema buildDescriptor job).Reachable (emptyCaches start) c) :
    CachesSound parseSchema buildDescriptor c.shared ∧
      ∀ t, LookupKnows parseSchema buildDescriptor (job t) t c.shared.log (c.locals t) := by
  have hstart : CachesSound parseSchema buildDescriptor (emptyCaches (τ := τ) start).shared := by
    refine ⟨?_, ?_, ?_, ?_, ?_, ?_, justified_nil⟩ <;> simp [emptyCaches]
  exact (schemaCaches_outline job).reached hstart (fun _ => trivial) h

/-- **A lookup answers what the registry said.**  In every order of any number of lookups: a
    schema was heard of the registry for that id, a parsed schema is what such a schema
    parses to, and an error was heard by the lookup itself, or by another that stored it less
    than `NEGATIVE_TTL` before it was served, or is what a schema that was heard fails with. -/
theorem lookups_answer_what_was_heard [DecidableEq τ] {job : τ → Lookup} {start : Nat}
    {c : Config τ (SchemaCaches τ) LookupPhase}
    (h : (schemaCaches parseSchema buildDescriptor job).Reachable (emptyCaches start) c) (t : τ) :
    (∀ s, c.locals t = .gave (.schema (.ok s)) → Heard c.shared.log (job t).id s) ∧
    (∀ p, c.locals t = .gave (.parsed (.ok p)) → ∃ s, Heard c.shared.log (job t).id s ∧
      parsedOf parseSchema buildDescriptor (job t).id s = .ok p) ∧
    (∀ e, c.locals t = .gave (.schema (.error e)) → FailedFor c.shared.log t (job t).id e) ∧
    ∀ e, c.locals t = .gave (.parsed (.error e)) → FailedFor c.shared.log t (job t).id e ∨
      ∃ s, Heard c.shared.log (job t).id s ∧
        parsedOf parseSchema buildDescriptor (job t).id s = .error e := by
  obtain ⟨-, hknows⟩ := reachable_cachesSound h
  have hrests := hknows t
  refine ⟨?_, ?_, ?_, ?_⟩
  · intro s hgave
    rw [hgave] at hrests
    exact hrests
  · intro p hgave
    rw [hgave] at hrests
    exact hrests
  · intro e hgave
    rw [hgave] at hrests
    exact hrests
  · intro e hgave
    rw [hgave] at hrests
    exact hrests

/-- **The registry is asked only where the caches do not answer.**  In every order of the
    lookups: where a request is sent, no schema of the id had been stored when the lookup
    read the cache, and every failure of the id that is stored by then is `NEGATIVE_TTL` old;
    and what is stored was heard in answer to such a request. -/
theorem requests_needed [DecidableEq τ] {job : τ → Lookup} {start : Nat}
    {c : Config τ (SchemaCaches τ) LookupPhase}
    (h : (schemaCaches parseSchema buildDescriptor job).Reachable (emptyCaches start) c) :
    (∀ before t id looked at_ after, c.shared.log = before ++ .sent t id looked at_ :: after →
      looked ≤ before.length ∧ (∀ u s, .stored u id s ∉ before.take looked) ∧
        ∀ u message failedAt, .failed u id message failedAt ∈ before →
          failedAt + NEGATIVE_TTL ≤ at_) ∧
    ∀ id s, c.shared.cache id = some s → ∃ u response looked at_,
      .sent u id looked at_ ∈ c.shared.log ∧ .answered u id response ∈ c.shared.log ∧
        response.read id = .ok s := by
  obtain ⟨hsound, -⟩ := reachable_cachesSound h
  constructor
  · intro before t id looked at_ after hlog
    exact hsound.justified before _ after hlog
  · intro id s hcache
    obtain ⟨v, hstored⟩ := hsound.hit id s hcache
    obtain ⟨u, response, hanswered, hread⟩ := hsound.heard hstored
    obtain ⟨before, after, hlog⟩ := List.append_of_mem hanswered
    obtain ⟨looked, at_, hsent⟩ := hsound.justified before _ after hlog
    refine ⟨u, response, looked, at_, ?_, hanswered, hread⟩
    rw [hlog]
    exact List.mem_append_left _ hsent

/-- Id `7` fails for lookup `0`, is refused to lookup `1`, and is asked for again by lookup `2`
    after the time is over. -/
def failsOnce : List (Event Nat LookupMove Nat) :=
  [.act 0 .go, .act 0 .go, .act 0 (.respond (.status "500 Internal Server Error")), .act 0 .go,
    .env 20000, .act 1 .go, .act 1 .go, .act 1 .go, .env 10000, .act 2 .go, .act 2 .go,
    .act 2 (.respond (.body "\"string\"" none)), .act 2 .go]

def failsOnceJobs : Nat → Lookup
  | 1 => .parsed 7
  | _ => .schema 7

theorem failsOnce_heard : ∃ c, (schemaCaches (fun _ => .error "") (fun _ => .error "")
    failsOnceJobs).replay (emptyCaches 0) failsOnce = some c ∧ Heard c.shared.log 7 ⟨.avro, "\"string\""⟩ := by
  have hruns : ∃ c, (schemaCaches (fun _ => .error "") (fun _ => .error "")
      failsOnceJobs).replay (emptyCaches 0) failsOnce = some c ∧
        c.locals 2 = .gave (.schema (.ok ⟨.avro, "\"string\""⟩)) := ⟨_, rfl, rfl⟩
  obtain ⟨c, hreplay, hgave⟩ := hruns
  exact ⟨c, hreplay, (lookups_answer_what_was_heard
    (System.replay_reachable failsOnce .start hreplay) 2).1 _ hgave⟩

theorem failsOnce_asked : ∃ c, (schemaCaches (fun _ => .error "") (fun _ => .error "")
    failsOnceJobs).replay (emptyCaches 0) failsOnce = some c ∧
      ∃ u response looked at_, .sent u 7 looked at_ ∈ c.shared.log ∧
        .answered u 7 response ∈ c.shared.log ∧ response.read 7 = .ok ⟨.avro, "\"string\""⟩ := by
  have hruns : ∃ c, (schemaCaches (fun _ => .error "") (fun _ => .error "")
      failsOnceJobs).replay (emptyCaches 0) failsOnce = some c ∧
        c.shared.cache 7 = some ⟨.avro, "\"string\""⟩ := ⟨_, rfl, rfl⟩
  obtain ⟨c, hreplay, hcache⟩ := hruns
  exact ⟨c, hreplay, (requests_needed
    (System.replay_reachable failsOnce .start hreplay)).2 7 _ hcache⟩

end

end Arne.Message
