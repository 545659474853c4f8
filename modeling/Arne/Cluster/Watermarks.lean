import Arne.Cluster.Groups
import Arne.Timeline.Request
import Mathlib.Data.List.Find
import Mathlib.Logic.Function.Basic

/-!
# High watermarks behind a shared cache (`cluster/admin.rs`, `cluster/keyed_cache.rs`)

A request asks for the heads of some partitions.  What the shared cache holds and is young
enough for the request is served from it, all else is read in one call, and what was read
goes into the shared cache for others.  The values of one request are kept apart from the
shared ones: a partition whose own read failed is absent, whatever the cache still holds.
-/

namespace Arne.Cluster

open Arne.Message

/-! ### The cache -/

/-- `KeyedCache`: one stamped value for each key. -/
structure KeyedCache (K V : Type) where
  inner : K → Option (Stamped V)
  horizonMs : Int

namespace KeyedCache

variable {K V : Type}

def get (cache : KeyedCache K V) (key : K) : Option (Stamped V) := cache.inner key

/-- `map.retain(..)`. -/
def swept (cache : KeyedCache K V) (now : Int) (key : K) : Option (Stamped V) :=
  (cache.inner key).filter fun e => decide (now - e.sampledAt < cache.horizonMs)

/-- The inserts of a batch, one after the other. -/
def insertAll {W : Type} [DecidableEq K] (map : K → Option W) (entries : List (K × W)) :
    K → Option W :=
  entries.foldl (fun map e => Function.update map e.1 (some e.2)) map

def insertMany [DecidableEq K] (cache : KeyedCache K V) (entries : List (K × V)) (now : Int) :
    KeyedCache K V :=
  { cache with inner := insertAll (cache.swept now) (entries.map fun e => (e.1, ⟨e.2, now⟩)) }

/-- The entry of a key that a batch leaves: its last one. -/
def lastOf {W : Type} [DecidableEq K] (entries : List (K × W)) (key : K) : Option W :=
  (entries.reverse.find? (·.1 == key)).map Prod.snd

theorem lastOf_concat {W : Type} [DecidableEq K] (entries : List (K × W)) (e : K × W) (key : K) :
    lastOf (entries ++ [e]) key = if e.1 = key then some e.2 else lastOf entries key := by
  rw [lastOf, List.reverse_append, List.reverse_singleton, List.singleton_append, List.find?_cons]
  by_cases h : e.1 = key
  · rw [if_pos h]
    simp [h]
  · rw [if_neg h, beq_false_of_ne h, lastOf]

theorem insertAll_apply {W : Type} [DecidableEq K] (map : K → Option W) (entries : List (K × W))
    (key : K) : insertAll map entries key = (lastOf entries key).or (map key) := by
  induction entries using List.reverseRecOn with
  | nil => rfl
  | append_singleton entries e ih =>
    rw [insertAll, List.foldl_concat, ← insertAll, lastOf_concat]
    by_cases h : e.1 = key
    · rw [if_pos h, h, Function.update_self, Option.some_or]
    · rw [if_neg h, Function.update_of_ne (Ne.symm h), ih]

theorem lastOf_map {W W' : Type} [DecidableEq K] (f : W → W') (entries : List (K × W)) (key : K) :
    lastOf (entries.map fun e => (e.1, f e.2)) key = (lastOf entries key).map f := by
  induction entries using List.reverseRecOn with
  | nil => rfl
  | append_singleton entries e ih =>
    rw [List.map_append, List.map_singleton, lastOf_concat, lastOf_concat, ih]
    split <;> rfl

theorem mem_of_lastOf {W : Type} [DecidableEq K] {entries : List (K × W)} {key : K} {value : W}
    (h : lastOf entries key = some value) : (key, value) ∈ entries := by
  obtain ⟨e, hfind, rfl⟩ := Option.map_eq_some_iff.mp h
  have hkey : e.1 = key := by simpa using List.find?_some hfind
  exact hkey ▸ List.mem_reverse.mp (List.mem_of_find?_eq_some hfind)

/-- A batch stamps what it writes and sweeps the rest. -/
theorem insertMany_get [DecidableEq K] (cache : KeyedCache K V) (entries : List (K × V))
    (now : Int) (key : K) :
    (cache.insertMany entries now).get key =
      ((lastOf entries key).map fun v => ⟨v, now⟩).or (cache.swept now key) := by
  rw [← lastOf_map fun v => (⟨v, now⟩ : Stamped V)]
  exact insertAll_apply _ _ _

/-- A sweep alters nothing that it keeps. -/
theorem swept_eq (cache : KeyedCache K V) (now : Int) (key : K) :
    cache.swept now key = cache.get key ∨
      cache.swept now key = none ∧
        ∃ e, cache.get key = some e ∧ cache.horizonMs ≤ now - e.sampledAt := by
  rw [swept, get]
  cases cache.inner key with
  | none => exact .inl rfl
  | some e =>
    by_cases hyoung : now - e.sampledAt < cache.horizonMs
    · exact .inl (by rw [Option.filter_some, if_pos (decide_eq_true hyoung)])
    · exact .inr ⟨by rw [Option.filter_some, if_neg (by simpa using hyoung)], e, rfl,
        not_lt.mp hyoung⟩

end KeyedCache

/-! ### The watermarks of one request -/

abbrev TopicPartition := String × Int

/-- One entry of a `ListOffsets` answer. -/
structure PartitionOffset where
  topic : String
  partition : Int
  offset : Int
  error : Option String
deriving DecidableEq, Repr

/-- `Watermarks`, less the label its calls are counted under. -/
structure Watermarks where
  ttlMs : Int
  validated : TopicPartition → Option Int

def Watermarks.new (ttlMs : Int) : Watermarks := ⟨ttlMs, fun _ => none⟩

def Watermarks.alwaysFresh : Watermarks := Watermarks.new 0

def Watermarks.get (w : Watermarks) (topic : String) (partition : Int) : Option Int :=
  w.validated (topic, partition)

/-- What the loop over `wanted` has gathered. -/
structure Looked where
  watermarks : Watermarks
  oldest : Option Int
  missing : List TopicPartition

/-- The entry of a key that is young enough for the request. -/
def youngEntry (cache : KeyedCache TopicPartition Int) (ttlMs now : Int) (key : TopicPartition) :
    Option (Stamped Int) :=
  (cache.get key).filter fun e => decide (0 < ttlMs) && decide (now - e.sampledAt < ttlMs)

/-- The body of the loop. -/
def Looked.step (cache : KeyedCache TopicPartition Int) (now : Int) (acc : Looked)
    (key : TopicPartition) : Looked :=
  match youngEntry cache acc.watermarks.ttlMs now key with
  | some e =>
      { acc with
        watermarks :=
          { acc.watermarks with
            validated := Function.update acc.watermarks.validated key (some e.value) }
        oldest := olderOf acc.oldest e.sampledAt }
  | none => { acc with missing := acc.missing ++ [key] }

/-- The entries of an answer that carry no error. -/
def withoutError (answer : List PartitionOffset) : List (TopicPartition × Int) :=
  (answer.filter (·.error.isNone)).map fun p => ((p.topic, p.partition), p.offset)

/-- What a call of `ensure` returns and leaves behind. -/
structure Ensured where
  result : Except ApiError Int
  watermarks : Watermarks
  cache : KeyedCache TopicPartition Int

/-- `Watermarks::ensure`, with its two readings of the clock. -/
def Watermarks.ensure (w : Watermarks) (cache : KeyedCache TopicPartition Int)
    (listOffsets : List TopicPartition → Except ApiError (List PartitionOffset))
    (now fetchedAt : Int) (wanted : List TopicPartition) : Ensured :=
  let looked := wanted.foldl (Looked.step cache now) ⟨w, none, []⟩
  if looked.missing.isEmpty then ⟨.ok (looked.oldest.getD now), looked.watermarks, cache⟩
  else
    match listOffsets looked.missing with
    | .error e => ⟨.error e, looked.watermarks, cache⟩
    | .ok answer =>
        let fetched := withoutError answer
        ⟨.ok ((olderOf looked.oldest fetchedAt).getD fetchedAt),
          { looked.watermarks with
            validated := KeyedCache.insertAll looked.watermarks.validated fetched },
          cache.insertMany fetched fetchedAt⟩

/-! ### What the loop gathers -/

section

variable {cache : KeyedCache TopicPartition Int} {ttlMs now : Int}

/-- What is young goes to the request, and what is not goes on the list. -/
structure LookedUp (young : TopicPartition → Option (Stamped Int)) (wanted : List TopicPartition)
    (ttlMs : Int) (looked : Looked) : Prop where
  ttlMs_eq : looked.watermarks.ttlMs = ttlMs
  oldest : looked.oldest = ((wanted.filterMap young).map Stamped.sampledAt).foldl olderOf none
  missing : looked.missing = wanted.filter fun k => (young k).isNone
  validated : ∀ k, looked.watermarks.validated k =
    if k ∈ wanted then (young k).map Stamped.value else none

theorem LookedUp.step {wanted : List TopicPartition} {looked : Looked}
    (h : LookedUp (youngEntry cache ttlMs now) wanted ttlMs looked) (key : TopicPartition) :
    LookedUp (youngEntry cache ttlMs now) (wanted ++ [key]) ttlMs
      (Looked.step cache now looked key) := by
  unfold Looked.step
  rw [h.ttlMs_eq]
  cases hyoung : youngEntry cache ttlMs now key with
  | none =>
    refine ⟨h.ttlMs_eq, ?_, ?_, ?_⟩
    · simp [h.oldest, hyoung]
    · simp [h.missing, hyoung, List.filter_append]
    · intro k
      simp only [h.validated, List.mem_append, List.mem_singleton]
      by_cases hk : k = key
      · simp [hk, hyoung]
      · simp [hk]
  | some e =>
    refine ⟨h.ttlMs_eq, ?_, ?_, ?_⟩
    · simp [h.oldest, hyoung]
    · simp [h.missing, hyoung, List.filter_append]
    · intro k
      by_cases hk : k = key
      · subst hk
        simp [hyoung]
      · simp [h.validated, hk]

theorem lookedUp (cache : KeyedCache TopicPartition Int) (ttlMs now : Int)
    (wanted : List TopicPartition) :
    LookedUp (youngEntry cache ttlMs now) wanted ttlMs
      (wanted.foldl (Looked.step cache now) ⟨Watermarks.new ttlMs, none, []⟩) := by
  induction wanted using List.reverseRecOn with
  | nil => exact ⟨rfl, rfl, rfl, fun _ => rfl⟩
  | append_singleton wanted key ih =>
    rw [List.foldl_concat]
    exact ih.step key

end

/-! ### One call on a new value -/

section

variable (cache : KeyedCache TopicPartition Int) (ttlMs : Int)
  (listOffsets : List TopicPartition → Except ApiError (List PartitionOffset))
  (now fetchedAt : Int) (wanted : List TopicPartition)

/-- The partitions the request has to read. -/
def missingOf : List TopicPartition :=
  wanted.filter fun k => (youngEntry cache ttlMs now k).isNone

/-- What a partition's own read gave, if it was read at all and without an error. -/
def readNow (key : TopicPartition) : Option Int :=
  if (missingOf cache ttlMs now wanted).isEmpty then none
  else
    match listOffsets (missingOf cache ttlMs now wanted) with
    | .error _ => none
    | .ok answer => KeyedCache.lastOf (withoutError answer) key

/-- Where a served value is from, and when it was sampled: an entry when it was stored, a
    read at some moment after the call had the time for its stamp. -/
def SampledAt (key : TopicPartition) (moment : Int) : Prop :=
  (∃ e, youngEntry cache ttlMs now key = some e ∧ moment = e.sampledAt) ∨
    (readNow cache ttlMs listOffsets now wanted key).isSome ∧ fetchedAt ≤ moment

/-- `ListOffsets` answers for partitions it was asked for, in any order, and may leave some
    out. -/
def AnswersAsked : Prop :=
  ∀ asked answer, listOffsets asked = .ok answer → ∀ p ∈ answer, (p.topic, p.partition) ∈ asked

end

section

variable {cache : KeyedCache TopicPartition Int} {ttlMs : Int}
  {listOffsets : List TopicPartition → Except ApiError (List PartitionOffset)}
  {now fetchedAt : Int} {wanted : List TopicPartition}

/-- What a call returns: the young entries alone, an error with the cache as it was, or the
    young entries and what was read. -/
inductive EnsureOutcome (cache : KeyedCache TopicPartition Int) (ttlMs : Int)
    (listOffsets : List TopicPartition → Except ApiError (List PartitionOffset))
    (now fetchedAt : Int) (wanted : List TopicPartition) (looked : Looked) : Ensured → Prop where
  | served (hnone : missingOf cache ttlMs now wanted = []) :
      EnsureOutcome cache ttlMs listOffsets now fetchedAt wanted looked
        ⟨.ok (looked.oldest.getD now), looked.watermarks, cache⟩
  | failed (hsome : missingOf cache ttlMs now wanted ≠ []) {e : ApiError}
      (hread : listOffsets (missingOf cache ttlMs now wanted) = .error e) :
      EnsureOutcome cache ttlMs listOffsets now fetchedAt wanted looked
        ⟨.error e, looked.watermarks, cache⟩
  | read (hsome : missingOf cache ttlMs now wanted ≠ []) {answer : List PartitionOffset}
      (hread : listOffsets (missingOf cache ttlMs now wanted) = .ok answer) :
      EnsureOutcome cache ttlMs listOffsets now fetchedAt wanted looked
        ⟨.ok ((olderOf looked.oldest fetchedAt).getD fetchedAt),
          { looked.watermarks with
            validated := KeyedCache.insertAll looked.watermarks.validated (withoutError answer) },
          cache.insertMany (withoutError answer) fetchedAt⟩

theorem ensure_outcome (cache : KeyedCache TopicPartition Int) (ttlMs : Int)
    (listOffsets : List TopicPartition → Except ApiError (List PartitionOffset))
    (now fetchedAt : Int) (wanted : List TopicPartition) :
    ∃ looked, LookedUp (youngEntry cache ttlMs now) wanted ttlMs looked ∧
      EnsureOutcome cache ttlMs listOffsets now fetchedAt wanted looked
        ((Watermarks.new ttlMs).ensure cache listOffsets now fetchedAt wanted) := by
  have hlookedUp := lookedUp cache ttlMs now wanted
  refine ⟨_, hlookedUp, ?_⟩
  rw [Watermarks.ensure]
  dsimp only
  have hmissing : _ = missingOf cache ttlMs now wanted := hlookedUp.missing
  rw [hmissing]
  cases hread : listOffsets (missingOf cache ttlMs now wanted) with
  | error e =>
    split
    · rename_i hempty
      exact .served (List.isEmpty_iff.mp hempty)
    · rename_i hempty
      exact .failed (mt List.isEmpty_iff.mpr hempty) hread
  | ok answer =>
    split
    · rename_i hempty
      exact .served (List.isEmpty_iff.mp hempty)
    · rename_i hempty
      exact .read (mt List.isEmpty_iff.mpr hempty) hread

theorem readNow_of_read (hsome : missingOf cache ttlMs now wanted ≠ [])
    {answer : List PartitionOffset}
    (hread : listOffsets (missingOf cache ttlMs now wanted) = .ok answer) (k : TopicPartition) :
    readNow cache ttlMs listOffsets now wanted k = KeyedCache.lastOf (withoutError answer) k := by
  rw [readNow, if_neg (by simpa using hsome), hread]

theorem readNow_of_served (hnone : missingOf cache ttlMs now wanted = []) (k : TopicPartition) :
    readNow cache ttlMs listOffsets now wanted k = none := by
  rw [readNow, hnone]
  rfl

/-- A partition is read only where the cache has nothing young of it. -/
theorem young_of_readNow (hasked : AnswersAsked listOffsets) {k : TopicPartition} {v : Int}
    (h : readNow cache ttlMs listOffsets now wanted k = some v) :
    youngEntry cache ttlMs now k = none := by
  unfold readNow at h
  split at h
  · cases h
  · cases hread : listOffsets (missingOf cache ttlMs now wanted) with
    | error e =>
      rw [hread] at h
      cases h
    | ok answer =>
      rw [hread] at h
      obtain ⟨p, hp, heq⟩ := List.mem_map.mp (KeyedCache.mem_of_lastOf h)
      cases heq
      have hmem := hasked _ _ hread p (List.mem_filter.mp hp).1
      exact Option.isNone_iff_eq_none.mp (List.mem_filter.mp hmem).2

/-- The values of the request are the young entries and what was read. -/
theorem EnsureOutcome.get_eq {looked : Looked}
    (hlooked : LookedUp (youngEntry cache ttlMs now) wanted ttlMs looked) {ensured : Ensured}
    (h : EnsureOutcome cache ttlMs listOffsets now fetchedAt wanted looked ensured) {stamp : Int}
    (hok : ensured.result = .ok stamp) {k : TopicPartition} (hk : k ∈ wanted) :
    ensured.watermarks.get k.1 k.2 = (readNow cache ttlMs listOffsets now wanted k).or
      ((youngEntry cache ttlMs now k).map Stamped.value) := by
  cases h with
  | served hnone =>
    rw [readNow_of_served hnone, Option.none_or, Watermarks.get, hlooked.validated, if_pos hk]
  | failed hsome hread => cases hok
  | @read hsome answer hread =>
    have hvalidated : KeyedCache.insertAll looked.watermarks.validated (withoutError answer) k =
        (KeyedCache.lastOf (withoutError answer) k).or
          ((youngEntry cache ttlMs now k).map Stamped.value) := by
      rw [KeyedCache.insertAll_apply, hlooked.validated, if_pos hk]
    rw [readNow_of_read hsome hread]
    exact hvalidated

/-- The stamp is as old as the oldest value of the request. -/
theorem EnsureOutcome.stamp_le {looked : Looked}
    (hlooked : LookedUp (youngEntry cache ttlMs now) wanted ttlMs looked) {ensured : Ensured}
    (h : EnsureOutcome cache ttlMs listOffsets now fetchedAt wanted looked ensured) {stamp : Int}
    (hok : ensured.result = .ok stamp) {k : TopicPartition} (hk : k ∈ wanted) {moment : Int}
    (hmoment : SampledAt cache ttlMs listOffsets now fetchedAt wanted k moment) :
    stamp ≤ moment := by
  have hyoung : ∀ e, youngEntry cache ttlMs now k = some e →
      e.sampledAt ∈ (wanted.filterMap (youngEntry cache ttlMs now)).map Stamped.sampledAt :=
    fun e he => List.mem_map_of_mem (List.mem_filterMap.mpr ⟨k, hk, he⟩)
  cases h with
  | served hnone =>
    cases hok
    rw [hlooked.oldest, oldest_getD_le_iff]
    rcases hmoment with ⟨e, he, rfl⟩ | ⟨hread, _⟩
    · exact .inl ⟨e.sampledAt, hyoung e he, le_refl _⟩
    · rw [readNow_of_served hnone] at hread
      cases hread
  | failed hsome hread => cases hok
  | read hsome hread =>
    cases hok
    rw [hlooked.oldest, ← List.foldl_concat olderOf none fetchedAt, oldest_getD_le_iff]
    rcases hmoment with ⟨e, he, rfl⟩ | ⟨_, hle⟩
    · exact .inl ⟨e.sampledAt, List.mem_append_right _ (List.mem_append_left _ (hyoung e he)),
        le_refl _⟩
    · exact .inl ⟨fetchedAt, List.mem_append_right _ (List.mem_append_right _ List.mem_cons_self),
        hle⟩

theorem EnsureOutcome.ok_of_answer {looked : Looked} {ensured : Ensured}
    (h : EnsureOutcome cache ttlMs listOffsets now fetchedAt wanted looked ensured)
    {answer : List PartitionOffset}
    (hread : listOffsets (missingOf cache ttlMs now wanted) = .ok answer) :
    ∃ stamp, ensured.result = .ok stamp := by
  cases h with
  | served hnone => exact ⟨_, rfl⟩
  | failed hsome herr =>
    rw [hread] at herr
    cases herr
  | read hsome hread => exact ⟨_, rfl⟩

theorem EnsureOutcome.cache_of_error {looked : Looked} {ensured : Ensured}
    (h : EnsureOutcome cache ttlMs listOffsets now fetchedAt wanted looked ensured) {e : ApiError}
    (herr : ensured.result = .error e) : ensured.cache = cache := by
  cases h with
  | served hnone => rfl
  | failed hsome hread => rfl
  | read hsome hread => cases herr

/-- The shared cache keeps what was not read, unless it is too old to be kept. -/
theorem EnsureOutcome.cache_get {looked : Looked} {ensured : Ensured}
    (h : EnsureOutcome cache ttlMs listOffsets now fetchedAt wanted looked ensured)
    {k : TopicPartition} (hk : readNow cache ttlMs listOffsets now wanted k = none) :
    ensured.cache.get k = cache.get k ∨
      ensured.cache.get k = none ∧
        ∃ e, cache.get k = some e ∧ cache.horizonMs ≤ fetchedAt - e.sampledAt := by
  cases h with
  | served hnone => exact .inl rfl
  | failed hsome hread => exact .inl rfl
  | @read hsome answer hread =>
    rw [readNow_of_read hsome hread] at hk
    have hswept : (cache.insertMany (withoutError answer) fetchedAt).get k =
        cache.swept fetchedAt k := by
      rw [KeyedCache.insertMany_get, hk, Option.map_none, Option.none_or]
    rw [hswept]
    exact cache.swept_eq fetchedAt k

/-- A request that takes nothing from the cache sees what its own call answered, as the
    watermarks of a page do. -/
theorem alwaysFresh_get {topic : String} {partitions : List Int} {answer : List PartitionOffset}
    (hread : listOffsets (partitions.map (topic, ·)) = .ok answer)
    (hasked : AnswersAsked listOffsets) {p : Int} (hp : p ∈ partitions) :
    (Watermarks.alwaysFresh.ensure cache listOffsets now fetchedAt
        (partitions.map (topic, ·))).watermarks.get topic p =
      Timeline.offsetsByPartition (answer.map fun p => ⟨p.partition, p.offset, p.error⟩) p := by
  have hyoung : ∀ k, youngEntry cache 0 now k = none := by
    intro k
    rw [youngEntry]
    cases cache.get k <;> simp
  have hmissing : missingOf cache 0 now (partitions.map (topic, ·)) =
      partitions.map (topic, ·) := by
    simp [missingOf, hyoung]
  have hsome : missingOf cache 0 now (partitions.map (topic, ·)) ≠ [] := by
    rw [hmissing]
    exact List.ne_nil_of_mem (List.mem_map_of_mem hp)
  have hread' := hread
  rw [← hmissing] at hread'
  obtain ⟨looked, hlooked, houtcome⟩ :=
    ensure_outcome cache 0 listOffsets now fetchedAt (partitions.map (topic, ·))
  obtain ⟨stamp, hok⟩ := houtcome.ok_of_answer hread'
  have htopic : ∀ e ∈ answer, e.topic = topic := by
    intro e he
    obtain ⟨q, _, heq⟩ := List.mem_map.mp (hasked _ _ hread e he)
    exact (congrArg Prod.fst heq).symm
  refine (houtcome.get_eq hlooked hok (List.mem_map_of_mem hp)).trans ?_
  rw [readNow_of_read hsome hread', hyoung, Option.map_none, Option.or_none]
  simp only [KeyedCache.lastOf, withoutError, Timeline.offsetsByPartition, ← List.map_reverse,
    List.find?_map, List.filter_map, Option.map_map]
  refine congrArg (Option.map PartitionOffset.offset) (List.find?_congr ?_)
  intro e he
  have he : e ∈ answer := (List.mem_filter.mp (List.mem_reverse.mp he)).1
  simp [Prod.ext_iff, htopic e he]

end

/-- One call on a new value.  Where it succeeds, a partition has a value exactly when the
    cache held a young one or its own read gave one; the returned stamp is no later than the
    moment any of them was sampled; and the shared cache alters nothing that was not read.
    Where it fails, the shared cache is as it was. -/
theorem ensure_serves_validated {cache : KeyedCache TopicPartition Int}
    {listOffsets : List TopicPartition → Except ApiError (List PartitionOffset)}
    (hasked : AnswersAsked listOffsets) (ttlMs now fetchedAt : Int)
    (wanted : List TopicPartition) :
    let ensured := (Watermarks.new ttlMs).ensure cache listOffsets now fetchedAt wanted
    (∀ stamp, ensured.result = .ok stamp →
      (∀ k ∈ wanted, ∀ v, ensured.watermarks.get k.1 k.2 = some v ↔
        (∃ e, youngEntry cache ttlMs now k = some e ∧ v = e.value) ∨
          readNow cache ttlMs listOffsets now wanted k = some v) ∧
      (∀ k ∈ wanted, ∀ moment,
        SampledAt cache ttlMs listOffsets now fetchedAt wanted k moment → stamp ≤ moment) ∧
      (∀ k, readNow cache ttlMs listOffsets now wanted k = none →
        ensured.cache.get k = cache.get k ∨
          ensured.cache.get k = none ∧
            ∃ e, cache.get k = some e ∧ cache.horizonMs ≤ fetchedAt - e.sampledAt)) ∧
    (∀ e, ensured.result = .error e → ensured.cache = cache) := by
  intro ensured
  obtain ⟨looked, hlooked, houtcome⟩ := ensure_outcome cache ttlMs listOffsets now fetchedAt wanted
  constructor
  · intro stamp hok
    refine ⟨?_, ?_, ?_⟩
    · intro k hk v
      rw [houtcome.get_eq hlooked hok hk]
      cases hread : readNow cache ttlMs listOffsets now wanted k with
      | none => simp [eq_comm]
      | some w =>
        rw [young_of_readNow hasked hread]
        simp
    · intro k hk moment
      exact houtcome.stamp_le hlooked hok hk
    · intro k
      exact houtcome.cache_get
  · intro e
    exact houtcome.cache_of_error

/-! ### A refresh that fails -/

/-- The head of partition 0 is young; those of 1 and 2 are old. -/
def agedCache : KeyedCache TopicPartition Int where
  inner k := if k = ("orders", 0) then some ⟨10, 9000⟩ else if k.1 = "orders" then some ⟨7, 100⟩
    else none
  horizonMs := 600000

/-- Partition 1 has no leader. -/
def leaderless (asked : List TopicPartition) : Except ApiError (List PartitionOffset) :=
  .ok (asked.map fun k => ⟨k.1, k.2, 12, if k.2 = 1 then some "Leader not available" else none⟩)

theorem leaderless_asked : AnswersAsked leaderless := by
  intro asked answer h p hp
  cases h
  obtain ⟨k, hk, rfl⟩ := List.mem_map.mp hp
  exact hk

/-- The partition without a leader is absent, while the cache still holds its old head. -/
theorem leaderless_partition_absent :
    (∀ v, ((Watermarks.new 5000).ensure agedCache leaderless 10000 10001
        [("orders", 0), ("orders", 1), ("orders", 2)]).watermarks.get "orders" 1 ≠ some v) ∧
      agedCache.get ("orders", 1) = some ⟨7, 100⟩ := by
  refine ⟨?_, rfl⟩
  intro v
  have hspec := (@ensure_serves_validated agedCache leaderless leaderless_asked 5000 10000 10001
    [("orders", 0), ("orders", 1), ("orders", 2)]).1 9000 rfl
  have hold : youngEntry agedCache 5000 10000 ("orders", 1) = none := by decide
  have hfailed : readNow agedCache 5000 leaderless 10000
      [("orders", 0), ("orders", 1), ("orders", 2)] ("orders", 1) = none := by decide
  rw [Ne, hspec.1 ("orders", 1) (by decide) v, hold, hfailed]
  simp

end Arne.Cluster
