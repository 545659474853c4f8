import Arne.Cluster.Consumers

/-!
# What an answer says of its age (`cluster/admin.rs`)

Three answers are put together from entries of different ages: the lag of a page of
groups, one group's page, and a topic's consumers.  Each states one stamp, `as_of`.
An answer does not flatter when its stamp is no younger than any entry a value of it
was taken from.
-/

namespace Arne.Cluster

open Arne.Message

/-- No entry the answer was taken from is older than the answer says it is. -/
def NeverFlatters (asOf : Int) (stamps : List Int) : Prop := ∀ s ∈ stamps, asOf ≤ s

instance (asOf : Int) (stamps : List Int) : Decidable (NeverFlatters asOf stamps) :=
  inferInstanceAs (Decidable (∀ s ∈ stamps, asOf ≤ s))

/-- An answer stamped with the oldest of some entries is honest about the others exactly
    when none of them is older than all of these. -/
theorem neverFlatters_iff (served others : List Int) (fallback : Int) :
    NeverFlatters ((served.foldl olderOf none).getD fallback) (served ++ others) ↔
      ∀ d ∈ others, (∃ s ∈ served, s ≤ d) ∨ (served = [] ∧ fallback ≤ d) := by
  have hle : ∀ x, (served.foldl olderOf none).getD fallback ≤ x ↔
      (∃ s ∈ served, s ≤ x) ∨ (served = [] ∧ fallback ≤ x) := by
    intro x
    rw [oldest_getD_le_iff]
    simp
  simp only [NeverFlatters, List.mem_append, hle]
  constructor
  · intro h d hd
    exact h d (Or.inr hd)
  · rintro h s (hs | hs)
    · exact Or.inl ⟨s, hs, le_refl s⟩
    · exact h s hs

/-- The stamp of an outcome, if there is an entry behind it. -/
def stampOf {V : Type} : Except ApiError (Stamped V) → List Int
  | .ok e => [e.sampledAt]
  | .error _ => []

/-! ### The lag of a page of groups -/

structure GroupLagEntry where
  groupId : String
  totalLag : Option Int
  unreadablePartitions : Nat
  memberCount : Option Nat
  error : Option String
deriving DecidableEq, Repr

structure GroupLagBatch where
  groups : List GroupLagEntry
  asOf : Int
deriving DecidableEq, Repr

/-- The groups whose members the cluster-wide list could not count. -/
def uncountable (roster : Except ApiError GroupRoster) : List String :=
  match roster with
  | .ok r => (r.groups.filter (·.memberCount.isNone)).map (·.groupId)
  | .error _ => []

/-- The description a row's member count is taken from; it is asked for only where the
    list could not count. -/
def countLookup (now : Int) (roster : Except ApiError GroupRoster) (group : String)
    (look : Lookups) : List (Stamped GroupDescription) :=
  if (uncountable roster).contains group then
    match groupDescriptionCached look.describe liveTtlMs now with
    | .ok d => [d]
    | .error _ => []
  else []

def rowLookup (cluster : String) (now : Int) (group : String) (look : Lookups) :
    Except ApiError (Stamped LagSnapshot) :=
  groupLagCached cluster group look.lag (some liveTtlMs) now

def groupLagEntry (cluster : String) (now : Int) (roster : Except ApiError GroupRoster)
    (group : String) (look : Lookups) : GroupLagEntry :=
  let memberCount := (countLookup now roster group look).head?.map (·.value.members.length)
  match rowLookup cluster now group look with
  | .ok entry =>
      ⟨group, entry.value.statableTotal, entry.value.unknown.length, memberCount, none⟩
  | .error e => ⟨group, none, 0, memberCount, some (lagErrorReason e)⟩

/-- One turn of the loop of `groups_lag`. -/
def GroupLagBatch.push (cluster : String) (now : Int) (roster : Except ApiError GroupRoster)
    (acc : List GroupLagEntry × Option Int) (group : String) (look : Lookups) :
    List GroupLagEntry × Option Int :=
  (acc.1 ++ [groupLagEntry cluster now roster group look],
    match rowLookup cluster now group look with
    | .ok entry => olderOf acc.2 entry.sampledAt
    | .error _ => acc.2)

/-- What the request meets at the `i`-th group it names is `look i`. -/
def groupsLag (cluster : String) (now : Int) (roster : Except ApiError GroupRoster)
    (groups : List String) (look : Nat → Lookups) : GroupLagBatch :=
  let out := groups.zipIdx.foldl
    (fun acc p => GroupLagBatch.push cluster now roster acc p.1 (look p.2)) ([], none)
  ⟨out.1, out.2.getD now⟩

/-- The stamps of the lag entries behind the rows. -/
def rowStamps (cluster : String) (now : Int) (groups : List String) (look : Nat → Lookups) :
    List Int :=
  groups.zipIdx.flatMap fun p => stampOf (rowLookup cluster now p.1 (look p.2))

/-- The stamps of the descriptions behind the member counts. -/
def countStamps (now : Int) (roster : Except ApiError GroupRoster) (groups : List String)
    (look : Nat → Lookups) : List Int :=
  groups.zipIdx.flatMap fun p => (countLookup now roster p.1 (look p.2)).map (·.sampledAt)

theorem push_oldest (cluster : String) (now : Int) (roster : Except ApiError GroupRoster)
    (acc : List GroupLagEntry × Option Int) (group : String) (look : Lookups) :
    (GroupLagBatch.push cluster now roster acc group look).2 =
      (stampOf (rowLookup cluster now group look)).foldl olderOf acc.2 := by
  unfold GroupLagBatch.push
  cases rowLookup cluster now group look <;> rfl

/-- The batch is stamped with the oldest of the lag entries it serves. -/
theorem groupsLag_asOf (cluster : String) (now : Int) (roster : Except ApiError GroupRoster)
    (groups : List String) (look : Nat → Lookups) :
    (groupsLag cluster now roster groups look).asOf =
      ((rowStamps cluster now groups look).foldl olderOf none).getD now := by
  have hfold : ∀ (rest : List (String × Nat)) (acc : List GroupLagEntry × Option Int),
      (rest.foldl (fun acc p => GroupLagBatch.push cluster now roster acc p.1 (look p.2)) acc).2 =
        (rest.flatMap fun p => stampOf (rowLookup cluster now p.1 (look p.2))).foldl
          olderOf acc.2 := by
    intro rest
    induction rest with
    | nil => simp
    | cons p rest ih =>
      intro acc
      rw [List.foldl_cons, ih, push_oldest, List.flatMap_cons, List.foldl_append]
  simp only [groupsLag, hfold, rowStamps]

/-! ### One group's page -/

/-- `DETAIL_TTL_MS`. -/
def detailTtlMs : Int := 8000

structure MemberAssignment where
  topic : String
  partitions : List Int
deriving DecidableEq, Repr

structure MemberInfo where
  memberId : String
  clientId : String
  clientHost : String
  assigned : Option (List MemberAssignment)
deriving DecidableEq, Repr

structure GroupDetail where
  groupId : String
  state : String
  groupType : String
  assignmentStrategy : String
  members : List MemberInfo
  partitions : List PartitionLag
  unreadablePartitions : Nat
  asOf : Int
deriving DecidableEq, Repr

/-- The partition joins the entry of its topic, or opens one at the end. -/
def addPartition (topic : String) (partition : Int) :
    List MemberAssignment → List MemberAssignment
  | [] => [⟨topic, [partition]⟩]
  | a :: rest =>
      if a.topic = topic then ⟨a.topic, a.partitions ++ [partition]⟩ :: rest
      else a :: addPartition topic partition rest

def groupByTopic (assigned : List (String × Int)) : List MemberAssignment :=
  let out := assigned.foldl (fun out p => addPartition p.1 p.2 out) []
  let sorted := out.map fun a =>
    (⟨a.topic, a.partitions.mergeSort fun p q => decide (p ≤ q)⟩ : MemberAssignment)
  sorted.mergeSort fun a b => decide (a.topic ≤ b.topic)

/-- What the page shows of the group itself: nothing of a group the coordinator does not
    know or calls dead. -/
def describedLive (look : Lookups) (now : Int) :
    Except ApiError (Option (Stamped GroupDescription)) :=
  match groupDescriptionCached look.describe detailTtlMs now with
  | .ok d => .ok (if d.value.state = "Dead" then none else some d)
  | .error e => if e.code = "group_not_found" then .ok none else .error e

def memberInfo (m : MemberDescription) : MemberInfo :=
  ⟨m.memberId, m.clientId, m.host, m.assigned.map groupByTopic⟩

def detailOf (group : String) (described : Option GroupDescription)
    (entry : Stamped LagSnapshot) : GroupDetail where
  groupId := group
  state := (described.map (·.state)).getD "Empty"
  groupType := (described.map (·.groupType)).getD ""
  assignmentStrategy := (described.map (·.assignor)).getD ""
  members := (described.map fun d => d.members.map memberInfo).getD []
  partitions := entry.value.rows
  unreadablePartitions := entry.value.unknown.length
  -- as fresh as the older of the two samples behind the lag
  asOf := entry.sampledAt

/-- The two lookups, each at the time it is made, and the page they give. -/
def groupDetailUncached (cluster group : String) (look : Lookups) (describedNow lagNow : Int) :
    Except ApiError GroupDetail :=
  match describedLive look describedNow with
  | .error e => .error e
  | .ok described =>
      match groupLagCached cluster group look.lag (some liveTtlMs) lagNow with
      | .error e => .error e
      | .ok entry =>
          -- neither a coordinator entry nor a committed offset: no such group
          if described.isNone ∧ entry.value.rows = [] then
            .error (ApiError.groupNotFound cluster group)
          else .ok (detailOf group (described.map (·.value)) entry)

/-- The stamps of the entries a page was taken from. -/
def detailStamps (cluster group : String) (look : Lookups) (describedNow lagNow : Int) :
    List Int :=
  stampOf (groupLagCached cluster group look.lag (some liveTtlMs) lagNow) ++
    match describedLive look describedNow with
    | .ok described => described.toList.map (·.sampledAt)
    | .error _ => []

theorem mem_addPartition (topic : String) (partition : Int) (out : List MemberAssignment)
    (t : String) (p : Int) :
    (∃ a ∈ addPartition topic partition out, a.topic = t ∧ p ∈ a.partitions) ↔
      (t = topic ∧ p = partition) ∨ ∃ a ∈ out, a.topic = t ∧ p ∈ a.partitions := by
  induction out with
  | nil => simp [addPartition, eq_comm]
  | cons a rest ih =>
    by_cases h : a.topic = topic
    · simp only [addPartition, h, if_true, List.exists_mem_cons_iff, List.mem_append,
        List.mem_singleton]
      grind
    · simp only [addPartition, h, if_false, List.exists_mem_cons_iff, ih]
      grind

/-- The page shows exactly the partitions the coordinator says a member owns. -/
theorem mem_groupByTopic (assigned : List (String × Int)) (t : String) (p : Int) :
    (∃ a ∈ groupByTopic assigned, a.topic = t ∧ p ∈ a.partitions) ↔ (t, p) ∈ assigned := by
  have hfold : ∀ (rest : List (String × Int)) (out : List MemberAssignment),
      (∃ a ∈ rest.foldl (fun out p => addPartition p.1 p.2 out) out,
        a.topic = t ∧ p ∈ a.partitions) ↔
      (t, p) ∈ rest ∨ ∃ a ∈ out, a.topic = t ∧ p ∈ a.partitions := by
    intro rest
    induction rest with
    | nil => simp
    | cons q rest ih =>
      intro out
      rw [List.foldl_cons, ih, mem_addPartition, List.mem_cons, Prod.ext_iff]
      simp only [or_assoc, or_left_comm]
  have hsorted : (∃ a ∈ groupByTopic assigned, a.topic = t ∧ p ∈ a.partitions) ↔
      ∃ a ∈ assigned.foldl (fun out p => addPartition p.1 p.2 out) [],
        a.topic = t ∧ p ∈ a.partitions := by
    simp [groupByTopic]
  rw [hsorted, hfold]
  simp

/-- A page that is given rests on a lag entry, and on a description where one was live. -/
theorem groupDetailUncached_ok {cluster group : String} {look : Lookups}
    {describedNow lagNow : Int} {detail : GroupDetail}
    (h : groupDetailUncached cluster group look describedNow lagNow = .ok detail) :
    ∃ described entry, describedLive look describedNow = .ok described ∧
      groupLagCached cluster group look.lag (some liveTtlMs) lagNow = .ok entry ∧
      detail = detailOf group (described.map (·.value)) entry := by
  unfold groupDetailUncached at h
  rcases hdescribed : describedLive look describedNow with e | described
  · simp [hdescribed] at h
  · rcases hentry : groupLagCached cluster group look.lag (some liveTtlMs) lagNow with e | entry
    · simp [hdescribed, hentry] at h
    · simp only [hdescribed, hentry] at h
      split at h
      · cases h
      · cases h
        exact ⟨described, entry, rfl, rfl, rfl⟩

/-! ### The consumers of a topic -/

/-- The stamps of the lag entries behind the listed rows. -/
def listedStamps (cluster topic : String) (now : Int) (visit : Nat → Visit)
    (groups : List (GroupMembership × Nat)) : List Int :=
  groups.flatMap fun p =>
    match inspected cluster topic now p.1 (visit p.2) with
    | .listed _ => stampOf (lagLookup cluster topic now p.1 (visit p.2))
    | _ => []

/-- The stamps of the descriptions that said what groups are assigned to. -/
def assignmentStamps (topic : String) (now : Int) (visit : Nat → Visit)
    (groups : List (GroupMembership × Nat)) : List Int :=
  groups.flatMap fun p =>
    if needsCoordinatorDescribe p.1.groupType then
      stampOf (groupDescriptionCached (visit p.2).describe ((visit p.2).describeTtl topic) now)
    else []

/-- The stamps of the entries the answer was taken from: the rows' lag, the roster, which
    says who exists, in what state and assigned to what, and the descriptions. -/
def consumersStamps (cluster topic : String) (now : Int) (roster : GroupRoster)
    (visit : Nat → Visit) : List Int :=
  listedStamps cluster topic now visit roster.groups.zipIdx ++
    (roster.asOf :: assignmentStamps topic now visit roster.groups.zipIdx)

theorem gather_oldestServed (cluster topic : String) (now : Int) (visit : Nat → Visit)
    (acc : Gathered) (groups : List (GroupMembership × Nat)) :
    (gather cluster topic now visit acc groups).oldestServed =
      (listedStamps cluster topic now visit groups).foldl olderOf acc.oldestServed := by
  induction groups generalizing acc with
  | nil => simp [gather, listedStamps]
  | cons p rest ih =>
    change (gather cluster topic now visit (acc.visit cluster topic now p.1 (visit p.2))
      rest).oldestServed = _
    rw [ih]
    simp only [listedStamps, List.flatMap_cons, List.foldl_append, Gathered.visit]
    rcases inspected cluster topic now p.1 (visit p.2) with row | u | _
    · cases lagLookup cluster topic now p.1 (visit p.2) <;> rfl
    · rfl
    · rfl

/-- The answer is stamped with the oldest lag entry of a listed row, and with the roster's
    time when no row rests on one. -/
theorem topicConsumers_asOf {cluster topic : String} {now : Int} {roster : GroupRoster}
    {visit : Nat → Visit} {answer : TopicConsumers}
    (h : topicConsumers cluster topic now (.ok roster) visit = .ok answer) :
    answer.asOf = ((listedStamps cluster topic now visit roster.groups.zipIdx).foldl
      olderOf none).getD roster.asOf := by
  simp only [topicConsumers, Except.ok.injEq] at h
  subst h
  simp only [gather_oldestServed]

/-! ### When a stamp does not flatter -/

/-- Each answer states its age honestly exactly under its own condition.  A batch: every
    description a member count was taken from is no older than some lag entry served, or
    than the request when none is.  A group's page: the live description is no older than
    the lag entry.  A topic's consumers: the roster and every description asked are no
    older than the lag entry of some listed row; with no such entry, no description is
    older than the roster. -/
theorem asOf_never_flatters_iff (cluster : String) (now : Int) :
    (∀ (roster : Except ApiError GroupRoster) (groups : List String) (look : Nat → Lookups),
      NeverFlatters (groupsLag cluster now roster groups look).asOf
          (rowStamps cluster now groups look ++ countStamps now roster groups look) ↔
        ∀ d ∈ countStamps now roster groups look,
          (∃ s ∈ rowStamps cluster now groups look, s ≤ d) ∨
            (rowStamps cluster now groups look = [] ∧ now ≤ d)) ∧
    (∀ (group : String) (look : Lookups) (lagNow : Int) (detail : GroupDetail),
      groupDetailUncached cluster group look now lagNow = .ok detail →
      (NeverFlatters detail.asOf (detailStamps cluster group look now lagNow) ↔
        ∀ (described : Stamped GroupDescription) (entry : Stamped LagSnapshot),
          describedLive look now = .ok (some described) →
          groupLagCached cluster group look.lag (some liveTtlMs) lagNow = .ok entry →
          entry.sampledAt ≤ described.sampledAt)) ∧
    (∀ (topic : String) (roster : GroupRoster) (visit : Nat → Visit) (answer : TopicConsumers),
      topicConsumers cluster topic now (.ok roster) visit = .ok answer →
      (NeverFlatters answer.asOf (consumersStamps cluster topic now roster visit) ↔
        ∀ d ∈ roster.asOf :: assignmentStamps topic now visit roster.groups.zipIdx,
          (∃ s ∈ listedStamps cluster topic now visit roster.groups.zipIdx, s ≤ d) ∨
            (listedStamps cluster topic now visit roster.groups.zipIdx = [] ∧
              roster.asOf ≤ d))) := by
  refine ⟨?_, ?_, ?_⟩
  · intro roster groups look
    rw [groupsLag_asOf]
    exact neverFlatters_iff _ _ _
  · intro group look lagNow detail hdetail
    obtain ⟨described, entry, hdescribed, hentry, rfl⟩ := groupDetailUncached_ok hdetail
    simp only [detailStamps, hdescribed, hentry, stampOf, NeverFlatters, detailOf]
    constructor
    · intro h d e hd he
      simp only [Except.ok.injEq] at hd he
      subst hd he
      exact h _ (by simp)
    · intro h s hs
      simp only [List.singleton_append, List.mem_cons, List.mem_map, Option.mem_toList] at hs
      rcases hs with rfl | ⟨d, hd, rfl⟩
      · exact le_refl _
      · exact h d entry (by rw [hd]) rfl
  · intro topic roster visit answer hanswer
    rw [topicConsumers_asOf hanswer]
    exact neverFlatters_iff _ _ _

/-- A group of the new protocol: its members come from its coordinator. -/
def paymentsRoster : GroupRoster where
  groups := [⟨"payments", "Stable", "consumer", "Consumer", none, []⟩]
  asOf := 9000

/-- Two cached entries of the group, sampled at the times given. -/
def paymentsLookups (describedAt lagAt : Int) : Lookups where
  describe := ⟨some ⟨⟨"payments", "Stable", "CONSUMER", "range",
    [⟨"m-1", "app", "/10.0.0.1", some [("orders", 0)]⟩]⟩, describedAt⟩, true, none,
    .error ⟨"internal", "not asked", none, false⟩⟩
  lag := ⟨some ⟨⟨[⟨"orders", 0, 5, 9, 4⟩], []⟩, lagAt⟩, true, none,
    .error ⟨"internal", "not asked", none, false⟩⟩

/-- A description sampled with the lag or after it: the page's stamp is honest. -/
theorem payments_page_honest :
    ∃ detail, groupDetailUncached "local" "payments" (paymentsLookups 9500 9000) 10000 10000 =
        .ok detail ∧
      NeverFlatters detail.asOf
        (detailStamps "local" "payments" (paymentsLookups 9500 9000) 10000 10000) := by
  refine ⟨_, rfl, ?_⟩
  apply ((asOf_never_flatters_iff "local" 10000).2.1 "payments" (paymentsLookups 9500 9000) 10000
    _ rfl).mpr
  intro described entry hdescribed hentry
  cases hdescribed
  cases hentry
  decide

/-- At time 10000 every entry is cached and within its ttl: the roster of 9000, the
    description of 5000, the lag of 9500.  All three answers say 9500. -/
theorem payments_answers_flatter :
    ¬ NeverFlatters
        (groupsLag "local" 10000 (.ok paymentsRoster) ["payments"]
          (fun _ => paymentsLookups 5000 9500)).asOf
        (rowStamps "local" 10000 ["payments"] (fun _ => paymentsLookups 5000 9500) ++
          countStamps 10000 (.ok paymentsRoster) ["payments"]
            (fun _ => paymentsLookups 5000 9500)) ∧
      (∃ detail, groupDetailUncached "local" "payments" (paymentsLookups 5000 9500) 10000 10000 =
          .ok detail ∧
        ¬ NeverFlatters detail.asOf
          (detailStamps "local" "payments" (paymentsLookups 5000 9500) 10000 10000)) ∧
      (∃ answer, topicConsumers "local" "orders" 10000 (.ok paymentsRoster)
          (fun _ => ⟨paymentsLookups 5000 9500, none⟩) = .ok answer ∧
        ¬ NeverFlatters answer.asOf
          (consumersStamps "local" "orders" 10000 paymentsRoster
            (fun _ => ⟨paymentsLookups 5000 9500, none⟩))) := by
  refine ⟨by decide, ⟨_, rfl, by decide⟩, ⟨_, rfl, by decide⟩⟩

end Arne.Cluster
