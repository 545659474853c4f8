import Arne.Cluster.Consumers
import Arne.Lib.Bytes

/-!
# Who exists, and assigned to what (`cluster/assignment.rs`, `cluster/admin.rs`)

The group list carries, for each member, a blob that says what the member is assigned to.
Only the topic names are read of it, and whatever does not follow the layout is
undecodable.  The roster is made of that list, enriched by the listing that knows the
protocol of each group.
-/

namespace Arne.Cluster

open Arne.Bytes

/-! ### The assignment blob -/

/-- The loop over the topics: a name, and partitions that are skipped. -/
def readTopics : Nat → List UInt8 → Option (List String)
  | 0, _ => some []
  | count + 1, buf => do
      let (nameLen, buf) ← length? 2 buf
      let (name, buf) ← take? nameLen buf
      let name ← fromUtf8 name
      let (partitionCount, buf) ← length? 4 buf
      let (_, buf) ← take? (partitionCount * 4) buf
      let topics ← readTopics count buf
      some (name :: topics)

/-- The topics of a `MemberAssignment` blob; the user data behind them is not read. -/
def assignedTopics (buf : List UInt8) : Option (List String) := do
  -- the version, like a length, may not be negative
  let (_, buf) ← length? 2 buf
  let (topicCount, buf) ← length? 4 buf
  readTopics topicCount buf

/-- The layout of topics in a buffer, one after the other, with anything behind them. -/
inductive LaysOut : List UInt8 → List String → Prop where
  | nil (userdata : List UInt8) : LaysOut userdata []
  | cons {nameLen name partitionCount partitions buf : List UInt8} {topic : String}
      {topics : List String} {count : Nat} (hname : IsLength 2 name.length nameLen)
      (htopic : fromUtf8 name = some topic) (hcount : IsLength 4 count partitionCount)
      (hpartitions : partitions.length = count * 4) (hrest : LaysOut buf topics) :
      LaysOut (nameLen ++ (name ++ (partitionCount ++ (partitions ++ buf)))) (topic :: topics)

/-- The loop gives the topics that are laid out, and nothing for any other buffer. -/
theorem readTopics_eq_some_iff (count : Nat) (buf : List UInt8) (topics : List String) :
    readTopics count buf = some topics ↔ topics.length = count ∧ LaysOut buf topics := by
  induction count generalizing buf topics with
  | zero =>
    constructor
    · intro h
      cases h
      exact ⟨rfl, .nil buf⟩
    · rintro ⟨hlength, _⟩
      rw [List.length_eq_zero_iff.mp hlength]
      rfl
  | succ count ih =>
    simp only [readTopics, Option.bind_eq_bind, Option.bind_eq_some_iff, Prod.exists, ih,
      length?_eq_some_iff, take?_eq_some_iff, Option.some.injEq]
    constructor
    · rintro ⟨_, _, ⟨nameLen, hname, rfl⟩, name, _, ⟨rfl, rfl⟩, topic, htopic, n, _,
        ⟨partitionCount, hcount, rfl⟩, partitions, rest, ⟨rfl, hpartitions⟩, topics,
        ⟨hlength, hrest⟩, rfl⟩
      exact ⟨congrArg Nat.succ hlength, .cons hname htopic hcount hpartitions hrest⟩
    · rintro ⟨hlength, hlays⟩
      cases hlays with
      | nil => cases hlength
      | cons hname htopic hcount hpartitions hrest =>
        exact ⟨_, _, ⟨_, hname, rfl⟩, _, _, ⟨rfl, rfl⟩, _, htopic, _, _, ⟨_, hcount, rfl⟩, _, _,
          ⟨rfl, hpartitions⟩, _, ⟨Nat.succ.inj hlength, hrest⟩, rfl⟩

/-- A blob: a version, the count of the topics, and the topics. -/
def IsAssignment (buf : List UInt8) (topics : List String) : Prop :=
  ∃ version n count body, IsLength 2 n version ∧ IsLength 4 topics.length count ∧
    LaysOut body topics ∧ buf = version ++ (count ++ body)

/-- What decodes is a blob of these topics; whatever is none is undecodable. -/
theorem assignedTopics_eq_some_iff (buf : List UInt8) (topics : List String) :
    assignedTopics buf = some topics ↔ IsAssignment buf topics := by
  simp only [assignedTopics, Option.bind_eq_bind, Option.bind_eq_some_iff, Prod.exists,
    length?_eq_some_iff, readTopics_eq_some_iff]
  constructor
  · rintro ⟨n, _, ⟨version, hversion, rfl⟩, _, body, ⟨count, hcount, rfl⟩, rfl, hlays⟩
    exact ⟨version, n, count, body, hversion, hcount, hlays, rfl⟩
  · rintro ⟨version, n, count, body, hversion, hcount, hlays, rfl⟩
    exact ⟨n, _, ⟨version, hversion, rfl⟩, _, body, ⟨count, hcount, rfl⟩, rfl, hlays⟩

/-- A topic of an assignment that has a wire form: its fields can hold its lengths. -/
structure AssignedTopic where
  name : String
  partitions : List UInt32
  name_fits : 2 * name.toUTF8.data.toList.length < 256 ^ 2
  partitions_fit : 2 * partitions.length < 256 ^ 4

/-- The topics as a consumer writes them, the user data last. -/
def blobTopics (userdata : List UInt8) : List AssignedTopic → List UInt8
  | [] => userdata
  | t :: topics =>
      let name := t.name.toUTF8.data.toList
      toBE 2 name.length ++ (name ++ (toBE 4 t.partitions.length ++
        (t.partitions.flatMap (fun p => toBE 4 p.toNat) ++ blobTopics userdata topics)))

/-- The blob that the decoder's tests write. -/
def blob (version : Nat) (topics : List AssignedTopic) (userdata : List UInt8) : List UInt8 :=
  toBE 2 version ++ (toBE 4 topics.length ++ blobTopics userdata topics)

theorem length_flatMap_toBE (width : Nat) (values : List UInt32) :
    (values.flatMap (fun v => toBE width v.toNat)).length = values.length * width := by
  induction values with
  | nil => simp
  | cons v values ih => simp [ih, Nat.succ_mul, Nat.add_comm]

theorem laysOut_blobTopics (userdata : List UInt8) (topics : List AssignedTopic) :
    LaysOut (blobTopics userdata topics) (topics.map (·.name)) := by
  induction topics with
  | nil => exact .nil userdata
  | cons t topics ih =>
    apply LaysOut.cons (isLength_toBE t.name_fits) (fromUtf8_toUTF8 t.name)
      (isLength_toBE t.partitions_fit) _ ih
    exact length_flatMap_toBE 4 t.partitions

/-- What a consumer was assigned is what its blob decodes to, whatever its user data. -/
theorem assignedTopics_blob {version : Nat} {topics : List AssignedTopic}
    (hversion : 2 * version < 256 ^ 2) (htopics : 2 * topics.length < 256 ^ 4)
    (userdata : List UInt8) :
    assignedTopics (blob version topics userdata) = some (topics.map (·.name)) := by
  apply (assignedTopics_eq_some_iff _ _).mpr
  refine ⟨_, version, _, _, isLength_toBE hversion, ?_, laysOut_blobTopics userdata topics, rfl⟩
  rw [List.length_map]
  exact isLength_toBE htopics

/-! ### The roster -/

/-- A group as the modern listing has it. -/
structure GroupListing where
  groupId : String
  state : String
  groupType : String
deriving DecidableEq, Repr

/-- A group as the legacy list has it, with its members' blobs. -/
structure GroupInfo where
  name : String
  state : String
  protocolType : String
  assignments : List (Option (List UInt8))
deriving DecidableEq, Repr

/-- `UNKNOWN_STATE`. -/
def unknownState : String := "Unknown"

def isConsumerGroupProtocol (protocolType : String) : Bool :=
  protocolType == "consumer" || protocolType.isEmpty

/-- What to believe about one group's state and protocol. -/
def resolvedStateAndType (listing : Option GroupListing) (legacyState : String) :
    String × String :=
  (((listing.map (·.state)).filter (· != unknownState)).getD legacyState,
    (listing.map (·.groupType)).getD "")

def membershipOf (listings : List GroupListing) (g : GroupInfo) : GroupMembership :=
  -- of two listings of one group the map keeps the later one
  let resolved := resolvedStateAndType (listings.reverse.find? (·.groupId == g.name)) g.state
  { groupId := g.name
    state := resolved.1
    protocolType := g.protocolType
    groupType := resolved.2
    memberCount := if needsCoordinatorDescribe resolved.2 then none else some g.assignments.length
    memberTopics := g.assignments.map fun a => a.bind assignedTopics }

/-- The listing enriches the list; where it failed, the list answers alone. -/
def fetchGroupRoster (listings : Except Message.ApiError (List GroupListing))
    (groupList : Except Message.ApiError (List GroupInfo)) (now : Int) :
    Except Message.ApiError GroupRoster :=
  match groupList with
  | .error e => .error e
  | .ok groups =>
      let listed := match listings with
        | .ok l => l
        | .error _ => []
      .ok
        { groups := ((groups.filter fun g => isConsumerGroupProtocol g.protocolType).map
            (membershipOf listed)).mergeSort fun a b => decide (a.groupId ≤ b.groupId)
          asOf := now }

section

variable {listings : Except Message.ApiError (List GroupListing)} {groups : List GroupInfo}
  {now : Int} {roster : GroupRoster}

theorem fetchGroupRoster_perm (h : fetchGroupRoster listings (.ok groups) now = .ok roster) :
    ∃ listed, roster.groups.Perm
      ((groups.filter fun g => isConsumerGroupProtocol g.protocolType).map
        (membershipOf listed)) := by
  simp only [fetchGroupRoster, Except.ok.injEq] at h
  subst h
  exact ⟨_, List.mergeSort_perm _ _⟩

/-- A list of distinct groups makes a roster of distinct groups. -/
theorem fetchGroupRoster_distinct (h : fetchGroupRoster listings (.ok groups) now = .ok roster)
    (hdistinct : (groups.map (·.name)).Nodup) : (roster.groups.map (·.groupId)).Nodup := by
  obtain ⟨listed, hperm⟩ := fetchGroupRoster_perm h
  apply (hperm.map (·.groupId)).nodup_iff.mpr
  rw [List.map_map]
  exact (List.filter_sublist.map _).nodup hdistinct

/-- A group with a member whose blob is no assignment is not certainly elsewhere, so it
    is inspected unless it is assigned to the topic anyway. -/
theorem undecodable_not_elsewhere (listed : List GroupListing) (g : GroupInfo) (topic : String)
    {blob : List UInt8} (hblob : some blob ∈ g.assignments)
    (hnone : ∀ topics, ¬ IsAssignment blob topics) :
    ¬ AllElsewhere (membershipOf listed g).memberTopics topic := by
  rintro ⟨_, hall⟩
  have hdecode : assignedTopics blob = none := by
    rw [Option.eq_none_iff_forall_ne_some]
    intro topics h
    exact hnone topics ((assignedTopics_eq_some_iff blob topics).mp h)
  have hmember : none ∈ (membershipOf listed g).memberTopics :=
    List.mem_map.mpr ⟨some blob, hblob, hdecode⟩
  exact isElsewhere_none topic (hall none hmember)

end

end Arne.Cluster
