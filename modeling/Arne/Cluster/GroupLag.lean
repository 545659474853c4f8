import Arne.Message.Types
import Mathlib.Data.List.Basic
import Mathlib.Data.List.Perm.Basic
import Mathlib.Algebra.Order.Ring.Int

/-!
# What a group has committed (`cluster/group_lag_cache.rs`)

A group's entry holds its lag rows and the partitions whose head could not be read,
over all topics; a view narrows it to the topic it shows.  Before an entry is read
the group is classified by what its live members are assigned to, and the class says
how old the entry may be.
-/

namespace Arne.Cluster

/-- `LIVE_TTL_MS`. -/
def liveTtlMs : Int := 8000

/-- `IDLE_TTL_MS`. -/
def idleTtlMs : Int := 60000

/-- `EVICT_AGE_MS`. -/
def evictAgeMs : Int := 600000

/-! ### The class of a group -/

inductive Classification where
  | assignedToTopic
  | mustInspect
  | movedAway
deriving DecidableEq, Repr

/-- The loop of `classify`, from its second statement on. -/
def classifyFrom (certain : Bool) (topic : String) : List (Option (List String)) → Classification
  | [] => if certain then .movedAway else .mustInspect
  | some topics :: rest =>
      if topics.contains topic then .assignedToTopic
      -- a member with nothing assigned is no evidence that the group moved on
      else if topics.isEmpty then classifyFrom false topic rest
      else classifyFrom certain topic rest
  | none :: rest => classifyFrom false topic rest

/-- One entry for each live member: its topics, or `none` when its assignment did
    not decode. -/
def classify (memberTopics : List (Option (List String))) (topic : String) : Classification :=
  if memberTopics.isEmpty then .mustInspect else classifyFrom true topic memberTopics

/-- Some live member is assigned to the topic. -/
def Assigned (memberTopics : List (Option (List String))) (topic : String) : Prop :=
  ∃ topics, some topics ∈ memberTopics ∧ topic ∈ topics

/-- The member decoded to a non-empty topic list without the topic. -/
def IsElsewhere (topic : String) (member : Option (List String)) : Prop :=
  ∃ topics, member = some topics ∧ topics ≠ [] ∧ topic ∉ topics

/-- The group has members, and all of them are certainly elsewhere. -/
def AllElsewhere (memberTopics : List (Option (List String))) (topic : String) : Prop :=
  memberTopics ≠ [] ∧ ∀ member ∈ memberTopics, IsElsewhere topic member

@[simp] theorem assigned_nil (topic : String) : ¬ Assigned [] topic := by
  simp [Assigned]

@[simp] theorem assigned_cons (member : Option (List String)) (rest : List (Option (List String)))
    (topic : String) :
    Assigned (member :: rest) topic ↔
      (∃ topics, member = some topics ∧ topic ∈ topics) ∨ Assigned rest topic := by
  constructor
  · rintro ⟨topics, hmem, htopic⟩
    rcases List.mem_cons.mp hmem with h | h
    · exact Or.inl ⟨topics, h.symm, htopic⟩
    · exact Or.inr ⟨topics, h, htopic⟩
  · rintro (⟨topics, rfl, htopic⟩ | ⟨topics, hmem, htopic⟩)
    · exact ⟨topics, List.mem_cons_self, htopic⟩
    · exact ⟨topics, List.mem_cons_of_mem _ hmem, htopic⟩

@[simp] theorem isElsewhere_none (topic : String) : ¬ IsElsewhere topic none := by
  simp [IsElsewhere]

@[simp] theorem isElsewhere_some (topic : String) (topics : List String) :
    IsElsewhere topic (some topics) ↔ topics ≠ [] ∧ topic ∉ topics := by
  simp [IsElsewhere]

/-- The loop ends early exactly at a member that is assigned to the topic. -/
theorem classifyFrom_assigned_iff (certain : Bool) (topic : String)
    (memberTopics : List (Option (List String))) :
    classifyFrom certain topic memberTopics = .assignedToTopic ↔ Assigned memberTopics topic := by
  induction memberTopics generalizing certain with
  | nil => cases certain <;> simp [classifyFrom]
  | cons member rest ih =>
    rcases member with _ | topics
    · simp [classifyFrom, ih]
    · by_cases hmem : topic ∈ topics
      · simp [classifyFrom, hmem]
      · by_cases hempty : topics = [] <;> simp [classifyFrom, hmem, hempty, ih]

theorem classifyFrom_false_ne_movedAway (topic : String)
    (memberTopics : List (Option (List String))) :
    classifyFrom false topic memberTopics ≠ .movedAway := by
  induction memberTopics with
  | nil => simp [classifyFrom]
  | cons member rest ih =>
    rcases member with _ | topics
    · simpa [classifyFrom] using ih
    · simp only [classifyFrom]
      split
      · simp
      · simpa using ih

theorem classifyFrom_movedAway_iff (topic : String) (memberTopics : List (Option (List String))) :
    classifyFrom true topic memberTopics = .movedAway ↔
      ∀ member ∈ memberTopics, IsElsewhere topic member := by
  induction memberTopics with
  | nil => simp [classifyFrom]
  | cons member rest ih =>
    rcases member with _ | topics
    · simp [classifyFrom, classifyFrom_false_ne_movedAway]
    · by_cases hmem : topic ∈ topics
      · simp [classifyFrom, hmem]
      · by_cases hempty : topics = []
        · simp [classifyFrom, hempty, classifyFrom_false_ne_movedAway]
        · simp [classifyFrom, hmem, hempty, ih]

/-- A group is a consumer of the topic exactly when a member is assigned to it. -/
theorem classify_assigned_iff (memberTopics : List (Option (List String))) (topic : String) :
    classify memberTopics topic = .assignedToTopic ↔ Assigned memberTopics topic := by
  rcases memberTopics with _ | ⟨member, rest⟩
  · simp [classify]
  · simp only [classify, List.isEmpty_cons, Bool.false_eq_true, if_false]
    exact classifyFrom_assigned_iff true topic (member :: rest)

/-- A group has moved away exactly when its members leave no doubt about it. -/
theorem classify_movedAway_iff (memberTopics : List (Option (List String))) (topic : String) :
    classify memberTopics topic = .movedAway ↔ AllElsewhere memberTopics topic := by
  rcases memberTopics with _ | ⟨member, rest⟩
  · simp [classify, AllElsewhere]
  · simp only [classify, List.isEmpty_cons, Bool.false_eq_true, if_false, AllElsewhere]
    rw [classifyFrom_movedAway_iff]
    simp

theorem Assigned.perm {xs ys : List (Option (List String))} {topic : String} (h : xs.Perm ys) :
    Assigned xs topic ↔ Assigned ys topic := by
  simp only [Assigned, h.mem_iff]

theorem AllElsewhere.perm {xs ys : List (Option (List String))} {topic : String} (h : xs.Perm ys) :
    AllElsewhere xs topic ↔ AllElsewhere ys topic := by
  have hnil : xs = [] ↔ ys = [] := by
    constructor
    · rintro rfl
      exact h.nil_eq.symm
    · rintro rfl
      exact h.eq_nil
  simp only [AllElsewhere, ne_eq, hnil, h.mem_iff]

/-- Three classes, two of them characterised: what the first two say decides. -/
theorem classify_perm {xs ys : List (Option (List String))} (topic : String) (h : xs.Perm ys) :
    classify xs topic = classify ys topic := by
  have hassigned : classify xs topic = .assignedToTopic ↔ classify ys topic = .assignedToTopic := by
    rw [classify_assigned_iff, classify_assigned_iff, Assigned.perm h]
  have hmoved : classify xs topic = .movedAway ↔ classify ys topic = .movedAway := by
    rw [classify_movedAway_iff, classify_movedAway_iff, AllElsewhere.perm h]
  revert hassigned hmoved
  generalize classify xs topic = c
  generalize classify ys topic = d
  cases c <;> cases d <;> simp

/-! ### The entry of a group -/

structure PartitionLag where
  topic : String
  partition : Int
  committedOffset : Int
  endOffset : Int
  lag : Int
deriving DecidableEq, Repr

structure LagSnapshot where
  rows : List PartitionLag
  /-- Partitions the group has committed on whose head could not be read. -/
  unknown : List (String × Int)
deriving DecidableEq, Repr

def LagSnapshot.statableTotal (s : LagSnapshot) : Option Int :=
  if s.rows.isEmpty then none else some (s.rows.map (·.lag)).sum

def LagSnapshot.covers (s : LagSnapshot) (topic : String) : Bool :=
  s.rows.any (·.topic == topic) || s.unknown.any (·.1 == topic)

def LagSnapshot.narrowed (s : LagSnapshot) (onlyTopic : Option String) : List PartitionLag :=
  s.rows.filter fun r => onlyTopic.all (r.topic == ·)

def LagSnapshot.unreadableOn (s : LagSnapshot) (topic : String) : Nat :=
  (s.unknown.filter (·.1 == topic)).length

/-- A view of one topic shows nothing exactly when the entry does not cover it. -/
theorem LagSnapshot.covers_eq_false_iff (s : LagSnapshot) (topic : String) :
    s.covers topic = false ↔ s.narrowed (some topic) = [] ∧ s.unreadableOn topic = 0 := by
  simp [LagSnapshot.covers, LagSnapshot.narrowed, LagSnapshot.unreadableOn]

/-- How old an entry may be, and `none` for a group that is not to be read at all. -/
def commitsTtl : Classification → Bool → Option Int
  | .assignedToTopic, _ => some liveTtlMs
  | .mustInspect, true => some liveTtlMs
  | .mustInspect, false => some idleTtlMs
  | .movedAway, _ => none

/-! ### How an entry is made -/

structure CommittedOffset where
  topic : String
  partition : Int
  offset : Int
deriving DecidableEq, Repr

def rowOf (c : CommittedOffset) (endOffset : Int) : PartitionLag where
  topic := c.topic
  partition := c.partition
  committedOffset := c.offset
  endOffset := endOffset
  lag := max (endOffset - c.offset) 0

/-- The order of a pair of a topic and a partition. -/
def topicPartitionLe (a b : String × Int) : Bool :=
  decide (a.1 < b.1) || (a.1 == b.1 && decide (a.2 ≤ b.2))

/-- Lag for every partition whose head could be read, and the partitions whose head
    could not. -/
def lagRows (commits : List CommittedOffset) (head : String → Int → Option Int) : LagSnapshot where
  rows := (commits.filterMap fun c => (head c.topic c.partition).map (rowOf c)).mergeSort
    fun a b => topicPartitionLe (a.topic, a.partition) (b.topic, b.partition)
  unknown := (commits.filterMap fun c =>
    if (head c.topic c.partition).isNone then some (c.topic, c.partition) else none).mergeSort
      topicPartitionLe

/-- No committed partition is lost: its topic is covered whether or not its head
    could be read. -/
theorem lagRows_covers_iff (commits : List CommittedOffset) (head : String → Int → Option Int)
    (topic : String) :
    (lagRows commits head).covers topic = true ↔ ∃ c ∈ commits, c.topic = topic := by
  simp only [LagSnapshot.covers, lagRows, Bool.or_eq_true, List.any_eq_true, List.mem_mergeSort,
    List.mem_filterMap, Option.map_eq_some_iff, beq_iff_eq]
  constructor
  · rintro (⟨_, ⟨c, hc, _, _, rfl⟩, htopic⟩ | ⟨pair, ⟨c, hc, hpair⟩, htopic⟩)
    · exact ⟨c, hc, htopic⟩
    · split at hpair
      · cases hpair
        exact ⟨c, hc, htopic⟩
      · cases hpair
  · rintro ⟨c, hc, htopic⟩
    rcases hhead : head c.topic c.partition with _ | endOffset
    · exact Or.inr ⟨(c.topic, c.partition), ⟨c, hc, by simp [hhead]⟩, htopic⟩
    · exact Or.inl ⟨rowOf c endOffset, ⟨c, hc, endOffset, hhead, rfl⟩, htopic⟩

/-- A row is never ahead of its head, so a total is never negative. -/
theorem lagRows_lag_nonneg (commits : List CommittedOffset) (head : String → Int → Option Int) :
    ∀ r ∈ (lagRows commits head).rows, 0 ≤ r.lag := by
  simp only [lagRows, List.mem_mergeSort, List.mem_filterMap, Option.map_eq_some_iff]
  rintro _ ⟨c, _, endOffset, _, rfl⟩
  exact le_max_right _ _

end Arne.Cluster
