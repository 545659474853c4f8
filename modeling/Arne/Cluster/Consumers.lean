import Arne.Cluster.Groups
import Mathlib.Data.List.Forall2
import Mathlib.Data.List.Nodup

/-!
# The consumers of a topic (`cluster/admin.rs`, `topic_consumers`)

A walk over the roster: each group is classified, its entry looked up as its class
allows, and what the entry shows of the topic decides whether the group is listed,
disclosed as unchecked, or left out.
-/

namespace Arne.Cluster

open Arne.Message

structure TopicGroupLag where
  groupId : String
  state : String
  totalLag : Option Int
  unreadablePartitions : Nat
  partitions : List PartitionLag
  error : Option String
deriving DecidableEq, Repr

structure UncheckedGroup where
  groupId : String
  error : String
deriving DecidableEq, Repr

inductive Inspection where
  | listed (row : TopicGroupLag)
  | unchecked (group : UncheckedGroup)
  | skipped
deriving DecidableEq, Repr

/-- `strip_prefix`, over characters. -/
def stripLeading (lead message : String) : Option String :=
  if lead.toList.isPrefixOf message.toList then
    some (String.ofList (message.toList.drop lead.toList.length))
  else none

/-- The reason shown beside a group, without the name of the operation that failed. -/
def lagErrorReason (err : ApiError) : String :=
  (["fetch committed offsets: ", "fetch watermarks: ", "fetch metadata: "].findSome?
    fun p => stripLeading p err.message).getD err.message

def inspectionOf (groupId state : String) (cls : Classification)
    (lag : Except String (List PartitionLag)) (unreadableHere : Nat) : Inspection :=
  let row := fun totalLag partitions error =>
    Inspection.listed ⟨groupId, state, totalLag, unreadableHere, partitions, error⟩
  match cls, lag with
  | .movedAway, _ => .skipped
  | cls, .ok partitions =>
      if cls = .assignedToTopic ∧ partitions = [] then row none partitions none
      -- no rows and nothing unread: it holds no offsets on this topic at all
      else if partitions = [] ∧ unreadableHere = 0 then .skipped
      else row (if partitions = [] then none else some (partitions.map (·.lag)).sum) partitions none
  | .assignedToTopic, .error e => row none [] (some e)
  | .mustInspect, .error e => .unchecked ⟨groupId, e⟩

/-! ### One group of the walk -/

/-- What the walk meets at one group: the entry it probes, and its two lookups. -/
structure Visit extends Lookups where
  probe : Option LagSnapshot

def Visit.showsRowsHere (v : Visit) (topic : String) : Bool :=
  (v.probe.map fun snapshot => snapshot.covers topic).getD false

def Visit.describeTtl (v : Visit) (topic : String) : Int :=
  if v.showsRowsHere topic then liveTtlMs else idleTtlMs

def MemberDescription.topics (m : MemberDescription) : Option (List String) :=
  m.assigned.map fun a => a.map Prod.fst

/-- What the group's members are assigned to: the roster's word, or for a group the
    roster cannot see into its coordinator's, if it answers. -/
def assignments (topic : String) (now : Int) (g : GroupMembership) (v : Visit) :
    List (Option (List String)) :=
  if needsCoordinatorDescribe g.groupType then
    match groupDescriptionCached v.describe (v.describeTtl topic) now with
    | .ok d => d.value.members.map (·.topics)
    | .error _ => g.memberTopics
  else g.memberTopics

def classOf (topic : String) (now : Int) (g : GroupMembership) (v : Visit) : Classification :=
  classify (assignments topic now g v) topic

/-- The lookup of the group's entry, at the age its class allows. -/
def lagLookup (cluster topic : String) (now : Int) (g : GroupMembership) (v : Visit) :
    Except ApiError (Stamped LagSnapshot) :=
  groupLagCached cluster g.groupId v.lag
    (commitsTtl (classOf topic now g v) (v.showsRowsHere topic)) now

/-- The rows a lookup gives the tab of one topic, or the reason it gives none. -/
def narrowedTo (topic : String) (outcome : Except ApiError (Stamped LagSnapshot)) :
    Except String (List PartitionLag) :=
  match outcome with
  | .ok e => .ok (e.value.narrowed (some topic))
  | .error e => .error (lagErrorReason e)

def missingOn (topic : String) (outcome : Except ApiError (Stamped LagSnapshot)) : Nat :=
  match outcome with
  | .ok e => e.value.unreadableOn topic
  | .error _ => 0

def inspected (cluster topic : String) (now : Int) (g : GroupMembership) (v : Visit) :
    Inspection :=
  let cls := classOf topic now g v
  if cls = .movedAway then .skipped
  else
    let outcome := lagLookup cluster topic now g v
    inspectionOf g.groupId g.state cls (narrowedTo topic outcome) (missingOn topic outcome)

/-! ### The walk -/

/-- What the walk has gathered so far. -/
structure Gathered where
  groups : List TopicGroupLag := []
  unchecked : List UncheckedGroup := []
  oldestServed : Option Int := none
deriving DecidableEq, Repr

def Gathered.visit (cluster topic : String) (now : Int) (acc : Gathered) (g : GroupMembership)
    (v : Visit) : Gathered :=
  match inspected cluster topic now g v with
  | .listed row =>
      { acc with
        groups := acc.groups ++ [row]
        oldestServed := match lagLookup cluster topic now g v with
          | .ok e => olderOf acc.oldestServed e.sampledAt
          | .error _ => acc.oldestServed }
  | .unchecked u => { acc with unchecked := acc.unchecked ++ [u] }
  | .skipped => acc

def gather (cluster topic : String) (now : Int) (visit : Nat → Visit) (acc : Gathered)
    (groups : List (GroupMembership × Nat)) : Gathered :=
  groups.foldl (fun acc p => acc.visit cluster topic now p.1 (visit p.2)) acc

structure TopicConsumers where
  topic : String
  groups : List TopicGroupLag
  unchecked : List UncheckedGroup
  asOf : Int
deriving DecidableEq, Repr

/-- The walk over the roster: what it meets at the `i`-th group is `visit i`. -/
def topicConsumers (cluster topic : String) (now : Int) (roster : Except ApiError GroupRoster)
    (visit : Nat → Visit) : Except ApiError TopicConsumers :=
  match roster with
  | .error e => .error e
  | .ok roster =>
      let gathered := gather cluster topic now visit {} roster.groups.zipIdx
      .ok
        { topic := topic
          groups := gathered.groups.mergeSort fun a b => decide (a.groupId ≤ b.groupId)
          unchecked := gathered.unchecked.mergeSort fun a b => decide (a.groupId ≤ b.groupId)
          -- with nothing rendered, the stamp is when we learned who exists
          asOf := gathered.oldestServed.getD roster.asOf }

/-! ### What one group comes to -/

variable {cluster topic : String} {now : Int} {g : GroupMembership} {v : Visit}

theorem classOf_movedAway_iff :
    classOf topic now g v = .movedAway ↔ AllElsewhere (assignments topic now g v) topic :=
  classify_movedAway_iff _ _

theorem classOf_assigned_iff :
    classOf topic now g v = .assignedToTopic ↔ Assigned (assignments topic now g v) topic :=
  classify_assigned_iff _ _

theorem classOf_mustInspect (helsewhere : ¬ AllElsewhere (assignments topic now g v) topic)
    (hassigned : ¬ Assigned (assignments topic now g v) topic) :
    classOf topic now g v = .mustInspect := by
  rw [← classOf_movedAway_iff] at helsewhere
  rw [← classOf_assigned_iff] at hassigned
  revert helsewhere hassigned
  cases classOf topic now g v <;> simp

/-- A row and a disclosure name the group they are about. -/
theorem inspectionOf_groupId {groupId state : String} {cls : Classification}
    {lag : Except String (List PartitionLag)} {unreadableHere : Nat} :
    (∀ row, inspectionOf groupId state cls lag unreadableHere = .listed row →
      row.groupId = groupId) ∧
    (∀ u, inspectionOf groupId state cls lag unreadableHere = .unchecked u →
      u.groupId = groupId) := by
  unfold inspectionOf
  constructor
  · intro row h
    split at h
    · cases h
    · split at h
      · cases h
        rfl
      · split at h
        · cases h
        · cases h
          rfl
    · cases h
      rfl
    · cases h
  · intro u h
    split at h
    · cases h
    · split at h
      · cases h
      · split at h <;> cases h
    · cases h
    · cases h
      rfl

theorem inspected_listed_groupId {row : TopicGroupLag}
    (h : inspected cluster topic now g v = .listed row) : row.groupId = g.groupId := by
  simp only [inspected] at h
  split at h
  · cases h
  · exact inspectionOf_groupId.1 row h

theorem inspected_unchecked_groupId {u : UncheckedGroup}
    (h : inspected cluster topic now g v = .unchecked u) : u.groupId = g.groupId := by
  simp only [inspected] at h
  split at h
  · cases h
  · exact inspectionOf_groupId.2 u h

/-- A group that has moved away is left out before its entry is looked up. -/
theorem inspected_of_allElsewhere (h : AllElsewhere (assignments topic now g v) topic) :
    inspected cluster topic now g v = .skipped := by
  simp [inspected, classOf_movedAway_iff.mpr h]

/-- A consumer of the topic is listed whatever its lookup gives. -/
theorem inspected_of_assigned (cluster : String) (h : Assigned (assignments topic now g v) topic) :
    ∃ row, inspected cluster topic now g v = .listed row := by
  have hcls := classOf_assigned_iff.mpr h
  simp only [inspected, hcls]
  rcases lagLookup cluster topic now g v with e | entry
  · exact ⟨_, rfl⟩
  · by_cases hrows : entry.value.narrowed (some topic) = [] <;>
      simp [inspectionOf, narrowedTo, hrows]

/-- A group that may hold offsets here is left out only by an entry that shows none. -/
theorem inspected_of_mustInspect (hcls : classOf topic now g v = .mustInspect)
    {entry : Stamped LagSnapshot} (hlookup : lagLookup cluster topic now g v = .ok entry) :
    inspected cluster topic now g v = .skipped ↔ entry.value.covers topic = false := by
  rw [LagSnapshot.covers_eq_false_iff]
  simp only [inspected, hcls, hlookup, inspectionOf, narrowedTo, missingOn]
  by_cases hrows : entry.value.narrowed (some topic) = [] <;>
    by_cases hunread : entry.value.unreadableOn topic = 0 <;> simp [hrows, hunread]

/-- A failed lookup is never silent: the group is listed with the reason, or disclosed
    with it. -/
theorem inspected_of_error (helsewhere : ¬ AllElsewhere (assignments topic now g v) topic)
    {e : ApiError} (hlookup : lagLookup cluster topic now g v = .error e) :
    (Assigned (assignments topic now g v) topic ∧
      inspected cluster topic now g v =
        .listed ⟨g.groupId, g.state, none, 0, [], some (lagErrorReason e)⟩) ∨
    (¬ Assigned (assignments topic now g v) topic ∧
      inspected cluster topic now g v = .unchecked ⟨g.groupId, lagErrorReason e⟩) := by
  by_cases hassigned : Assigned (assignments topic now g v) topic
  · refine Or.inl ⟨hassigned, ?_⟩
    simp [inspected, classOf_assigned_iff.mpr hassigned, hlookup, inspectionOf, narrowedTo,
      missingOn]
  · refine Or.inr ⟨hassigned, ?_⟩
    simp [inspected, classOf_mustInspect helsewhere hassigned, hlookup, inspectionOf, narrowedTo]

/-- The two ways a group is left out, and no third. -/
theorem inspected_skipped_iff :
    inspected cluster topic now g v = .skipped ↔
      AllElsewhere (assignments topic now g v) topic ∨
      ¬ Assigned (assignments topic now g v) topic ∧
        ∃ entry, lagLookup cluster topic now g v = .ok entry ∧
          entry.value.covers topic = false := by
  by_cases helsewhere : AllElsewhere (assignments topic now g v) topic
  · simp [helsewhere, inspected_of_allElsewhere helsewhere]
  by_cases hassigned : Assigned (assignments topic now g v) topic
  · obtain ⟨row, hrow⟩ := inspected_of_assigned cluster hassigned
    simp [helsewhere, hassigned, hrow]
  · simp only [helsewhere, hassigned, not_false_eq_true, true_and, false_or]
    have hcls := classOf_mustInspect helsewhere hassigned
    rcases hlookup : lagLookup cluster topic now g v with e | entry
    · rcases inspected_of_error helsewhere hlookup with ⟨h, _⟩ | ⟨_, h⟩
      · exact absurd h hassigned
      · simp [h]
    · rw [inspected_of_mustInspect hcls hlookup]
      simp

/-! ### What the walk comes to -/

variable {visit : Nat → Visit}

/-- What the walk finds at the groups, one after the other. -/
def inspections (cluster topic : String) (now : Int) (visit : Nat → Visit)
    (groups : List (GroupMembership × Nat)) : List Inspection :=
  groups.map fun p => inspected cluster topic now p.1 (visit p.2)

def Inspection.row? : Inspection → Option TopicGroupLag
  | .listed row => some row
  | _ => none

def Inspection.unchecked? : Inspection → Option UncheckedGroup
  | .unchecked u => some u
  | _ => none

/-- The id of the group, if the answer says anything about it. -/
def Inspection.shownId? : Inspection → Option String
  | .listed row => some row.groupId
  | .unchecked u => some u.groupId
  | .skipped => none

/-- The walk gathers the rows it lists, in order, and no others. -/
theorem gather_groups (acc : Gathered) (groups : List (GroupMembership × Nat)) :
    (gather cluster topic now visit acc groups).groups =
      acc.groups ++ (inspections cluster topic now visit groups).filterMap Inspection.row? := by
  induction groups generalizing acc with
  | nil => simp [gather, inspections]
  | cons p rest ih =>
    change (gather cluster topic now visit (acc.visit cluster topic now p.1 (visit p.2)) rest).groups
      = _
    rw [ih]
    rcases h : inspected cluster topic now p.1 (visit p.2) with row | u | _ <;>
      simp [Gathered.visit, inspections, h, Inspection.row?, List.filterMap_cons]

/-- Likewise the groups it discloses as unchecked. -/
theorem gather_unchecked (acc : Gathered) (groups : List (GroupMembership × Nat)) :
    (gather cluster topic now visit acc groups).unchecked =
      acc.unchecked ++
        (inspections cluster topic now visit groups).filterMap Inspection.unchecked? := by
  induction groups generalizing acc with
  | nil => simp [gather, inspections]
  | cons p rest ih =>
    change (gather cluster topic now visit (acc.visit cluster topic now p.1 (visit p.2))
      rest).unchecked = _
    rw [ih]
    rcases h : inspected cluster topic now p.1 (visit p.2) with row | u | _ <;>
      simp [Gathered.visit, inspections, h, Inspection.unchecked?, List.filterMap_cons]

/-- Rows and disclosures together name each shown group once. -/
theorem shownIds_perm (found : List Inspection) :
    (((found.filterMap Inspection.row?).map (·.groupId)) ++
      ((found.filterMap Inspection.unchecked?).map (·.groupId))).Perm
      (found.filterMap Inspection.shownId?) := by
  induction found with
  | nil => simp
  | cons i rest ih =>
    rcases i with row | u | _
    · simpa [Inspection.row?, Inspection.unchecked?, Inspection.shownId?, List.filterMap_cons] using ih
    · simp only [Inspection.row?, Inspection.unchecked?, Inspection.shownId?,
        List.filterMap_cons, List.map_cons]
      exact List.perm_middle.trans (ih.cons _)
    · simpa [Inspection.row?, Inspection.unchecked?, Inspection.shownId?, List.filterMap_cons] using ih

theorem inspected_shownId {id : String}
    (h : (inspected cluster topic now g v).shownId? = some id) : id = g.groupId := by
  rcases hfound : inspected cluster topic now g v with row | u | _
  · rw [hfound, Inspection.shownId?, Option.some.injEq] at h
    rw [← h, inspected_listed_groupId hfound]
  · rw [hfound, Inspection.shownId?, Option.some.injEq] at h
    rw [← h, inspected_unchecked_groupId hfound]
  · simp [hfound, Inspection.shownId?] at h

/-- The groups shown are some of the roster's, in its order. -/
theorem shownIds_sublist (groups : List (GroupMembership × Nat)) :
    List.Sublist ((inspections cluster topic now visit groups).filterMap Inspection.shownId?)
      (groups.map (·.1.groupId)) := by
  induction groups with
  | nil => simp [inspections]
  | cons p rest ih =>
    simp only [inspections, List.map_cons, List.filterMap_cons]
    rcases hid : (inspected cluster topic now p.1 (visit p.2)).shownId? with _ | id
    · exact ih.cons _
    · rw [inspected_shownId hid]
      exact ih.cons_cons _

/-! ### Members in another order -/

/-- Two values of a lookup that agree up to what `same` forgets, or one error. -/
def SameOutcome {V : Type} (same : V → V → Prop) :
    Except ApiError (Stamped V) → Except ApiError (Stamped V) → Prop
  | .ok a, .ok b => same a.value b.value ∧ a.sampledAt = b.sampledAt
  | .error e, .error f => e = f
  | _, _ => False

def SameEntry {V : Type} (same : V → V → Prop) :
    Option (Stamped V) → Option (Stamped V) → Prop
  | some a, some b => same a.value b.value ∧ a.sampledAt = b.sampledAt
  | none, none => True
  | _, _ => False

/-- Two readings that differ in what `same` forgets only. -/
structure SameReading {V : Type} (same : V → V → Prop) (r r' : Reading V) : Prop where
  cached : SameEntry same r.cached r'.cached
  ownsFlight : r.ownsFlight = r'.ownsFlight
  reread : SameEntry same r.reread r'.reread
  sample : SameOutcome same r.sample r'.sample

theorem SameReading.refreshed {V : Type} {same : V → V → Prop} {r r' : Reading V}
    (h : SameReading same r r') : SameOutcome same r.refreshed r'.refreshed := by
  obtain ⟨_, hflight, hreread, hsample⟩ := h
  unfold Reading.refreshed
  rw [hflight]
  by_cases hown : r'.ownsFlight = true
  · simpa [hown] using hsample
  · simp only [hown, Bool.false_eq_true, if_false]
    rcases h1 : r.reread with _ | a <;> rcases h2 : r'.reread with _ | b <;> rw [h1, h2] at hreread
    · exact hsample
    · exact hreread.elim
    · exact hreread.elim
    · exact hreread

theorem SameReading.served {V : Type} {same : V → V → Prop} {r r' : Reading V}
    (h : SameReading same r r') (ttlMs now : Int) :
    SameOutcome same (r.served ttlMs now) (r'.served ttlMs now) := by
  have hcached := h.cached
  unfold Reading.served
  rcases h1 : r.cached with _ | a <;> rcases h2 : r'.cached with _ | b <;> rw [h1, h2] at hcached
  · simpa using h.refreshed
  · exact hcached.elim
  · exact hcached.elim
  · have hat : a.sampledAt = b.sampledAt := hcached.2
    by_cases hyoung : now - b.sampledAt < ttlMs
    · simp only [Option.filter, hat, hyoung, decide_true, if_true]
      exact hcached
    · simpa [Option.filter, hat, hyoung] using h.refreshed

/-- One group as two rosters have it, but for the order of its members. -/
structure GroupMembership.SameMembers (g g' : GroupMembership) : Prop where
  groupId : g.groupId = g'.groupId
  state : g.state = g'.state
  groupType : g.groupType = g'.groupType
  memberTopics : g.memberTopics.Perm g'.memberTopics

/-- One group as two descriptions have it, but for the order of its members. -/
structure GroupDescription.SameMembers (d d' : GroupDescription) : Prop where
  state : d.state = d'.state
  groupType : d.groupType = d'.groupType
  members : d.members.Perm d'.members

structure Visit.SameMembers (v v' : Visit) : Prop where
  probe : v.probe = v'.probe
  describe : SameReading GroupDescription.SameMembers v.describe v'.describe
  lag : v.lag = v'.lag

theorem assignments_perm {g g' : GroupMembership} {v v' : Visit} (hg : g.SameMembers g')
    (hv : v.SameMembers v') (topic : String) (now : Int) :
    (assignments topic now g v).Perm (assignments topic now g' v') := by
  have httl : v.describeTtl topic = v'.describeTtl topic := by
    unfold Visit.describeTtl Visit.showsRowsHere
    rw [hv.probe]
  have hserved := hv.describe.served (v'.describeTtl topic) now
  unfold assignments groupDescriptionCached
  rw [hg.groupType, httl]
  by_cases hneeds : needsCoordinatorDescribe g'.groupType = true
  · simp only [hneeds, if_true]
    rcases h1 : v.describe.served (v'.describeTtl topic) now with e | d <;>
      rcases h2 : v'.describe.served (v'.describeTtl topic) now with e' | d' <;>
      rw [h1, h2] at hserved
    · exact hg.memberTopics
    · exact hserved.elim
    · exact hserved.elim
    · exact hserved.1.members.map _
  · simpa [hneeds] using hg.memberTopics

/-- What a group comes to is the same in every order of its members. -/
theorem inspected_sameMembers {g g' : GroupMembership} {v v' : Visit} (hg : g.SameMembers g')
    (hv : v.SameMembers v') (cluster topic : String) (now : Int) :
    inspected cluster topic now g v = inspected cluster topic now g' v' ∧
      lagLookup cluster topic now g v = lagLookup cluster topic now g' v' := by
  have hclass : classOf topic now g v = classOf topic now g' v' :=
    classify_perm topic (assignments_perm hg hv topic now)
  have hlookup : lagLookup cluster topic now g v = lagLookup cluster topic now g' v' := by
    simp [lagLookup, hclass, Visit.showsRowsHere, hv.probe, hv.lag, hg.groupId]
  refine ⟨?_, hlookup⟩
  simp only [inspected, hclass, hlookup, hg.groupId, hg.state]

theorem gather_sameMembers {groups groups' : List GroupMembership} {visit visit' : Nat → Visit}
    (hgroups : List.Forall₂ GroupMembership.SameMembers groups groups')
    (hvisit : ∀ i, (visit i).SameMembers (visit' i)) (cluster topic : String) (now : Int)
    (acc : Gathered) (i : Nat) :
    gather cluster topic now visit acc (groups.zipIdx i) =
      gather cluster topic now visit' acc (groups'.zipIdx i) := by
  induction hgroups generalizing acc i with
  | nil => simp [gather]
  | @cons g g' rest rest' hg _ ih =>
    obtain ⟨hinspected, hlookup⟩ := inspected_sameMembers hg (hvisit i) cluster topic now
    have hhead : acc.visit cluster topic now g (visit i) =
        acc.visit cluster topic now g' (visit' i) := by
      simp only [Gathered.visit, hinspected, hlookup]
    change gather cluster topic now visit (acc.visit cluster topic now g (visit i))
      (rest.zipIdx (i + 1)) = gather cluster topic now visit'
        (acc.visit cluster topic now g' (visit' i)) (rest'.zipIdx (i + 1))
    rw [hhead]
    exact ih _ _

/-! ### No consumer is hidden -/

/-- The ids of the groups an answer says anything about. -/
def TopicConsumers.shownIds (answer : TopicConsumers) : List String :=
  answer.groups.map (·.groupId) ++ answer.unchecked.map (·.groupId)

theorem topicConsumers_ok (cluster topic : String) (now : Int) (roster : GroupRoster)
    (visit : Nat → Visit) :
    ∃ answer, topicConsumers cluster topic now (.ok roster) visit = .ok answer := ⟨_, rfl⟩

section Answer

variable {roster : GroupRoster} {answer : TopicConsumers}

/-- The rows of the answer are those the inspections list. -/
theorem topicConsumers_groups
    (h : topicConsumers cluster topic now (.ok roster) visit = .ok answer) :
    answer.groups.Perm
      ((inspections cluster topic now visit roster.groups.zipIdx).filterMap Inspection.row?) := by
  simp only [topicConsumers, Except.ok.injEq] at h
  subst h
  simpa [gather_groups] using List.mergeSort_perm _ _

theorem topicConsumers_unchecked
    (h : topicConsumers cluster topic now (.ok roster) visit = .ok answer) :
    answer.unchecked.Perm ((inspections cluster topic now visit roster.groups.zipIdx).filterMap
      Inspection.unchecked?) := by
  simp only [topicConsumers, Except.ok.injEq] at h
  subst h
  simpa [gather_unchecked] using List.mergeSort_perm _ _

theorem mem_groups_iff (h : topicConsumers cluster topic now (.ok roster) visit = .ok answer)
    (row : TopicGroupLag) :
    row ∈ answer.groups ↔ ∃ i g, roster.groups[i]? = some g ∧
      inspected cluster topic now g (visit i) = .listed row := by
  rw [(topicConsumers_groups h).mem_iff]
  simp only [inspections, List.mem_filterMap, List.mem_map]
  constructor
  · rintro ⟨found, ⟨⟨g, i⟩, hmem, rfl⟩, hrow⟩
    refine ⟨i, g, List.mk_mem_zipIdx_iff_getElem?.mp hmem, ?_⟩
    revert hrow
    cases inspected cluster topic now g (visit i) <;> simp [Inspection.row?]
  · rintro ⟨i, g, hg, hrow⟩
    exact ⟨_, ⟨(g, i), List.mk_mem_zipIdx_iff_getElem?.mpr hg, rfl⟩, by simp [hrow, Inspection.row?]⟩

theorem mem_unchecked_iff (h : topicConsumers cluster topic now (.ok roster) visit = .ok answer)
    (u : UncheckedGroup) :
    u ∈ answer.unchecked ↔ ∃ i g, roster.groups[i]? = some g ∧
      inspected cluster topic now g (visit i) = .unchecked u := by
  rw [(topicConsumers_unchecked h).mem_iff]
  simp only [inspections, List.mem_filterMap, List.mem_map]
  constructor
  · rintro ⟨found, ⟨⟨g, i⟩, hmem, rfl⟩, hu⟩
    refine ⟨i, g, List.mk_mem_zipIdx_iff_getElem?.mp hmem, ?_⟩
    revert hu
    cases inspected cluster topic now g (visit i) <;> simp [Inspection.unchecked?]
  · rintro ⟨i, g, hg, hu⟩
    exact ⟨_, ⟨(g, i), List.mk_mem_zipIdx_iff_getElem?.mpr hg, rfl⟩,
      by simp [hu, Inspection.unchecked?]⟩

/-- A row stands for a group of the roster, and each group has one row at most. -/
theorem shownIds_nodup (h : topicConsumers cluster topic now (.ok roster) visit = .ok answer)
    (hdistinct : (roster.groups.map (·.groupId)).Nodup) : answer.shownIds.Nodup := by
  have hperm : answer.shownIds.Perm
      ((inspections cluster topic now visit roster.groups.zipIdx).filterMap
        Inspection.shownId?) :=
    (((topicConsumers_groups h).map _).append ((topicConsumers_unchecked h).map _)).trans
      (shownIds_perm _)
  apply hperm.nodup_iff.mpr
  apply (shownIds_sublist roster.groups.zipIdx).nodup
  have hids : roster.groups.zipIdx.map (·.1.groupId) = roster.groups.map (·.groupId) := by
    conv_rhs => rw [← List.zipIdx_map_fst 0 roster.groups, List.map_map]
    rfl
  rw [hids]
  exact hdistinct

theorem eq_of_groupId_eq (hdistinct : (roster.groups.map (·.groupId)).Nodup) {i j : Nat}
    {g g' : GroupMembership} (hi : roster.groups[i]? = some g) (hj : roster.groups[j]? = some g')
    (hid : g.groupId = g'.groupId) : i = j := by
  have h : (roster.groups.map (·.groupId))[i]? = (roster.groups.map (·.groupId))[j]? := by
    simp [hi, hj, hid]
  exact (List.getElem?_inj (by simp [(List.getElem?_eq_some_iff.mp hi).1]) hdistinct).mp h

theorem mem_shownIds_iff (h : topicConsumers cluster topic now (.ok roster) visit = .ok answer)
    (hdistinct : (roster.groups.map (·.groupId)).Nodup) {i : Nat} {g : GroupMembership}
    (hg : roster.groups[i]? = some g) :
    g.groupId ∈ answer.shownIds ↔ inspected cluster topic now g (visit i) ≠ .skipped := by
  simp only [TopicConsumers.shownIds, List.mem_append, List.mem_map, mem_groups_iff h,
    mem_unchecked_iff h]
  constructor
  · rintro (⟨row, ⟨j, g', hg', hrow⟩, hid⟩ | ⟨u, ⟨j, g', hg', hu⟩, hid⟩)
    · rw [inspected_listed_groupId hrow] at hid
      cases eq_of_groupId_eq hdistinct hg' hg hid
      cases hg.symm.trans hg'
      simp [hrow]
    · rw [inspected_unchecked_groupId hu] at hid
      cases eq_of_groupId_eq hdistinct hg' hg hid
      cases hg.symm.trans hg'
      simp [hu]
  · intro hshown
    rcases hfound : inspected cluster topic now g (visit i) with row | u | _
    · exact Or.inl ⟨row, ⟨i, g, hg, hfound⟩, inspected_listed_groupId hfound⟩
    · exact Or.inr ⟨u, ⟨i, g, hg, hfound⟩, inspected_unchecked_groupId hfound⟩
    · exact absurd hfound hshown

end Answer

/-- The same roster and the same lookups, but for the order of the members of a group. -/
structure SameButMemberOrder (roster roster' : GroupRoster) (visit visit' : Nat → Visit) :
    Prop where
  groups : List.Forall₂ GroupMembership.SameMembers roster.groups roster'.groups
  asOf : roster.asOf = roster'.asOf
  visits : ∀ i, (visit i).SameMembers (visit' i)

/-- The answer of a walk over any roster of distinct groups: each group is shown once
    at most; it is left out exactly when its members are all certainly elsewhere, or
    when it is not assigned here and the entry it is served shows nothing here; a
    consumer is always listed; a failed lookup is listed with its reason or disclosed;
    and the order of a group's members changes nothing. -/
theorem topicConsumers_hides_none (cluster topic : String) (now : Int) (roster : GroupRoster)
    (visit : Nat → Visit) (hdistinct : (roster.groups.map (·.groupId)).Nodup) :
    ∃ answer, topicConsumers cluster topic now (.ok roster) visit = .ok answer ∧
      answer.shownIds.Nodup ∧
      (∀ (i : Nat) (g : GroupMembership), roster.groups[i]? = some g →
        (g.groupId ∉ answer.shownIds ↔
          AllElsewhere (assignments topic now g (visit i)) topic ∨
          ¬ Assigned (assignments topic now g (visit i)) topic ∧
            ∃ entry, lagLookup cluster topic now g (visit i) = .ok entry ∧
              entry.value.covers topic = false) ∧
        (Assigned (assignments topic now g (visit i)) topic →
          g.groupId ∈ answer.groups.map (·.groupId)) ∧
        (∀ e, ¬ AllElsewhere (assignments topic now g (visit i)) topic →
          lagLookup cluster topic now g (visit i) = .error e →
          (Assigned (assignments topic now g (visit i)) topic ∧
            ∃ row ∈ answer.groups, row.groupId = g.groupId ∧
              row.error = some (lagErrorReason e)) ∨
          (¬ Assigned (assignments topic now g (visit i)) topic ∧
            ∃ u ∈ answer.unchecked, u.groupId = g.groupId ∧ u.error = lagErrorReason e))) ∧
      (∀ (roster' : GroupRoster) (visit' : Nat → Visit),
        SameButMemberOrder roster roster' visit visit' →
        topicConsumers cluster topic now (.ok roster') visit' = .ok answer) := by
  obtain ⟨answer, hanswer⟩ := topicConsumers_ok cluster topic now roster visit
  refine ⟨answer, hanswer, shownIds_nodup hanswer hdistinct, ?_, ?_⟩
  · intro i g hg
    refine ⟨?_, ?_, ?_⟩
    · rw [mem_shownIds_iff hanswer hdistinct hg, not_not]
      exact inspected_skipped_iff
    · intro hassigned
      obtain ⟨row, hrow⟩ := inspected_of_assigned cluster hassigned
      exact List.mem_map.mpr ⟨row, (mem_groups_iff hanswer row).mpr ⟨i, g, hg, hrow⟩,
        inspected_listed_groupId hrow⟩
    · intro e helsewhere hlookup
      rcases inspected_of_error helsewhere hlookup with ⟨ha, hrow⟩ | ⟨ha, hu⟩
      · exact Or.inl ⟨ha, _, (mem_groups_iff hanswer _).mpr ⟨i, g, hg, hrow⟩, rfl, rfl⟩
      · exact Or.inr ⟨ha, _, (mem_unchecked_iff hanswer _).mpr ⟨i, g, hg, hu⟩, rfl, rfl⟩
  · intro roster' visit' hsame
    rw [← hanswer]
    simp only [topicConsumers, hsame.asOf,
      gather_sameMembers hsame.groups hsame.visits cluster topic now {} 0]

/-- A classic group whose member reads the topic, and one whose assignment did not decode. -/
def ordersRoster : GroupRoster where
  groups := [⟨"billing", "Stable", "consumer", "Classic", some 1, [some ["orders"]]⟩,
    ⟨"audit", "Stable", "consumer", "Classic", some 1, [none]⟩]
  asOf := 900

/-- No entry is cached and every read of the cluster fails. -/
def unreachable : Visit where
  probe := none
  describe := ⟨none, true, none, .error ⟨"kafka_timeout", "describe group timed out", none, true⟩⟩
  lag := ⟨none, true, none, .error
    ⟨"kafka_timeout", "fetch committed offsets: timed out", none, true⟩⟩

/-- With the cluster unreachable neither group disappears. -/
theorem ordersRoster_hides_none :
    ∃ answer, topicConsumers "local" "orders" 1000 (.ok ordersRoster) (fun _ => unreachable) =
        .ok answer ∧
      "billing" ∈ answer.groups.map (·.groupId) ∧
      (∃ u ∈ answer.unchecked, u.groupId = "audit" ∧ u.error = "timed out") := by
  obtain ⟨answer, hanswer, _, hgroups, _⟩ :=
    topicConsumers_hides_none "local" "orders" 1000 ordersRoster (fun _ => unreachable)
      (by decide)
  refine ⟨answer, hanswer, ?_, ?_⟩
  · apply (hgroups 0 ⟨"billing", "Stable", "consumer", "Classic", some 1, [some ["orders"]]⟩ rfl).2.1
    exact ⟨["orders"], List.mem_cons_self, List.mem_cons_self⟩
  · have helsewhere : ¬ AllElsewhere [none] "orders" := by simp [AllElsewhere]
    have haudit := (hgroups 1 ⟨"audit", "Stable", "consumer", "Classic", some 1, [none]⟩ rfl).2.2
      _ helsewhere rfl
    rcases haudit with ⟨hassigned, _⟩ | ⟨_, u, hu, hid, herror⟩
    · have hnone : ¬ Assigned [none] "orders" := by simp
      exact absurd hassigned hnone
    · exact ⟨u, hu, hid, herror.trans (by decide)⟩

end Arne.Cluster
