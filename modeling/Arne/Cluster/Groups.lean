import Arne.Cluster.GroupLag

/-!
# Groups and their shared entries (`cluster/admin.rs`, `cluster/keyed_cache.rs`)

The roster says who exists.  A group's lag rows and its coordinator's description are
entries of two shared caches; a lookup serves the entry when it is young enough, and
otherwise reads the cluster or takes what a concurrent lookup read.
-/

namespace Arne.Cluster

open Arne.Message

def ApiError.kafka (cluster message : String) : ApiError :=
  ⟨"kafka_error", message, some cluster, true⟩

def ApiError.groupNotFound (cluster group : String) : ApiError :=
  ⟨"group_not_found", "consumer group '" ++ group ++ "' does not exist", some cluster, false⟩

/-! ### The roster and the descriptions -/

structure GroupMembership where
  groupId : String
  state : String
  protocolType : String
  groupType : String
  /-- `none` for a group the classic describe cannot see into. -/
  memberCount : Option Nat
  memberTopics : List (Option (List String))
deriving DecidableEq, Repr

structure GroupRoster where
  groups : List GroupMembership
  asOf : Int
deriving DecidableEq, Repr

structure MemberDescription where
  memberId : String
  clientId : String
  host : String
  assigned : Option (List (String × Int))
deriving DecidableEq, Repr

structure GroupDescription where
  groupId : String
  state : String
  groupType : String
  assignor : String
  members : List MemberDescription
deriving DecidableEq, Repr

/-- `CONSUMER_PROTOCOL`. -/
def consumerProtocol : String := "Consumer"

def needsCoordinatorDescribe (groupType : String) : Bool := groupType == consumerProtocol

/-! ### A lookup of a shared entry -/

structure Stamped (V : Type) where
  value : V
  sampledAt : Int
deriving DecidableEq, Repr

/-- What one lookup meets: the entry it finds first, whether it got the flight, the
    entry it finds after waiting for another's, and what its own read would give. -/
structure Reading (V : Type) where
  cached : Option (Stamped V)
  ownsFlight : Bool
  reread : Option (Stamped V)
  sample : Except ApiError (Stamped V)

variable {V : Type}

/-- The own read, or another's answer where it left one. -/
def Reading.refreshed (r : Reading V) : Except ApiError (Stamped V) :=
  if r.ownsFlight then r.sample
  else
    match r.reread with
    | some entry => .ok entry
    | none => r.sample

/-- The entry while it is young enough, else a refresh. -/
def Reading.served (r : Reading V) (ttlMs now : Int) : Except ApiError (Stamped V) :=
  match r.cached.filter fun e => decide (now - e.sampledAt < ttlMs) with
  | some entry => .ok entry
  | none => r.refreshed

/-- The two lookups a view makes for one group. -/
structure Lookups where
  describe : Reading GroupDescription
  lag : Reading LagSnapshot

def groupDescriptionCached (r : Reading GroupDescription) (ttlMs now : Int) :
    Except ApiError (Stamped GroupDescription) :=
  r.served ttlMs now

/-- Without a ttl the group is not read at all, only served if it is known already. -/
def groupLagCached (cluster group : String) (r : Reading LagSnapshot) (ttlMs : Option Int)
    (now : Int) : Except ApiError (Stamped LagSnapshot) :=
  match ttlMs with
  | none =>
      match r.cached with
      | some entry => .ok entry
      | none => .error (ApiError.kafka cluster (group ++ " is not read from this view"))
  | some ttl => r.served ttl now

/-! ### The oldest stamp -/

/-- `oldest.map_or(at, |o| o.min(at))`. -/
def olderOf (oldest : Option Int) (sampledAt : Int) : Option Int :=
  some (match oldest with
    | none => sampledAt
    | some o => min o sampledAt)

/-- The stamp of an answer is no younger than `x` exactly when one of the stamps it was
    gathered from is, or when there was none and its fallback is. -/
theorem oldest_getD_le_iff (served : List Int) (oldest : Option Int) (fallback x : Int) :
    (served.foldl olderOf oldest).getD fallback ≤ x ↔
      (∃ s ∈ oldest.toList ++ served, s ≤ x) ∨
        (oldest = none ∧ served = [] ∧ fallback ≤ x) := by
  induction served generalizing oldest with
  | nil => cases oldest <;> simp
  | cons s rest ih =>
    rw [List.foldl_cons, ih]
    cases oldest <;> simp [olderOf, or_assoc]

end Arne.Cluster
