import Arne.Timeline.Scan
import Mathlib.Algebra.Order.BigOperators.Group.List
import Mathlib.Algebra.Order.Group.Nat

/-!
# One bounded fetch (`message/fetch.rs`)

One loop polls a consumer that is assigned to many ranges at once.  A range is done when
its last offset arrives, when a record behind it arrives, or when the partition ends; the
loop stops when all are done, at its cap, at its deadline or when it is cancelled.  What
the loop keeps is told by the polls it has seen, so that every way to stop leaves what
`FetchOutcome` documents.
-/

namespace Arne.Timeline

open Arne.Message Arne.SortedLog

/-! ### The poll loop -/

/-- What one `poll` gives. -/
inductive Poll where
  | message (record : RawRecord)
  | partitionEof (partition : Int)
  | error
  | nothing
deriving DecidableEq, Repr

/-- One turn of the loop: the clock and the flag its condition reads, and the poll. -/
structure Turn where
  expired : Bool
  cancelled : Bool
  poll : Poll
deriving Repr

/-- The partitions whose entry of `done` is set, and the records so far. -/
structure FetchState where
  done : List Int
  out : List RawRecord

/-- `targets`, where a later range of a partition replaces an earlier one. -/
def target (ranges : List PartitionRange) (p : Int) : Option Int :=
  (ranges.reverse.find? (·.partition == p)).map (·.end_)

/-- The body of the loop.  Indexing `targets` fails for a partition that is not assigned. -/
def FetchState.step (ranges : List PartitionRange) (s : FetchState) : Poll → Option FetchState
  | .message r => do
      let stop ← target ranges r.partition
      if stop ≤ r.offset then some { s with done := r.partition :: s.done }
      else if stop ≤ r.offset + 1 then some ⟨r.partition :: s.done, s.out ++ [r]⟩
      else some { s with out := s.out ++ [r] }
  | .partitionEof p => some { s with done := p :: s.done }
  | .error => some s
  | .nothing => some s

/-- `done.values().any(|d| !d)`. -/
def FetchState.pending (ranges : List PartitionRange) (s : FetchState) : Bool :=
  ranges.any fun r => !s.done.contains r.partition

/-- The loop; the deadline passes at the latest where the turns end. -/
def pollLoop (ranges : List PartitionRange) (cap : Nat) : List Turn → FetchState → Option FetchState
  | [], s => some s
  | t :: turns, s =>
      if s.pending ranges && !t.expired && decide (s.out.length < cap) && !t.cancelled then
        (s.step ranges t.poll).bind (pollLoop ranges cap turns)
      else some s

/-- The ranges the consumer is assigned to. -/
def assigned (ranges : List PartitionRange) : List PartitionRange :=
  ranges.filter fun r => decide (r.start < r.end_)

def triviallyComplete (ranges : List PartitionRange) : List Int :=
  (ranges.filter fun r => decide (r.end_ ≤ r.start)).map PartitionRange.partition

/-- `fetch_ranges_blocking`.  `setup` is the creation and the assignment of the consumer. -/
def fetchRanges (setup : Except ApiError Unit) (ranges : List PartitionRange) (cap : Nat)
    (turns : List Turn) : Option (Except ApiError FetchOutcome) :=
  if (assigned ranges).isEmpty then some (.ok ⟨[], triviallyComplete ranges⟩)
  else
    match setup with
    | .error e => some (.error e)
    | .ok () =>
        (pollLoop (assigned ranges) cap turns ⟨[], []⟩).map fun s =>
          .ok ⟨s.out, s.done ++ triviallyComplete ranges⟩

theorem mem_assigned {ranges : List PartitionRange} {w : PartitionRange} :
    w ∈ assigned ranges ↔ w ∈ ranges ∧ w.start < w.end_ := by
  simp [assigned]

theorem mem_triviallyComplete {ranges : List PartitionRange} {p : Int} :
    p ∈ triviallyComplete ranges ↔ ∃ w ∈ ranges, w.end_ ≤ w.start ∧ w.partition = p := by
  simp [triviallyComplete, and_assoc]

theorem distinct_assigned {ranges : List PartitionRange} (hd : Distinct ranges) :
    Distinct (assigned ranges) :=
  (List.filter_sublist.map _).nodup hd

/-! ### What the loop has seen -/

/-- The records among the polls. -/
def delivered (polls : List Poll) : List RawRecord :=
  polls.filterMap fun
    | .message r => some r
    | _ => none

/-- The record stands before the end of its range. -/
def inTarget (ranges : List PartitionRange) (r : RawRecord) : Bool :=
  (target ranges r.partition).any fun stop => decide (r.offset < stop)

/-- The record reaches the end of its range. -/
def reachesTarget (ranges : List PartitionRange) (r : RawRecord) : Bool :=
  (target ranges r.partition).any fun stop => decide (stop ≤ r.offset + 1)

/-- What the loop keeps of the polls it has seen. -/
structure Fetched (ranges : List PartitionRange) (seen : List Poll) (s : FetchState) : Prop where
  out_eq : s.out = (delivered seen).filter (inTarget ranges)
  done_iff : ∀ p, p ∈ s.done ↔ Poll.partitionEof p ∈ seen ∨
    ∃ r ∈ delivered seen, r.partition = p ∧ reachesTarget ranges r = true

/-- Only partitions with a target deliver. -/
def Targeted (ranges : List PartitionRange) (polls : List Poll) : Prop :=
  ∀ r ∈ delivered polls, (target ranges r.partition).isSome

@[simp] theorem delivered_nil : delivered [] = [] := rfl

@[simp] theorem delivered_append (polls polls' : List Poll) :
    delivered (polls ++ polls') = delivered polls ++ delivered polls' :=
  List.filterMap_append

theorem Fetched.nil (ranges : List PartitionRange) : Fetched ranges [] ⟨[], []⟩ where
  out_eq := rfl
  done_iff p := by simp

section

variable {ranges : List PartitionRange} {seen : List Poll} {s : FetchState}

/-- A poll that delivers nothing and ends nothing. -/
theorem Fetched.idle (h : Fetched ranges seen s) {poll : Poll} (hnone : delivered [poll] = [])
    (heof : ∀ p, poll ≠ .partitionEof p) : Fetched ranges (seen ++ [poll]) s where
  out_eq := by rw [h.out_eq, delivered_append, hnone, List.append_nil]
  done_iff p := by
    rw [h.done_iff, delivered_append, hnone, List.append_nil, List.mem_append,
      List.mem_singleton]
    have hne := (heof p).symm
    tauto

/-- One poll keeps the account. -/
theorem Fetched.step (h : Fetched ranges seen s) {poll : Poll}
    (htargeted : Targeted ranges [poll]) :
    ∃ s', s.step ranges poll = some s' ∧ Fetched ranges (seen ++ [poll]) s' := by
  cases poll with
  | error => exact ⟨s, rfl, h.idle rfl fun _ => Poll.noConfusion⟩
  | nothing => exact ⟨s, rfl, h.idle rfl fun _ => Poll.noConfusion⟩
  | partitionEof p =>
    refine ⟨_, rfl, ?_, ?_⟩
    · rw [h.out_eq, delivered_append]
      simp [delivered]
    · intro q
      rw [List.mem_cons, h.done_iff, delivered_append, List.mem_append, List.mem_singleton,
        Poll.partitionEof.injEq]
      simp only [delivered, List.filterMap_cons_none, List.filterMap_nil, List.append_nil]
      tauto
  | message r =>
    obtain ⟨stop, hstop⟩ := Option.isSome_iff_exists.mp (htargeted r List.mem_cons_self)
    have hreach : reachesTarget ranges r = decide (stop ≤ r.offset + 1) := by
      simp [reachesTarget, hstop]
    have hdelivered : delivered (seen ++ [.message r]) = delivered seen ++ [r] :=
      delivered_append seen [.message r]
    have hkept : (delivered seen ++ [r]).filter (inTarget ranges) =
        s.out ++ if r.offset < stop then [r] else [] := by
      rw [List.filter_append, h.out_eq, List.filter_singleton]
      simp [inTarget, hstop]
    have hdone : ∀ p, (Poll.partitionEof p ∈ seen ++ [.message r] ∨
        ∃ x ∈ delivered seen ++ [r], x.partition = p ∧ reachesTarget ranges x = true) ↔
        p ∈ s.done ∨ r.partition = p ∧ stop ≤ r.offset + 1 := by
      intro p
      rw [h.done_iff]
      simp only [List.mem_append, List.mem_singleton, or_and_right, exists_or, exists_eq_left,
        hreach, decide_eq_true_eq, reduceCtorEq, or_false]
      exact or_assoc.symm
    rw [FetchState.step, hstop, Option.bind_eq_bind, Option.bind_some]
    by_cases hbehind : stop ≤ r.offset
    · -- behind the range: the record is not kept
      have hlast : stop ≤ r.offset + 1 := by omega
      rw [if_pos hbehind]
      refine ⟨_, rfl, ?_, ?_⟩
      · rw [hdelivered, hkept, if_neg hbehind.not_gt, List.append_nil]
      · intro p
        rw [hdelivered, hdone, List.mem_cons, and_iff_left hlast, eq_comm, or_comm]
    · push Not at hbehind
      rw [if_neg hbehind.not_ge]
      by_cases hlast : stop ≤ r.offset + 1
      · rw [if_pos hlast]
        refine ⟨_, rfl, ?_, ?_⟩
        · rw [hdelivered, hkept, if_pos hbehind]
        · intro p
          rw [hdelivered, hdone, List.mem_cons, and_iff_left hlast, eq_comm, or_comm]
      · rw [if_neg hlast]
        refine ⟨_, rfl, ?_, ?_⟩
        · rw [hdelivered, hkept, if_pos hbehind]
        · intro p
          rw [hdelivered, hdone]
          exact (or_iff_left fun hp => hlast hp.2).symm

/-- Wherever the loop stops, it has seen some of the polls. -/
theorem Fetched.run (h : Fetched ranges seen s) (cap : Nat) {turns : List Turn}
    (htargeted : Targeted ranges (turns.map Turn.poll)) :
    ∃ n s', pollLoop ranges cap turns s = some s' ∧
      Fetched ranges (seen ++ (turns.map Turn.poll).take n) s' := by
  induction turns generalizing seen s with
  | nil => exact ⟨0, s, rfl, by simpa using h⟩
  | cons t turns ih =>
    rw [pollLoop]
    split
    · obtain ⟨hhead, htail⟩ : Targeted ranges [t.poll] ∧ Targeted ranges (turns.map Turn.poll) := by
        rw [List.map_cons, ← List.singleton_append] at htargeted
        constructor
        · intro r hr
          exact htargeted r (delivered_append _ _ ▸ List.mem_append_left _ hr)
        · intro r hr
          exact htargeted r (delivered_append _ _ ▸ List.mem_append_right _ hr)
      obtain ⟨s₁, hstep, h₁⟩ := h.step hhead
      obtain ⟨n, s', hrun, h'⟩ := ih h₁ htail
      refine ⟨n + 1, s', ?_, ?_⟩
      · rw [hstep, Option.bind_some, hrun]
      · rwa [List.map_cons, List.take_succ_cons, ← List.singleton_append, ← List.append_assoc]
    · exact ⟨0, s, rfl, by simpa using h⟩

end

/-! ### What a broker delivers -/

/-- What a consumer that starts at `start` can see of a partition. -/
def Topic.visible (topic : Topic) (p start : Int) : List RawRecord :=
  (topic.log p).filter fun r => decide (start ≤ r.offset)

/-- The records of one partition among the polls. -/
def deliveredOf (p : Int) (polls : List Poll) : List RawRecord :=
  (delivered polls).filter (·.partition == p)

/-- Polls as Kafka gives them to a consumer of these ranges: only what is assigned, each
    partition in order and each record once, the partitions in any order, and the end of a
    partition only behind all of its records. -/
structure Consistent (topic : Topic) (ranges : List PartitionRange) (polls : List Poll) : Prop where
  message_assigned : ∀ r ∈ delivered polls, ∃ w ∈ ranges, w.partition = r.partition
  eof_assigned : ∀ p, Poll.partitionEof p ∈ polls → ∃ w ∈ ranges, w.partition = p
  ordered : ∀ w ∈ ranges, deliveredOf w.partition polls <+: topic.visible w.partition w.start
  eof_behind : ∀ w ∈ ranges, ∀ i, polls[i]? = some (.partitionEof w.partition) →
    deliveredOf w.partition (polls.take i) = topic.visible w.partition w.start

theorem Topic.visible_slice (topic : Topic) (p start stop : Int) :
    (topic.visible p start).filter (fun r => decide (r.offset < stop)) =
      topic.slice p start stop := by
  rw [visible, slice, between, List.filter_filter]
  apply List.filter_congr
  intro r _
  exact Bool.and_comm _ _

theorem deliveredOf_front (p : Int) {polls polls' : List Poll} (h : polls <+: polls') :
    deliveredOf p polls <+: deliveredOf p polls' := by
  obtain ⟨rest, rfl⟩ := h
  rw [deliveredOf, deliveredOf, delivered_append, List.filter_append]
  exact List.prefix_append _ _

/-- What has been seen so far is consistent too. -/
theorem Consistent.take {topic : Topic} {ranges : List PartitionRange} {polls : List Poll}
    (h : Consistent topic ranges polls) (n : Nat) : Consistent topic ranges (polls.take n) where
  message_assigned r hr := by
    have hfront : delivered (polls.take n) <+: delivered polls := by
      conv_rhs => rw [← List.take_append_drop n polls, delivered_append]
      exact List.prefix_append _ _
    exact h.message_assigned r (hfront.subset hr)
  eof_assigned p hp := h.eof_assigned p (List.mem_of_mem_take hp)
  ordered w hw := (deliveredOf_front _ (List.take_prefix n polls)).trans (h.ordered w hw)
  eof_behind w hw i hi := by
    rw [List.getElem?_take] at hi
    split at hi
    · rename_i hlt
      rw [List.take_take, min_eq_left hlt.le]
      exact h.eof_behind w hw i hi
    · cases hi

/-- The target of a partition is the end of its only range. -/
theorem target_eq {ranges : List PartitionRange} (hd : Distinct ranges) {w : PartitionRange}
    (hw : w ∈ ranges) : target ranges w.partition = some w.end_ := by
  rw [target]
  cases hfind : ranges.reverse.find? (·.partition == w.partition) with
  | none =>
    exact absurd (beq_self_eq_true _)
      (List.find?_eq_none.mp hfind w (List.mem_reverse.mpr hw))
  | some v =>
    have hv : v ∈ ranges := List.mem_reverse.mp (List.mem_of_find?_eq_some hfind)
    have hp : v.partition = w.partition := by simpa using List.find?_some hfind
    rw [List.inj_on_of_nodup_map hd hv hw hp, Option.map_some]

/-! ### What the loop keeps of each range -/

section

variable {topic : Topic} {ranges : List PartitionRange} {seen : List Poll} {s : FetchState}
  {w : PartitionRange}

/-- Of each range the loop keeps what it has seen below the range's end. -/
theorem Fetched.of_eq (h : Fetched ranges seen s) (hd : Distinct ranges) (hw : w ∈ ranges) :
    s.out.filter (·.partition == w.partition) =
      (deliveredOf w.partition seen).filter fun r => decide (r.offset < w.end_) := by
  rw [h.out_eq, deliveredOf, List.filter_filter, List.filter_filter]
  apply List.filter_congr
  intro r _
  by_cases hp : r.partition = w.partition
  · simp [inTarget, hp, target_eq hd hw]
  · rw [beq_false_of_ne hp, Bool.false_and, Bool.and_false]

theorem Fetched.of_front (h : Fetched ranges seen s) (hd : Distinct ranges)
    (hseen : Consistent topic ranges seen) (hw : w ∈ ranges) :
    s.out.filter (·.partition == w.partition) <+:
      topic.slice w.partition w.start w.end_ := by
  rw [h.of_eq hd hw, ← Topic.visible_slice]
  exact (hseen.ordered w hw).filter _

/-- A record of the range that reaches its end has nothing of the range behind it. -/
theorem filter_eq_of_reaches {start stop : Int} {l : List RawRecord} {p : Int}
    (hfront : l <+: topic.visible p start) {r : RawRecord} (hr : r ∈ l)
    (hreach : stop ≤ r.offset + 1) :
    l.filter (fun x => decide (x.offset < stop)) = topic.slice p start stop := by
  obtain ⟨rest, hrest⟩ := hfront
  have hascending : Ascending RawRecord.offset (l ++ rest) :=
    hrest ▸ (topic.ascending p).filter _
  have hbehind : rest.filter (fun x => decide (x.offset < stop)) = [] := by
    apply List.filter_eq_nil_iff.mpr
    intro x hx
    have hlt := (List.pairwise_append.mp hascending).2.2 r hr x hx
    simp only [decide_eq_true_eq]
    omega
  rw [← Topic.visible_slice, ← hrest, List.filter_append, hbehind, List.append_nil]

/-- A range that is done has been read in full. -/
theorem Fetched.of_done (h : Fetched ranges seen s) (hd : Distinct ranges)
    (hseen : Consistent topic ranges seen) (hw : w ∈ ranges)
    (hdone : w.partition ∈ s.done) :
    s.out.filter (·.partition == w.partition) = topic.slice w.partition w.start w.end_ := by
  rw [h.of_eq hd hw]
  rcases (h.done_iff _).mp hdone with heof | ⟨r, hr, hp, hreach⟩
  · obtain ⟨i, hi⟩ := List.mem_iff_getElem?.mp heof
    have hall := hseen.eof_behind w hw i hi
    have hsame : deliveredOf w.partition seen = topic.visible w.partition w.start := by
      have hle := deliveredOf_front w.partition (List.take_prefix i seen)
      rw [hall] at hle
      exact (hseen.ordered w hw).eq_of_length_le hle.length_le
    rw [hsame, Topic.visible_slice]
  · refine filter_eq_of_reaches (hseen.ordered w hw)
      (List.mem_filter.mpr ⟨hr, by simp [hp]⟩) ?_
    simpa [reachesTarget, hp, target_eq hd hw] using hreach

/-- A range that is not done has an offset left that was not read. -/
theorem Fetched.length_lt (h : Fetched ranges seen s) (hd : Distinct ranges)
    (hseen : Consistent topic ranges seen) (hw : w ∈ ranges) (hspan : w.start < w.end_)
    (hnot : w.partition ∉ s.done) :
    (s.out.filter (·.partition == w.partition)).length < w.span := by
  have hfront := h.of_front hd hseen hw
  have hnodup : ((s.out.filter (·.partition == w.partition)).map RawRecord.offset).Nodup :=
    Ascending.map_nodup (List.Pairwise.sublist hfront.sublist (topic.slice_ascending _ _ _))
  have hin : ∀ r ∈ s.out.filter (·.partition == w.partition),
      w.start ≤ r.offset ∧ r.offset < w.end_ - 1 := by
    intro r hr
    refine ⟨(Topic.mem_slice.mp (hfront.subset hr)).2.1, ?_⟩
    by_contra hlast
    apply hnot
    rw [h.of_eq hd hw, deliveredOf] at hr
    obtain ⟨hr, hp⟩ := List.mem_filter.mp (List.mem_filter.mp hr).1
    have hp : r.partition = w.partition := by simpa using hp
    refine (h.done_iff _).mpr (.inr ⟨r, hr, hp, ?_⟩)
    simp only [reachesTarget, hp, target_eq hd hw, Option.any_some, decide_eq_true_eq]
    omega
  have hlength := length_le_span hnodup hin
  unfold PartitionRange.span
  omega

end

/-! ### The contract -/

/-- What is delivered belongs to some range, so the ranges count all of it. -/
theorem length_le_sum {ranges : List PartitionRange} {records : List RawRecord}
    (h : ∀ r ∈ records, ∃ w ∈ ranges, r.partition = w.partition) :
    records.length ≤
      (ranges.map fun w => (records.filter (·.partition == w.partition)).length).sum := by
  have hcount := sum_groups PartitionRange.partition RawRecord.partition (fun _ => 1) ranges records
  simp only [List.map_const', List.sum_replicate_nat, mul_one, one_mul] at hcount
  rw [hcount]
  refine le_of_eq_of_le (List.length_map _).symm (List.length_le_sum_of_one_le _ ?_)
  intro n hn
  obtain ⟨r, hr, rfl⟩ := List.mem_map.mp hn
  obtain ⟨w, hw, hp⟩ := h r hr
  exact List.countP_pos_iff.mpr ⟨w, hw, by simp [hp]⟩

/-- `range::total`, as 64-bit words have it. -/
def totalU64 (ranges : List PartitionRange) : Nat :=
  ranges.foldl (fun sum r => (sum + ((r.end_ - r.start) % 2 ^ 64).toNat) % 2 ^ 64) 0

/-- Where no range is reversed and the offsets can be counted, the words count them. -/
theorem totalU64_eq {ranges : List PartitionRange} (hforward : ∀ r ∈ ranges, r.start ≤ r.end_)
    (hfits : total ranges < 2 ^ 64) : totalU64 ranges = total ranges := by
  have hsum : ∀ (l : List PartitionRange) (sum : Nat), (∀ r ∈ l, r.start ≤ r.end_) →
      sum + total l < 2 ^ 64 →
      l.foldl (fun sum r => (sum + ((r.end_ - r.start) % 2 ^ 64).toNat) % 2 ^ 64) sum =
        sum + total l := by
    intro l
    induction l with
    | nil => simp
    | cons r l ih =>
      intro sum hl hlt
      have hr := hl r List.mem_cons_self
      rw [total_cons] at hlt ⊢
      have hspan : ((r.end_ - r.start) % 2 ^ 64).toNat = r.span := by
        unfold PartitionRange.span at hlt ⊢
        omega
      rw [List.foldl_cons, hspan, Nat.mod_eq_of_lt (by omega),
        ih _ (fun v hv => hl v (List.mem_cons_of_mem r hv)) (by omega), Nat.add_assoc]
  rw [totalU64, hsum ranges 0 hforward (by omega), Nat.zero_add]

/-- A fetch returns what its loop kept when it stopped. -/
theorem fetchRanges_ok {topic : Topic} {ranges : List PartitionRange} (hd : Distinct ranges)
    {turns : List Turn} (hpolls : Consistent topic (assigned ranges) (turns.map Turn.poll))
    (cap : Nat) :
    ∃ n s, fetchRanges (.ok ()) ranges cap turns =
        some (.ok ⟨s.out, s.done ++ triviallyComplete ranges⟩) ∧
      Fetched (assigned ranges) ((turns.map Turn.poll).take n) s := by
  rw [fetchRanges]
  split
  · exact ⟨0, ⟨[], []⟩, rfl, Fetched.nil _⟩
  · have htargeted : Targeted (assigned ranges) (turns.map Turn.poll) := by
      intro r hr
      obtain ⟨w, hw, hp⟩ := hpolls.message_assigned r hr
      rw [← hp, target_eq (distinct_assigned hd) hw]
      rfl
    obtain ⟨n, s, hrun, hfetched⟩ := (Fetched.nil (assigned ranges)).run cap htargeted
    exact ⟨n, s, by rw [hrun, Option.map_some], hfetched⟩

section

variable {topic : Topic} {ranges : List PartitionRange} {polls : List Poll} {s : FetchState}

theorem Fetched.requested (h : Fetched (assigned ranges) polls s)
    (hpolls : Consistent topic (assigned ranges) polls) {r : RawRecord} (hr : r ∈ s.out) :
    ∃ w ∈ assigned ranges, r.partition = w.partition := by
  rw [h.out_eq] at hr
  obtain ⟨w, hw, hp⟩ := hpolls.message_assigned r (List.mem_filter.mp hr).1
  exact ⟨w, hw, hp.symm⟩

/-- Nothing is returned of an empty range. -/
theorem Fetched.of_empty (h : Fetched (assigned ranges) polls s) (hd : Distinct ranges)
    (hpolls : Consistent topic (assigned ranges) polls) {w : PartitionRange} (hw : w ∈ ranges)
    (hspan : w.end_ ≤ w.start) :
    s.out.filter (·.partition == w.partition) = topic.slice w.partition w.start w.end_ := by
  rw [Topic.slice, between_of_le hspan, List.filter_eq_nil_iff]
  intro r hr hp
  obtain ⟨v, hv, hrv⟩ := h.requested hpolls hr
  obtain ⟨hv, hvspan⟩ := mem_assigned.mp hv
  obtain rfl : v = w := List.inj_on_of_nodup_map hd hv hw (hrv ▸ by simpa using hp)
  omega

/-- What is done with a partition of which nothing is assigned. -/
theorem Fetched.done_assigned (h : Fetched (assigned ranges) polls s)
    (hpolls : Consistent topic (assigned ranges) polls) {p : Int} (hp : p ∈ s.done) :
    ∃ w ∈ assigned ranges, w.partition = p := by
  rcases (h.done_iff p).mp hp with heof | ⟨r, hr, rfl, _⟩
  · exact hpolls.eof_assigned p heof
  · exact hpolls.message_assigned r hr

theorem Fetched.prefix_slice (h : Fetched (assigned ranges) polls s) (hd : Distinct ranges)
    (hpolls : Consistent topic (assigned ranges) polls) {w : PartitionRange} (hw : w ∈ ranges) :
    s.out.filter (·.partition == w.partition) <+: topic.slice w.partition w.start w.end_ := by
  by_cases hspan : w.start < w.end_
  · exact h.of_front (distinct_assigned hd) hpolls (mem_assigned.mpr ⟨hw, hspan⟩)
  · rw [h.of_empty hd hpolls hw (not_lt.mp hspan)]

/-- What is reported complete has been returned in full. -/
theorem Fetched.complete_slice (h : Fetched (assigned ranges) polls s) (hd : Distinct ranges)
    (hpolls : Consistent topic (assigned ranges) polls) {p : Int}
    (hp : p ∈ s.done ++ triviallyComplete ranges) :
    ∃ w ∈ ranges, w.partition = p ∧
      s.out.filter (·.partition == p) = topic.slice p w.start w.end_ := by
  rcases List.mem_append.mp hp with hdone | htrivial
  · obtain ⟨w, hw, rfl⟩ := h.done_assigned hpolls hdone
    exact ⟨w, (mem_assigned.mp hw).1, rfl,
      h.of_done (distinct_assigned hd) hpolls hw hdone⟩
  · obtain ⟨w, hw, hspan, rfl⟩ := mem_triviallyComplete.mp htrivial
    exact ⟨w, hw, rfl, h.of_empty hd hpolls hw hspan⟩

/-- Unless every range is complete, fewer records are returned than the ranges span. -/
theorem Fetched.length_lt_total (h : Fetched (assigned ranges) polls s) (hd : Distinct ranges)
    (hpolls : Consistent topic (assigned ranges) polls) {w : PartitionRange}
    (hw : w ∈ assigned ranges) (hnot : w.partition ∉ s.done) : s.out.length < total ranges := by
  have hd := distinct_assigned hd
  have hle : ∀ v ∈ assigned ranges,
      (s.out.filter (·.partition == v.partition)).length ≤ v.span := by
    intro v hv
    by_cases hdone : v.partition ∈ s.done
    · rw [h.of_done hd hpolls hv hdone]
      apply length_le_span (Ascending.map_nodup (topic.slice_ascending _ _ _))
      intro r hr
      exact (Topic.mem_slice.mp hr).2
    · exact (h.length_lt hd hpolls hv (mem_assigned.mp hv).2 hdone).le
  calc s.out.length
      ≤ ((assigned ranges).map fun v => (s.out.filter (·.partition == v.partition)).length).sum :=
        length_le_sum fun r hr => h.requested hpolls hr
    _ < total (assigned ranges) :=
        List.sum_lt_sum _ _ hle ⟨w, hw, h.length_lt hd hpolls hw (mem_assigned.mp hw).2 hnot⟩
    _ ≤ total ranges := (List.filter_sublist.map _).sum_le_sum fun _ _ => Nat.zero_le _

end

/-- A bounded fetch of distinct partitions, however it stops: what it returns of a range is
    a front part of what can be seen there, all of it where the range is complete; an empty
    range is complete; and a fetch that returns as many records as its ranges have offsets
    has completed them all.  That number is the one `range::total` computes. -/
theorem fetch_sound {topic : Topic} {ranges : List PartitionRange} (hd : Distinct ranges)
    {turns : List Turn} (hpolls : Consistent topic (assigned ranges) (turns.map Turn.poll))
    (cap : Nat) :
    ∃ outcome, fetchRanges (.ok ()) ranges cap turns = some (.ok outcome) ∧
      (∀ r ∈ outcome.records,
        ∃ w ∈ ranges, r.partition = w.partition ∧ w.start ≤ r.offset ∧ r.offset < w.end_) ∧
      (∀ w ∈ ranges, Ascending RawRecord.offset (FetchOutcome.of outcome w.partition) ∧
        FetchOutcome.of outcome w.partition <+: topic.slice w.partition w.start w.end_) ∧
      (∀ p ∈ outcome.complete, ∃ w ∈ ranges, w.partition = p ∧
        FetchOutcome.of outcome p = topic.slice p w.start w.end_) ∧
      (∀ w ∈ ranges, w.end_ ≤ w.start → w.partition ∈ outcome.complete) ∧
      (cap = total ranges → cap ≤ outcome.records.length →
        ∀ w ∈ ranges, w.partition ∈ outcome.complete) ∧
      ((∀ r ∈ ranges, r.start ≤ r.end_) → total ranges < 2 ^ 64 →
        totalU64 ranges = total ranges) := by
  obtain ⟨n, s, hrun, h⟩ := fetchRanges_ok hd hpolls cap
  have hseen := hpolls.take n
  refine ⟨_, hrun, ?_, ?_, ?_, ?_, ?_, totalU64_eq⟩
  · intro r hr
    obtain ⟨w, hw, hp⟩ := h.requested hseen hr
    have hof : r ∈ s.out.filter (·.partition == w.partition) :=
      List.mem_filter.mpr ⟨hr, by simp [hp]⟩
    exact ⟨w, (mem_assigned.mp hw).1, hp,
      (Topic.mem_slice.mp ((h.of_front (distinct_assigned hd) hseen hw).subset hof)).2⟩
  · intro w hw
    have hfront := h.prefix_slice hd hseen hw
    exact ⟨List.Pairwise.sublist hfront.sublist (topic.slice_ascending _ _ _), hfront⟩
  · intro p hp
    exact h.complete_slice hd hseen hp
  · intro w hw hspan
    exact List.mem_append_right _ (mem_triviallyComplete.mpr ⟨w, hw, hspan, rfl⟩)
  · rintro rfl hcap w hw
    by_cases hspan : w.start < w.end_
    · apply List.mem_append_left
      by_contra hnot
      exact absurd hcap (h.length_lt_total hd hseen (mem_assigned.mpr ⟨hw, hspan⟩) hnot).not_ge
    · exact List.mem_append_right _
        (mem_triviallyComplete.mpr ⟨w, hw, not_lt.mp hspan, rfl⟩)

/-! ### The scan of a chunk -/

/-- `scan_chunk`: the cap of the fetch is what the windows span, and a task that panics is an
    error. -/
def scanChunk (taskJoin : ApiError) (setup : Except ApiError Unit) (windows : List PartitionRange)
    (turns : List Turn) : Except ApiError FetchOutcome :=
  (fetchRanges setup windows (totalU64 windows) turns).getD (.error taskJoin)

theorem scanChunk_documented {topic : Topic} {windows : List PartitionRange}
    (hd : Distinct windows) {turns : List Turn}
    (hpolls : Consistent topic (assigned windows) (turns.map Turn.poll)) {taskJoin : ApiError}
    {setup : Except ApiError Unit} {outcome : FetchOutcome}
    (h : scanChunk taskJoin setup windows turns = .ok outcome) :
    Documented topic windows outcome := by
  obtain ⟨n, s, hrun, hfetched⟩ := fetchRanges_ok hd hpolls (totalU64 windows)
  have hseen := hpolls.take n
  have hout : outcome = ⟨s.out, s.done ++ triviallyComplete windows⟩ := by
    cases setup with
    | ok =>
      rw [scanChunk, hrun, Option.getD_some, Except.ok.injEq] at h
      exact h.symm
    | error e =>
      -- without a consumer only the fetch of nothing succeeds
      rw [scanChunk, fetchRanges] at h
      rw [fetchRanges] at hrun
      split at h
      · rw [if_pos ‹_›, Option.some.injEq] at hrun
        rw [Option.getD_some] at h
        exact Except.ok.inj (h.symm.trans hrun)
      · cases h
  subst hout
  refine ⟨?_, ?_, ?_⟩
  · intro r hr
    obtain ⟨w, hw, hp⟩ := hfetched.requested hseen hr
    exact ⟨w, (mem_assigned.mp hw).1, hp⟩
  · intro w hw
    have hfront := hfetched.prefix_slice hd hseen hw
    exact ⟨_, List.Perm.of_eq (List.prefix_iff_eq_take.mp hfront)⟩
  · intro w hw hcomplete
    obtain ⟨v, hv, hp, hall⟩ := hfetched.complete_slice hd hseen hcomplete
    obtain rfl : v = w := List.inj_on_of_nodup_map hd hv hw hp
    exact List.Perm.of_eq hall

/-- A page whose chunks are scanned by this loop has the scans its engine relies on. -/
theorem scansDocumented_of_fetch {topic : Topic} {call : PageCall}
    (h : ∀ n windows, Distinct windows → ∃ taskJoin setup turns,
      Consistent topic (assigned windows) (turns.map Turn.poll) ∧
        call.scanChunk n windows = scanChunk taskJoin setup windows turns) :
    ScansDocumented topic call := by
  intro n windows outcome hd hok
  obtain ⟨taskJoin, setup, turns, hpolls, hscan⟩ := h n windows hd
  exact scanChunk_documented hd hpolls (hscan ▸ hok)

/-! ### Two partitions, one poll loop -/

/-- Partition 0 has a hole at its offset 2, partition 1 ends behind its offset 7. -/
def pairTopic : Topic :=
  Topic.ofEntries
    (fun p =>
      if p = 0 then [(1, none), (3, none), (4, none)] else if p = 1 then [(7, none)] else [])
    (by
      intro p
      split
      · decide
      · split <;> decide)

def pairRecord (p offset : Int) : RawRecord := ⟨p, offset, none, none, none, []⟩

/-- The record at the target of partition 0 comes between those of partition 1. -/
def pairTurns : List Turn :=
  [⟨false, false, .message (pairRecord 0 1)⟩, ⟨false, false, .error⟩,
    ⟨false, false, .message (pairRecord 1 7)⟩, ⟨false, false, .message (pairRecord 0 3)⟩,
    ⟨false, false, .nothing⟩, ⟨false, false, .partitionEof 1⟩]

def pairRanges : List PartitionRange := [⟨0, 1, 3⟩, ⟨1, 5, 9⟩, ⟨2, 4, 4⟩]

theorem pairTurns_consistent :
    Consistent pairTopic (assigned pairRanges) (pairTurns.map Turn.poll) where
  message_assigned := by decide
  eof_assigned p hp := by
    have hp : p = 1 := by simpa [pairTurns] using hp
    subst hp
    decide
  ordered := by decide
  eof_behind w hw i hi := by
    have hall : ∀ i < 6, ∀ w ∈ assigned pairRanges,
        (pairTurns.map Turn.poll)[i]? = some (.partitionEof w.partition) →
        deliveredOf w.partition ((pairTurns.map Turn.poll).take i) =
          pairTopic.visible w.partition w.start := by decide
    exact hall i (List.getElem?_eq_some_iff.mp hi).1 w hw hi

/-- Every range of the interleaved fetch is read to its end. -/
theorem pair_fetched :
    ∃ outcome, fetchRanges (.ok ()) pairRanges (total pairRanges) pairTurns = some (.ok outcome) ∧
      (∀ w ∈ pairRanges,
        FetchOutcome.of outcome w.partition <+: pairTopic.slice w.partition w.start w.end_) ∧
      outcome.complete = [1, 0, 2] := by
  obtain ⟨outcome, hrun, _, hfront, _⟩ :=
    fetch_sound (by decide : (pairRanges.map PartitionRange.partition).Nodup) pairTurns_consistent
      (total pairRanges)
  refine ⟨outcome, hrun, fun w hw => (hfront w hw).2, ?_⟩
  have hdecide : fetchRanges (.ok ()) pairRanges (total pairRanges) pairTurns =
      some (.ok ⟨[pairRecord 0 1, pairRecord 1 7], [1, 0, 2]⟩) := by rfl
  rw [hdecide, Option.some.injEq, Except.ok.injEq] at hrun
  rw [← hrun]

end Arne.Timeline
