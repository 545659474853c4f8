import Arne.Timeline.Room

/-!
# Paging loses nothing and repeats nothing

For scans that answer as documented, a page that ends with `page_end` took of every
partition exactly the records its position moved past, and emitted the matching
ones once each.  Following the cursors until a page is exhausted therefore emits
the matching records of one whole side of the start.
-/

namespace Arne.Timeline

open Arne.Message Arne.SortedLog

/-! ### Events -/

/-- The messages a client received. -/
def messagesOf (events : List TimelineEvent) : List MessageOut :=
  events.filterMap fun e => match e with
    | .match m => some m
    | _ => none

theorem messagesOf_append (es fs : List TimelineEvent) :
    messagesOf (es ++ fs) = messagesOf es ++ messagesOf fs := by
  simp [messagesOf]

theorem messagesOf_matches (ms : List MessageOut) : messagesOf (ms.map .match) = ms := by
  rw [messagesOf, List.filterMap_map]
  exact List.filterMap_some

theorem sendAll_delivered {client : Client} {sent events : List TimelineEvent}
    (h : (sendAll client sent events).2 = true) :
    (sendAll client sent events).1 = sent ++ events := by
  induction events generalizing sent with
  | nil => exact (List.append_nil sent).symm
  | cons e events ih =>
    simp only [sendAll] at h ⊢
    split
    · rename_i hacc
      rw [if_pos hacc] at h
      rw [ih h, List.append_assoc, List.singleton_append]
    · rename_i hacc
      rw [if_neg hacc] at h
      cases h

/-- Of one event the client receives it or nothing. -/
theorem messagesOf_sendLast (client : Client) (sent : List TimelineEvent) {e : TimelineEvent}
    (h : messagesOf [e] = []) : messagesOf (sendAll client sent [e]).1 = messagesOf sent := by
  simp only [sendAll]
  split
  · rw [messagesOf_append, h, List.append_nil]
  · rfl

/-- The merge of a chunk sends progress only. -/
theorem messagesOf_mergeChunkRecords (call : PageCall) (args : MergeChunkArgs)
    (streams : List (List RawRecord)) (sent : List TimelineEvent) :
    messagesOf (mergeChunkRecords call args streams sent).1.sent = messagesOf sent := by
  refine mergeLoop_induction (P := fun t => messagesOf t.sent = messagesOf sent)
    (fun t i rec h _ _ => h) (fun t scanned h _ => ?_) _ rfl
  rw [messagesOf_append, h]
  exact List.append_nil _

/-! ### Positions and what was read up to them -/

def PageState.popped (s : PageState) : List RawRecord := s.chunks.flatMap ChunkLog.popped

def PageRun.popped (run : PageRun) : List RawRecord := run.last.popped

/-- A partition was read from `old` to `new`: `popped` has of it what the topic has
    between the two. -/
def ReadTo (topic : Topic) (direction : Direction) (popped : List RawRecord)
    (old new : Position) : Prop :=
  new.1 = old.1 ∧ Onward direction old.2 new.2 ∧
    popped.filter (·.partition == old.1) = passed direction (topic.log old.1) old.2 new.2

/-- The invariant of a page over a documented topic. -/
structure ReadInv (topic : Topic) (call : PageCall) (s : PageState) : Prop where
  nodup : (s.curPositions.map Prod.fst).Nodup
  bounds : InBounds call.req.watermarks s.curPositions
  read : List.Forall₂ (ReadTo topic call.req.direction s.popped)
    (clampPositions call.req.positions call.req.watermarks) s.curPositions
  named : ∀ r ∈ s.popped, r.partition ∈ s.curPositions.map Prod.fst
  emitted : (messagesOf s.sent).Perm (keptMessages call.handle call.req.filter s.popped)

theorem forall₂_map_right {α β : Type _} {R S : α → β → Prop} {f : β → β} {l : List α}
    {l' : List β} (h : List.Forall₂ R l l') (hf : ∀ a b, b ∈ l' → R a b → S a (f b)) :
    List.Forall₂ S l (l'.map f) := by
  induction h with
  | nil => exact .nil
  | cons hab _ ih =>
    exact .cons (hf _ _ List.mem_cons_self hab)
      (ih fun a b hb => hf a b (List.mem_cons_of_mem _ hb))

theorem ReadInv.start (topic : Topic) {call : PageCall}
    (h : (call.req.positions.map Prod.fst).Nodup) :
    ReadInv topic call (PageState.start call) where
  nodup := h.sublist (clampPositions_fst_sublist _ _)
  bounds := inBounds_clampPositions _ _
  read := List.forall₂_same.mpr fun e _ =>
    ⟨rfl, Onward.refl _ _, (passed_self call.req.direction _ _).symm⟩
  named := by simp [PageState.popped, PageState.start]
  emitted := List.Perm.refl []

theorem Committed.messagesOf_sent {call : PageCall} {s : PageState} {outcome : FetchOutcome}
    {taken : ChunkTaken} (h : Committed call s outcome taken) :
    messagesOf taken.sent = messagesOf s.sent := by
  have hmerged : mergeChunkRecords call ⟨s.totalMatches, s.totalScanned⟩
      (selectPartitionStreams outcome (s.windows call) call.req.direction).1 s.sent =
      (taken, true) := h.merged
  have hsame := messagesOf_mergeChunkRecords call ⟨s.totalMatches, s.totalScanned⟩
    (selectPartitionStreams outcome (s.windows call) call.req.direction).1 s.sent
  rwa [hmerged] at hsame

theorem messagesOf_chunkEvents (call : PageCall) (s : PageState) (outcome : FetchOutcome)
    (taken : ChunkTaken) : messagesOf (chunkEvents call s outcome taken) =
      chunkDisplayOrder taken.matches_ call.req.direction := by
  rw [chunkEvents, messagesOf_append, messagesOf_matches]
  exact List.append_nil _

/-- A committed chunk that reached the client keeps the invariant. -/
theorem ReadInv.commit {topic : Topic} {call : PageCall} {s : PageState} {outcome : FetchOutcome}
    {taken : ChunkTaken} (hinv : ReadInv topic call s) (h : Committed call s outcome taken)
    (hdoc : Documented topic (s.windows call) outcome)
    (hsent : (sendAll call.client taken.sent (chunkEvents call s outcome taken)).2 = true) :
    ReadInv topic call (s.commit call outcome taken).1 := by
  have honce := namedOnce_of_nodup call hinv.nodup
  have hmove := fun e he => h.entryMove (e := e) honce hdoc.inside hinv.bounds he
  have hpopped : (s.commit call outcome taken).1.popped = s.popped ++ taken.popped := by
    simp [PageState.popped]
  refine ⟨?_, h.inBounds honce hdoc.inside hinv.bounds, ?_, ?_, ?_⟩
  · rw [commit_curPositions, advance_map_fst]
    exact hinv.nodup
  · rw [hpopped]
    apply forall₂_map_right hinv.read
    intro old cur hcur hread
    obtain ⟨hfst, honward, hpassed⟩ := hread
    have hm := hmove cur hcur
    refine ⟨hm.partition_eq.trans hfst, honward.trans hm.onward, ?_⟩
    have hchunk := hm.read topic hdoc
    rw [hfst] at hchunk
    rw [List.filter_append, hpassed, hchunk,
      passed_trans (topic.ascending old.1) honward hm.onward]
  · rw [commit_curPositions, advance_map_fst, hpopped]
    intro r hr
    rcases List.mem_append.mp hr with hr | hr
    · exact hinv.named r hr
    · obtain ⟨w, hw, hp⟩ := popped_has_window honce.distinct h.inv hr
      obtain ⟨e, he, hplan⟩ := mem_windows hw
      rw [hp, (pageWindow_planned hplan).partition_eq]
      exact List.mem_map_of_mem he
  · rw [commit_sent, sendAll_delivered hsent, hpopped, messagesOf_append, keptMessages_append]
    rw [h.messagesOf_sent, messagesOf_chunkEvents, ← h.inv.kept]
    exact hinv.emitted.append (chunkDisplayOrder_perm _ _)

theorem commit_delivered {call : PageCall} {s : PageState} {outcome : FetchOutcome}
    {taken : ChunkTaken} (h : (s.commit call outcome taken).2 ≠ .clientGone) :
    (sendAll call.client taken.sent (chunkEvents call s outcome taken)).2 = true := by
  by_contra hsent
  rw [commit_flow] at h
  simp only [Bool.not_eq_true] at hsent
  simp [hsent] at h

theorem running_readInv {topic : Topic} {call : PageCall} (hdoc : ScansDocumented topic call)
    (hnodup : (call.req.positions.map Prod.fst).Nodup) {s : PageState} (h : Running call s) :
    ReadInv topic call s := by
  induction h with
  | start => exact .start topic hnodup
  | @next s s' _ hstep ih =>
    cases chunkStep_result hstep with
    | committed outcome taken hc hcommit =>
      have hd := (namedOnce_of_nodup call ih.nodup).distinct
      have := ih.commit hc (hdoc _ _ _ hd hc.scanned) (commit_delivered (by simp [hcommit]))
      rwa [hcommit] at this

/-! ### How a page ends -/

/-- The far edge of a partition in the direction of the page. -/
def edgeOf (watermarks : List Watermark) (direction : Direction) (p : Int) : Int :=
  match findWatermark watermarks p with
  | some (lo, hi) => match direction with
    | .back => lo
    | .forward => hi
  | none => 0

theorem AllAtEdge.eq_edgeOf {watermarks : List Watermark} {direction : Direction}
    {positions : List Position} (h : AllAtEdge watermarks direction positions) {e : Position}
    (he : e ∈ positions) {w : Int × Int} (hw : findWatermark watermarks e.1 = some w) :
    e.2 = edgeOf watermarks direction e.1 := by
  have hedge := h e he w.1 w.2 hw
  simp only [edgeOf, hw]
  cases direction <;> simpa [atEdge] using hedge

theorem clampPositions_known {positions : List Position} {watermarks : List Watermark}
    {e : Position} (he : e ∈ clampPositions positions watermarks) :
    ∃ w, findWatermark watermarks e.1 = some w := by
  obtain ⟨listed, lo, hi, -, hw, -⟩ := mem_clampPositions.mp (show (e.1, e.2) ∈ _ from he)
  exact ⟨_, hw⟩

theorem ReadInv.known {topic : Topic} {call : PageCall} {s : PageState}
    (h : ReadInv topic call s) {e : Position} (he : e ∈ s.curPositions) :
    ∃ w, findWatermark call.req.watermarks e.1 = some w := by
  have hread := h.read
  revert he
  generalize s.curPositions = current at hread
  have hclamped : ∀ e ∈ clampPositions call.req.positions call.req.watermarks,
      ∃ w, findWatermark call.req.watermarks e.1 = some w := fun _ => clampPositions_known
  generalize clampPositions call.req.positions call.req.watermarks = start at hread hclamped
  intro he
  induction hread with
  | nil => cases he
  | cons hab _ ih =>
    rcases List.mem_cons.mp he with rfl | he
    · rw [hab.1]
      exact hclamped _ List.mem_cons_self
    · exact ih (fun e he => hclamped e (List.mem_cons_of_mem _ he)) he

/-- What holds when a page ends with `page_end`. -/
structure PageEnded (topic : Topic) (call : PageCall) (run : PageRun) (cursor : Option Cursor)
    (exhausted : Bool) : Prop where
  inv : ReadInv topic call run.last
  received : messagesOf run.events = messagesOf run.last.sent
  cursor_eq : cursor = if exhausted then none else
    some ⟨call.req.direction, run.last.curPositions⟩
  edge_iff : (exhausted = true →
    AllAtEdge call.req.watermarks call.req.direction run.last.curPositions) ↔ call.Roomy

theorem pageEnded {topic : Topic} {call : PageCall} (hdoc : ScansDocumented topic call)
    (htyped : call.req.Typed) (hordered : Ordered call.req.watermarks)
    (hnodup : (call.req.positions.map Prod.fst).Nodup)
    {run : PageRun} (hrun : runPage call = some run) {cursor : Option Cursor} {exhausted : Bool}
    (hend : run.ending = .pageEnd cursor exhausted) :
    PageEnded topic call run cursor exhausted := by
  have hrunning := fun s hs => running_readInv (s := s) hdoc hnodup hs
  obtain ⟨s₀, s, hs₀, hstep, hcursor, rfl, hlast⟩ := runPage_pageEnd hrun hend
  have hinv : ReadInv topic call s := by
    have hinv := hrunning s₀ hs₀
    cases chunkStep_result hstep with
    | finished => exact hinv
    | atEdge planning hnil =>
      exact ⟨hinv.nodup, hinv.bounds, hinv.read, hinv.named, hinv.emitted⟩
    | committed outcome taken hc hcommit =>
      have hd := (namedOnce_of_nodup call hinv.nodup).distinct
      have hnew := hinv.commit hc (hdoc _ _ _ hd hc.scanned) (commit_delivered (by simp [hcommit]))
      rwa [hcommit] at hnew
  have hedge := pageEnd_roomy htyped hordered (fun s hs => (hrunning s hs).bounds) hrun hend
  rw [hlast] at hedge ⊢
  exact ⟨hinv, messagesOf_sendLast _ _ rfl, hcursor.symm, hedge fun e he => hinv.known he⟩

/-! ### Following the cursors -/

/-- What stays the same from page to page. -/
structure Reading where
  topic : Topic
  handle : ClusterHandle
  watermarks : List Watermark
  direction : Direction
  filter : Option Filter

/-- A call that reads on from `positions`: any limit, any budget, any documented
    scans. -/
structure Reading.Reads (rd : Reading) (positions : List Position) (call : PageCall) : Prop where
  typed : call.req.Typed
  handle : call.handle = rd.handle
  positions : call.req.positions = positions
  watermarks : call.req.watermarks = rd.watermarks
  direction : call.req.direction = rd.direction
  filter : call.req.filter = rd.filter
  documented : ScansDocumented rd.topic call

/-- A call with room for every chunk it plans. -/
structure Reading.Serves (rd : Reading) (positions : List Position) (call : PageCall) : Prop
    extends rd.Reads positions call where
  roomy : call.Roomy

/-- Page after page from the returned cursor until one is exhausted, with all the
    messages received on the way. -/
inductive Follows (rd : Reading) : List Position → List MessageOut → Prop
  | last {positions : List Position} {call : PageCall} {run : PageRun}
      (hcall : rd.Serves positions call) (hrun : runPage call = some run)
      (hend : run.ending = .pageEnd none true) : Follows rd positions (messagesOf run.events)
  | next {positions : List Position} {call : PageCall} {run : PageRun} {cursor : Cursor}
      {rest : List MessageOut} (hcall : rd.Serves positions call)
      (hrun : runPage call = some run) (hend : run.ending = .pageEnd (some cursor) false)
      (h : Follows rd cursor.positions rest) :
      Follows rd positions (messagesOf run.events ++ rest)

/-- All the records on one side of the positions. -/
def Reading.remaining (rd : Reading) (positions : List Position) : List RawRecord :=
  (clampPositions positions rd.watermarks).flatMap fun e =>
    passed rd.direction (rd.topic.log e.1) e.2 (edgeOf rd.watermarks rd.direction e.1)

theorem clampPositions_of_inBounds {positions : List Position} {watermarks : List Watermark}
    (hordered : Ordered watermarks) (hb : InBounds watermarks positions)
    (hknown : ∀ e ∈ positions, ∃ w, findWatermark watermarks e.1 = some w) :
    clampPositions positions watermarks = positions := by
  have hsame : ∀ e ∈ positions, clampPosition watermarks e = some e := by
    intro e he
    obtain ⟨⟨lo, hi⟩, hw⟩ := hknown e he
    have hpos := hb e he lo hi hw (hordered _ _ _ hw)
    simp only [clampPosition, hw, Option.map_some, clamp_of_mem hpos.1 hpos.2]
  rw [clampPositions, List.filterMap_congr hsame]
  exact List.filterMap_some

theorem onward_edgeOf {watermarks : List Watermark} {direction : Direction}
    {positions : List Position} (hordered : Ordered watermarks) (hb : InBounds watermarks positions)
    {e : Position} (he : e ∈ positions) {w : Int × Int}
    (hw : findWatermark watermarks e.1 = some w) :
    Onward direction e.2 (edgeOf watermarks direction e.1) := by
  have hpos := hb e he w.1 w.2 hw (hordered _ _ _ hw)
  simp only [edgeOf, hw]
  cases direction with
  | back => exact hpos.1
  | forward => exact hpos.2

theorem readTo_map_fst {topic : Topic} {direction : Direction} {popped : List RawRecord}
    {start current : List Position}
    (h : List.Forall₂ (ReadTo topic direction popped) start current) :
    current.map Prod.fst = start.map Prod.fst := by
  induction h with
  | nil => rfl
  | cons hab _ ih => rw [List.map_cons, List.map_cons, hab.1, ih]

/-- Every position a page started from has one that it was read to. -/
theorem readTo_exists {topic : Topic} {direction : Direction} {popped : List RawRecord}
    {start current : List Position}
    (h : List.Forall₂ (ReadTo topic direction popped) start current) {e : Position}
    (he : e ∈ start) : ∃ new ∈ current, ReadTo topic direction popped e new := by
  induction h with
  | nil => cases he
  | cons hab _ ih =>
    rcases List.mem_cons.mp he with rfl | he
    · exact ⟨_, List.mem_cons_self, hab⟩
    · obtain ⟨new, hnew, hto⟩ := ih he
      exact ⟨new, List.mem_cons_of_mem _ hnew, hto⟩

/-- The records read by a page, put together partition by partition. -/
theorem popped_perm {topic : Topic} {direction : Direction} {popped : List RawRecord}
    {start current : List Position}
    (h : List.Forall₂ (ReadTo topic direction popped) start current)
    (hnodup : (start.map Prod.fst).Nodup)
    (hnamed : ∀ r ∈ popped, r.partition ∈ start.map Prod.fst) :
    popped.Perm ((start.zip current).flatMap fun x =>
      passed direction (topic.log x.1.1) x.1.2 x.2.2) := by
  have hgroups := flatMap_groups_perm RawRecord.partition _ hnodup popped hnamed
  refine hgroups.symm.trans (List.Perm.of_eq ?_)
  clear hgroups hnamed hnodup
  induction h with
  | nil => rfl
  | cons hab _ ih =>
    rw [List.map_cons, List.flatMap_cons, ih, List.zip_cons_cons, List.flatMap_cons, hab.2.2]

/-- What a page leaves is what remains from where it stopped. -/
theorem remaining_split {topic : Topic} {direction : Direction} {popped : List RawRecord}
    {start current : List Position} (edge : Int → Int)
    (h : List.Forall₂ (ReadTo topic direction popped) start current)
    (hedge : ∀ e ∈ current, Onward direction e.2 (edge e.1)) :
    (start.flatMap fun e => passed direction (topic.log e.1) e.2 (edge e.1)).Perm
      ((start.zip current).flatMap (fun x => passed direction (topic.log x.1.1) x.1.2 x.2.2) ++
        current.flatMap fun e => passed direction (topic.log e.1) e.2 (edge e.1)) := by
  induction h with
  | nil => exact List.Perm.refl []
  | @cons old new start current hab _ ih =>
    obtain ⟨hfst, honward, -⟩ := hab
    have hnew := hedge new List.mem_cons_self
    have ih := ih fun e he => hedge e (List.mem_cons_of_mem _ he)
    rw [hfst] at hnew
    simp only [List.flatMap_cons, List.zip_cons_cons]
    rw [passed_trans (topic.ascending old.1) honward hnew, hfst, List.append_assoc,
      List.append_assoc]
    apply List.Perm.append_left _
    exact (ih.append_left _).trans (List.perm_append_comm_assoc _ _ _)

/-- At any point of a page: what it took, and what remains from where it stands. -/
theorem Reading.Reads.remaining_perm {rd : Reading} {positions : List Position} {call : PageCall}
    (hcall : rd.Reads positions call) (hordered : Ordered rd.watermarks)
    (hnodup : (positions.map Prod.fst).Nodup) {s : PageState} (h : ReadInv rd.topic call s) :
    (rd.remaining positions).Perm (s.popped ++ rd.remaining s.curPositions) := by
  have hread := h.read
  have hbounds := h.bounds
  have hknown := fun e he => h.known (e := e) he
  rw [hcall.positions, hcall.watermarks, hcall.direction] at hread
  rw [hcall.watermarks] at hbounds hknown
  have hstart : ((clampPositions positions rd.watermarks).map Prod.fst).Nodup :=
    hnodup.sublist (clampPositions_fst_sublist _ _)
  have hpopped := popped_perm hread hstart (readTo_map_fst hread ▸ h.named)
  have hsplit := remaining_split (edgeOf rd.watermarks rd.direction) hread fun e he =>
    onward_edgeOf hordered hbounds he (hknown e he).choose_spec
  have hclamp := clampPositions_of_inBounds hordered hbounds hknown
  rw [Reading.remaining, Reading.remaining, hclamp]
  exact hsplit.trans (hpopped.symm.append_right _)

/-- One page of a reading: what it emitted and what it left. -/
theorem Reading.Reads.page {rd : Reading} {positions : List Position} {call : PageCall}
    (hcall : rd.Reads positions call) (hordered : Ordered rd.watermarks)
    (hnodup : (positions.map Prod.fst).Nodup) {run : PageRun} (hrun : runPage call = some run)
    {cursor : Option Cursor} {exhausted : Bool} (hend : run.ending = .pageEnd cursor exhausted) :
    PageEnded rd.topic call run cursor exhausted ∧
    (rd.remaining positions).Perm (run.popped ++ rd.remaining run.last.curPositions) ∧
      (messagesOf run.events).Perm (keptMessages rd.handle rd.filter run.popped) := by
  have hended := pageEnded hcall.documented hcall.typed (hcall.watermarks ▸ hordered)
    (hcall.positions ▸ hnodup) hrun hend
  refine ⟨hended, hcall.remaining_perm hordered hnodup hended.inv, ?_⟩
  have hemitted := hended.inv.emitted
  rw [hcall.handle, hcall.filter] at hemitted
  rw [hended.received]
  exact hemitted

/-- A page between watermarks that leave a span to the ends of the words has room. -/
theorem Reading.Reads.roomy_of_le {rd : Reading} {positions : List Position} {call : PageCall}
    (hcall : rd.Reads positions call) (hordered : Ordered rd.watermarks)
    (hnodup : (positions.map Prod.fst).Nodup)
    (hroom : ∀ w ∈ rd.watermarks,
      -2 ^ 63 + (max call.req.limit chunkSpanMax : Nat) ≤ w.2.1 ∧
        w.2.2 + (max call.req.limit chunkSpanMax : Nat) ≤ 2 ^ 63 - 1) : call.Roomy := by
  have hrunning := fun s hs =>
    (running_readInv (s := s) hcall.documented (hcall.positions ▸ hnodup) hs).bounds
  exact Timeline.roomy_of_le (hcall.watermarks ▸ hordered) hrunning (hcall.watermarks ▸ hroom)

theorem follows_perm {rd : Reading} (hordered : Ordered rd.watermarks)
    {positions : List Position} {messages : List MessageOut} (h : Follows rd positions messages)
    (hnodup : (positions.map Prod.fst).Nodup) :
    messages.Perm (keptMessages rd.handle rd.filter (rd.remaining positions)) := by
  induction h with
  | @last positions call run hcall hrun hend =>
    obtain ⟨hended, hremaining, hemitted⟩ := hcall.page hordered hnodup hrun hend
    -- every partition is at its edge, where nothing remains
    have hnone : rd.remaining run.last.curPositions = [] := by
      have hedge := hended.edge_iff.mpr hcall.roomy rfl
      have hbounds := hended.inv.bounds
      have hknown := fun e he => hended.inv.known (e := e) he
      rw [hcall.watermarks] at hedge hbounds hknown
      rw [hcall.direction] at hedge
      rw [Reading.remaining, clampPositions_of_inBounds hordered hbounds hknown,
        List.flatMap_eq_nil_iff]
      intro e he
      rw [← hedge.eq_edgeOf he (hknown e he).choose_spec, passed_self]
    rw [hnone, List.append_nil] at hremaining
    exact hemitted.trans (keptMessages_perm _ _ hremaining.symm)
  | next hcall hrun hend _ ih =>
    obtain ⟨hended, hremaining, hemitted⟩ := hcall.page hordered hnodup hrun hend
    obtain rfl : _ = Cursor.mk _ _ := Option.some.inj hended.cursor_eq
    have ih := ih hended.inv.nodup
    apply (hemitted.append ih).trans
    rw [← keptMessages_append]
    exact keptMessages_perm _ _ hremaining.symm

theorem ReadInv.popped_nodup {topic : Topic} {call : PageCall} {s : PageState}
    (h : ReadInv topic call s) : s.popped.Nodup := by
  apply List.nodup_iff_count_le_one.mpr
  intro r
  by_cases hr : r ∈ s.popped
  · have hfst := readTo_map_fst h.read
    obtain ⟨old, hold, hpart⟩ := List.mem_map.mp (hfst ▸ h.named r hr)
    obtain ⟨new, hnew⟩ : ∃ new, ReadTo topic call.req.direction s.popped old new := by
      have hread := h.read
      obtain ⟨i, hi, rfl⟩ := List.mem_iff_getElem.mp hold
      exact ⟨_, hread.get hi (hread.length_eq ▸ hi)⟩
    have hcount : s.popped.count r = (s.popped.filter (·.partition == old.1)).count r := by
      rw [List.count_filter (by simp [hpart])]
    rw [hcount, hnew.2.2]
    exact List.nodup_iff_count_le_one.mp (passed_nodup (topic.ascending _) _ _ _) r
  · rw [List.count_eq_zero_of_not_mem hr]
    exact Nat.zero_le 1

/-- Every page takes of each partition exactly what lies between its old and new
    position and emits what matches, and is exhausted at the edge only exactly when every chunk
    it planned had room; following the cursors of pages with room to an exhausted one emits
    exactly the matching records of that side of the start. -/
theorem paging_reads_each_record_once (rd : Reading) (hordered : Ordered rd.watermarks)
    (positions : List Position) (hnodup : (positions.map Prod.fst).Nodup) :
    (∀ call run cursor exhausted, rd.Reads positions call → runPage call = some run →
      run.ending = .pageEnd cursor exhausted →
        List.Forall₂ (ReadTo rd.topic rd.direction run.popped)
          (clampPositions positions rd.watermarks) run.last.curPositions ∧
        (∀ r ∈ run.popped, r.partition ∈ positions.map Prod.fst) ∧ run.popped.Nodup ∧
        (messagesOf run.events).Perm (keptMessages rd.handle rd.filter run.popped) ∧
        cursor = (if exhausted then none else some ⟨rd.direction, run.last.curPositions⟩) ∧
        ((exhausted = true → AllAtEdge rd.watermarks rd.direction run.last.curPositions) ↔
          call.Roomy)) ∧
    ∀ messages, Follows rd positions messages →
      messages.Perm (keptMessages rd.handle rd.filter (rd.remaining positions)) := by
  refine ⟨?_, fun messages h => follows_perm hordered h hnodup⟩
  intro call run cursor exhausted hcall hrun hend
  obtain ⟨hended, -, hemitted⟩ := hcall.page hordered hnodup hrun hend
  have hread := hended.inv.read
  have hcursor := hended.cursor_eq
  have hedge := hended.edge_iff
  rw [hcall.positions, hcall.watermarks, hcall.direction] at hread
  rw [hcall.direction] at hcursor
  rw [hcall.watermarks, hcall.direction] at hedge
  refine ⟨hread, ?_, hended.inv.popped_nodup, hemitted, hcursor, hedge⟩
  intro r hr
  have hr := hended.inv.named r hr
  rw [readTo_map_fst hread] at hr
  exact (clampPositions_fst_sublist _ _).subset hr

/-- Offsets 0, 1 and 3 of partition 0 and offset 0 of partition 1; offset 2 and
    the end of partition 0 are holes. -/
def smallTopic : Topic :=
  Topic.ofEntries
    (fun p => if p = 0 then [(0, some 5), (1, some 7), (3, none)]
      else if p = 1 then [(0, some 6)] else [])
    fun p => by
      split
      · decide
      · split <;> decide

def smallReading : Reading := ⟨smallTopic, .plain "small", [(0, 0, 5), (1, 0, 1)], .back, none⟩

def smallCall (positions : List Position) (limit : Nat) : PageCall where
  handle := smallReading.handle
  req := ⟨positions, smallReading.watermarks, .back, limit, none, 100⟩
  scanChunk := scanAll smallTopic
  client := .connected

theorem smallReading_ordered : Ordered smallReading.watermarks := by
  intro p lo hi h
  have hmem := findWatermark_mem h
  simp only [smallReading, List.mem_cons, Prod.mk.injEq, List.not_mem_nil, or_false] at hmem
  omega

theorem smallCall_reads {positions : List Position} {limit : Nat} (hlimit : limit < 2 ^ 64) :
    smallReading.Reads positions (smallCall positions limit) :=
  ⟨⟨(by decide : ∀ w ∈ smallReading.watermarks, _), hlimit⟩, rfl, rfl, rfl, rfl, rfl,
    scanAll_documented smallTopic⟩

theorem smallCall_serves {positions : List Position} {limit : Nat} (hlimit : limit ≤ 5000)
    (hnodup : (positions.map Prod.fst).Nodup) :
    smallReading.Serves positions (smallCall positions limit) := by
  have hreads : smallReading.Reads positions (smallCall positions limit) :=
    smallCall_reads (by omega)
  refine ⟨hreads, hreads.roomy_of_le smallReading_ordered hnodup ?_⟩
  have hspan : max limit chunkSpanMax = 5000 := max_eq_right hlimit
  simp only [smallCall, hspan]
  decide

/-- Two pages of two messages read the small topic down to its start. -/
theorem small_paging_reads_each_record_once :
    ∃ messages, Follows smallReading [(0, 5), (1, 1)] messages ∧
      messages.map (fun m => (m.partition, m.offset)) = [(1, 0), (0, 3), (0, 1), (0, 0)] ∧
      messages.Perm
        (keptMessages smallReading.handle none (smallReading.remaining [(0, 5), (1, 1)])) := by
  have hrun₁ :=
    (Option.some_get (x := runPage (smallCall [(0, 5), (1, 1)] 2)) (by decide)).symm
  have hrun₂ :=
    (Option.some_get (x := runPage (smallCall [(0, 3), (1, 0)] 2)) (by decide)).symm
  have hlast : Follows smallReading [(0, 3), (1, 0)] _ :=
    .last (smallCall_serves (by decide) (by decide)) hrun₂ (by decide)
  have hfollows : Follows smallReading [(0, 5), (1, 1)] _ :=
    @Follows.next _ _ _ _ ⟨.back, [(0, 3), (1, 0)]⟩ _ (smallCall_serves (by decide) (by decide))
      hrun₁ (by decide +kernel) hlast
  refine ⟨_, hfollows, ?_, ?_⟩
  · decide
  · exact (paging_reads_each_record_once smallReading smallReading_ordered [(0, 5), (1, 1)]
      (by decide)).2 _ hfollows

/-- One record, forty offsets before the greatest word. -/
def lastTopic : Topic :=
  Topic.ofEntries (fun p => if p = 0 then [(2 ^ 63 - 41, some 0)] else [])
    fun p => by split <;> simp

def lastReading : Reading := ⟨lastTopic, .plain "last", [(0, 0, 2 ^ 63 - 1)], .forward, none⟩

def lastCall : PageCall where
  handle := lastReading.handle
  req := ⟨[(0, 2 ^ 63 - 51)], lastReading.watermarks, .forward, 100, none, 100⟩
  scanChunk := scanAll lastTopic
  client := .connected

/-- A window of a hundred offsets would end past the words: the page plans none, and is exhausted
    with the record unread. -/
theorem last_record_reported_read :
    Ordered lastReading.watermarks ∧ lastReading.Reads [(0, 2 ^ 63 - 51)] lastCall ∧
      ∃ run, runPage lastCall = some run ∧ run.ending = .pageEnd none true ∧
        ¬ AllAtEdge lastReading.watermarks .forward run.last.curPositions ∧
        ¬ (messagesOf run.events).Perm (keptMessages lastReading.handle none
          (lastReading.remaining [(0, 2 ^ 63 - 51)])) := by
  have hordered : Ordered lastReading.watermarks := by
    intro p lo hi h
    have hmem := findWatermark_mem h
    simp only [lastReading, List.mem_singleton, Prod.mk.injEq] at hmem
    omega
  have hreads : lastReading.Reads [(0, 2 ^ 63 - 51)] lastCall :=
    ⟨⟨by decide, by decide⟩, rfl, rfl, rfl, rfl, rfl, scanAll_documented lastTopic⟩
  have hrun := (Option.some_get (x := runPage lastCall) (by decide +kernel)).symm
  refine ⟨hordered, hreads, _, hrun, by decide +kernel, ?_, ?_⟩
  · intro hedge
    exact absurd (hedge (0, 2 ^ 63 - 51) (by decide +kernel) 0 (2 ^ 63 - 1) rfl) (by decide)
  · intro hperm
    exact absurd hperm.length_eq (by decide +kernel)

end Arne.Timeline
