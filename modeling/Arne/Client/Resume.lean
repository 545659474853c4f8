import Arne.Client.Tail

/-!
# What a resumed tail shows

In every run of the timeline over a growing topic.  The live buffer is bounded: a pause
that outlasts it leaves a hole the edges do not show.
-/

namespace Arne.Client

open Arne.Message Arne.Timeline Arne.SortedLog

namespace Tailing

variable {env : TextEnv} {start debt : Int → Int} {ω ω' : Tailing} {event : TimelineEvent}

/-! ### Every run -/

theorem Opens.sound {windowCap : Nat} (h : ω.Opens env windowCap) :
    Sound ω.tailed (fun p => min (ω.tailed p) (ω.topic.high p)) ω := by
  have howed : ∀ items, OwedFrom ω.topic ω.view (fun p => min (ω.tailed p) (ω.topic.high p))
      (owedTo ω.tailed ω.tailed items) := by
    intro items p o _ _
    rcases lt_or_ge o (ω.tailed p) with hlt | hge
    · exact Or.inl hlt
    · exact Or.inr (Or.inr hge)
  obtain ⟨topic, view, tailed, answer, refs⟩ := ω
  obtain ⟨rfl, rfl, hfilter⟩ := h
  apply Sound.ask
  · intro hattached
    cases hattached
  · intro m
    have hkeeps : keeps view.handle view.filter m = true := by
      rw [show view.filter = none from hfilter]
      rfl
    rw [hkeeps]
    rfl
  · exact ⟨fun p => le_refl _, fun p => Or.inr rfl, fun p => min_le_left _ _,
      fun m hm => (by cases hm)⟩
  · rfl
  · intro generation page hpage
    cases hpage
  · exact cleared_sliding (howed _) windowCap
  · exact ⟨⟨windowCap, rfl⟩, howed _, fun p => min_le_right _ _⟩

theorem Opens.run {windowCap : Nat} {ω₀ : Tailing} (hopens : ω₀.Opens env windowCap)
    (hrun : Run env Roomy ω₀ ω) : ∃ debt, ω.Sound ω₀.tailed debt := by
  induction hrun with
  | refl => exact ⟨_, hopens.sound⟩
  | tail _ hstep ih =>
    obtain ⟨event, hroomy, hstep⟩ := hstep
    obtain ⟨debt, hsound⟩ := ih
    exact hsound.step hroomy hstep

/-- Between the edges a matching record is held or buffered, if the tail handed it over. -/
theorem Sound.held_or_buffered (h : ω.Sound start debt) {p b t : Int}
    (hb : ω.refs.store.bottomMap.get? p = some b) (ht : ω.refs.store.topMap.get? p = some t)
    {m : MessageOut} (hm : m ∈ ω.topic.matching ω.view p) (hstart : start p ≤ m.offset)
    (hhanded : m.offset < ω.tailed p) (hbm : b ≤ m.offset) (hmt : m.offset < t) :
    m ∈ ω.refs.store.rowsOf p ∨ m ∈ ω.refs.liveBuffer.items := by
  obtain ⟨-, hall⟩ := (h.whole.sliding.sound p).exact hb ht
  rcases hall m.offset (offset_real hm) hbm hmt with hheld | hbefore | ⟨x, hx, hp, hoff⟩ | hahead
  · exact Or.inl ((h.whole.sliding.mem_rowsOf_iff hm).mpr hheld)
  · exact absurd hstart (not_le.mpr hbefore)
  · have hmatch := (h.handed.buffered x hx).1
    rw [hp] at hmatch
    obtain rfl := LiveTopic.matching_eq hmatch hm hoff
    exact Or.inr hx
  · exact absurd hhanded (not_lt.mpr hahead)

/-! ### Flushes -/

theorem settled_flushes {tl tl' : TimelineRefs} (hmoves : TimelineRefs.Settled tl tl') :
    tl'.flushes = tl.flushes ∨ tl'.liveBuffer.items = [] := by
  induction hmoves with
  | refl => exact Or.inl rfl
  | tail _ hmove ih =>
    cases hmove with
    | flush hattached hlive =>
      right
      rw [(noteHeld_follows _ _).2.1]
      rfl
    | drained hattached hnone => exact Or.inr rfl
    | attach hstore => exact ih
    | quiet hquiet =>
      rw [hquiet.flushes, hquiet.liveBuffer]
      exact ih
    | run hrows hedge resetIteration => exact ih

theorem enters_flushes {tl tl' : TimelineRefs} (henters : TimelineRefs.Enters env tl event tl') :
    tl'.flushes = tl.flushes := by
  cases henters with
  | ignored hpred => rfl
  | live hpred hattached hlive => exact (noteHeld_follows _ _).2.2.1
  | buffered hpred hpaused => rfl
  | matched hflight msgs =>
    rw [TimelineRefs.onMatches_of_flight hflight]
  | landed hflight hland hfresh exhausted flags => exact (noteHeld_follows _ _).2.2.1
  | rejected hflight hstale cursor exhausted flags => rfl
  | failed hflight => rfl
  | dropped hdiscards => rfl
  | cancelled => rfl
  | toggled key keys hkeys => rfl
  | asked hdiscards hquiet hedge resetIteration => exact hquiet.flushes
  | quiet hplain hquiet => exact hquiet.flushes
  | restarted hplain hquiet hfirst => exact hquiet.flushes
  | refiltered text hfirst => rfl

/-- A handler that flushed leaves the buffer empty. -/
theorem handle_flushes {tl tl' : TimelineRefs} (h : tl.Agreed) (hok : tl.handle env event = .ok tl')
    (hflush : tl'.flushes ≠ tl.flushes) : tl'.liveBuffer.items = [] := by
  obtain ⟨tl₁, henters, hsettled⟩ := TimelineRefs.handle_settled h hok
  rcases settled_flushes hsettled with hsame | hempty
  · exact absurd (hsame.trans (enters_flushes henters)) hflush
  · exact hempty

theorem Sound.flushed (h : ω.Sound start debt) {event : Option TimelineEvent}
    (hstep : Step env event ω ω') (hflush : ω'.refs.flushes ≠ ω.refs.flushes) :
    ω'.refs.liveBuffer.items = [] := by
  cases hstep with
  | grow => exact absurd rfl hflush
  | answer => exact absurd rfl hflush
  | tail hnext hok => exact handle_flushes h.agreed hok hflush
  | batch hanswer hrows hok => exact handle_flushes h.agreed hok hflush
  | pageEnd hanswer hrows hok => exact handle_flushes h.agreed hok hflush
  | refilter hhandle hdecides hok => exact handle_flushes h.agreed hok hflush
  | unfed hunfed hok => exact handle_flushes h.agreed hok hflush

/-- As long as the buffer never overflows: between the edges of a partition every matching
    record the tail handed over is held or buffered, and held after every flush. -/
theorem flushed_window_whole {windowCap : Nat} {ω₀ : Tailing} (hopens : ω₀.Opens env windowCap)
    (hrun : Run env Roomy ω₀ ω) {event : Option TimelineEvent} (hroomy : ω.Roomy event)
    (hstep : Step env event ω ω') {p b t : Int} (hb : ω'.refs.store.bottomMap.get? p = some b)
    (ht : ω'.refs.store.topMap.get? p = some t) {m : MessageOut}
    (hm : m ∈ ω'.topic.matching ω'.view p) (hstart : ω₀.tailed p ≤ m.offset)
    (hhanded : m.offset < ω'.tailed p) (hbm : b ≤ m.offset) (hmt : m.offset < t) :
    (m ∈ ω'.refs.store.rowsOf p ∨ m ∈ ω'.refs.liveBuffer.items) ∧
      (ω'.refs.flushes ≠ ω.refs.flushes → m ∈ ω'.refs.store.rowsOf p) := by
  obtain ⟨debt, hsound⟩ := hopens.run hrun
  obtain ⟨debt', hsound'⟩ := hsound.step hroomy hstep
  have hheld := hsound'.held_or_buffered hb ht hm hstart hhanded hbm hmt
  refine ⟨hheld, ?_⟩
  intro hflush
  rw [hsound.flushed hstep hflush] at hheld
  rcases hheld with hrow | hnone
  · exact hrow
  · cases hnone

/-! ### A buffer that overflows -/

/-- Resuming an attached window puts the buffer into the store. -/
theorem resume_inserts {tl : TimelineRefs} (hattached : tl.attachedRef = true)
    (hpaused : tl.pauseReasonRef = .explicit) (hkeys : tl.expandedKeysRef = [])
    (hitems : tl.liveBuffer.items ≠ []) {store : Store} {outcome : InsertOutcome}
    (hlive : tl.store.insertLive tl.liveBuffer.items = .ok (store, outcome)) :
    ∃ refs, tl.handle env .playPauseToggle = .ok refs ∧ refs.store = store ∧
      refs.flushes = tl.flushes + 1 := by
  have hdecision : nextPause tl.pauseInput .toggleClick = ⟨.none, true, false, false⟩ := by
    unfold nextPause TimelineRefs.pauseInput
    rw [hattached, hpaused]
    rfl
  have hdrained : ¬ tl.drain.2.isEmpty = true := by
    rw [List.isEmpty_iff]
    exact hitems
  have hflush : tl.flushBuffer =
      .ok (TimelineRefs.noteTrims { tl.drain.1 with store := store } outcome) := by
    unfold TimelineRefs.flushBuffer TimelineRefs.flushWith
    dsimp only
    rw [if_neg hdrained,
      show tl.drain.1.store.insertLive tl.drain.2 = .ok (store, outcome) from hlive]
    exact TimelineRefs.noteOutcome_of_no_keys { tl.drain.1 with store := store } hkeys outcome
  show ∃ refs, tl.handlePlayPauseToggle = .ok refs ∧ _
  unfold TimelineRefs.handlePlayPauseToggle TimelineRefs.actOn
  dsimp only
  rw [hdecision, if_neg Bool.false_ne_true, if_pos rfl, hflush]
  exact ⟨_, rfl, rfl, rfl⟩

/-- The topic has one record when the timeline is mounted. -/
def shortMounted : Tailing :=
  ⟨shortTopic 1 0, plainView, (shortTopic 1 0).high, none, .mount shortEnv 2000⟩

def shortFirst : Page :=
  ⟨.latest, [(0, 1), (1, 0)], (shortTopic 1 0).high, [shortMessage 0 0], none⟩

def shortHeld : Store := ((createSlidingWindowStore 2000).land .latest [shortMessage 0 0] none).1

/-- Its page landed, and the reader paused. -/
def shortPaused : TimelineRefs :=
  { (TimelineRefs.mount shortEnv 2000).onMatches [shortMessage 0 0] with
    flight := none
    exhausted := fun d => if d = .back then true else
      ((TimelineRefs.mount shortEnv 2000).onMatches [shortMessage 0 0]).exhausted d
    pageRowsRef := []
    store := shortHeld
    attachedRef := true
    pauseReasonRef := .explicit
    flushes := 1 }

/-- The records after the first. -/
def shortLater (n : Nat) : List MessageOut :=
  (List.range n).map fun i : Nat => shortMessage 0 (i + 1)

/-- While paused, `n` further records came in. -/
def shortTailed (n : Nat) : Tailing :=
  ⟨shortTopic 502 0, plainView, Function.update (shortTopic 1 0).high 0 (n + 1),
    some (1, shortFirst),
    { shortPaused with
      liveBuffer := (shortLater n).foldl LiveBuffer.push (createLiveBuffer BUFFER_CAP) }⟩

theorem shortMounted_opens : shortMounted.Opens shortEnv 2000 := ⟨rfl, rfl, rfl⟩

theorem shortPaused_run (allowed : Tailing → Option TimelineEvent → Prop)
    (hallowed : ∀ ω event, (∀ m, event ≠ some (.message m)) → allowed ω event) :
    Run shortEnv allowed shortMounted (shortTailed 0) := by
  have hanswer :
      (shortTopic 1 0).Answers plainView .back [(0, 1), (1, 0)] [shortMessage 0 0] none :=
    @LiveTopic.page_answers _ _ _ _ 100 _ none true (by decide) (by decide)
      (by decide)
  have hserved :
      Step shortEnv none shortMounted { shortMounted with answer := some (1, shortFirst) } :=
    @Step.answer _ shortMounted .latest _ _ _ rfl (fun page hpage => (by cases hpage)) rfl hanswer
  have hstreamed : Step shortEnv (some (.pageMatches [shortMessage 0 0]))
      { shortMounted with answer := some (1, shortFirst) }
      { shortMounted with
        answer := some (1, shortFirst)
        refs := (TimelineRefs.mount shortEnv 2000).onMatches [shortMessage 0 0] } :=
    .batch rfl (List.prefix_refl _) rfl
  have hlanded : Step shortEnv (some (.pageEnd none true))
      { shortMounted with
        answer := some (1, shortFirst)
        refs := (TimelineRefs.mount shortEnv 2000).onMatches [shortMessage 0 0] }
      { shortMounted with
        answer := some (1, shortFirst)
        refs := { shortPaused with pauseReasonRef := .none } } :=
    @Step.pageEnd _ { shortMounted with
      answer := some (1, shortFirst)
      refs := (TimelineRefs.mount shortEnv 2000).onMatches [shortMessage 0 0] } shortFirst _
      rfl rfl rfl
  have hpaused : Step shortEnv (some .playPauseToggle)
      { shortMounted with
        answer := some (1, shortFirst)
        refs := { shortPaused with pauseReasonRef := .none } }
      { shortMounted with
        answer := some (1, shortFirst)
        refs := shortPaused } := .unfed trivial rfl
  have hgrown : Step shortEnv none
      { shortMounted with
        answer := some (1, shortFirst)
        refs := shortPaused }
      { shortMounted with
        topic := shortTopic 502 0
        answer := some (1, shortFirst)
        refs := shortPaused } := .grow (shortTopic_grows (by decide) (by decide))
  have hstart : shortTailed 0 = { shortMounted with
      topic := shortTopic 502 0
      answer := some (1, shortFirst)
      refs := shortPaused } := by
    have hsame : Function.update (shortTopic 1 0).high 0 (((0 : Nat) : Int) + 1) =
        (shortTopic 1 0).high := Function.update_eq_self 0 _
    unfold shortTailed
    rw [hsame]
    rfl
  rw [hstart]
  refine .tail (.tail (.tail (.tail (.single ⟨none, ?_, hserved⟩) ⟨_, ?_, hstreamed⟩)
    ⟨_, ?_, hlanded⟩) ⟨_, ?_, hpaused⟩) ⟨none, ?_, hgrown⟩
  all_goals
    apply hallowed
    intro m hm
    cases hm

/-- The tail hands over the next record, and it is buffered. -/
theorem shortTailed_step {n : Nat} (hn : n < 501) :
    Step shortEnv (some (.message (shortMessage 0 (n + 1)))) (shortTailed n)
      (shortTailed (n + 1)) := by
  have hpast : (shortTailed n).past (shortMessage 0 (n + 1)) = (shortTailed (n + 1)).tailed := by
    show Function.update (Function.update (shortTopic 1 0).high 0 ((n : Int) + 1)) 0
      ((n : Int) + 1 + 1) = Function.update (shortTopic 1 0).high 0 (((n + 1 : Nat) : Int) + 1)
    rw [Function.update_idem]
    norm_num
  have hnext : (shortTailed n).Next (shortMessage 0 (n + 1)) := by
    have htailed : (shortTailed n).tailed 0 = (n : Int) + 1 := by
      show Function.update (shortTopic 1 0).high 0 ((n : Int) + 1) 0 = (n : Int) + 1
      rw [Function.update_self]
    have hlast : n + 1 < (502 : UInt16).toNat := by
      show n + 1 < 502
      omega
    have hrecord := shortMessage_matching hlast 0
    rw [Nat.cast_succ] at hrecord
    refine ⟨hrecord, le_of_eq htailed, ?_⟩
    intro m' _ hle
    exact htailed ▸ hle
  have hpushed : (shortLater (n + 1)).foldl LiveBuffer.push (createLiveBuffer BUFFER_CAP) =
      ((shortLater n).foldl LiveBuffer.push (createLiveBuffer BUFFER_CAP)).push
        (shortMessage 0 (n + 1)) := by
    unfold shortLater
    rw [List.range_succ, List.map_append, List.foldl_append]
    rfl
  have hstep : Step shortEnv (some (.message (shortMessage 0 (n + 1)))) (shortTailed n)
      { shortTailed n with
        tailed := (shortTailed n).past (shortMessage 0 (n + 1))
        refs := { (shortTailed n).refs with
          liveBuffer := (shortTailed n).refs.liveBuffer.push (shortMessage 0 (n + 1)) } } :=
    .tail hnext rfl
  rw [hpast] at hstep
  have hstate : shortTailed (n + 1) = { shortTailed n with
      tailed := (shortTailed (n + 1)).tailed
      refs := { (shortTailed n).refs with
        liveBuffer := (shortTailed n).refs.liveBuffer.push (shortMessage 0 (n + 1)) } } := by
    unfold shortTailed
    rw [hpushed]
  rw [hstate]
  exact hstep

theorem shortTailed_items (n : Nat) :
    (shortTailed n).refs.liveBuffer.items = (shortLater n).drop (n - 500) ∧
      (shortTailed n).refs.liveBuffer.cap = 500 := by
  obtain ⟨hitems, hcap⟩ := LiveBuffer.pushAll_items BUFFER_CAP (shortLater n)
  refine ⟨hitems.trans ?_, hcap⟩
  rw [shortLater, List.length_map, List.length_range]
  rfl

theorem shortTailed_run {allowed : Tailing → Option TimelineEvent → Prop}
    (hallowed : ∀ ω event, (∀ m, event ≠ some (.message m)) → allowed ω event) {n : Nat}
    (hn : n ≤ 501)
    (hmessages : ∀ k < n, allowed (shortTailed k) (some (.message (shortMessage 0 (k + 1))))) :
    Run shortEnv allowed shortMounted (shortTailed n) := by
  induction n with
  | zero => exact shortPaused_run allowed hallowed
  | succ n ih =>
    have hbefore := ih (by omega) fun k hk => hmessages k (by omega)
    exact hbefore.tail ⟨_, hmessages n (by omega), shortTailed_step (by omega)⟩

/-- The last record that came in is buffered. -/
theorem shortTailed_last {n : Nat} (hpos : 0 < n) :
    shortMessage 0 n ∈ (shortTailed n).refs.liveBuffer.items := by
  rw [(shortTailed_items n).1]
  obtain ⟨n, rfl⟩ := Nat.exists_eq_add_of_lt hpos
  rw [Nat.zero_add]
  have hlater : shortLater (n + 1) = shortLater n ++ [shortMessage 0 (n + 1)] := by
    unfold shortLater
    rw [List.range_succ, List.map_append]
    rfl
  have hle : n + 1 - 500 ≤ (shortLater n).length := by
    rw [shortLater, List.length_map, List.length_range]
    omega
  rw [hlater, List.drop_append_of_le_length hle, Nat.cast_succ]
  exact List.mem_append_right _ (List.mem_singleton_self _)

/-- Resuming puts the buffered records, and no others, above the first. -/
theorem shortResumed {n : Nat} (hpos : 0 < n) (hn : n ≤ 501) :
    ∃ refs t, (shortTailed n).refs.handle shortEnv .playPauseToggle = .ok refs ∧ refs.flushes = 2 ∧
      refs.store.bottomMap.get? 0 = some 0 ∧ refs.store.topMap.get? 0 = some t ∧ 1 < t ∧
        ∀ m ∈ refs.store.rowsOf 0,
          m = shortMessage 0 0 ∨ m ∈ (shortTailed n).refs.liveBuffer.items := by
  have hintact : shortHeld.Intact :=
    (createSlidingWindowStore_intact 2000).insertPage _ _ _ _ _
  have hlast := shortTailed_last hpos
  have hlength : (shortTailed n).refs.liveBuffer.items.length ≤ 500 := by
    rw [(shortTailed_items n).1, List.length_drop, shortLater, List.length_map, List.length_range]
    omega
  generalize hitems : (shortTailed n).refs.liveBuffer.items = items at hlast hlength ⊢
  obtain ⟨store, outcome, hlive⟩ :=
    Store.insertLive_total (show shortHeld.attached = true from rfl) items
  have hsome : (shortTailed n).refs.liveBuffer.items ≠ [] := hitems ▸ List.ne_nil_of_mem hlast
  have hresume : (shortTailed n).refs.store.insertLive (shortTailed n).refs.liveBuffer.items =
      .ok (store, outcome) := hitems ▸ hlive
  obtain ⟨refs, hok, hstore, hflushes⟩ := resume_inserts rfl rfl rfl hsome hresume
  -- the window has room for all of them
  have hmerged : store = shortHeld.mergeLive items := by
    have hi := Store.mergeLive_inserted shortHeld items
    have htotal := hi.totalCount_eq hintact
    have hnew : (shortHeld.newKeys (shortHeld.safeRows items)).length ≤ items.length := by
      unfold Store.newKeys Store.safeRows
      refine (List.dedup_sublist _).length_le.trans ((List.length_filter_le _ _).trans ?_)
      rw [List.length_map]
      exact List.length_filter_le _ _
    have hone : shortHeld.totalCount = 1 := rfl
    have hcap : (shortHeld.mergeLive items).cap = 2000 := rfl
    have hkept := (Store.insertLive_ok hlive).2
    rw [Store.enforceCap_of_room (by omega)] at hkept
    exact (congrArg Prod.fst hkept).symm
  obtain ⟨least, greatest, hm⟩ := Store.mergeLive_spec hintact.filed items
  rw [← hmerged] at hm
  have hheld : ∀ m ∈ shortHeld.rowsOf 0, m = shortMessage 0 0 := fun m hmem =>
    List.mem_singleton.mp hmem
  have hsafe : shortMessage 0 n ∈ shortHeld.safeRows items := by
    refine List.mem_filter.mpr ⟨hlast, ?_⟩
    show decide ((0 : Int) ≤ n) = true
    exact decide_eq_true (Int.natCast_nonneg n)
  have hnew : (n : Int) ∈ newAt shortHeld.partitions store.partitions 0 := by
    constructor
    · obtain ⟨m', hm', hoff⟩ := hm.has _ hsafe
      exact ⟨m', hm', hoff⟩
    · rintro ⟨m', hm', hoff⟩
      have hzero : m'.offset = 0 := by
        rw [hheld m' hm']
        rfl
      omega
  have hgreatest := hm.greatest_new 0
  have htop := hm.top 0
  cases hg : greatest 0 with
  | none =>
    rw [hg] at hgreatest
    exact absurd hnew (hgreatest _)
  | some g =>
    rw [hg] at hgreatest htop
    have hle : (n : Int) ≤ g := hgreatest.2 hnew
    refine ⟨refs, max 1 (g + 1), hok, hflushes, ?_, ?_, ?_, ?_⟩
    · rw [hstore, hm.bottomMap]
      rfl
    · rw [hstore, htop]
      rfl
    · exact lt_of_lt_of_le (by omega) (le_max_right 1 (g + 1))
    · intro m hmem
      rw [hstore] at hmem
      rcases hm.added 0 m hmem with hold | hadded
      · exact Or.inl (hheld m hold)
      · exact Or.inr (List.mem_of_mem_filter hadded)

/-- One record is buffered during the pause; it is held once the tail resumes. -/
theorem short_flushed_window_whole : ∃ refs : TimelineRefs,
    (shortTailed 1).refs.handle shortEnv .playPauseToggle = .ok refs ∧
      shortMessage 0 1 ∈ refs.store.rowsOf 0 := by
  obtain ⟨refs, t, hok, hflushes, hb, ht, hlt, -⟩ := shortResumed (by decide : 0 < 1) (by decide)
  have hrun : Run shortEnv Roomy shortMounted (shortTailed 1) := by
    apply shortTailed_run
    · intro ω event hother m hm
      exact absurd hm (hother m)
    · decide
    · intro k hk m _ _ _
      obtain rfl : k = 0 := by omega
      exact (by decide : (0 : Nat) < 500)
  have hstep : Step shortEnv (some .playPauseToggle) (shortTailed 1)
      { shortTailed 1 with refs := refs } := .unfed trivial hok
  have hroomy : (shortTailed 1).Roomy (some .playPauseToggle) := fun m hm => (by cases hm)
  have hhanded : (shortMessage 0 1).offset < (shortTailed 1).tailed 0 := by decide
  have hwhole := flushed_window_whole shortMounted_opens hrun hroomy hstep hb ht
    (shortMessage_matching (by decide : 1 < 502) 0) (by decide) hhanded (by decide) hlt
  refine ⟨refs, hok, hwhole.2 ?_⟩
  show refs.flushes ≠ 1
  rw [hflushes]
  decide

/-- The pause outlasts the buffer: of 501 records the first is shifted out, and after the
    flush it is missing between the edges. -/
theorem pause_leaves_hole : ¬ ∀ (env : TextEnv) (windowCap : Nat) (ω₀ ω ω' : Tailing)
    (event : Option TimelineEvent), ω₀.Opens env windowCap → Run env (fun _ _ => True) ω₀ ω →
      Step env event ω ω' → ω'.refs.flushes ≠ ω.refs.flushes →
        ∀ p b t, ω'.refs.store.bottomMap.get? p = some b → ω'.refs.store.topMap.get? p = some t →
          ∀ m ∈ ω'.topic.matching ω'.view p, ω₀.tailed p ≤ m.offset → m.offset < ω'.tailed p →
            b ≤ m.offset → m.offset < t → m ∈ ω'.refs.store.rowsOf p := by
  intro hclaim
  obtain ⟨refs, t, hok, hflushes, hb, ht, hlt, hrows⟩ :=
    shortResumed (by decide : 0 < 501) (by decide)
  have hrun : Run shortEnv (fun _ _ => True) shortMounted (shortTailed 501) :=
    shortTailed_run (fun _ _ _ => trivial) (by decide) fun _ _ => trivial
  have hstep : Step shortEnv (some .playPauseToggle) (shortTailed 501)
      { shortTailed 501 with refs := refs } := .unfed trivial hok
  have hflush : refs.flushes ≠ 1 := by
    rw [hflushes]
    decide
  have hhanded : (shortMessage 0 1).offset < (shortTailed 501).tailed 0 := by decide
  have hheld := hclaim shortEnv 2000 _ _ _ _ shortMounted_opens hrun hstep hflush 0 0 t hb ht
    (shortMessage 0 1) (shortMessage_matching (by decide : 1 < 502) 0) (by decide) hhanded
    (by decide) hlt
  rcases hrows _ hheld with hfirst | hbuffered
  · cases hfirst
  · rw [(shortTailed_items 501).1] at hbuffered
    have hlater : (shortLater 501).drop (501 - 500) =
        ((List.range 500).map Nat.succ).map fun i : Nat => shortMessage 0 (i + 1) := by
      unfold shortLater
      rw [List.range_succ_eq_map, List.map_cons]
      rfl
    rw [hlater] at hbuffered
    obtain ⟨i, hi, heq⟩ := List.mem_map.mp hbuffered
    obtain ⟨j, -, rfl⟩ := List.mem_map.mp hi
    have hoff : ((j.succ : Nat) : Int) + 1 = 1 := congrArg MessageOut.offset heq
    omega

end Tailing

end Arne.Client
