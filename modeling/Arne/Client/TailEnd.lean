import Arne.Client.TailPipeline

/-!
# How a live tail ends

The poll task stops by itself only with an error, and that error reaches a page that is
still there.  Once the page has gone or the poll task has ended, the tasks come to rest
within a bound, whatever the order of their steps.
-/

namespace Arne.Client.Tail

open Arne.Message

variable {cluster : String} {stallTimeout start : Nat} {t t' : Tail}

/-! ### Work that is left -/

/-- Steps that are taken without anybody's asking. -/
def works : TailAct → Bool
  | .create _ | .check | .polls _ | .time | .judge | .blockingSend => true
  | .receive | .decode _ | .forward | .leave | .join | .report => true
  | .pull | .deliver => true
  | .panics | .unwinds => false
  | .hangUp | .dropGuard | .breaks | .finishes | .unmount | .tick _ => false

/-- A record that is sent costs less than the poll task has left for it. -/
def pollWork : PollPhase → Nat
  | .creating => 10
  | .polling _ => 9
  | .sending _ => 8
  | .timing _ _ => 3
  | .judging _ _ _ => 2
  | .checking _ => 1
  | .ended _ => 0

def taskWork : TaskPhase → Nat
  | .decoding _ => 12
  | .forwarding _ _ => 11
  | .receiving => 7
  | .leaving => 6
  | .joining => 5
  | .reporting _ => 4
  | .ended => 0
  | .unwound => 0

def work (t : Tail) : Nat :=
  pollWork t.poll + 6 * t.raw.buffer.length + taskWork t.task + 2 * t.tx.buffer.length +
    t.wire.length + (!t.complete).toNat

/-- The poll task has ended, or will at its next look at the flag. -/
def Over (t : Tail) : Prop := t.cancelled = true ∨ ∃ how, t.poll = .ended how

theorem work_le (t : Tail) : t.work ≤ 8 * TAIL_CHANNEL + 23 + t.wire.length := by
  have hpoll : pollWork t.poll ≤ 10 := by
    cases t.poll <;> simp [pollWork]
  have htask : taskWork t.task ≤ 12 := by
    cases t.task <;> simp [taskWork]
  have hcomplete : (!t.complete).toNat ≤ 1 := by
    cases t.complete <;> simp
  have hraw := t.raw.within
  have htx := t.tx.within
  unfold work
  omega

theorem sent_length {α : Type} {capacity : Nat} {ch ch' : Channel α capacity} {a : α}
    (h : ch.Sent a ch') : ch'.buffer.length = ch.buffer.length + 1 := by
  rw [h.buffer, List.length_append, List.length_singleton]

theorem taken_length {α : Type} {capacity : Nat} {ch ch' : Channel α capacity} {a : α}
    (h : ch.Taken a ch') : ch.buffer.length = ch'.buffer.length + 1 := by
  rw [h.front, List.length_cons]

/-- What a step does to the work that is left. -/
structure Spent (a : TailAct) (t t' : Tail) : Prop where
  stays : t.Over → t'.Over
  le : t'.work ≤ t.work
  lt : works a = true → t'.work < t.work

theorem Spent.of_lt {a : TailAct} (hover : t.Over → t'.Over) (h : t'.work < t.work) :
    Spent a t t' :=
  ⟨hover, h.le, fun _ => h⟩

theorem spent_poll {a : TailAct} {poll : PollPhase} {raw : Channel RawRecord TAIL_CHANNEL}
    {turns : List Turn} (hlive : ∀ how, t.poll ≠ .ended how)
    (h : pollWork poll + 6 * raw.buffer.length < pollWork t.poll + 6 * t.raw.buffer.length) :
    Spent a t { t with poll := poll, raw := raw, turns := turns } := by
  apply Spent.of_lt
  · intro hover
    exact .inl (hover.resolve_right fun ⟨how, hended⟩ => hlive how hended)
  · unfold work
    dsimp only
    omega

theorem spent_task {a : TailAct} {task : TaskPhase} {raw : Channel RawRecord TAIL_CHANNEL}
    {tx : Channel TailEvent TAIL_CHANNEL} {cancelled : Bool}
    (hset : t.cancelled = true → cancelled = true)
    (h : 6 * raw.buffer.length + taskWork task + 2 * tx.buffer.length <
      6 * t.raw.buffer.length + taskWork t.task + 2 * t.tx.buffer.length) :
    Spent a t { t with task := task, raw := raw, tx := tx, cancelled := cancelled } := by
  apply Spent.of_lt
  · exact fun hover => hover.imp_left hset
  · unfold work
    dsimp only
    omega

/-! ### Every step works something off -/

section Steps

variable {a : TailAct}

theorem spent_create {failure : Option SetupFailure} (h : t.create failure = some t') :
    Spent a t t' := by
  unfold create at h
  split at h
  · rename_i hpoll
    split at h
    · cases h
      exact spent_poll (by simp [hpoll]) (by simp [pollWork, hpoll])
    · cases h
      exact spent_poll (by simp [hpoll]) (by simp [pollWork, hpoll])
  · cases h

theorem spent_check (hover : t.Over) (h : t.check = some t') : Spent a t t' := by
  unfold check at h
  split at h
  · rename_i since hpoll
    split at h
    · cases h
      exact spent_poll (by simp [hpoll]) (by simp [pollWork, hpoll])
    · rename_i hcancelled
      rcases hover with hset | ⟨how, hended⟩
      · exact absurd hset hcancelled
      · rw [hpoll] at hended
        cases hended
  · cases h

theorem spent_polls {outcome : PollOutcome} (h : t.polls outcome = some t') : Spent a t t' := by
  unfold polls at h
  split at h
  · rename_i since hpoll
    split at h
    · cases h
      exact spent_poll (by simp [hpoll]) (by simp [pollWork, hpoll])
    · cases h
      exact spent_poll (by simp [hpoll]) (by simp [pollWork, hpoll])
    · cases h
      exact spent_poll (by simp [hpoll]) (by simp [pollWork, hpoll])
  · cases h

theorem spent_time (h : t.time = some t') : Spent a t t' := by
  unfold time at h
  split at h
  · rename_i since e hpoll
    cases h
    exact spent_poll (by simp [hpoll]) (by simp [pollWork, hpoll])
  · cases h

theorem spent_judge (h : t.judge stallTimeout = some t') : Spent a t t' := by
  unfold judge at h
  split at h
  · rename_i seen since e hpoll
    split at h
    · cases h
      exact spent_poll (by simp [hpoll]) (by simp [pollWork, hpoll])
    · cases h
      exact spent_poll (by simp [hpoll]) (by simp [pollWork, hpoll])
  · cases h

theorem spent_blockingSend (h : t.blockingSend = some t') : Spent a t t' := by
  unfold blockingSend at h
  split at h
  · rename_i record hpoll
    split at h
    · cases h
    · rename_i raw hsend
      cases h
      rcases Channel.send_cases hsend with ⟨-, hsent⟩ | ⟨hfalse, -⟩
      · have hlength := sent_length hsent
        refine spent_poll (by simp [hpoll]) ?_
        simp only [pollWork, hpoll]
        omega
      · cases hfalse
    · rename_i raw hsend
      cases h
      exact spent_poll (by simp [hpoll]) (by simp [pollWork, hpoll])
  · cases h

theorem spent_panics (h : t.panics = some t') : Spent a t t' := by
  unfold panics at h
  split at h
  · cases h
  · rename_i hlive
    cases h
    refine spent_poll hlive ?_
    cases hpoll : t.poll with
    | ended how => exact absurd hpoll (hlive how)
    | creating => simp [pollWork]
    | checking since => simp [pollWork]
    | polling since => simp [pollWork]
    | timing since e => simp [pollWork]
    | judging seen since e => simp [pollWork]
    | sending record => simp [pollWork]

theorem spent_receive (h : t.receive = some t') : Spent a t t' := by
  unfold receive at h
  split at h
  · rename_i hphase
    split at h
    · cases h
    · rename_i record raw hrecv
      cases h
      rcases Channel.recv_cases hrecv with ⟨x, -, htaken⟩ | ⟨hnone, -⟩
      · have hlength := taken_length htaken
        refine spent_task id ?_
        simp only [taskWork, hphase]
        omega
      · cases hnone
    · rename_i raw hrecv
      cases h
      rcases Channel.recv_cases hrecv with ⟨x, hx, -⟩ | ⟨-, -, -, rfl⟩
      · cases hx
      · exact spent_task id (by simp [taskWork, hphase])
  · cases h

theorem spent_decode {d : Decoder} (h : t.decode d = some t') : Spent a t t' := by
  unfold decode at h
  split at h
  · rename_i record hphase
    cases h
    exact spent_task id (by simp [taskWork, hphase])
  · cases h

theorem spent_unwinds (h : t.unwinds = some t') : Spent a t t' := by
  unfold unwinds at h
  split at h
  · rename_i record hphase
    cases h
    refine spent_task id ?_
    simp only [taskWork, hphase, Channel.dropReceiver_buffer, Channel.dropSender_buffer,
      List.length_nil]
    omega
  · cases h

theorem spent_forward (h : t.forward = some t') : Spent a t t' := by
  unfold forward at h
  split at h
  · rename_i record msg hphase
    split at h
    · cases h
    · rename_i tx hsend
      cases h
      rcases Channel.send_cases hsend with ⟨-, hsent⟩ | ⟨hfalse, -⟩
      · have hlength := sent_length hsent
        refine spent_task id ?_
        simp only [taskWork, hphase]
        omega
      · cases hfalse
    · rename_i tx hsend
      cases h
      exact spent_task (fun _ => rfl) (by simp [taskWork, hphase])
  · cases h

theorem spent_leave (h : t.leave = some t') : Spent a t t' := by
  unfold leave at h
  split at h
  · rename_i hphase
    cases h
    refine spent_task id ?_
    simp only [taskWork, hphase, Channel.dropReceiver_buffer, List.length_nil]
    omega
  · cases h

theorem spent_join (h : t.join cluster = some t') : Spent a t t' := by
  unfold join at h
  split at h
  · rename_i hphase
    split at h
    · split at h
      · cases h
        exact spent_task id (by simp [taskWork, hphase])
      · cases h
        exact spent_task id (by simp [taskWork, hphase])
    · cases h
  · cases h

theorem spent_report (h : t.report = some t') : Spent a t t' := by
  unfold report at h
  split at h
  · rename_i event hphase
    split at h
    · cases h
    · rename_i ok tx hsend
      cases h
      refine spent_task id ?_
      rcases Channel.send_cases hsend with ⟨-, hsent⟩ | ⟨-, -, rfl⟩
      · have hlength := sent_length hsent
        simp only [taskWork, hphase, Channel.dropSender_buffer]
        omega
      · simp [taskWork, hphase]
  · cases h

theorem spent_pull (h : t.pull = some t') : Spent a t t' := by
  unfold pull at h
  split at h
  · cases h
  · rename_i hopen
    rw [Bool.or_eq_true, not_or, Bool.not_eq_true] at hopen
    split at h
    · cases h
    · rename_i event tx hrecv
      cases h
      rcases Channel.recv_cases hrecv with ⟨x, -, htaken⟩ | ⟨hnone, -⟩
      · have hlength := taken_length htaken
        refine Spent.of_lt (fun hover => hover) ?_
        simp only [work, List.length_append, List.length_singleton]
        omega
      · cases hnone
    · rename_i tx hrecv
      cases h
      rcases Channel.recv_cases hrecv with ⟨x, hx, -⟩ | ⟨-, -, -, rfl⟩
      · cases hx
      · refine Spent.of_lt (fun hover => hover) ?_
        simp [work, hopen.1]

theorem work_onEvent (t : Tail) (event : TailEvent) : (t.onEvent event).work = t.work := by
  cases event <;> rfl

theorem over_onEvent (t : Tail) (event : TailEvent) : (t.onEvent event).Over ↔ t.Over := by
  cases event <;> rfl

theorem spent_deliver (h : t.deliver = some t') : Spent a t t' := by
  unfold deliver at h
  split at h
  · split at h
    · cases h
    · rename_i event rest hwire
      cases h
      apply Spent.of_lt
      · rw [over_onEvent]
        exact id
      · rw [work_onEvent]
        simp [work, hwire]
  · cases h

/-- Steps that nobody counts leave the work as it is, or less. -/
theorem spent_idle {a : TailAct} (hover : t.Over → t'.Over) (h : t'.work ≤ t.work)
    (ha : works a = false) : Spent a t t' :=
  ⟨hover, h, fun hworks => by
    rw [ha] at hworks
    cases hworks⟩

theorem spent_hangUp (h : t.hangUp = some t') : Spent .hangUp t t' := by
  unfold hangUp at h
  split at h
  · cases h
  · cases h
    refine spent_idle id ?_ rfl
    simp only [work, Channel.dropReceiver_buffer, List.length_nil]
    omega

theorem spent_dropGuard (h : t.dropGuard = some t') : Spent .dropGuard t t' := by
  unfold dropGuard at h
  split at h
  · cases h
    exact spent_idle (fun _ => .inl rfl) (Nat.le_refl _) rfl
  · cases h

theorem spent_breaks (h : t.breaks = some t') : Spent .breaks t t' := by
  unfold breaks at h
  split at h
  · cases h
    exact spent_idle id (Nat.le_refl _) rfl
  · cases h

theorem spent_finishes (h : t.finishes = some t') : Spent .finishes t t' := by
  unfold finishes at h
  split at h
  · cases h
    exact spent_idle id (Nat.le_refl _) rfl
  · cases h

theorem spent_unmount (h : t.unmount = some t') : Spent .unmount t t' := by
  unfold unmount at h
  split at h
  · cases h
    exact spent_idle id (Nat.le_refl _) rfl
  · cases h

theorem spent_act (hover : t.Over) (h : t.act cluster stallTimeout a = some t') :
    Spent a t t' := by
  cases a with
  | create failure => exact spent_create h
  | check => exact spent_check hover h
  | polls outcome => exact spent_polls h
  | time => exact spent_time h
  | judge => exact spent_judge h
  | blockingSend => exact spent_blockingSend h
  | panics => exact spent_panics h
  | receive => exact spent_receive h
  | decode d => exact spent_decode h
  | unwinds => exact spent_unwinds h
  | forward => exact spent_forward h
  | leave => exact spent_leave h
  | join => exact spent_join h
  | report => exact spent_report h
  | pull => exact spent_pull h
  | deliver => exact spent_deliver h
  | hangUp => exact spent_hangUp h
  | dropGuard => exact spent_dropGuard h
  | breaks => exact spent_breaks h
  | finishes => exact spent_finishes h
  | unmount => exact spent_unmount h
  | tick d =>
    cases h
    exact spent_idle id (Nat.le_refl _) rfl

end Steps

/-! ### Coming to rest -/

theorem spends : Machine.Spends (Tail.act cluster stallTimeout) Over works work where
  keep := fun hover hstep => (spent_act hover hstep).stays hover
  le := fun hover hstep => (spent_act hover hstep).le
  lt := fun hover hstep => (spent_act hover hstep).lt

/-- Nobody has anything to do. -/
def AtRest (cluster : String) (stallTimeout : Nat) (t : Tail) : Prop :=
  ∀ a, works a = true → t.act cluster stallTimeout a = none

/-- A full channel to the response is read, or the response is over. -/
theorem Inv.not_full (h : Inv cluster stallTimeout t) (hpull : t.pull = none) {event : TailEvent}
    (hlive : ¬ (t.task = .ended ∨ t.task = .unwound)) : t.tx.send event ≠ none := by
  rw [Ne, Channel.send_eq_none_iff]
  rintro ⟨hhere, hfull⟩
  unfold Tail.pull at hpull
  split at hpull
  · rename_i hclosed
    rw [Bool.or_eq_true, hhere] at hclosed
    rcases hclosed with hcomplete | hgone
    · exact hlive (h.txEnds.mp (h.complete hcomplete).1)
    · cases hgone
  · split at hpull
    · rename_i hrecv
      rw [(Channel.recv_eq_none_iff.mp hrecv).1] at hfull
      cases hfull
    · cases hpull
    · cases hpull

/-- The async task has come to its end, or waits for the poll task. -/
theorem AtRest.task (hrest : AtRest cluster stallTimeout t) (h : Inv cluster stallTimeout t) :
    (t.task = .ended ∨ t.task = .unwound) ∨
      (t.task = .receiving ∧ t.raw.buffer = [] ∧ t.raw.senderGone = false) ∨
      (t.task = .joining ∧ ∀ how, t.poll ≠ .ended how) := by
  have hpull : t.pull = none := hrest .pull rfl
  cases hphase : t.task with
  | receiving =>
    have hreceive : t.receive = none := hrest .receive rfl
    unfold receive at hreceive
    rw [hphase] at hreceive
    dsimp only at hreceive
    split at hreceive
    · rename_i hrecv
      exact .inr (.inl ⟨rfl, Channel.recv_eq_none_iff.mp hrecv⟩)
    · cases hreceive
    · cases hreceive
  | decoding record =>
    have hdecode : t.decode ⟨fun _ => none, fun _ => ""⟩ = none := hrest (.decode _) rfl
    unfold decode at hdecode
    rw [hphase] at hdecode
    cases hdecode
  | forwarding record msg =>
    have hforward : t.forward = none := hrest .forward rfl
    unfold forward at hforward
    rw [hphase] at hforward
    dsimp only at hforward
    split at hforward
    · rename_i hsend
      exact absurd hsend (h.not_full hpull (by simp [hphase]))
    · cases hforward
    · cases hforward
  | leaving =>
    have hleave : t.leave = none := hrest .leave rfl
    unfold leave at hleave
    rw [hphase] at hleave
    cases hleave
  | joining =>
    have hjoin : t.join cluster = none := hrest .join rfl
    unfold join at hjoin
    rw [hphase] at hjoin
    refine .inr (.inr ⟨rfl, ?_⟩)
    intro how hpoll
    rw [hpoll] at hjoin
    dsimp only at hjoin
    split at hjoin
    · cases hjoin
    · cases hjoin
  | reporting event =>
    have hreport : t.report = none := hrest .report rfl
    unfold report at hreport
    rw [hphase] at hreport
    dsimp only at hreport
    split at hreport
    · rename_i hsend
      exact absurd hsend (h.not_full hpull (by simp [hphase]))
    · cases hreport
  | ended => exact .inl (.inl rfl)
  | unwound => exact .inl (.inr rfl)

theorem AtRest.poll (hrest : AtRest cluster stallTimeout t) (h : Inv cluster stallTimeout t) :
    ∃ how, t.poll = .ended how := by
  cases hpoll : t.poll with
  | ended how => exact ⟨how, rfl⟩
  | creating =>
    have hcreate : t.create none = none := hrest (.create none) rfl
    unfold create at hcreate
    rw [hpoll] at hcreate
    cases hcreate
  | checking since =>
    have hcheck : t.check = none := hrest .check rfl
    unfold check at hcheck
    rw [hpoll] at hcheck
    dsimp only at hcheck
    split at hcheck
    · cases hcheck
    · cases hcheck
  | polling since =>
    have hpolls : t.polls .empty = none := hrest (.polls .empty) rfl
    unfold polls at hpolls
    rw [hpoll] at hpolls
    cases hpolls
  | timing since e =>
    have htime : t.time = none := hrest .time rfl
    unfold time at htime
    rw [hpoll] at htime
    cases htime
  | judging seen since e =>
    have hjudge : t.judge stallTimeout = none := hrest .judge rfl
    unfold judge at hjudge
    rw [hpoll] at hjudge
    dsimp only at hjudge
    split at hjudge
    · cases hjudge
    · cases hjudge
  | sending record =>
    have hsend : t.blockingSend = none := hrest .blockingSend rfl
    unfold blockingSend at hsend
    rw [hpoll] at hsend
    dsimp only at hsend
    split at hsend
    · rename_i hfull
      -- the channel is full, so the async task has something to receive
      obtain ⟨hhere, hlength⟩ := Channel.send_eq_none_iff.mp hfull
      have hheld := h.held
      rw [hhere] at hheld
      rcases hrest.task h with (hended | hunwound) | ⟨-, hbuffer, -⟩ | ⟨hjoining, -⟩
      · rw [hended] at hheld
        cases hheld
      · rw [hunwound] at hheld
        cases hheld
      · rw [hbuffer] at hlength
        cases hlength
      · rw [hjoining] at hheld
        cases hheld
    · cases hsend
    · cases hsend

/-- The end of the response is an error, unless the async task itself has gone. -/
theorem Inv.complete_told (h : Inv cluster stallTimeout t) (hlistening : t.listening = true)
    (hcomplete : t.complete = true) (hwire : t.wire = []) : t.task = .unwound := by
  obtain ⟨-, -, msgs, hmsgs⟩ := h.page.listens hlistening
  rcases (h.complete hcomplete).2 with hunwound | ⟨events, err, hlast⟩
  · exact hunwound
  · have haccount := h.page.account
    rw [hwire, List.append_nil, hmsgs, hlast] at haccount
    have hmem : TailEvent.ofApiError err ∈ msgs.map TailEvent.message := by
      rw [haccount]
      exact List.mem_append_right _ List.mem_cons_self
    obtain ⟨msg, -, hmsg⟩ := List.mem_map.mp hmem
    cases hmsg

theorem AtRest.page (hrest : AtRest cluster stallTimeout t) (h : Inv cluster stallTimeout t)
    (hlistening : t.listening = true) (hover : t.task = .ended ∨ t.task = .unwound) :
    t.tx.receiverGone = true ∨ t.task = .unwound := by
  have hpull : t.pull = none := hrest .pull rfl
  have hdeliver : t.deliver = none := hrest .deliver rfl
  have hwire : t.wire = [] := by
    unfold deliver at hdeliver
    rw [if_pos hlistening] at hdeliver
    split at hdeliver
    · assumption
    · cases hdeliver
  unfold pull at hpull
  split at hpull
  · rename_i hclosed
    rw [Bool.or_eq_true] at hclosed
    rcases hclosed with hcomplete | hgone
    · exact .inr (h.complete_told hlistening hcomplete hwire)
    · exact .inl hgone
  · split at hpull
    · rename_i hrecv
      have hsender := (Channel.recv_eq_none_iff.mp hrecv).2
      rw [h.txEnds.mpr hover] at hsender
      cases hsender
    · cases hpull
    · cases hpull

/-! ### The end -/

/-- **A live tail never ends in silence.**  In every order of steps: the response comes to its
    end before a page that still listens, without an error on it, only if the async task
    panicked.  The flag is set only once the receiver is gone, and the poll task returns
    without an error only then, or after such a panic. -/
theorem tail_end_told (h : Machine.Reaches (Tail.act cluster stallTimeout) (opened start) t) :
    (∀ t', t.finishes = some t' → t.task = .unwound) ∧
    (t.cancelled = true → t.tx.receiverGone = true) ∧
    (t.poll = .ended (.returned (.ok ())) → t.tx.receiverGone = true ∨ t.task = .unwound) := by
  have hinv := reaches_inv h
  refine ⟨?_, hinv.cancelled, hinv.idle⟩
  intro t' hfinishes
  unfold finishes at hfinishes
  split at hfinishes
  · rename_i hends
    rw [Bool.and_eq_true, Bool.and_eq_true, List.isEmpty_iff] at hends
    exact hinv.complete_told hends.1.1 hends.1.2 hends.2
  · cases hfinishes

theorem brokenTail_cancelled : ∃ t, Machine.run (Tail.act "local" STALL_TIMEOUT) (opened 0)
    brokenTail = some t ∧ t.cancelled = true ∧ t.tx.receiverGone = true := by
  have hruns : ∃ t, Machine.run (Tail.act "local" STALL_TIMEOUT) (opened 0) brokenTail = some t ∧
      t.cancelled = true := ⟨_, rfl, rfl⟩
  obtain ⟨t, hrun, hset⟩ := hruns
  exact ⟨t, hrun, hset, (tail_end_told (Machine.run_reaches hrun)).2.1 hset⟩

/-- **No tail outlives its page.**  Once the flag is set or the poll task has ended, however the
    steps come: the tasks, the response and the page take no more than a bounded number of
    them, and when none of them can take another the poll task has ended, the async task has
    too, and a page that still listens has lost its response or the async task to a panic. -/
theorem tail_comes_to_rest {acts : List TailAct}
    (h : Machine.Reaches (Tail.act cluster stallTimeout) (opened start) t) (hover : t.Over)
    (hrun : Machine.run (Tail.act cluster stallTimeout) t acts = some t') :
    acts.countP works ≤ 8 * TAIL_CHANNEL + 23 + t.wire.length ∧
    (AtRest cluster stallTimeout t' →
      (∃ how, t'.poll = .ended how) ∧ (t'.task = .ended ∨ t'.task = .unwound) ∧
      (t'.listening = true → t'.tx.receiverGone = true ∨ t'.task = .unwound)) := by
  have hinv' := reaches_inv (h.run hrun)
  have hcount : acts.countP works + t'.work ≤ t.work := spends.count_le hover hrun
  have hwork := t.work_le
  refine ⟨by omega, ?_⟩
  intro hrest
  obtain ⟨how, hpoll⟩ := hrest.poll hinv'
  have htask : t'.task = .ended ∨ t'.task = .unwound := by
    rcases hrest.task hinv' with hended | ⟨-, -, hsender⟩ | ⟨-, hlive⟩
    · exact hended
    · rw [hinv'.ends.mpr ⟨how, hpoll⟩] at hsender
      cases hsender
    · exact absurd hpoll (hlive how)
  exact ⟨⟨how, hpoll⟩, htask, fun hlistening => hrest.page hinv' hlistening htask⟩

/-- The page goes while the poll task is in a poll. -/
def leftTail : List TailAct := [.create none, .check, .unmount, .hangUp, .dropGuard]

/-- The poll brings a record, which nobody is there for. -/
def afterLeft : List TailAct :=
  [.polls (.message ⟨0, 7, none, none, none, []⟩), .blockingSend, .receive, .check,
    .decode ⟨fun _ => none, fun _ => ""⟩, .forward, .leave, .join]

theorem leftTail_rests : ∃ t t', Machine.run (Tail.act "local" STALL_TIMEOUT) (opened 0) leftTail =
    some t ∧ Machine.run (Tail.act "local" STALL_TIMEOUT) t afterLeft = some t' ∧
      afterLeft.countP works ≤ 8 * TAIL_CHANNEL + 23 + t.wire.length ∧
      ∃ how, t'.poll = .ended how := by
  have hruns : ∃ t t', Machine.run (Tail.act "local" STALL_TIMEOUT) (opened 0) leftTail = some t ∧
      t.cancelled = true ∧ Machine.run (Tail.act "local" STALL_TIMEOUT) t afterLeft = some t' ∧
      AtRest "local" STALL_TIMEOUT t' := by
    refine ⟨_, _, rfl, rfl, rfl, ?_⟩
    intro a ha
    cases a <;> first | rfl | cases ha
  obtain ⟨t, t', hleft, hset, hrun, hrest⟩ := hruns
  obtain ⟨hcount, hends⟩ := tail_comes_to_rest (Machine.run_reaches hleft) (.inl hset) hrun
  exact ⟨t, t', hleft, hrun, hcount, (hends hrest).1⟩

end Arne.Client.Tail
