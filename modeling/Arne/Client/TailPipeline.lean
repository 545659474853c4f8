import Mathlib.Data.List.Forall2
import Arne.Client.PageStream
import Arne.Lib.Channel
import Arne.Lib.Machine
import Arne.Message.TailPoll

/-!
# The live tail from the broker to the page (`message/tail.rs`, `api/messages.rs`,
`useLiveTail.ts`)

A blocking task polls and sends raw records into one channel, an async task decodes them and
sends events into another, the response stream takes these to the browser, and the browser
hands them to the handlers.  Each takes its steps in any order, and the reader, the network
and the guard of the stream come in between.
-/

namespace Arne.Message

/-! ### Events -/

/-- `TailEvent`. -/
inductive TailEvent where
  | message (msg : MessageOut)
  | error (code message cluster : String) (retriable : Bool)
deriving DecidableEq

/-- `impl From<&ApiError> for TailEvent`. -/
def TailEvent.ofApiError (err : ApiError) : TailEvent :=
  .error err.code err.message (err.cluster.getD "") err.retriable

def ApiError.kafka (cluster message : String) : ApiError :=
  ⟨"kafka_error", message, some cluster, true⟩

end Arne.Message

namespace Arne.Client

open Arne.Message

/-! ### What goes wrong -/

/-- Where `run_consumer_blocking` can fail before it polls. -/
inductive SetupFailure where
  | create (e : String)
  | addPartition (e : String)
  | assign (e : String)

def SetupFailure.message : SetupFailure → String
  | .create e => "start reading live messages: " ++ e
  | .addPartition e => "prepare partitions to read: " ++ e
  | .assign e => "begin reading live messages: " ++ e

/-- What joining the poll task gives: the result of `run_consumer_blocking`, or a panic. -/
inductive Joined where
  | returned (result : Except String Unit)
  | panicked

/-- `tail_join_error`. -/
def tailJoinError : ApiError := .internal "the live stream stopped unexpectedly"

/-- The error that `run` sends when the poll task is joined. -/
def Joined.error? (cluster : String) : Joined → Option ApiError
  | .returned (.ok ()) => none
  | .returned (.error e) => some (.kafka cluster e)
  | .panicked => some tailJoinError

/-! ### The parties -/

/-- Where the poll task is: `since` is `error_streak_since`. -/
inductive PollPhase where
  | creating
  | checking (since : Option Nat)
  | polling (since : Option Nat)
  | timing (since : Option Nat) (e : String)
  | judging (seen since : Nat) (e : String)
  | sending (record : RawRecord)
  | ended (how : Joined)

/-- Where the async task is.  `leaving`: out of its loop, `raw_rx` still held. -/
inductive TaskPhase where
  | receiving
  | decoding (record : RawRecord)
  | forwarding (record : RawRecord) (msg : MessageOut)
  | leaving
  | joining
  | reporting (event : TailEvent)
  | ended
  | unwound

/-- `raw_rx` is not dropped. -/
def TaskPhase.holds : TaskPhase → Bool
  | .receiving | .decoding _ | .forwarding _ _ | .leaving => true
  | .joining | .reporting _ | .ended | .unwound => false

/-- The bound of both channels. -/
def TAIL_CHANNEL : Nat := 256

def STALL_TIMEOUT : Nat := 10000

/-- The tail of one mounted page.  `guard`: `CancelOnDrop` is not dropped yet; `complete`: the
    response has come to the end of the stream; `wire`: what it has taken and the handlers
    have not seen; `delivered`: what they have; `turns`: the turns of `drive_tail_poll`. -/
structure Tail where
  poll : PollPhase
  task : TaskPhase
  raw : Channel RawRecord TAIL_CHANNEL
  tx : Channel TailEvent TAIL_CHANNEL
  cancelled : Bool
  guard : Bool
  now : Nat
  turns : List Turn
  complete : Bool
  wire : List TailEvent
  delivered : List TailEvent
  listening : Bool
  alive : Bool
  error : Option PageError

namespace Tail

/-- When `run` has returned and the stream is open. -/
def opened (now : Nat) : Tail where
  poll := .creating
  task := .receiving
  raw := .channel _ _
  tx := .channel _ _
  cancelled := false
  guard := true
  now := now
  turns := []
  complete := false
  wire := []
  delivered := []
  listening := true
  alive := true
  error := none

/-! ### The poll task -/

/-- `run_consumer_blocking` returns or unwinds; its sender goes with it. -/
def pollEnds (t : Tail) (how : Joined) : Tail :=
  { t with poll := .ended how, raw := t.raw.dropSender }

/-- A turn of the loop is over. -/
def turn (t : Tail) (cancel : Bool) (outcome : PollOutcome) (seen : Nat) (gone : Bool) : Tail :=
  { t with turns := t.turns ++ [⟨cancel, outcome, seen, t.now, gone⟩] }

@[simp] theorem turn_raw (t : Tail) (cancel : Bool) (outcome : PollOutcome) (seen : Nat)
    (gone : Bool) : (t.turn cancel outcome seen gone).raw = t.raw := rfl

def create (t : Tail) (failure : Option SetupFailure) : Option Tail :=
  match t.poll with
  | .creating =>
      match failure with
      | none => some { t with poll := .checking none }
      | some f => some (t.pollEnds (.returned (.error f.message)))
  | _ => none

def check (t : Tail) : Option Tail :=
  match t.poll with
  | .checking since =>
      if t.cancelled then
        some ((t.turn true .empty t.now t.raw.receiverGone).pollEnds (.returned (.ok ())))
      else some { t with poll := .polling since }
  | _ => none

def polls (t : Tail) (outcome : PollOutcome) : Option Tail :=
  match t.poll with
  | .polling since =>
      match outcome with
      | .message record => some { t with poll := .sending record }
      | .error e => some { t with poll := .timing since e }
      | .empty => some { t.turn false .empty t.now t.raw.receiverGone with poll := .checking none }
  | _ => none

/-- `get_or_insert_with(Instant::now)`. -/
def time (t : Tail) : Option Tail :=
  match t.poll with
  | .timing since e => some { t with poll := .judging t.now (since.getD t.now) e }
  | _ => none

/-- `since.elapsed() >= stall_timeout`. -/
def judge (stallTimeout : Nat) (t : Tail) : Option Tail :=
  match t.poll with
  | .judging seen since e =>
      if stallTimeout ≤ t.now - since then
        some ((t.turn false (.error e) seen t.raw.receiverGone).pollEnds
          (.returned (.error ("tail stalled: " ++ e))))
      else
        some { t.turn false (.error e) seen t.raw.receiverGone with poll := .checking (some since) }
  | _ => none

/-- `out.blocking_send(record)`. -/
def blockingSend (t : Tail) : Option Tail :=
  match t.poll with
  | .sending record =>
      match t.raw.send record with
      | none => none
      | some (true, raw) =>
          some { t.turn false (.message record) t.now false with raw := raw, poll := .checking none }
      | some (false, _) =>
          some ((t.turn false (.message record) t.now true).pollEnds (.returned (.ok ())))
  | _ => none

def panics (t : Tail) : Option Tail :=
  match t.poll with
  | .ended _ => none
  | _ => some (t.pollEnds .panicked)

/-! ### The async task -/

def receive (t : Tail) : Option Tail :=
  match t.task with
  | .receiving =>
      match t.raw.recv with
      | none => none
      | some (some record, raw) => some { t with raw := raw, task := .decoding record }
      | some (none, raw) => some { t with raw := raw, task := .leaving }
  | _ => none

/-- `to_one_message_out`, by what the schema registry has by then. -/
def decode (t : Tail) (d : Decoder) : Option Tail :=
  match t.task with
  | .decoding record => some { t with task := .forwarding record (toOneMessageOut d record) }
  | _ => none

/-- A panic in the decoder: the task goes with `raw_rx` and `tx`. -/
def unwinds (t : Tail) : Option Tail :=
  match t.task with
  | .decoding _ =>
      some { t with task := .unwound, raw := t.raw.dropReceiver, tx := t.tx.dropSender }
  | _ => none

/-- `tx.send(TailEvent::Message(..))`. -/
def forward (t : Tail) : Option Tail :=
  match t.task with
  | .forwarding _ msg =>
      match t.tx.send (.message msg) with
      | none => none
      | some (true, tx) => some { t with tx := tx, task := .receiving }
      | some (false, _) => some { t with cancelled := true, task := .leaving }
  | _ => none

/-- `drop(raw_rx)`. -/
def leave (t : Tail) : Option Tail :=
  match t.task with
  | .leaving => some { t with raw := t.raw.dropReceiver, task := .joining }
  | _ => none

/-- `scan.await`. -/
def join (cluster : String) (t : Tail) : Option Tail :=
  match t.task with
  | .joining =>
      match t.poll with
      | .ended how =>
          match how.error? cluster with
          | none => some { t with task := .ended, tx := t.tx.dropSender }
          | some err => some { t with task := .reporting (.ofApiError err) }
      | _ => none
  | _ => none

def report (t : Tail) : Option Tail :=
  match t.task with
  | .reporting event =>
      match t.tx.send event with
      | none => none
      | some (_, tx) => some { t with task := .ended, tx := tx.dropSender }
  | _ => none

/-! ### The response -/

/-- The response takes what the stream has next, an event or the end. -/
def pull (t : Tail) : Option Tail :=
  if t.complete || t.tx.receiverGone then none
  else match t.tx.recv with
    | none => none
    | some (some event, tx) => some { t with tx := tx, wire := t.wire ++ [event] }
    | some (none, tx) => some { t with tx := tx, complete := true }

/-- The response is dropped: first the receiver in it, then the guard. -/
def hangUp (t : Tail) : Option Tail :=
  if t.tx.receiverGone then none else some { t with tx := t.tx.dropReceiver }

def dropGuard (t : Tail) : Option Tail :=
  if t.tx.receiverGone && t.guard then some { t with cancelled := true, guard := false } else none

/-! ### The page -/

/-- `onTransportError`. -/
def onTransportError (t : Tail) : Tail :=
  { t with alive := false, error := some (.plain "retrying is manual"), listening := false }

/-- `onMessage` and `onError`; which handler runs is told by the name of the event. -/
def onEvent (t : Tail) : TailEvent → Tail
  | .message _ => t
  | .error code message cluster retriable =>
      { t with
        alive := false
        error := some (.api 0 ⟨code, message, some cluster, retriable⟩)
        listening := false }

/-- The `EventSource` hands over an event, while it is open. -/
def deliver (t : Tail) : Option Tail :=
  if t.listening then
    match t.wire with
    | [] => none
    | event :: rest =>
        some (({ t with wire := rest, delivered := t.delivered ++ [event] } : Tail).onEvent event)
  else none

/-- The connection breaks. -/
def breaks (t : Tail) : Option Tail :=
  if t.listening then some t.onTransportError else none

/-- The response came to its end, which an `EventSource` takes for a failure as well. -/
def finishes (t : Tail) : Option Tail :=
  if t.listening && t.complete && t.wire.isEmpty then some t.onTransportError else none

def unmount (t : Tail) : Option Tail :=
  if t.listening then some { t with listening := false } else none

end Tail

/-! ### Interleavings -/

inductive TailAct where
  | create (failure : Option SetupFailure)
  | check
  | polls (outcome : PollOutcome)
  | time
  | judge
  | blockingSend
  | panics
  | receive
  | decode (d : Decoder)
  | unwinds
  | forward
  | leave
  | join
  | report
  | pull
  | deliver
  | hangUp
  | dropGuard
  | breaks
  | finishes
  | unmount
  | tick (d : Nat)

def Tail.act (cluster : String) (stallTimeout : Nat) : TailAct → Tail → Option Tail
  | .create failure, t => t.create failure
  | .check, t => t.check
  | .polls outcome, t => t.polls outcome
  | .time, t => t.time
  | .judge, t => t.judge stallTimeout
  | .blockingSend, t => t.blockingSend
  | .panics, t => t.panics
  | .receive, t => t.receive
  | .decode d, t => t.decode d
  | .unwinds, t => t.unwinds
  | .forward, t => t.forward
  | .leave, t => t.leave
  | .join, t => t.join cluster
  | .report, t => t.report
  | .pull, t => t.pull
  | .deliver, t => t.deliver
  | .hangUp, t => t.hangUp
  | .dropGuard, t => t.dropGuard
  | .breaks, t => t.breaks
  | .finishes, t => t.finishes
  | .unmount, t => t.unmount
  | .tick d, t => some { t with now := t.now + d }

namespace Tail

/-! ### What the loop of the poll task has come to -/

/-- `error_streak_since` after some turns that did not end the loop. -/
def streakAfter : Option Nat → List Turn → Option Nat
  | since, [] => since
  | since, t :: rest =>
      streakAfter (match t.outcome with
        | .error _ => some (since.getD t.seen)
        | _ => none) rest

theorem streakAfter_append (since : Option Nat) (turns rest : List Turn) :
    streakAfter since (turns ++ rest) = streakAfter (streakAfter since turns) rest := by
  induction turns generalizing since with
  | nil => rfl
  | cons t turns ih => exact ih _

/-- The loop goes on where the turns so far left it. -/
theorem driveTailPollFrom_append {stallTimeout i : Nat} {since : Option Nat} {turns : List Turn}
    (rest : List Turn) (h : (driveTailPollFrom stallTimeout i since turns).returned = none) :
    driveTailPollFrom stallTimeout i since (turns ++ rest) =
      ⟨(driveTailPollFrom stallTimeout i since turns).sent ++
          (driveTailPollFrom stallTimeout (i + turns.length) (streakAfter since turns) rest).sent,
        (driveTailPollFrom stallTimeout (i + turns.length)
          (streakAfter since turns) rest).returned⟩ := by
  induction turns generalizing i since with
  | nil => rfl
  | cons t turns ih =>
    have hnext (since' : Option Nat) :
        (driveTailPollFrom stallTimeout (i + 1) since' turns).returned = none →
          driveTailPollFrom stallTimeout (i + 1) since' (turns ++ rest) = _ :=
      fun hrest => ih hrest
    have hlength : i + (t :: turns).length = i + 1 + turns.length := by
      rw [List.length_cons]
      omega
    rw [hlength, List.cons_append, driveTailPollFrom, driveTailPollFrom]
    rw [driveTailPollFrom] at h
    split
    · rename_i hcancel
      rw [if_pos hcancel] at h
      cases h
    · rename_i hcancel
      rw [if_neg hcancel] at h
      cases houtcome : t.outcome with
      | message record =>
        rw [houtcome] at h
        dsimp only at h ⊢
        split
        · rename_i hgone
          rw [if_pos hgone] at h
          cases h
        · rename_i hgone
          rw [if_neg hgone] at h
          rw [hnext none h, streakAfter, houtcome]
          rfl
      | error e =>
        rw [houtcome] at h
        dsimp only at h ⊢
        split
        · rename_i hover
          rw [if_pos hover] at h
          cases h
        · rename_i hshort
          rw [if_neg hshort] at h
          rw [hnext _ h, streakAfter, houtcome]
      | empty =>
        rw [houtcome] at h
        dsimp only at h ⊢
        rw [hnext none h, streakAfter, houtcome]

/-- After these turns the loop still runs, with this `error_streak_since`. -/
structure Loops (stallTimeout : Nat) (turns : List Turn) (since : Option Nat) : Prop where
  running : (driveTailPoll stallTimeout turns).returned = none
  streak : streakAfter none turns = since

variable {stallTimeout : Nat} {turns : List Turn} {since : Option Nat}

theorem loops_nil : Loops stallTimeout [] none := ⟨rfl, rfl⟩

theorem Loops.next (h : Loops stallTimeout turns since) (x : Turn) :
    driveTailPoll stallTimeout (turns ++ [x]) =
      ⟨(driveTailPoll stallTimeout turns).sent ++
          (driveTailPollFrom stallTimeout turns.length since [x]).sent,
        (driveTailPollFrom stallTimeout turns.length since [x]).returned⟩ := by
  have happend := driveTailPollFrom_append [x] h.running
  rw [Nat.zero_add, h.streak] at happend
  exact happend

/-! ### What each party knows -/

/-- A message shown for a record. -/
def Decoded (record : RawRecord) (msg : MessageOut) : Prop := ∃ d, msg = toOneMessageOut d record

/-- The events are the records, decoded one by one. -/
def Forwarded (records : List RawRecord) (events : List TailEvent) : Prop :=
  ∃ msgs, events = msgs.map .message ∧ List.Forall₂ Decoded records msgs

def PollsAs (stallTimeout : Nat) (turns : List Turn) (now : Nat) : PollPhase → Prop
  | .creating => turns = []
  | .checking since => Loops stallTimeout turns since
  | .polling since => Loops stallTimeout turns since
  | .timing since _ => Loops stallTimeout turns since
  | .judging seen since _ =>
      (∃ before, Loops stallTimeout turns before ∧ since = before.getD seen) ∧ seen ≤ now ∧
        ∀ x ∈ turns, x.checked ≤ seen
  | .sending _ => ∃ since, Loops stallTimeout turns since
  | .ended (.returned result) =>
      (turns = [] ∧ ∃ f : SetupFailure, result = .error f.message) ∨
        ∃ before x, turns = before ++ [x] ∧
          (driveTailPoll stallTimeout turns).returned = some (before.length, result)
  | .ended .panicked => (driveTailPoll stallTimeout turns).returned = none

/-- The response went before everything was forwarded. -/
structure Cut (raw : Channel RawRecord TAIL_CHANNEL) (tx : Channel TailEvent TAIL_CHANNEL) :
    Prop where
  gone : tx.receiverGone = true
  part : ∃ done, done <+: raw.taken ∧ Forwarded done tx.sent

/-- Everything that was polled was forwarded, and these events are it. -/
structure Whole (raw : Channel RawRecord TAIL_CHANNEL) (events : List TailEvent) : Prop where
  left : raw.senderGone = true
  all : raw.taken = raw.sent
  forwarded : Forwarded raw.taken events

/-- The poll task ended in this error. -/
def Fails (cluster : String) (poll : PollPhase) (err : ApiError) : Prop :=
  ∃ how, poll = .ended how ∧ how.error? cluster = some err

def TaskAs (cluster : String) (poll : PollPhase) (raw : Channel RawRecord TAIL_CHANNEL)
    (tx : Channel TailEvent TAIL_CHANNEL) : TaskPhase → Prop
  | .receiving => Forwarded raw.taken tx.sent
  | .decoding record => ∃ done, raw.taken = done ++ [record] ∧ Forwarded done tx.sent
  | .forwarding record msg =>
      ∃ done, raw.taken = done ++ [record] ∧ Decoded record msg ∧ Forwarded done tx.sent
  | .leaving => Cut raw tx ∨ Whole raw tx.sent
  | .joining => Cut raw tx ∨ Whole raw tx.sent
  | .reporting event =>
      (∃ err, Fails cluster poll err ∧ event = .ofApiError err) ∧ (Cut raw tx ∨ Whole raw tx.sent)
  | .ended =>
      (∃ how, poll = .ended how) ∧ (Cut raw tx ∨
        ∃ err events, Fails cluster poll err ∧ Whole raw events ∧
          tx.sent = events ++ [.ofApiError err])
  | .unwound => ∃ done, done <+: raw.taken ∧ Forwarded done tx.sent

/-- What the handlers were given, and what the page shows for it. -/
structure PageAs (taken wire delivered : List TailEvent) (listening alive : Bool)
    (error : Option PageError) : Prop where
  account : delivered ++ wire = taken
  listens : listening = true →
    alive = true ∧ error = none ∧ ∃ msgs : List MessageOut, delivered = msgs.map .message
  quiet : (∃ msgs : List MessageOut, delivered = msgs.map .message) ∨
    ∃ before err, delivered = before ++ [.ofApiError err] ∧ listening = false ∧
      error = some (.api 0 { err with cluster := some (err.cluster.getD "") }) ∧ alive = false
  told : alive = false → listening = false ∧ ∃ e, error = some e
  api : ∀ status err, error = some (.api status err) →
    ∃ before e, delivered = before ++ [.ofApiError e] ∧
      err = { e with cluster := some (e.cluster.getD "") }

structure Inv (cluster : String) (stallTimeout : Nat) (t : Tail) : Prop where
  polls : PollsAs stallTimeout t.turns t.now t.poll
  sent : (driveTailPoll stallTimeout t.turns).sent = t.raw.sent
  clocked : Clocked t.turns
  past : ∀ x ∈ t.turns, x.checked ≤ t.now
  ends : t.raw.senderGone = true ↔ ∃ how, t.poll = .ended how
  idle : t.poll = .ended (.returned (.ok ())) → t.tx.receiverGone = true ∨ t.task = .unwound
  task : TaskAs cluster t.poll t.raw t.tx t.task
  held : t.raw.receiverGone = !t.task.holds
  txEnds : t.tx.senderGone = true ↔ t.task = .ended ∨ t.task = .unwound
  cancelled : t.cancelled = true → t.tx.receiverGone = true
  complete : t.complete = true → t.tx.senderGone = true ∧
    (t.task = .unwound ∨ ∃ events err, t.tx.taken = events ++ [.ofApiError err])
  page : PageAs t.tx.taken t.wire t.delivered t.listening t.alive t.error

variable {cluster : String} {t t' : Tail}

theorem inv_opened (now : Nat) : Inv cluster stallTimeout (opened now) where
  polls := rfl
  sent := rfl
  clocked := ⟨by simp [opened], List.Pairwise.nil⟩
  past := by simp [opened]
  ends := by simp [opened, Channel.channel]
  idle := by simp [opened]
  task := ⟨[], rfl, .nil⟩
  held := rfl
  txEnds := by simp [opened, Channel.channel]
  cancelled := by simp [opened]
  complete := by simp [opened]
  page :=
    { account := rfl
      listens := fun _ => ⟨rfl, rfl, [], rfl⟩
      quiet := .inl ⟨[], rfl⟩
      told := by simp [opened]
      api := by simp [opened] }

/-! ### Steps of the poll task -/

/-- Nothing that the async task knows changes while the poll task runs. -/
theorem TaskAs.of_polling {poll poll' : PollPhase} {raw raw' : Channel RawRecord TAIL_CHANNEL}
    {tx : Channel TailEvent TAIL_CHANNEL} {task : TaskPhase} (h : TaskAs cluster poll raw tx task)
    (hlive : ∀ how, poll ≠ .ended how) (hruns : raw.senderGone = false)
    (htaken : raw'.taken = raw.taken) : TaskAs cluster poll' raw' tx task := by
  have hcut (hor : Cut raw tx ∨ Whole raw tx.sent) : Cut raw' tx ∨ Whole raw' tx.sent := by
    rcases hor with hcut | hwhole
    · obtain ⟨hgone, done, hdone, hforwarded⟩ := hcut
      exact .inl ⟨hgone, done, htaken ▸ hdone, hforwarded⟩
    · have hover := hwhole.left
      rw [hruns] at hover
      cases hover
  cases task with
  | receiving =>
    unfold TaskAs at h ⊢
    rw [htaken]
    exact h
  | decoding record =>
    unfold TaskAs at h ⊢
    rw [htaken]
    exact h
  | forwarding record msg =>
    unfold TaskAs at h ⊢
    rw [htaken]
    exact h
  | leaving => exact hcut h
  | joining => exact hcut h
  | reporting event =>
    obtain ⟨⟨err, ⟨how, hended, -⟩, -⟩, -⟩ := h
    exact absurd hended (hlive how)
  | ended =>
    obtain ⟨⟨how, hended⟩, -⟩ := h
    exact absurd hended (hlive how)
  | unwound =>
    unfold TaskAs at h ⊢
    rw [htaken]
    exact h

theorem Inv.runs (h : Inv cluster stallTimeout t) (hlive : ∀ how, t.poll ≠ .ended how) :
    t.raw.senderGone = false := by
  rw [← Bool.not_eq_true]
  intro hgone
  obtain ⟨how, hended⟩ := h.ends.mp hgone
  exact hlive how hended

/-- A step of the poll task, its own facts given. -/
theorem Inv.polling (h : Inv cluster stallTimeout t) {poll : PollPhase}
    {raw : Channel RawRecord TAIL_CHANNEL} {turns : List Turn}
    (hlive : ∀ how, t.poll ≠ .ended how) (htaken : raw.taken = t.raw.taken)
    (hgone : raw.receiverGone = t.raw.receiverGone)
    (hpolls : PollsAs stallTimeout turns t.now poll)
    (hsent : (driveTailPoll stallTimeout turns).sent = raw.sent) (hclocked : Clocked turns)
    (hpast : ∀ x ∈ turns, x.checked ≤ t.now)
    (hends : raw.senderGone = true ↔ ∃ how, poll = .ended how)
    (hidle : poll = .ended (.returned (.ok ())) → t.tx.receiverGone = true ∨ t.task = .unwound) :
    Inv cluster stallTimeout { t with poll := poll, raw := raw, turns := turns } where
  polls := hpolls
  sent := hsent
  clocked := hclocked
  past := hpast
  ends := hends
  idle := hidle
  task := h.task.of_polling hlive (h.runs hlive) htaken
  held := hgone.trans h.held
  txEnds := h.txEnds
  cancelled := h.cancelled
  complete := h.complete
  page := h.page

theorem clocked_concat {x : Turn} (h : Clocked turns) (hseen : ∀ y ∈ turns, y.checked ≤ x.seen)
    (hx : x.seen ≤ x.checked) : Clocked (turns ++ [x]) where
  within := by
    intro y hy
    rcases List.mem_append.mp hy with hold | hnew
    · exact h.within y hold
    · rw [List.mem_singleton.mp hnew]
      exact hx
  between := by
    apply List.pairwise_append.mpr
    refine ⟨h.between, List.pairwise_singleton _ _, ?_⟩
    intro y hy z hz
    rw [List.mem_singleton.mp hz]
    exact hseen y hy

theorem past_concat {x : Turn} {now : Nat} (h : ∀ y ∈ turns, y.checked ≤ now)
    (hx : x.checked ≤ now) : ∀ y ∈ turns ++ [x], y.checked ≤ now := by
  intro y hy
  rcases List.mem_append.mp hy with hold | hnew
  · exact h y hold
  · rw [List.mem_singleton.mp hnew]
    exact hx

/-- A turn that the loop goes on after. -/
theorem Inv.goes_on (h : Inv cluster stallTimeout t) {x : Turn} {sent : List RawRecord}
    {raw : Channel RawRecord TAIL_CHANNEL} (hlive : ∀ how, t.poll ≠ .ended how)
    (hloops : Loops stallTimeout t.turns since)
    (hseen : ∀ y ∈ t.turns, y.checked ≤ x.seen) (hx : x.seen ≤ x.checked) (hnow : x.checked = t.now)
    (hturn : driveTailPollFrom stallTimeout t.turns.length since [x] = ⟨sent, none⟩)
    (hraw : raw.sent = t.raw.sent ++ sent) (htaken : raw.taken = t.raw.taken)
    (hgone : raw.receiverGone = t.raw.receiverGone)
    (hsender : raw.senderGone = t.raw.senderGone) :
    Inv cluster stallTimeout { t with
      poll := .checking (streakAfter since [x]), raw := raw, turns := t.turns ++ [x] } := by
  have hnext := hloops.next x
  rw [hturn] at hnext
  refine h.polling hlive htaken hgone ⟨?_, ?_⟩ ?_ (clocked_concat h.clocked hseen hx)
    (past_concat h.past hnow.le) ?_ ?_
  · rw [hnext]
  · rw [streakAfter_append, hloops.streak]
  · rw [hnext, hraw, h.sent]
  · rw [hsender, h.runs hlive]
    simp
  · intro hended
    cases hended

/-- The turn that the loop returns in. -/
theorem Inv.returns (h : Inv cluster stallTimeout t) {x : Turn} {result : Except String Unit}
    (hlive : ∀ how, t.poll ≠ .ended how) (hloops : Loops stallTimeout t.turns since)
    (hseen : ∀ y ∈ t.turns, y.checked ≤ x.seen) (hx : x.seen ≤ x.checked) (hnow : x.checked = t.now)
    (hturn : driveTailPollFrom stallTimeout t.turns.length since [x] =
      ⟨[], some (t.turns.length, result)⟩)
    (hidle : result = .ok () → t.tx.receiverGone = true ∨ t.task = .unwound) :
    Inv cluster stallTimeout { t with
      poll := .ended (.returned result), raw := t.raw.dropSender, turns := t.turns ++ [x] } := by
  have hnext := hloops.next x
  rw [hturn] at hnext
  refine h.polling hlive rfl rfl (.inr ⟨t.turns, x, rfl, ?_⟩) ?_
    (clocked_concat h.clocked hseen hx) (past_concat h.past hnow.le) ?_ ?_
  · rw [hnext]
  · rw [hnext, List.append_nil, h.sent, Channel.dropSender_sent]
  · simp
  · intro hended
    apply hidle
    cases hended
    rfl

/-- The poll task ends between two turns. -/
theorem Inv.pollEnds (h : Inv cluster stallTimeout t) {how : Joined}
    (hlive : ∀ how, t.poll ≠ .ended how) (hpolls : PollsAs stallTimeout t.turns t.now (.ended how))
    (hhow : how ≠ .returned (.ok ())) : Inv cluster stallTimeout (t.pollEnds how) := by
  refine h.polling hlive rfl rfl hpolls h.sent h.clocked h.past ?_ ?_
  · simp
  · intro hended
    cases hended
    exact absurd rfl hhow

/-- The poll task goes on in the same turn. -/
theorem Inv.within (h : Inv cluster stallTimeout t) {poll : PollPhase}
    (hlive : ∀ how, t.poll ≠ .ended how) (hgoes : ∀ how, poll ≠ .ended how)
    (hpolls : PollsAs stallTimeout t.turns t.now poll) :
    Inv cluster stallTimeout { t with poll := poll } := by
  refine h.polling hlive rfl rfl hpolls h.sent h.clocked h.past ?_ ?_
  · rw [h.runs hlive]
    simp [hgoes]
  · intro hended
    exact absurd hended (hgoes _)

theorem Inv.create (h : Inv cluster stallTimeout t) {failure : Option SetupFailure}
    (hstep : t.create failure = some t') : Inv cluster stallTimeout t' := by
  unfold Tail.create at hstep
  split at hstep
  · rename_i hpoll
    have hlive : ∀ how, t.poll ≠ .ended how := by simp [hpoll]
    have hpolls := h.polls
    rw [hpoll] at hpolls
    split at hstep
    · cases hstep
      refine h.within hlive (by simp) ?_
      rw [show t.turns = [] from hpolls]
      exact loops_nil
    · cases hstep
      refine h.pollEnds hlive (.inl ⟨hpolls, _, rfl⟩) ?_
      intro hhow
      cases hhow
  · cases hstep

/-- Nothing ends the loop without the reader having gone. -/
theorem Inv.deserted (h : Inv cluster stallTimeout t) (hlive : ∀ how, t.poll ≠ .ended how)
    (hgone : t.raw.receiverGone = true) : t.tx.receiverGone = true ∨ t.task = .unwound := by
  have hheld := h.held
  rw [hgone] at hheld
  have htask := h.task
  cases hphase : t.task with
  | receiving =>
    rw [hphase] at hheld
    cases hheld
  | decoding record =>
    rw [hphase] at hheld
    cases hheld
  | forwarding record msg =>
    rw [hphase] at hheld
    cases hheld
  | leaving =>
    rw [hphase] at hheld
    cases hheld
  | joining =>
    rw [hphase] at htask
    rcases htask with hcut | hwhole
    · exact .inl hcut.gone
    · have hover := hwhole.left
      rw [h.runs hlive] at hover
      cases hover
  | reporting event =>
    rw [hphase] at htask
    obtain ⟨⟨err, ⟨how, hended, -⟩, -⟩, -⟩ := htask
    exact absurd hended (hlive how)
  | ended =>
    rw [hphase] at htask
    obtain ⟨⟨how, hended⟩, -⟩ := htask
    exact absurd hended (hlive how)
  | unwound => exact .inr rfl

theorem Inv.check (h : Inv cluster stallTimeout t) (hstep : t.check = some t') :
    Inv cluster stallTimeout t' := by
  unfold Tail.check at hstep
  split at hstep
  · rename_i since hpoll
    have hlive : ∀ how, t.poll ≠ .ended how := by simp [hpoll]
    have hpolls := h.polls
    rw [hpoll] at hpolls
    split at hstep
    · rename_i hcancelled
      cases hstep
      exact h.returns (x := ⟨true, .empty, t.now, t.now, t.raw.receiverGone⟩) hlive hpolls h.past
        (Nat.le_refl _) rfl rfl fun _ => .inl (h.cancelled hcancelled)
    · cases hstep
      exact h.within hlive (by simp) hpolls
  · cases hstep

theorem Inv.polls_ (h : Inv cluster stallTimeout t) {outcome : PollOutcome}
    (hstep : t.polls outcome = some t') : Inv cluster stallTimeout t' := by
  unfold Tail.polls at hstep
  split at hstep
  · rename_i since hpoll
    have hlive : ∀ how, t.poll ≠ .ended how := by simp [hpoll]
    have hpolls := h.polls
    rw [hpoll] at hpolls
    split at hstep
    · cases hstep
      exact h.within hlive (by simp) ⟨since, hpolls⟩
    · cases hstep
      exact h.within hlive (by simp) hpolls
    · cases hstep
      exact h.goes_on (x := ⟨false, .empty, t.now, t.now, t.raw.receiverGone⟩) hlive hpolls h.past
        (Nat.le_refl _) rfl rfl (List.append_nil _).symm rfl rfl rfl
  · cases hstep

theorem Inv.time (h : Inv cluster stallTimeout t) (hstep : t.time = some t') :
    Inv cluster stallTimeout t' := by
  unfold Tail.time at hstep
  split at hstep
  · rename_i since e hpoll
    have hlive : ∀ how, t.poll ≠ .ended how := by simp [hpoll]
    have hpolls := h.polls
    rw [hpoll] at hpolls
    cases hstep
    exact h.within hlive (by simp) ⟨⟨since, hpolls, rfl⟩, Nat.le_refl _, h.past⟩
  · cases hstep

theorem Inv.judge (h : Inv cluster stallTimeout t) (hstep : t.judge stallTimeout = some t') :
    Inv cluster stallTimeout t' := by
  unfold Tail.judge at hstep
  split at hstep
  · rename_i seen since e hpoll
    have hlive : ∀ how, t.poll ≠ .ended how := by simp [hpoll]
    have hpolls := h.polls
    rw [hpoll] at hpolls
    obtain ⟨⟨before, hloops, hsince⟩, hseen, hpast⟩ := hpolls
    have hturn : driveTailPollFrom stallTimeout t.turns.length before
        [⟨false, .error e, seen, t.now, t.raw.receiverGone⟩] =
          if stallTimeout ≤ t.now - since then
            ⟨[], some (t.turns.length, .error ("tail stalled: " ++ e))⟩
          else ⟨[], none⟩ := by
      rw [driveTailPollFrom, if_neg (by simp), hsince]
      rfl
    split at hstep
    · rename_i hover
      rw [if_pos hover] at hturn
      cases hstep
      exact h.returns hlive hloops hpast hseen rfl hturn (by simp)
    · rename_i hshort
      rw [if_neg hshort] at hturn
      cases hstep
      have hon := h.goes_on hlive hloops hpast hseen rfl hturn (List.append_nil _).symm rfl rfl rfl
      rw [streakAfter, streakAfter, ← hsince] at hon
      exact hon
  · cases hstep

theorem Inv.blockingSend (h : Inv cluster stallTimeout t) (hstep : t.blockingSend = some t') :
    Inv cluster stallTimeout t' := by
  unfold Tail.blockingSend at hstep
  split at hstep
  · rename_i record hpoll
    have hlive : ∀ how, t.poll ≠ .ended how := by simp [hpoll]
    have hpolls := h.polls
    rw [hpoll] at hpolls
    obtain ⟨since, hloops⟩ := hpolls
    split at hstep
    · cases hstep
    · rename_i raw hsend
      cases hstep
      rcases Channel.send_cases hsend with ⟨-, hsent⟩ | ⟨hfalse, -⟩
      · exact h.goes_on (x := ⟨false, .message record, t.now, t.now, false⟩) hlive hloops h.past
          (Nat.le_refl _) rfl rfl hsent.sent hsent.taken (hsent.receiverGone.trans hsent.here.symm)
          hsent.senderGone
      · cases hfalse
    · rename_i raw hsend
      cases hstep
      rcases Channel.send_cases hsend with ⟨htrue, -⟩ | ⟨-, hgone, -⟩
      · cases htrue
      · exact h.returns (x := ⟨false, .message record, t.now, t.now, true⟩) hlive hloops h.past
          (Nat.le_refl _) rfl rfl fun _ => h.deserted hlive hgone
  · cases hstep

theorem Inv.panics (h : Inv cluster stallTimeout t) (hstep : t.panics = some t') :
    Inv cluster stallTimeout t' := by
  unfold Tail.panics at hstep
  have hpolls := h.polls
  split at hstep
  · cases hstep
  · rename_i hlive
    cases hstep
    refine h.pollEnds hlive ?_ (by simp)
    cases hpoll : t.poll with
    | creating =>
      rw [hpoll] at hpolls
      rw [PollsAs, show t.turns = [] from hpolls]
      rfl
    | checking since =>
      rw [hpoll] at hpolls
      exact hpolls.running
    | polling since =>
      rw [hpoll] at hpolls
      exact hpolls.running
    | timing since e =>
      rw [hpoll] at hpolls
      exact hpolls.running
    | judging seen since e =>
      rw [hpoll] at hpolls
      obtain ⟨⟨before, hloops, -⟩, -⟩ := hpolls
      exact hloops.running
    | sending record =>
      rw [hpoll] at hpolls
      obtain ⟨since, hloops⟩ := hpolls
      exact hloops.running
    | ended how => exact absurd hpoll (hlive how)

/-! ### Steps of the async task -/

/-- A step of the async task, its own facts given. -/
theorem Inv.working (h : Inv cluster stallTimeout t) {task : TaskPhase}
    {raw : Channel RawRecord TAIL_CHANNEL} {tx : Channel TailEvent TAIL_CHANNEL} {cancelled : Bool}
    (hmoves : ¬ (t.task = .ended ∨ t.task = .unwound)) (htask : TaskAs cluster t.poll raw tx task)
    (hsent : raw.sent = t.raw.sent) (hsender : raw.senderGone = t.raw.senderGone)
    (hheld : raw.receiverGone = !task.holds) (htaken : tx.taken = t.tx.taken)
    (hgone : tx.receiverGone = t.tx.receiverGone)
    (htxEnds : tx.senderGone = true ↔ task = .ended ∨ task = .unwound)
    (hcancelled : cancelled = true → t.tx.receiverGone = true) :
    Inv cluster stallTimeout
      { t with task := task, raw := raw, tx := tx, cancelled := cancelled } where
  polls := h.polls
  sent := h.sent.trans hsent.symm
  clocked := h.clocked
  past := h.past
  ends := by
    dsimp only
    rw [hsender]
    exact h.ends
  idle := by
    intro hended
    rcases h.idle hended with hleft | hunwound
    · exact .inl (hgone.trans hleft)
    · exact absurd (.inr hunwound) hmoves
  task := htask
  held := hheld
  txEnds := htxEnds
  cancelled := fun hset => hgone.trans (hcancelled hset)
  complete := by
    intro hcomplete
    exact absurd (h.txEnds.mp (h.complete hcomplete).1) hmoves
  page := by
    dsimp only
    rw [htaken]
    exact h.page

theorem Inv.receive (h : Inv cluster stallTimeout t) (hstep : t.receive = some t') :
    Inv cluster stallTimeout t' := by
  unfold Tail.receive at hstep
  split at hstep
  · rename_i hphase
    have htask := h.task
    have hheld := h.held
    have htxEnds := h.txEnds
    rw [hphase] at htask hheld htxEnds
    split at hstep
    · cases hstep
    · rename_i record raw hrecv
      cases hstep
      rcases Channel.recv_cases hrecv with ⟨a, ha, htaken⟩ | ⟨hnone, -⟩
      · cases ha
        exact h.working (by simp [hphase]) ⟨t.raw.taken, htaken.taken, htask⟩ htaken.sent
          htaken.senderGone (htaken.receiverGone.trans hheld) rfl rfl (by simpa using htxEnds)
          h.cancelled
      · cases hnone
    · rename_i raw hrecv
      cases hstep
      rcases Channel.recv_cases hrecv with ⟨a, ha, -⟩ | ⟨-, hover, hbuffer, rfl⟩
      · cases ha
      · have hwhole : Whole t.raw t.tx.sent :=
          ⟨hover, Channel.taken_eq_sent hheld hbuffer, htask⟩
        exact h.working (by simp [hphase]) (.inr hwhole) rfl rfl hheld rfl rfl
          (by simpa using htxEnds) h.cancelled
  · cases hstep

theorem Inv.decode (h : Inv cluster stallTimeout t) {d : Decoder} (hstep : t.decode d = some t') :
    Inv cluster stallTimeout t' := by
  unfold Tail.decode at hstep
  split at hstep
  · rename_i record hphase
    have htask := h.task
    have hheld := h.held
    have htxEnds := h.txEnds
    rw [hphase] at htask hheld htxEnds
    obtain ⟨done, htaken, hforwarded⟩ := htask
    cases hstep
    exact h.working (by simp [hphase]) ⟨done, htaken, ⟨d, rfl⟩, hforwarded⟩ rfl rfl hheld rfl rfl
      (by simpa using htxEnds) h.cancelled
  · cases hstep

theorem Inv.unwinds (h : Inv cluster stallTimeout t) (hstep : t.unwinds = some t') :
    Inv cluster stallTimeout t' := by
  unfold Tail.unwinds at hstep
  split at hstep
  · rename_i record hphase
    have htask := h.task
    rw [hphase] at htask
    obtain ⟨done, htaken, hforwarded⟩ := htask
    cases hstep
    refine h.working (by simp [hphase]) ⟨done, ?_, hforwarded⟩ rfl rfl rfl rfl rfl (by simp)
      h.cancelled
    rw [Channel.dropReceiver_taken, htaken]
    exact List.prefix_append _ _
  · cases hstep

theorem Forwarded.concat {done : List RawRecord} {events : List TailEvent} {record : RawRecord}
    {msg : MessageOut} (h : Forwarded done events) (hmsg : Decoded record msg) :
    Forwarded (done ++ [record]) (events ++ [.message msg]) := by
  obtain ⟨msgs, rfl, hall⟩ := h
  refine ⟨msgs ++ [msg], by simp, ?_⟩
  exact List.rel_append hall (.cons hmsg .nil)

theorem Inv.forward (h : Inv cluster stallTimeout t) (hstep : t.forward = some t') :
    Inv cluster stallTimeout t' := by
  unfold Tail.forward at hstep
  split at hstep
  · rename_i record msg hphase
    have htask := h.task
    have hheld := h.held
    have htxEnds := h.txEnds
    rw [hphase] at htask hheld htxEnds
    obtain ⟨done, htaken, hmsg, hforwarded⟩ := htask
    split at hstep
    · cases hstep
    · rename_i tx hsend
      cases hstep
      rcases Channel.send_cases hsend with ⟨-, hsent⟩ | ⟨hfalse, -⟩
      · refine h.working (by simp [hphase]) ?_ rfl rfl hheld hsent.taken
          (hsent.receiverGone.trans hsent.here.symm) ?_ h.cancelled
        · rw [TaskAs, htaken, hsent.sent]
          exact hforwarded.concat hmsg
        · rw [hsent.senderGone]
          simpa using htxEnds
      · cases hfalse
    · rename_i tx hsend
      cases hstep
      rcases Channel.send_cases hsend with ⟨htrue, -⟩ | ⟨-, hgone, -⟩
      · cases htrue
      · have hcut : Cut t.raw t.tx :=
          ⟨hgone, done, htaken ▸ List.prefix_append _ _, hforwarded⟩
        exact h.working (by simp [hphase]) (.inl hcut) rfl rfl hheld rfl rfl
          (by simpa using htxEnds) fun _ => hgone
  · cases hstep

theorem Inv.leave (h : Inv cluster stallTimeout t) (hstep : t.leave = some t') :
    Inv cluster stallTimeout t' := by
  unfold Tail.leave at hstep
  split at hstep
  · rename_i hphase
    have htask := h.task
    have htxEnds := h.txEnds
    rw [hphase] at htask htxEnds
    cases hstep
    refine h.working (by simp [hphase]) ?_ rfl rfl rfl rfl rfl (by simpa using htxEnds) h.cancelled
    rcases htask with ⟨hgone, hpart⟩ | ⟨hover, hall, hforwarded⟩
    · exact .inl ⟨hgone, hpart⟩
    · exact .inr ⟨hover, hall, hforwarded⟩
  · cases hstep

theorem Inv.join (h : Inv cluster stallTimeout t) (hstep : t.join cluster = some t') :
    Inv cluster stallTimeout t' := by
  unfold Tail.join at hstep
  split at hstep
  · rename_i hphase
    have htask := h.task
    have hheld := h.held
    have htxEnds := h.txEnds
    rw [hphase] at htask hheld htxEnds
    split at hstep
    · rename_i how hpoll
      split at hstep
      · rename_i hnone
        cases hstep
        refine h.working (by simp [hphase]) ⟨⟨how, hpoll⟩, ?_⟩ rfl rfl hheld rfl rfl (by simp)
          h.cancelled
        have hok : how = .returned (.ok ()) := by
          cases how with
          | returned result =>
            cases result with
            | ok u => rfl
            | error e => cases hnone
          | panicked => cases hnone
        rw [hok] at hpoll
        have hgone : t.tx.receiverGone = true := by
          rcases h.idle hpoll with hgone | hunwound
          · exact hgone
          · rw [hphase] at hunwound
            cases hunwound
        rcases htask with hcut | hwhole
        · exact .inl ⟨hcut.gone, hcut.part⟩
        · exact .inl ⟨hgone, t.raw.taken, List.prefix_refl _, hwhole.forwarded⟩
      · rename_i err herr
        cases hstep
        exact h.working (by simp [hphase]) ⟨⟨err, ⟨how, hpoll, herr⟩, rfl⟩, htask⟩ rfl rfl hheld
          rfl rfl (by simpa using htxEnds) h.cancelled
    · cases hstep
  · cases hstep

theorem Inv.report (h : Inv cluster stallTimeout t) (hstep : t.report = some t') :
    Inv cluster stallTimeout t' := by
  unfold Tail.report at hstep
  split at hstep
  · rename_i event hphase
    have htask := h.task
    have hheld := h.held
    have htxEnds := h.txEnds
    rw [hphase] at htask hheld htxEnds
    obtain ⟨⟨err, hfails, rfl⟩, htask⟩ := htask
    obtain ⟨how, hpoll, herr⟩ := hfails
    split at hstep
    · cases hstep
    · rename_i ok tx hsend
      cases hstep
      rcases Channel.send_cases hsend with ⟨-, hsent⟩ | ⟨-, hgone, rfl⟩
      · refine h.working (by simp [hphase]) ⟨⟨how, hpoll⟩, .inr ?_⟩ rfl rfl hheld hsent.taken
          (hsent.receiverGone.trans hsent.here.symm) (by simp) h.cancelled
        rcases htask with hcut | hwhole
        · have hleft := hcut.gone
          rw [hsent.here] at hleft
          cases hleft
        · exact ⟨err, t.tx.sent, ⟨how, hpoll, herr⟩, hwhole, hsent.sent⟩
      · refine h.working (by simp [hphase]) ⟨⟨how, hpoll⟩, .inl ?_⟩ rfl rfl hheld rfl rfl (by simp)
          h.cancelled
        rcases htask with hcut | hwhole
        · exact ⟨hgone, hcut.part⟩
        · exact ⟨hgone, t.raw.taken, List.prefix_refl _, hwhole.forwarded⟩
  · cases hstep

/-! ### Steps of the response and of the page -/

/-- The async task knows what it sent and whether the receiver is gone. -/
theorem TaskAs.of_response {poll : PollPhase} {raw : Channel RawRecord TAIL_CHANNEL}
    {tx tx' : Channel TailEvent TAIL_CHANNEL} {task : TaskPhase}
    (h : TaskAs cluster poll raw tx task) (hsent : tx'.sent = tx.sent)
    (hgone : tx.receiverGone = true → tx'.receiverGone = true) :
    TaskAs cluster poll raw tx' task := by
  have hcut (hcut : Cut raw tx) : Cut raw tx' := by
    refine ⟨hgone hcut.gone, ?_⟩
    rw [hsent]
    exact hcut.part
  cases task with
  | receiving =>
    unfold TaskAs at h ⊢
    rw [hsent]
    exact h
  | decoding record =>
    unfold TaskAs at h ⊢
    rw [hsent]
    exact h
  | forwarding record msg =>
    unfold TaskAs at h ⊢
    rw [hsent]
    exact h
  | leaving =>
    unfold TaskAs at h ⊢
    rw [hsent]
    exact h.imp_left hcut
  | joining =>
    unfold TaskAs at h ⊢
    rw [hsent]
    exact h.imp_left hcut
  | reporting event =>
    unfold TaskAs at h ⊢
    rw [hsent]
    exact ⟨h.1, h.2.imp_left hcut⟩
  | ended =>
    unfold TaskAs at h ⊢
    rw [hsent]
    exact ⟨h.1, h.2.imp_left hcut⟩
  | unwound =>
    unfold TaskAs at h ⊢
    rw [hsent]
    exact h

/-- The stream came to its end with an error, or with the task. -/
theorem Inv.last (h : Inv cluster stallTimeout t) (hover : t.tx.senderGone = true)
    (hhere : t.tx.receiverGone = false) :
    t.task = .unwound ∨ ∃ events err, t.tx.sent = events ++ [.ofApiError err] := by
  rcases h.txEnds.mp hover with hended | hunwound
  · have htask := h.task
    rw [hended] at htask
    rcases htask.2 with hcut | ⟨err, events, -, -, hsent⟩
    · have hgone := hcut.gone
      rw [hhere] at hgone
      cases hgone
    · exact .inr ⟨events, err, hsent⟩
  · exact .inl hunwound

theorem Inv.pull (h : Inv cluster stallTimeout t) (hstep : t.pull = some t') :
    Inv cluster stallTimeout t' := by
  unfold Tail.pull at hstep
  split at hstep
  · cases hstep
  · rename_i hopen
    rw [Bool.or_eq_true, not_or, Bool.not_eq_true, Bool.not_eq_true] at hopen
    obtain ⟨hincomplete, hhere⟩ := hopen
    split at hstep
    · cases hstep
    · rename_i event tx hrecv
      cases hstep
      rcases Channel.recv_cases hrecv with ⟨a, ha, htaken⟩ | ⟨hnone, -⟩
      · cases ha
        have hpage := h.page
        refine { h with
          idle := ?_, task := ?_, txEnds := ?_, cancelled := ?_, complete := ?_, page := ?_ }
        · intro hended
          exact (h.idle hended).imp_left fun hgone => htaken.receiverGone.trans hgone
        · exact h.task.of_response htaken.sent fun hgone => htaken.receiverGone.trans hgone
        · rw [htaken.senderGone]
          exact h.txEnds
        · intro hset
          exact htaken.receiverGone.trans (h.cancelled hset)
        · intro hcomplete
          rw [show t.complete = true from hcomplete] at hincomplete
          cases hincomplete
        · refine { hpage with account := ?_ }
          rw [htaken.taken, ← hpage.account, List.append_assoc]
      · cases hnone
    · rename_i tx hrecv
      cases hstep
      rcases Channel.recv_cases hrecv with ⟨a, ha, -⟩ | ⟨-, hover, hbuffer, rfl⟩
      · cases ha
      · refine { h with complete := ?_ }
        intro _
        dsimp only
        rw [Channel.taken_eq_sent hhere hbuffer]
        exact ⟨hover, h.last hover hhere⟩

theorem Inv.hangUp (h : Inv cluster stallTimeout t) (hstep : t.hangUp = some t') :
    Inv cluster stallTimeout t' := by
  unfold Tail.hangUp at hstep
  split at hstep
  · cases hstep
  · cases hstep
    exact { h with
      idle := fun _ => .inl rfl
      task := h.task.of_response rfl fun _ => rfl
      cancelled := fun _ => rfl }

theorem Inv.dropGuard (h : Inv cluster stallTimeout t) (hstep : t.dropGuard = some t') :
    Inv cluster stallTimeout t' := by
  unfold Tail.dropGuard at hstep
  split at hstep
  · rename_i hdrops
    rw [Bool.and_eq_true] at hdrops
    cases hstep
    exact { h with cancelled := fun _ => hdrops.1 }
  · cases hstep

theorem PageAs.closed {taken wire delivered : List TailEvent} {listening alive : Bool}
    {error : Option PageError} (h : PageAs taken wire delivered listening alive error) :
    PageAs taken wire delivered false alive error :=
  { h with
    listens := by simp
    quiet := h.quiet.imp_right fun ⟨before, err, hlast, _, hshown, hdead⟩ =>
      ⟨before, err, hlast, rfl, hshown, hdead⟩
    told := fun hdead => ⟨rfl, (h.told hdead).2⟩ }

/-- While the page listens nothing but messages has come. -/
theorem PageAs.fails {taken wire delivered : List TailEvent} {alive : Bool}
    {error : Option PageError} (h : PageAs taken wire delivered true alive error)
    (message : String) :
    PageAs taken wire delivered false false (some (.plain message)) where
  account := h.account
  listens := by simp
  quiet := .inl (h.listens rfl).2.2
  told := fun _ => ⟨rfl, _, rfl⟩
  api := by simp

theorem Inv.breaks (h : Inv cluster stallTimeout t) (hstep : t.breaks = some t') :
    Inv cluster stallTimeout t' := by
  unfold Tail.breaks at hstep
  split at hstep
  · rename_i hlistening
    have hpage := h.page
    rw [hlistening] at hpage
    cases hstep
    exact { h with page := hpage.fails _ }
  · cases hstep

theorem Inv.finishes (h : Inv cluster stallTimeout t) (hstep : t.finishes = some t') :
    Inv cluster stallTimeout t' := by
  unfold Tail.finishes at hstep
  split at hstep
  · rename_i hends
    rw [Bool.and_eq_true, Bool.and_eq_true] at hends
    have hpage := h.page
    rw [hends.1.1] at hpage
    cases hstep
    exact { h with page := hpage.fails _ }
  · cases hstep

theorem Inv.unmount (h : Inv cluster stallTimeout t) (hstep : t.unmount = some t') :
    Inv cluster stallTimeout t' := by
  unfold Tail.unmount at hstep
  split at hstep
  · cases hstep
    exact { h with page := h.page.closed }
  · cases hstep

theorem PageAs.message {taken wire delivered : List TailEvent} {msg : MessageOut} {alive : Bool}
    {error : Option PageError} (h : PageAs taken (.message msg :: wire) delivered true alive error) :
    PageAs taken wire (delivered ++ [.message msg]) true alive error := by
  obtain ⟨halive, herror, msgs, hmsgs⟩ := h.listens rfl
  have hmessages : delivered ++ [.message msg] = (msgs ++ [msg]).map TailEvent.message := by
    rw [hmsgs, List.map_append, List.map_singleton]
  refine ⟨?_, fun _ => ⟨halive, herror, _, hmessages⟩, .inl ⟨_, hmessages⟩, h.told, ?_⟩
  · rw [List.append_assoc]
    exact h.account
  · rw [herror]
    simp

theorem PageAs.error {taken wire delivered : List TailEvent} {code message name : String}
    {retriable alive : Bool} {error : Option PageError}
    (h : PageAs taken (.error code message name retriable :: wire) delivered true alive error) :
    PageAs taken wire (delivered ++ [.error code message name retriable]) false false
      (some (.api 0 ⟨code, message, some name, retriable⟩)) := by
  have hlast : (.error code message name retriable : TailEvent) =
      .ofApiError ⟨code, message, some name, retriable⟩ := rfl
  refine ⟨?_, by simp, .inr ⟨delivered, _, by rw [hlast], rfl, rfl, rfl⟩, fun _ => ⟨rfl, _, rfl⟩, ?_⟩
  · rw [List.append_assoc]
    exact h.account
  · intro status err herr
    cases herr
    exact ⟨delivered, _, by rw [hlast], rfl⟩

theorem Inv.deliver (h : Inv cluster stallTimeout t) (hstep : t.deliver = some t') :
    Inv cluster stallTimeout t' := by
  unfold Tail.deliver at hstep
  split at hstep
  · rename_i hlistening
    have hpage := h.page
    rw [hlistening] at hpage
    split at hstep
    · cases hstep
    · rename_i event rest hwire
      rw [hwire] at hpage
      cases hstep
      cases event with
      | message msg =>
        refine { h with page := ?_ }
        show PageAs t.tx.taken rest (t.delivered ++ [.message msg]) t.listening t.alive t.error
        rw [hlistening]
        exact hpage.message
      | error code message name retriable => exact { h with page := hpage.error }
  · cases hstep

theorem Inv.tick (h : Inv cluster stallTimeout t) (d : Nat) :
    Inv cluster stallTimeout { t with now := t.now + d } := by
  have hpolls := h.polls
  refine { h with polls := ?_, past := fun x hx => (h.past x hx).trans (Nat.le_add_right _ _) }
  dsimp only
  cases hpoll : t.poll with
  | judging seen since e =>
    rw [hpoll] at hpolls
    obtain ⟨hloops, hseen, hpast⟩ := hpolls
    exact ⟨hloops, hseen.trans (Nat.le_add_right _ _), hpast⟩
  | creating =>
    rw [hpoll] at hpolls
    exact hpolls
  | checking since =>
    rw [hpoll] at hpolls
    exact hpolls
  | polling since =>
    rw [hpoll] at hpolls
    exact hpolls
  | timing since e =>
    rw [hpoll] at hpolls
    exact hpolls
  | sending record =>
    rw [hpoll] at hpolls
    exact hpolls
  | ended how =>
    rw [hpoll] at hpolls
    cases how with
    | returned result => exact hpolls
    | panicked => exact hpolls

theorem Inv.act (h : Inv cluster stallTimeout t) {a : TailAct}
    (hstep : t.act cluster stallTimeout a = some t') : Inv cluster stallTimeout t' := by
  cases a with
  | create failure => exact h.create hstep
  | check => exact h.check hstep
  | polls outcome => exact h.polls_ hstep
  | time => exact h.time hstep
  | judge => exact h.judge hstep
  | blockingSend => exact h.blockingSend hstep
  | panics => exact h.panics hstep
  | receive => exact h.receive hstep
  | decode d => exact h.decode hstep
  | unwinds => exact h.unwinds hstep
  | forward => exact h.forward hstep
  | leave => exact h.leave hstep
  | join => exact h.join hstep
  | report => exact h.report hstep
  | pull => exact h.pull hstep
  | deliver => exact h.deliver hstep
  | hangUp => exact h.hangUp hstep
  | dropGuard => exact h.dropGuard hstep
  | breaks => exact h.breaks hstep
  | finishes => exact h.finishes hstep
  | unmount => exact h.unmount hstep
  | tick d =>
    cases hstep
    exact h.tick d

theorem reaches_inv {start : Nat}
    (h : Machine.Reaches (Tail.act cluster stallTimeout) (opened start) t) :
    Inv cluster stallTimeout t :=
  h.invariant (inv_opened start) fun hinv hstep => hinv.act hstep

/-! ### What the page is given -/

def message? : TailEvent → Option MessageOut
  | .message msg => some msg
  | .error .. => none

/-- The messages that the handlers were given, in order. -/
def handed (t : Tail) : List MessageOut := t.delivered.filterMap message?

/-- What was sent to the response: the records so far, and at most one error behind them. -/
theorem Inv.forwarded (h : Inv cluster stallTimeout t) :
    ∃ done msgs tail, done <+: t.raw.taken ∧ List.Forall₂ Decoded done msgs ∧
      t.tx.sent = msgs.map .message ++ tail ∧
      (tail = [] ∨ ∃ err, tail = [.ofApiError err] ∧ Fails cluster t.poll err ∧ done = t.raw.sent) := by
  have hmessages {done : List RawRecord} (hpart : done <+: t.raw.taken)
      (hforwarded : Forwarded done t.tx.sent) : ∃ done msgs tail, done <+: t.raw.taken ∧
        List.Forall₂ Decoded done msgs ∧ t.tx.sent = msgs.map .message ++ tail ∧
        (tail = [] ∨
          ∃ err, tail = [.ofApiError err] ∧ Fails cluster t.poll err ∧ done = t.raw.sent) := by
    obtain ⟨msgs, hmsgs, hall⟩ := hforwarded
    exact ⟨done, msgs, [], hpart, hall, by rw [hmsgs, List.append_nil], .inl rfl⟩
  have hleft (hor : Cut t.raw t.tx ∨ Whole t.raw t.tx.sent) :
      ∃ done, done <+: t.raw.taken ∧ Forwarded done t.tx.sent := by
    rcases hor with hcut | hwhole
    · exact hcut.part
    · exact ⟨t.raw.taken, List.prefix_refl _, hwhole.forwarded⟩
  have htask := h.task
  cases hphase : t.task with
  | receiving =>
    rw [hphase] at htask
    exact hmessages (List.prefix_refl _) htask
  | decoding record =>
    rw [hphase] at htask
    obtain ⟨done, htaken, hforwarded⟩ := htask
    exact hmessages (htaken ▸ List.prefix_append _ _) hforwarded
  | forwarding record msg =>
    rw [hphase] at htask
    obtain ⟨done, htaken, -, hforwarded⟩ := htask
    exact hmessages (htaken ▸ List.prefix_append _ _) hforwarded
  | leaving =>
    rw [hphase] at htask
    obtain ⟨done, hpart, hforwarded⟩ := hleft htask
    exact hmessages hpart hforwarded
  | joining =>
    rw [hphase] at htask
    obtain ⟨done, hpart, hforwarded⟩ := hleft htask
    exact hmessages hpart hforwarded
  | reporting event =>
    rw [hphase] at htask
    obtain ⟨done, hpart, hforwarded⟩ := hleft htask.2
    exact hmessages hpart hforwarded
  | ended =>
    rw [hphase] at htask
    rcases htask.2 with hcut | ⟨err, events, hfails, hwhole, hsent⟩
    · obtain ⟨done, hpart, hforwarded⟩ := hcut.part
      exact hmessages hpart hforwarded
    · obtain ⟨msgs, rfl, hall⟩ := hwhole.forwarded
      exact ⟨t.raw.taken, msgs, [.ofApiError err], List.prefix_refl _, hall, hsent,
        .inr ⟨err, rfl, hfails, hwhole.all⟩⟩
  | unwound =>
    rw [hphase] at htask
    obtain ⟨done, hpart, hforwarded⟩ := htask
    exact hmessages hpart hforwarded

/-- A record is shown, then the poll task panics. -/
def brokenTail : List TailAct :=
  [.create none, .check, .polls (.message ⟨0, 7, none, none, none, []⟩), .blockingSend, .receive,
    .decode ⟨fun _ => none, fun _ => ""⟩, .panics, .forward, .receive, .leave, .join, .report,
    .pull, .deliver, .pull, .deliver, .hangUp, .dropGuard]

end Tail

end Arne.Client
