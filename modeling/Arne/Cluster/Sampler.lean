import Arne.Cluster.Groups
import Arne.Lib.Interleaving
import Mathlib.Data.List.Chain

/-!
# Throughput samples (`api/topics.rs`, `cluster/sampler.rs`)

A request for a topic's throughput takes a sample when the newest one is an interval old.
It checks that a sample is due, takes the topic's flight, reads the topic's total from the
broker, drops the flight, reads the clock, and records.  Each of these is one atomic step,
and the steps of any number of requests interleave.
-/

namespace Arne.Cluster

open Arne.Interleaving

/-! ### The samples of a topic -/

structure TopicSample where
  tsMs : Int
  totalMsgs : Int
deriving DecidableEq, Repr

/-- `HORIZON_MS`. -/
def sampleHorizonMs : Int := 15 * 60000

def sampleAge (buf : List TopicSample) (nowMs : Int) : Option Int :=
  buf.getLast?.map fun s => nowMs - s.tsMs

def withinHorizon (buf : List TopicSample) (tsMs : Int) : List TopicSample :=
  buf.filter fun s => decide (tsMs - s.tsMs ≤ sampleHorizonMs)

/-- The total is below the newest one kept: the log itself moved backwards. -/
def shrank (buf : List TopicSample) (tsMs totalMsgs : Int) : Bool :=
  (withinHorizon buf tsMs).getLast?.any fun last => decide (totalMsgs < last.totalMsgs)

def recordSample (buf : List TopicSample) (tsMs totalMsgs : Int) : List TopicSample :=
  (if shrank buf tsMs totalMsgs then [] else withinHorizon buf tsMs) ++ [⟨tsMs, totalMsgs⟩]

theorem recordSample_getLast? (buf : List TopicSample) (tsMs totalMsgs : Int) :
    (recordSample buf tsMs totalMsgs).getLast? = some ⟨tsMs, totalMsgs⟩ := by
  simp [recordSample]

/-- A total no smaller than any sample's discards nothing but what is past the horizon. -/
theorem shrank_eq_false {buf : List TopicSample} {tsMs totalMsgs : Int}
    (h : ∀ s ∈ buf, s.totalMsgs ≤ totalMsgs) : shrank buf tsMs totalMsgs = false := by
  unfold shrank
  cases hlast : (withinHorizon buf tsMs).getLast? with
  | none => rfl
  | some last =>
    have hmem : last ∈ buf := List.mem_of_mem_filter (List.mem_of_getLast? hlast)
    have := h last hmem
    simp only [Option.any_some, decide_eq_false_iff_not, not_lt]
    exact this

theorem mem_recordSample {buf : List TopicSample} {tsMs totalMsgs : Int} {s : TopicSample}
    (h : s ∈ recordSample buf tsMs totalMsgs) : s ∈ buf ∨ s = ⟨tsMs, totalMsgs⟩ := by
  unfold recordSample at h
  rcases List.mem_append.mp h with h | h
  · split at h
    · cases h
    · exact Or.inl (List.mem_of_mem_filter h)
  · exact Or.inr (List.mem_singleton.mp h)

/-! ### The requests -/

/-- One call of `record`: the sample, the number of the broker read its total is from, and
    whether the call discarded the history. -/
structure Recording where
  sample : TopicSample
  read : Nat
  discarded : Bool
deriving DecidableEq, Repr

/-- What the requests share.  `reads`, `unrecorded` and `history` record the run: the count
    of broker reads, the requests that hold a total they have not recorded, and the calls
    of `record`. -/
structure Sampling (τ : Type) where
  clock : Int
  /-- The topic's total at the broker. -/
  total : Int
  buf : List TopicSample
  inFlight : Option τ
  reads : Nat
  unrecorded : List τ
  history : List Recording

/-- How far a request has come; a total carries the number of the read it is from. -/
inductive SamplePhase where
  | entered
  | timed (now : Int)
  | due
  | waiting
  | holding
  | sampled (total : Option (Int × Nat))
  | released (total : Option (Int × Nat))
  | stamped (tsMs : Int) (total : Int × Nat)
  | served
deriving DecidableEq, Repr

inductive SampleMove where
  | go
  | timeOut
  | sampleFails
  | leave
deriving DecidableEq, Repr

/-- What goes on around the requests: time passes, and messages arrive. -/
inductive SampleEvent where
  | tick (ms : Nat)
  | grow (msgs : Nat)

variable {τ : Type}

/-- One step of request `t`. -/
def sampleAct [DecidableEq τ] (intervalMs : Int) (t : τ) (m : SampleMove) (s : Sampling τ)
    (l : SamplePhase) : Option (Sampling τ × SamplePhase) :=
  match l, m with
  | .entered, .go => some (s, .timed s.clock)
  | .timed now, .go =>
      if (sampleAge s.buf now).all fun age => decide (intervalMs ≤ age) then some (s, .due)
      else some (s, .served)
  | .due, .go =>
      match s.inFlight with
      | none => some ({ s with inFlight := some t }, .holding)
      | some _ => some (s, .waiting)
  -- someone else's sample was in flight: serve what it left
  | .waiting, .go => if s.inFlight.isNone then some (s, .served) else none
  | .waiting, .timeOut => some (s, .served)
  | .holding, .go =>
      some ({ s with reads := s.reads + 1, unrecorded := t :: s.unrecorded },
        .sampled (some (s.total, s.reads)))
  | .holding, .sampleFails => some (s, .sampled none)
  -- the guard lives in the blocking closure and is dropped at its end
  | .sampled total, .go => some ({ s with inFlight := none }, .released total)
  | .released none, .go => some (s, .served)
  | .released (some total), .go => some (s, .stamped s.clock total)
  -- the client is gone: the closure ran to its end, and nobody is there to record
  | .released (some _), .leave => some ({ s with unrecorded := s.unrecorded.erase t }, .served)
  | .stamped tsMs total, .go =>
      some
        ({ s with
          buf := recordSample s.buf tsMs total.1
          unrecorded := s.unrecorded.erase t
          history := s.history ++ [⟨⟨tsMs, total.1⟩, total.2, shrank s.buf tsMs total.1⟩] },
          .served)
  | _, _ => none

/-- Any number of requests for one topic, a clock that does not go back and a total that
    does not shrink. -/
def throughput [DecidableEq τ] (intervalMs : Int) :
    System τ SampleMove SampleEvent (Sampling τ) SamplePhase where
  act := sampleAct intervalMs
  env
    | .tick ms, s => some { s with clock := s.clock + ms }
    | .grow msgs, s => some { s with total := s.total + msgs }

/-- A topic that was never sampled. -/
def unsampled (clock total : Int) : Config τ (Sampling τ) SamplePhase where
  shared := ⟨clock, total, [], none, 0, [], []⟩
  locals := fun _ => .entered

/-- A request takes the flight only while the sample is still due and no other request
    holds a total it has not recorded. -/
def takesInTurn (intervalMs : Int) (_ : τ) (_ : SampleMove) (s : Sampling τ) : SamplePhase → Bool
  | .due => s.inFlight.isSome ||
      (s.unrecorded.isEmpty && (sampleAge s.buf s.clock).all fun age => decide (intervalMs ≤ age))
  | _ => true

/-! ### What the record keeps -/

/-- The calls of `record` so far are an interval apart and in the order of their reads,
    and none discarded the history. -/
structure Kept (intervalMs : Int) (s : Sampling τ) : Prop where
  newest : s.buf.getLast? = s.history.getLast?.map (·.sample)
  of_history : ∀ x ∈ s.buf, ∃ r ∈ s.history, r.sample = x
  spaced : s.history.IsChain fun a b => a.sample.tsMs + intervalMs ≤ b.sample.tsMs
  in_order : s.history.Pairwise fun a b =>
    a.read < b.read ∧ a.sample.totalMsgs ≤ b.sample.totalMsgs
  none_discarded : ∀ r ∈ s.history, r.discarded = false
  read_lt : ∀ r ∈ s.history, r.read < s.reads
  total_le : ∀ r ∈ s.history, r.sample.totalMsgs ≤ s.total

/-- At `now` the newest recording is an interval old. -/
def DueAt (intervalMs now : Int) (history : List Recording) : Prop :=
  ∀ r, history.getLast? = some r → r.sample.tsMs + intervalMs ≤ now

/-- The total was read after every recorded one. -/
structure Ahead (total : Int × Nat) (s : Sampling τ) : Prop where
  recorded : ∀ r ∈ s.history, r.read < total.2 ∧ r.sample.totalMsgs ≤ total.1
  total_le : total.1 ≤ s.total
  read_lt : total.2 < s.reads

/-- What request `t` knows of the shared state, wherever it stands. -/
def Expects (intervalMs : Int) (t : τ) (s : Sampling τ) : SamplePhase → Prop
  | .holding => s.inFlight = some t ∧ s.unrecorded = [] ∧ DueAt intervalMs s.clock s.history
  | .sampled none => s.inFlight = some t ∧ s.unrecorded = []
  | .sampled (some total) => s.inFlight = some t ∧ s.unrecorded = [t] ∧
      DueAt intervalMs s.clock s.history ∧ Ahead total s
  | .released (some total) => s.unrecorded = [t] ∧ DueAt intervalMs s.clock s.history ∧ Ahead total s
  | .stamped tsMs total => s.unrecorded = [t] ∧ tsMs ≤ s.clock ∧
      DueAt intervalMs tsMs s.history ∧ Ahead total s
  | _ => True

/-- The request holds the flight with nothing unrecorded, or the one unrecorded total. -/
def Busy (t : τ) (s : Sampling τ) : Prop :=
  (s.inFlight = some t ∧ s.unrecorded = []) ∨ s.unrecorded = [t]

/-- What a step leaves as it is: nothing runs backwards, and no busy request is disturbed
    by another. -/
structure Leaves (o : Option τ) (s s' : Sampling τ) : Prop where
  clock : s.clock ≤ s'.clock
  total : s.total ≤ s'.total
  reads : s.reads ≤ s'.reads
  busy : ∀ u, o ≠ some u → Busy u s → s'.history = s.history ∧ s'.unrecorded = s.unrecorded ∧
    (s.inFlight = some u → s'.inFlight = some u)

section

variable {intervalMs : Int} {o : Option τ} {t u : τ} {s s' : Sampling τ} {l l' : SamplePhase}
  {m : SampleMove}

theorem Busy.unique (ht : Busy t s) (hu : Busy u s) : t = u := by
  rcases ht with ⟨ht, ht'⟩ | ht <;> rcases hu with ⟨hu, hu'⟩ | hu
  · exact Option.some.inj (ht.symm.trans hu)
  · simp [ht'] at hu
  · simp [hu'] at ht
  · simpa [ht] using hu

theorem Leaves.refl (o : Option τ) (s : Sampling τ) : Leaves o s s :=
  ⟨le_refl _, le_refl _, le_refl _, fun _ _ _ => ⟨rfl, rfl, id⟩⟩

/-- A busy request disturbs nobody, whatever it does: no other is busy. -/
theorem Leaves.of_busy (ht : Busy t s) (hclock : s.clock ≤ s'.clock) (htotal : s.total ≤ s'.total)
    (hreads : s.reads ≤ s'.reads) : Leaves (some t) s s' :=
  ⟨hclock, htotal, hreads, fun _ hne hu => absurd (congrArg some (ht.unique hu)) hne⟩

theorem DueAt.later {now now' : Int} {history : List Recording} (h : DueAt intervalMs now history)
    (hle : now ≤ now') : DueAt intervalMs now' history :=
  fun r hr => (h r hr).trans hle

theorem Ahead.stable {total : Int × Nat} (h : Ahead total s) (hhistory : s'.history = s.history)
    (htotal : s.total ≤ s'.total) (hreads : s.reads ≤ s'.reads) : Ahead total s' :=
  ⟨hhistory ▸ h.recorded, h.total_le.trans htotal, h.read_lt.trans_le hreads⟩

/-- What a request expects, no step of another undoes. -/
theorem Expects.stable (hne : o ≠ some t) (h : Expects intervalMs t s l) (hleaves : Leaves o s s') :
    Expects intervalMs t s' l := by
  obtain ⟨hclock, htotal, hreads, hbusy⟩ := hleaves
  cases l with
  | holding =>
    obtain ⟨hin, hun, hdue⟩ := h
    obtain ⟨hh, hu, hf⟩ := hbusy t hne (Or.inl ⟨hin, hun⟩)
    exact ⟨hf hin, hu.trans hun, hh ▸ hdue.later hclock⟩
  | sampled total =>
    cases total with
    | none =>
      obtain ⟨hin, hun⟩ := h
      obtain ⟨_, hu, hf⟩ := hbusy t hne (Or.inl ⟨hin, hun⟩)
      exact ⟨hf hin, hu.trans hun⟩
    | some total =>
      obtain ⟨hin, hun, hdue, hahead⟩ := h
      obtain ⟨hh, hu, hf⟩ := hbusy t hne (Or.inr hun)
      exact ⟨hf hin, hu.trans hun, hh ▸ hdue.later hclock, hahead.stable hh htotal hreads⟩
  | released total =>
    cases total with
    | none => trivial
    | some total =>
      obtain ⟨hun, hdue, hahead⟩ := h
      obtain ⟨hh, hu, _⟩ := hbusy t hne (Or.inr hun)
      exact ⟨hu.trans hun, hh ▸ hdue.later hclock, hahead.stable hh htotal hreads⟩
  | stamped tsMs total =>
    obtain ⟨hun, hts, hdue, hahead⟩ := h
    obtain ⟨hh, hu, _⟩ := hbusy t hne (Or.inr hun)
    exact ⟨hu.trans hun, hts.trans hclock, hh ▸ hdue, hahead.stable hh htotal hreads⟩
  | _ => trivial

/-- A sample that is due by the buffer is due by the record of the run. -/
theorem Kept.dueAt (hkept : Kept intervalMs s) {now : Int}
    (hdue : (sampleAge s.buf now).all (fun age => decide (intervalMs ≤ age)) = true) :
    DueAt intervalMs now s.history := by
  intro r hr
  have hlast : s.buf.getLast? = some r.sample := by rw [hkept.newest, hr, Option.map_some]
  simp only [sampleAge, hlast, Option.map_some, Option.all_some, decide_eq_true_eq] at hdue
  omega

/-- The record stays as it should be while nothing is recorded. -/
theorem Kept.frame (hkept : Kept intervalMs s) (hbuf : s'.buf = s.buf)
    (hhistory : s'.history = s.history) (hreads : s.reads ≤ s'.reads)
    (htotal : s.total ≤ s'.total) :
    Kept intervalMs s' := by
  obtain ⟨h1, h2, h3, h4, h5, h6, h7⟩ := hkept
  rw [← hhistory] at h1 h2 h3 h4 h5 h6 h7
  rw [← hbuf] at h1 h2
  exact ⟨h1, h2, h3, h4, h5, fun r hr => (h6 r hr).trans_le hreads,
    fun r hr => (h7 r hr).trans htotal⟩

/-- A total that is ahead and due keeps the record as it should be. -/
theorem Kept.record (hkept : Kept intervalMs s) {tsMs : Int} {total : Int × Nat}
    (hdue : DueAt intervalMs tsMs s.history) (hahead : Ahead total s) (unrecorded : List τ) :
    Kept intervalMs
      { s with
        buf := recordSample s.buf tsMs total.1
        unrecorded := unrecorded
        history := s.history ++ [⟨⟨tsMs, total.1⟩, total.2, shrank s.buf tsMs total.1⟩] } := by
  have hshrank : shrank s.buf tsMs total.1 = false := by
    apply shrank_eq_false
    intro x hx
    obtain ⟨r, hr, rfl⟩ := hkept.of_history x hx
    exact (hahead.recorded r hr).2
  refine ⟨?_, ?_, ?_, ?_, ?_, ?_, ?_⟩
  · simp [recordSample_getLast?]
  · intro x hx
    rcases mem_recordSample hx with hx | rfl
    · obtain ⟨r, hr, hsample⟩ := hkept.of_history x hx
      exact ⟨r, List.mem_append_left _ hr, hsample⟩
    · exact ⟨_, List.mem_append_right _ List.mem_cons_self, rfl⟩
  · apply List.isChain_append.mpr
    refine ⟨hkept.spaced, List.isChain_singleton _, ?_⟩
    intro r hr r' hr'
    simp only [List.head?_cons, Option.mem_def, Option.some.injEq] at hr hr'
    subst hr'
    exact hdue r hr
  · apply List.pairwise_append.mpr
    refine ⟨hkept.in_order, List.pairwise_singleton _ _, ?_⟩
    intro r hr r' hr'
    rw [List.mem_singleton.mp hr']
    exact hahead.recorded r hr
  · intro r hr
    rcases List.mem_append.mp hr with hr | hr
    · exact hkept.none_discarded r hr
    · rw [List.mem_singleton.mp hr]
      exact hshrank
  · intro r hr
    rcases List.mem_append.mp hr with hr | hr
    · exact hkept.read_lt r hr
    · rw [List.mem_singleton.mp hr]
      exact hahead.read_lt
  · intro r hr
    rcases List.mem_append.mp hr with hr | hr
    · exact hkept.total_le r hr
    · rw [List.mem_singleton.mp hr]
      exact hahead.total_le

/-- Taking a free flight with nothing unrecorded disturbs nobody: no request is busy. -/
theorem Leaves.of_idle (hfree : s.inFlight = none) (hun : s.unrecorded = [])
    (hclock : s.clock ≤ s'.clock) (htotal : s.total ≤ s'.total) (hreads : s.reads ≤ s'.reads) :
    Leaves o s s' := by
  refine ⟨hclock, htotal, hreads, ?_⟩
  intro u _ hbusy
  rcases hbusy with ⟨hin, _⟩ | hun'
  · simp [hfree] at hin
  · simp [hun] at hun'

/-- A total that is read now is ahead of all recorded ones. -/
theorem Kept.ahead (hkept : Kept intervalMs s) (unrecorded : List τ) :
    Ahead (s.total, s.reads) { s with reads := s.reads + 1, unrecorded := unrecorded } := by
  refine ⟨?_, le_refl _, Nat.lt_succ_self _⟩
  intro r hr
  exact ⟨hkept.read_lt r hr, hkept.total_le r hr⟩

/-- A request that has read is busy, whether its read succeeded or not. -/
theorem Expects.busy {total : Option (Int × Nat)} (h : Expects intervalMs t s (.sampled total)) :
    Busy t s := by
  cases total with
  | none => exact Or.inl h
  | some total => exact Or.inr h.2.1

/-- What the request knows outlives the end of its flight. -/
theorem Expects.release {total : Option (Int × Nat)}
    (h : Expects intervalMs t s (.sampled total)) :
    Expects intervalMs t { s with inFlight := none } (.released total) := by
  cases total with
  | none => trivial
  | some total =>
    obtain ⟨_, hun, hdue, hahead⟩ := h
    exact ⟨hun, hdue, ⟨hahead.recorded, hahead.total_le, hahead.read_lt⟩⟩

end

/-! ### Every order of the requests' steps -/

/-- One step of a request that takes the flight only in turn. -/
theorem sampleAct_outline [DecidableEq τ] {intervalMs : Int} {t : τ} {s s' : Sampling τ}
    {l l' : SamplePhase} {m : SampleMove} (hkept : Kept intervalMs s)
    (hexpects : Expects intervalMs t s l) (hok : takesInTurn intervalMs t m s l = true)
    (hact : sampleAct intervalMs t m s l = some (s', l')) :
    Kept intervalMs s' ∧ Expects intervalMs t s' l' ∧ Leaves (some t) s s' := by
  unfold sampleAct at hact
  cases l with
  | entered =>
    cases m <;> cases hact
    exact ⟨hkept, trivial, Leaves.refl _ s⟩
  | timed now =>
    cases m with
    | go =>
      dsimp only at hact
      split at hact
      all_goals
        cases hact
        exact ⟨hkept, trivial, Leaves.refl _ s⟩
    | _ => cases hact
  | due =>
    cases m with
    | go =>
      cases hfree : s.inFlight with
      | none =>
        simp only [hfree, Option.some.injEq, Prod.mk.injEq] at hact
        obtain ⟨rfl, rfl⟩ := hact
        simp only [takesInTurn, hfree, Option.isSome_none, Bool.false_or, Bool.and_eq_true,
          List.isEmpty_iff] at hok
        obtain ⟨hun, hdue⟩ := hok
        refine ⟨hkept.frame rfl rfl (le_refl _) (le_refl _), ⟨rfl, hun, hkept.dueAt hdue⟩, ?_⟩
        exact Leaves.of_idle hfree hun (le_refl _) (le_refl _) (le_refl _)
      | some u =>
        simp only [hfree, Option.some.injEq, Prod.mk.injEq] at hact
        obtain ⟨rfl, rfl⟩ := hact
        exact ⟨hkept, trivial, Leaves.refl _ s⟩
    | _ => cases hact
  | waiting =>
    cases m with
    | go =>
      dsimp only at hact
      split at hact
      · cases hact
        exact ⟨hkept, trivial, Leaves.refl _ s⟩
      · cases hact
    | timeOut =>
      cases hact
      exact ⟨hkept, trivial, Leaves.refl _ s⟩
    | _ => cases hact
  | holding =>
    obtain ⟨hin, hun, hdue⟩ := hexpects
    cases m with
    | go =>
      cases hact
      refine ⟨hkept.frame rfl rfl (Nat.le_succ _) (le_refl _), ?_, ?_⟩
      · exact ⟨hin, by rw [hun], hdue, hkept.ahead _⟩
      · exact Leaves.of_busy (Or.inl ⟨hin, hun⟩) (le_refl _) (le_refl _) (Nat.le_succ _)
    | sampleFails =>
      cases hact
      exact ⟨hkept, ⟨hin, hun⟩, Leaves.refl _ s⟩
    | _ => cases hact
  | sampled total =>
    cases m <;> cases hact
    refine ⟨hkept.frame rfl rfl (le_refl _) (le_refl _), hexpects.release, ?_⟩
    exact Leaves.of_busy hexpects.busy (le_refl _) (le_refl _) (le_refl _)
  | released total =>
    cases total with
    | none =>
      cases m <;> cases hact
      exact ⟨hkept, trivial, Leaves.refl _ s⟩
    | some total =>
      obtain ⟨hun, hdue, hahead⟩ := hexpects
      cases m with
      | go =>
        cases hact
        exact ⟨hkept, ⟨hun, le_refl _, hdue, hahead⟩, Leaves.refl _ s⟩
      | leave =>
        cases hact
        refine ⟨hkept.frame rfl rfl (le_refl _) (le_refl _), trivial, ?_⟩
        exact Leaves.of_busy (Or.inr hun) (le_refl _) (le_refl _) (le_refl _)
      | _ => cases hact
  | stamped tsMs total =>
    cases m <;> cases hact
    obtain ⟨hun, _, hdue, hahead⟩ := hexpects
    refine ⟨hkept.record hdue hahead _, trivial, ?_⟩
    exact Leaves.of_busy (Or.inr hun) (le_refl _) (le_refl _) (le_refl _)
  | served => cases m <;> cases hact

theorem throughput_outline [DecidableEq τ] (intervalMs : Int) :
    Outline (throughput (τ := τ) intervalMs)
      (fun t m s l => takesInTurn intervalMs t m s l = true)
      (Kept intervalMs) (Expects intervalMs) Leaves where
  act := fun hkept hexpects hok hact => sampleAct_outline hkept hexpects hok hact
  env := by
    intro e s s' hkept henv
    cases e with
    | tick ms =>
      simp only [throughput, Option.some.injEq] at henv
      subst henv
      have hclock : s.clock ≤ s.clock + (ms : Int) := by omega
      exact ⟨hkept.frame rfl rfl (le_refl _) (le_refl _),
        ⟨hclock, le_refl _, le_refl _, fun _ _ _ => ⟨rfl, rfl, id⟩⟩⟩
    | grow msgs =>
      simp only [throughput, Option.some.injEq] at henv
      subst henv
      have htotal : s.total ≤ s.total + (msgs : Int) := by omega
      exact ⟨hkept.frame rfl rfl (le_refl _) htotal,
        ⟨le_refl _, htotal, le_refl _, fun _ _ _ => ⟨rfl, rfl, id⟩⟩⟩
  stable := fun hne _ hexpects hleaves => Expects.stable hne hexpects hleaves

/-- In every run whose requests take the flight only in turn: consecutive recordings are
    an interval apart, they are in the order of their reads, with totals that do not
    shrink, and none discards the history. -/
theorem samples_in_turn [DecidableEq τ] (intervalMs clock total : Int)
    (c : Config τ (Sampling τ) SamplePhase)
    (h : (throughput intervalMs).Reached (fun t m s l => takesInTurn intervalMs t m s l = true)
      (unsampled clock total) c) :
    (c.shared.history.IsChain fun a b => a.sample.tsMs + intervalMs ≤ b.sample.tsMs) ∧
      (c.shared.history.Pairwise fun a b =>
        a.read < b.read ∧ a.sample.totalMsgs ≤ b.sample.totalMsgs) ∧
      ∀ r ∈ c.shared.history, r.discarded = false := by
  have hstart : Kept intervalMs (unsampled (τ := τ) clock total).shared := by
    constructor <;> simp [unsampled]
  obtain ⟨hkept, _⟩ := (throughput_outline intervalMs).reached hstart (fun _ => trivial) h
  exact ⟨hkept.spaced, hkept.in_order, hkept.none_discarded⟩

/-- One request from its arrival to the end of the broker read, and from there to the end. -/
def toRead (t : Bool) : List (Event Bool SampleMove SampleEvent) :=
  [.act t .go, .act t .go, .act t .go, .act t .go, .act t .go]

def toRecord (t : Bool) : List (Event Bool SampleMove SampleEvent) :=
  [.act t .go, .act t .go]

/-- One after the other, an interval apart: both samples are kept. -/
theorem two_samples_in_turn :
    ∃ c, (throughput 10000).replayWithin (takesInTurn 10000) (unsampled 0 10)
        (toRead false ++ toRecord false ++ [.env (.tick 10000), .env (.grow 2)] ++
          toRead true ++ toRecord true) = some c ∧
      c.shared.buf = [⟨0, 10⟩, ⟨10000, 12⟩] ∧
      c.shared.history.IsChain fun a b => a.sample.tsMs + 10000 ≤ b.sample.tsMs := by
  refine ⟨_, rfl, rfl, ?_⟩
  exact (samples_in_turn 10000 0 10 _ (System.replayWithin_reached
    (toRead false ++ toRecord false ++ [.env (.tick 10000), .env (.grow 2)] ++
      toRead true ++ toRecord true) (fun _ _ _ _ h => h) .start rfl)).1

/-- The first request has read its total and dropped the flight; before it records, the
    second takes the flight, reads a larger total and records it.  The first one's call
    then discards the history. -/
theorem late_sample_discards :
    ∃ c, (throughput 10000).replay (unsampled 0 10)
        (toRead false ++ [.env (.grow 2)] ++ toRead true ++ toRecord true ++ toRecord false) =
          some c ∧
      c.shared.history = [⟨⟨0, 12⟩, 1, false⟩, ⟨⟨0, 10⟩, 0, true⟩] ∧
      (¬ c.shared.history.IsChain fun a b => a.sample.tsMs + 10000 ≤ b.sample.tsMs) ∧
      (¬ c.shared.history.Pairwise fun a b =>
        a.read < b.read ∧ a.sample.totalMsgs ≤ b.sample.totalMsgs) ∧
      c.shared.buf = [⟨0, 10⟩] := by
  refine ⟨_, rfl, rfl, ?_, ?_, rfl⟩
  · intro h
    have hspaced := (List.isChain_cons_cons.mp h).1
    exact absurd hspaced (by decide)
  · intro h
    have hinOrder := (List.pairwise_cons.mp h).1 _ List.mem_cons_self
    exact absurd hinOrder (by decide)

end Arne.Cluster
