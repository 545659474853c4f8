import Arne.Lib.Interleaving
import Arne.Lib.Machine
import Mathlib.Data.List.Infix

/-!
# Replacing a client that went stale (`cluster/mod.rs`)

Health checks ask the resident client.  Failures in a row are counted, and from the second on
a check builds a fresh client, probes the cluster with it, and makes it the resident one if
the probe answers; a flag lets one check do that at a time.  Any number of checks run at
once.  The log says what they did, in order.
-/

namespace Arne.Cluster

open Arne.Interleaving Arne.Machine

def RECOVERY_THRESHOLD : Nat := 2

def U32_MAX : Nat := 4294967295

/-- What a check did to the handle or heard of a client. -/
inductive HealEvent (τ C : Type) where
  | described (t : τ) (client : C) (result : Except String Nat)
  | counted (t : τ) (n : Nat)
  | zeroed (t : τ)
  | probed (t : τ) (client : C) (brokers : Option Nat)
  | replaced (t : τ) (client : C)

/-- What the checks share.  `holder` is the check that set `probe_in_flight`. -/
structure SelfHeal (τ C : Type) where
  resident : C
  healthFailures : Nat
  probeInFlight : Bool
  holder : Option τ
  log : List (HealEvent τ C)

/-- `ClusterHealth`; a panic is unreachable as well, with the text of the join error. -/
inductive ClusterHealth where
  | healthy (brokerCount : Nat)
  | unreachable (error : String)
  | panicked
deriving DecidableEq, Repr

/-- Where a check is.  `began` is how long the log was when it read the resident client. -/
inductive HealPhase (C : Type) where
  | idle
  | describing (began : Nat) (client : C)
  | described (began brokers : Nat)
  | failed (began : Nat) (e : String)
  | counted (began n : Nat) (e : String)
  | building (began : Nat) (e : String)
  | probing (began : Nat) (client : C) (e : String)
  | swapping (began : Nat) (client : C) (brokers : Nat)
  | zeroing (began brokers : Nat)
  | releasing (began : Nat) (answer : ClusterHealth)
  | done (began : Nat) (answer : ClusterHealth)

/-- What the network answers, whether a client can be built, and panics. -/
inductive HealMove (C : Type) where
  | go
  | describes (result : Except String Nat)
  | builds (client : Option C)
  | probes (brokers : Option Nat)
  | panics

variable {τ C : Type}

def SelfHeal.note (s : SelfHeal τ C) (e : HealEvent τ C) : SelfHeal τ C :=
  { s with log := s.log ++ [e] }

/-- `record_shared_failure`: the count saturates. -/
def saturatingSucc (n : Nat) : Nat := min (n + 1) U32_MAX

/-- One step of `health_blocking`. -/
def healAct (t : τ) (m : HealMove C) (s : SelfHeal τ C) (l : HealPhase C) :
    Option (SelfHeal τ C × HealPhase C) :=
  match l, m with
  | .idle, .go => some (s, .describing s.log.length s.resident)
  | .describing began client, .describes (.ok brokers) =>
      some (s.note (.described t client (.ok brokers)), .described began brokers)
  | .describing began client, .describes (.error e) =>
      some (s.note (.described t client (.error e)), .failed began e)
  -- `reset_shared_failures`
  | .described began brokers, .go =>
      some ({ s.note (.zeroed t) with healthFailures := 0 }, .done began (.healthy brokers))
  | .failed began e, .go =>
      some ({ s.note (.counted t (saturatingSucc s.healthFailures)) with
        healthFailures := saturatingSucc s.healthFailures },
        .counted began (saturatingSucc s.healthFailures) e)
  | .counted began n e, .go =>
      if n < RECOVERY_THRESHOLD then some (s, .done began (.unreachable e))
      else if s.probeInFlight then some (s, .done began (.unreachable e))
      else some ({ s with probeInFlight := true, holder := some t }, .building began e)
  | .building began e, .builds none => some (s, .releasing began (.unreachable e))
  | .building began e, .builds (some client) => some (s, .probing began client e)
  | .probing began client e, .probes none =>
      some (s.note (.probed t client none), .releasing began (.unreachable e))
  | .probing began client _, .probes (some brokers) =>
      some (s.note (.probed t client (some brokers)), .swapping began client brokers)
  | .swapping began client brokers, .go =>
      some ({ s.note (.replaced t client) with resident := client }, .zeroing began brokers)
  | .zeroing began brokers, .go =>
      some ({ s.note (.zeroed t) with healthFailures := 0 }, .releasing began (.healthy brokers))
  -- the guard is dropped, on a return and on unwinding alike
  | .releasing began answer, .go =>
      some ({ s with probeInFlight := false, holder := none }, .done began answer)
  | .building began _, .panics => some (s, .releasing began .panicked)
  | .probing began _ _, .panics => some (s, .releasing began .panicked)
  | .swapping began _ _, .panics => some (s, .releasing began .panicked)
  | .zeroing began _, .panics => some (s, .releasing began .panicked)
  | .done _ _, .go => some (s, .idle)
  | _, _ => none

/-- Any number of checks of one cluster's handle. -/
def selfHeal (τ C : Type) : System τ (HealMove C) Empty (SelfHeal τ C) (HealPhase C) where
  act := healAct
  env := fun e _ => nomatch e

def started (first : C) : Config τ (SelfHeal τ C) (HealPhase C) where
  shared := ⟨first, 0, false, none, []⟩
  locals := fun _ => .idle

/-! ### What the log says -/

/-- Who did it. -/
def HealEvent.doer : HealEvent τ C → τ
  | .described t _ _ => t
  | .counted t _ => t
  | .zeroed t => t
  | .probed t _ _ => t
  | .replaced t _ => t

def HealEvent.isZeroed : HealEvent τ C → Bool
  | .zeroed _ => true
  | _ => false

/-- The count of failures in a row. -/
def HealEvent.failures (n : Nat) : HealEvent τ C → Nat
  | .counted _ _ => saturatingSucc n
  | .zeroed _ => 0
  | _ => n

def failuresAfter (log : List (HealEvent τ C)) : Nat := log.foldl HealEvent.failures 0

def HealEvent.client (resident : C) : HealEvent τ C → C
  | .replaced _ client => client
  | _ => resident

def residentAfter (first : C) (log : List (HealEvent τ C)) : C := log.foldl HealEvent.client first

/-- Two failures were counted, and no success between them. -/
def FailedTwice (log : List (HealEvent τ C)) : Prop :=
  ∃ before t n between u k after,
    log = before ++ .counted t n :: (between ++ .counted u k :: after) ∧
      ∀ e ∈ between, e.isZeroed = false

variable {first : C} {log : List (HealEvent τ C)} {e : HealEvent τ C}

theorem failuresAfter_concat (log : List (HealEvent τ C)) (e : HealEvent τ C) :
    failuresAfter (log ++ [e]) = e.failures (failuresAfter log) := by
  rw [failuresAfter, List.foldl_concat]
  rfl

theorem residentAfter_concat (first : C) (log : List (HealEvent τ C)) (e : HealEvent τ C) :
    residentAfter first (log ++ [e]) = e.client (residentAfter first log) := by
  rw [residentAfter, List.foldl_concat]
  rfl

/-- Where the count is positive a failure was counted since the last success. -/
theorem failed_of_failuresAfter (h : 0 < failuresAfter log) :
    ∃ before t n after, log = before ++ HealEvent.counted t n :: after ∧
      (∀ e ∈ after, e.isZeroed = false) ∧ failuresAfter log ≤ failuresAfter before + 1 := by
  induction log using List.reverseRecOn with
  | nil => cases h
  | append_singleton log e ih =>
    rw [failuresAfter_concat] at h ⊢
    have hkeeps (hsame : e.failures (failuresAfter log) = failuresAfter log)
        (hnot : e.isZeroed = false) : ∃ before t n after,
          log ++ [e] = before ++ HealEvent.counted t n :: after ∧
            (∀ e ∈ after, e.isZeroed = false) ∧
            e.failures (failuresAfter log) ≤ failuresAfter before + 1 := by
      rw [hsame] at h ⊢
      obtain ⟨before, t, n, after, rfl, hafter, hcount⟩ := ih h
      refine ⟨before, t, n, after ++ [e], by simp, ?_, hcount⟩
      intro x hx
      rcases List.mem_append.mp hx with hold | hnew
      · exact hafter x hold
      · rw [List.mem_singleton.mp hnew]
        exact hnot
    cases e with
    | counted t n =>
      refine ⟨log, t, n, [], rfl, by simp, ?_⟩
      exact Nat.min_le_left _ _
    | zeroed t => cases h
    | described t client result => exact hkeeps rfl rfl
    | probed t client brokers => exact hkeeps rfl rfl
    | replaced t client => exact hkeeps rfl rfl

theorem failedTwice_of_failuresAfter (h : RECOVERY_THRESHOLD ≤ failuresAfter log) :
    FailedTwice log := by
  have htwo : 2 ≤ failuresAfter log := h
  obtain ⟨before, u, k, after, rfl, -, hcount⟩ :=
    failed_of_failuresAfter (Nat.lt_of_lt_of_le Nat.zero_lt_two htwo)
  have hfirst : 0 < failuresAfter before := by omega
  obtain ⟨before', t, n, between, rfl, hbetween, -⟩ := failed_of_failuresAfter hfirst
  exact ⟨before', t, n, between, u, k, after, by simp, hbetween⟩

theorem FailedTwice.mono (h : FailedTwice log) {log' : List (HealEvent τ C)}
    (hlonger : log <+: log') : FailedTwice log' := by
  obtain ⟨before, t, n, between, u, k, after, rfl, hbetween⟩ := h
  obtain ⟨rest, rfl⟩ := hlonger
  exact ⟨before, t, n, between, u, k, after ++ rest, by simp, hbetween⟩

/-! ### What a check knows -/

/-- The check is between setting the flag and dropping its guard. -/
def HealPhase.holds : HealPhase C → Bool
  | .building _ _ => true
  | .probing _ _ _ => true
  | .swapping _ _ _ => true
  | .zeroing _ _ => true
  | .releasing _ _ => true
  | _ => false

/-- What happened since a check began. -/
def since (log : List (HealEvent τ C)) (began : Nat) : List (HealEvent τ C) := log.drop began

/-- The client that was resident when a check began gave it this answer, and the check has
    replaced nothing. -/
structure Asked (first : C) (t : τ) (log : List (HealEvent τ C)) (began : Nat)
    (result : Except String Nat) : Prop where
  described : .described t (residentAfter first (log.take began)) result ∈ since log began
  unchanged : ∀ client, .replaced t client ∉ since log began

/-- A client of the check's own reached the cluster and is the resident one now, or was. -/
def Healed (t : τ) (log : List (HealEvent τ C)) (began brokers : Nat) : Prop :=
  ∃ client, .probed t client (some brokers) ∈ since log began ∧
    .replaced t client ∈ since log began

/-- What an answer rests on. -/
def Earned (first : C) (t : τ) (log : List (HealEvent τ C)) (began : Nat) : ClusterHealth → Prop
  | .healthy brokers => Asked first t log began (.ok brokers) ∨ Healed t log began brokers
  | .unreachable e => Asked first t log began (.error e)
  | .panicked => True

def KnowsLog (first : C) (t : τ) (log : List (HealEvent τ C)) : HealPhase C → Prop
  | .idle => True
  | .describing began client =>
      began ≤ log.length ∧ client = residentAfter first (log.take began) ∧
        ∀ client, .replaced t client ∉ since log began
  | .described began brokers => began ≤ log.length ∧ Asked first t log began (.ok brokers)
  | .failed began e => began ≤ log.length ∧ Asked first t log began (.error e)
  | .counted began n e =>
      began ≤ log.length ∧ Asked first t log began (.error e) ∧
        ∃ begun, begun <+: log ∧ n = failuresAfter begun
  | .building began e =>
      began ≤ log.length ∧ Asked first t log began (.error e) ∧ FailedTwice log
  | .probing began _ e =>
      began ≤ log.length ∧ Asked first t log began (.error e) ∧ FailedTwice log
  | .swapping began client brokers =>
      began ≤ log.length ∧ .probed t client (some brokers) ∈ since log began
  | .zeroing began brokers => began ≤ log.length ∧ Healed t log began brokers
  | .releasing began answer => began ≤ log.length ∧ Earned first t log began answer
  | .done began answer => began ≤ log.length ∧ Earned first t log began answer

/-- What a check relies on: the others only add to the log what they did themselves. -/
structure Grows (t : τ) (log log' : List (HealEvent τ C)) : Prop where
  added : ∃ more, log' = log ++ more ∧ ∀ e ∈ more, e.doer ≠ t

theorem mem_since_append {began : Nat} (hbegan : began ≤ log.length)
    (more : List (HealEvent τ C)) :
    e ∈ since (log ++ more) began ↔ e ∈ since log began ∨ e ∈ more := by
  rw [since, since, List.drop_append_of_le_length hbegan, List.mem_append]

variable {t : τ} {began : Nat}

theorem Asked.append {result : Except String Nat} (h : Asked first t log began result)
    (hbegan : began ≤ log.length) {more : List (HealEvent τ C)}
    (hmore : ∀ client, .replaced t client ∉ more) : Asked first t (log ++ more) began result where
  described := by
    rw [List.take_append_of_le_length hbegan]
    exact (mem_since_append hbegan more).mpr (.inl h.described)
  unchanged := by
    intro client hmem
    rcases (mem_since_append hbegan more).mp hmem with hold | hnew
    · exact h.unchanged client hold
    · exact hmore client hnew

theorem Healed.append {brokers : Nat} (h : Healed t log began brokers)
    (hbegan : began ≤ log.length) (more : List (HealEvent τ C)) :
    Healed t (log ++ more) began brokers := by
  obtain ⟨client, hprobed, hreplaced⟩ := h
  exact ⟨client, (mem_since_append hbegan more).mpr (.inl hprobed),
    (mem_since_append hbegan more).mpr (.inl hreplaced)⟩

theorem Earned.append {answer : ClusterHealth} (h : Earned first t log began answer)
    (hbegan : began ≤ log.length) {more : List (HealEvent τ C)}
    (hmore : ∀ client, .replaced t client ∉ more) :
    Earned first t (log ++ more) began answer := by
  cases answer with
  | healthy brokers => exact h.imp (·.append hbegan hmore) (·.append hbegan more)
  | unreachable e => exact Asked.append h hbegan hmore
  | panicked => trivial

/-- What a check knows of the log stays true whatever the others add. -/
theorem KnowsLog.stable {l : HealPhase C} {log' : List (HealEvent τ C)}
    (h : KnowsLog first t log l) (hgrows : Grows t log log') : KnowsLog first t log' l := by
  obtain ⟨more, rfl, hothers⟩ := hgrows.added
  have hmore (client : C) : .replaced t client ∉ more := fun hmem => hothers _ hmem rfl
  have hlonger {began : Nat} (hbegan : began ≤ log.length) : began ≤ (log ++ more).length := by
    rw [List.length_append]
    omega
  cases l with
  | idle => trivial
  | describing began client =>
    obtain ⟨hbegan, hclient, hunchanged⟩ := h
    refine ⟨hlonger hbegan, ?_, ?_⟩
    · rw [List.take_append_of_le_length hbegan]
      exact hclient
    · intro client' hmem
      rcases (mem_since_append hbegan more).mp hmem with hold | hnew
      · exact hunchanged client' hold
      · exact hmore client' hnew
  | described began brokers => exact ⟨hlonger h.1, h.2.append h.1 hmore⟩
  | failed began e => exact ⟨hlonger h.1, h.2.append h.1 hmore⟩
  | counted began n e =>
    obtain ⟨hbegan, hasked, begun, hbegun, hn⟩ := h
    exact ⟨hlonger hbegan, hasked.append hbegan hmore, begun,
      hbegun.trans (List.prefix_append _ _), hn⟩
  | building began e =>
    obtain ⟨hbegan, hasked, htwice⟩ := h
    exact ⟨hlonger hbegan, hasked.append hbegan hmore, htwice.mono (List.prefix_append _ _)⟩
  | probing began client e =>
    obtain ⟨hbegan, hasked, htwice⟩ := h
    exact ⟨hlonger hbegan, hasked.append hbegan hmore, htwice.mono (List.prefix_append _ _)⟩
  | swapping began client brokers =>
    exact ⟨hlonger h.1, (mem_since_append h.1 more).mpr (.inl h.2)⟩
  | zeroing began brokers => exact ⟨hlonger h.1, h.2.append h.1 more⟩
  | releasing began answer => exact ⟨hlonger h.1, h.2.append h.1 hmore⟩
  | done began answer => exact ⟨hlonger h.1, h.2.append h.1 hmore⟩

/-! ### Every order of the checks -/

/-- Why a client was probed or replaced. -/
def Reason (before : List (HealEvent τ C)) : HealEvent τ C → Prop
  | .probed _ _ _ => FailedTwice before
  | .replaced t client => ∃ brokers, .probed t client (some brokers) ∈ before
  | _ => True

/-- What holds of the handle between any two steps. -/
structure Sound (first : C) (s : SelfHeal τ C) : Prop where
  resident : s.resident = residentAfter first s.log
  failures : s.healthFailures = failuresAfter s.log
  flag : s.probeInFlight = s.holder.isSome
  justified : Justified Reason s.log

/-- What a check knows: whether it holds the flag, and of the log. -/
structure HealKnows (first : C) (t : τ) (s : SelfHeal τ C) (l : HealPhase C) : Prop where
  holder : l.holds = true ↔ s.holder = some t
  log : KnowsLog first t s.log l

/-- What a step leaves to the checks that did not take it. -/
def Spares (o : Option τ) (s s' : SelfHeal τ C) : Prop :=
  ∀ u, o ≠ some u → (s'.holder = some u ↔ s.holder = some u) ∧ Grows u s.log s'.log

section

variable {s s' : SelfHeal τ C} {l l' : HealPhase C} {m : HealMove C}

theorem Sound.note (h : Sound first s) (hreason : Reason s.log e) :
    Sound first { s.note e with
      healthFailures := e.failures s.healthFailures, resident := e.client s.resident } where
  resident := by
    rw [SelfHeal.note, residentAfter_concat, h.resident]
  failures := by
    rw [SelfHeal.note, failuresAfter_concat, h.failures]
  flag := h.flag
  justified := h.justified.concat hreason

/-- A step that adds an event of its own and leaves the flag. -/
theorem spares_note (he : e.doer = t) (hholder : s'.holder = s.holder)
    (hlog : s'.log = s.log ++ [e]) : Spares (some t) s s' := by
  intro u hu
  refine ⟨by rw [hholder], [e], hlog, ?_⟩
  intro x hx
  rw [List.mem_singleton.mp hx, he]
  intro htu
  exact hu (by rw [htu])

/-- A step that adds nothing and takes or drops nobody else's flag. -/
theorem spares_flag (hholder : ∀ u, u ≠ t → (s'.holder = some u ↔ s.holder = some u))
    (hlog : s'.log = s.log) : Spares (some t) s s' := by
  intro u hu
  have hne : u ≠ t := fun hut => hu (by rw [hut])
  exact ⟨hholder u hne, [], by rw [hlog, List.append_nil], by simp⟩

theorem spares_refl (s : SelfHeal τ C) : Spares (some t) s s :=
  spares_flag (fun _ _ => Iff.rfl) rfl

theorem mem_since_note (hbegan : began ≤ log.length) : e ∈ since (log ++ [e]) began :=
  (mem_since_append hbegan [e]).mpr (.inr List.mem_cons_self)

theorem began_note (hbegan : began ≤ log.length) : began ≤ (log ++ [e]).length := by
  rw [List.length_append]
  omega

theorem not_replaced (he : ∀ client, e ≠ .replaced t client) (client : C) :
    .replaced t client ∉ [e] := fun hmem => he client (List.mem_singleton.mp hmem).symm

/-- What a step establishes: the handle is sound, the check knows what it should, and the
    others lose nothing. -/
structure Keeps (first : C) (t : τ) (s s' : SelfHeal τ C) (l' : HealPhase C) : Prop where
  sound : Sound first s'
  knows : HealKnows first t s' l'
  spares : Spares (some t) s s'

/-- A step that adds an event and neither takes nor drops the flag. -/
theorem Keeps.of_note (e : HealEvent τ C) (h : Sound first s) (hknows : HealKnows first t s l) (he : e.doer = t)
    (hreason : Reason s.log e) (hholds : l'.holds = l.holds)
    (hlog : KnowsLog first t (s.log ++ [e]) l') :
    Keeps first t s { s.note e with
      healthFailures := e.failures s.healthFailures, resident := e.client s.resident } l' where
  sound := h.note hreason
  knows :=
    { holder := by
        rw [hholds]
        exact hknows.holder
      log := hlog }
  spares := spares_note he rfl rfl

/-- A step that only the check itself notices. -/
theorem Keeps.of_phase (h : Sound first s) (hknows : HealKnows first t s l)
    (hholds : l'.holds = l.holds) (hlog : KnowsLog first t s.log l') : Keeps first t s s l' where
  sound := h
  knows :=
    { holder := by
        rw [hholds]
        exact hknows.holder
      log := hlog }
  spares := spares_refl s

/-- The resident client is asked, and its answer ends the check or counts as a failure. -/
theorem asking_keeps {result : Except String Nat} {client : C} (h : Sound first s)
    (hknows : HealKnows first t s (.describing began client))
    (hact : healAct t (.describes result) s (.describing began client) = some (s', l')) :
    Keeps first t s s' l' := by
  obtain ⟨hbegan, rfl, hunchanged⟩ := hknows.log
  have hasked : Asked first t
      (s.log ++ [.described t (residentAfter first (s.log.take began)) result]) began result := by
    refine ⟨?_, ?_⟩
    · rw [List.take_append_of_le_length hbegan]
      exact mem_since_note hbegan
    · intro client hmem
      rcases (mem_since_append hbegan _).mp hmem with hold | hnew
      · exact hunchanged client hold
      · exact not_replaced (by simp) client hnew
  cases result with
  | ok brokers =>
    cases hact
    exact .of_note (.described t _ (.ok brokers)) h hknows rfl trivial rfl ⟨began_note hbegan, hasked⟩
  | error e =>
    cases hact
    exact .of_note (.described t _ (.error e)) h hknows rfl trivial rfl ⟨began_note hbegan, hasked⟩

/-- The failure is counted, and from the second in a row on the flag is taken. -/
theorem counted_keeps {n : Nat} {e : String} (h : Sound first s)
    (hknows : HealKnows first t s (.counted began n e))
    (hact : healAct t .go s (.counted began n e) = some (s', l')) : Keeps first t s s' l' := by
  obtain ⟨hbegan, hasked, begun, hbegun, hn⟩ := hknows.log
  unfold healAct at hact
  dsimp only at hact
  split at hact
  · cases hact
    exact .of_phase h hknows rfl ⟨hbegan, hasked⟩
  · rename_i hthreshold
    split at hact
    · cases hact
      exact .of_phase h hknows rfl ⟨hbegan, hasked⟩
    · rename_i hfree
      rw [Bool.not_eq_true] at hfree
      cases hact
      have hnobody : s.holder = none := by
        have hflag := h.flag
        rw [hfree] at hflag
        cases hholder : s.holder with
        | none => rfl
        | some u =>
          rw [hholder] at hflag
          cases hflag
      have htwice : FailedTwice begun := by
        apply failedTwice_of_failuresAfter
        rw [← hn]
        omega
      refine ⟨⟨h.resident, h.failures, rfl, h.justified⟩, ⟨?_, ?_⟩, spares_flag ?_ rfl⟩
      · simp [HealPhase.holds]
      · exact ⟨hbegan, hasked, htwice.mono hbegun⟩
      · intro u hu
        rw [hnobody]
        simp [Ne.symm hu]

/-- While the flag is held. -/
theorem recovering_keeps (h : Sound first s) (hknows : HealKnows first t s l)
    (hholds : l.holds = true) (hact : healAct t m s l = some (s', l')) :
    Keeps first t s s' l' := by
  have hlog := hknows.log
  unfold healAct at hact
  split at hact
  case h_7 began e =>
    cases hact
    exact .of_phase h hknows rfl ⟨hlog.1, hlog.2.1⟩
  case h_8 began e client =>
    cases hact
    exact .of_phase h hknows rfl hlog
  case h_9 began client e =>
    cases hact
    obtain ⟨hbegan, hasked, htwice⟩ := hlog
    exact .of_note (.probed t client none) h hknows rfl htwice rfl
      ⟨began_note hbegan, hasked.append hbegan (not_replaced (by simp))⟩
  case h_10 began client e brokers =>
    cases hact
    obtain ⟨hbegan, -, htwice⟩ := hlog
    exact .of_note (.probed t client (some brokers)) h hknows rfl htwice rfl
      ⟨began_note hbegan, mem_since_note hbegan⟩
  case h_11 began client brokers =>
    cases hact
    obtain ⟨hbegan, hprobed⟩ := hlog
    refine .of_note (.replaced t client) h hknows rfl ⟨brokers, List.mem_of_mem_drop hprobed⟩ rfl
      ⟨began_note hbegan, client, ?_, mem_since_note hbegan⟩
    exact (mem_since_append hbegan _).mpr (.inl hprobed)
  case h_12 began brokers =>
    cases hact
    obtain ⟨hbegan, hhealed⟩ := hlog
    exact .of_note (.zeroed t) h hknows rfl trivial rfl
      ⟨began_note hbegan, .inr (hhealed.append hbegan _)⟩
  case h_13 began answer =>
    cases hact
    have hmine : s.holder = some t := hknows.holder.mp hholds
    refine ⟨⟨h.resident, h.failures, rfl, h.justified⟩, ⟨?_, hlog⟩, spares_flag ?_ rfl⟩
    · simp [HealPhase.holds]
    · intro u hu
      rw [hmine]
      simp [Ne.symm hu]
  case h_14 began e =>
    cases hact
    exact .of_phase h hknows rfl ⟨hlog.1, trivial⟩
  case h_15 began client e =>
    cases hact
    exact .of_phase h hknows rfl ⟨hlog.1, trivial⟩
  case h_16 began client brokers =>
    cases hact
    exact .of_phase h hknows rfl ⟨hlog.1, trivial⟩
  case h_17 began brokers =>
    cases hact
    exact .of_phase h hknows rfl ⟨hlog.1, trivial⟩
  all_goals first | cases hholds | cases hact

/-- One step of a check, wherever it is. -/
theorem healAct_keeps (h : Sound first s) (hknows : HealKnows first t s l)
    (hact : healAct t m s l = some (s', l')) : Keeps first t s s' l' := by
  cases hholds : l.holds with
  | true => exact recovering_keeps h hknows hholds hact
  | false =>
    cases l with
    | idle =>
      cases m with
      | go =>
        cases hact
        refine .of_phase h hknows rfl ⟨Nat.le_refl _, ?_, ?_⟩
        · rw [List.take_length]
          exact h.resident
        · intro client hmem
          rw [since, List.drop_length] at hmem
          cases hmem
      | _ => cases hact
    | describing began client =>
      cases m with
      | describes result => exact asking_keeps h hknows hact
      | _ => cases hact
    | described began brokers =>
      cases m with
      | go =>
        cases hact
        obtain ⟨hbegan, hasked⟩ := hknows.log
        exact .of_note (.zeroed t) h hknows rfl trivial rfl
          ⟨began_note hbegan, .inl (hasked.append hbegan (not_replaced (by simp)))⟩
      | _ => cases hact
    | failed began e =>
      cases m with
      | go =>
        cases hact
        obtain ⟨hbegan, hasked⟩ := hknows.log
        refine .of_note (.counted t _) h hknows rfl trivial rfl
          ⟨began_note hbegan, hasked.append hbegan (not_replaced (by simp)), _,
            List.prefix_refl _, ?_⟩
        rw [failuresAfter_concat, h.failures]
        rfl
      | _ => cases hact
    | counted began n e =>
      cases m with
      | go => exact counted_keeps h hknows hact
      | _ => cases hact
    | done began answer =>
      cases m with
      | go =>
        cases hact
        exact .of_phase h hknows rfl trivial
      | _ => cases hact
    | building began e => cases hholds
    | probing began client e => cases hholds
    | swapping began client brokers => cases hholds
    | zeroing began brokers => cases hholds
    | releasing began answer => cases hholds

end

theorem selfHeal_outline (first : C) :
    Outline (selfHeal τ C) (fun _ _ _ _ => True) (Sound first) (HealKnows first) Spares where
  act := fun h hknows _ hact => by
    have hkeeps := healAct_keeps h hknows hact
    exact ⟨hkeeps.sound, hkeeps.knows, hkeeps.spares⟩
  env := fun {n} => nomatch n
  stable := fun {_ u _ _ _} hne _ hknows hspares =>
    ⟨hknows.holder.trans (hspares u hne).1.symm, hknows.log.stable (hspares u hne).2⟩

theorem reachable_sound [DecidableEq τ] (first : C)
    {c : Config τ (SelfHeal τ C) (HealPhase C)}
    (h : (selfHeal τ C).Reachable (started first) c) :
    Sound first c.shared ∧ ∀ t, HealKnows first t c.shared (c.locals t) := by
  have hstart : Sound first (started (τ := τ) first).shared :=
    { resident := rfl
      failures := rfl
      flag := rfl
      justified := justified_nil }
  apply (selfHeal_outline first).reached hstart _ h
  intro t
  exact ⟨by simp [started, HealPhase.holds], trivial⟩

section

variable [DecidableEq τ] {c : Config τ (SelfHeal τ C) (HealPhase C)}

/-- **One probe at a time, and the flag is never left behind.**  In every order of any number of
    health checks, panics included: no two are past the flag at once, and the flag is set
    exactly while one of them is. -/
theorem one_probe_at_a_time (first : C) (h : (selfHeal τ C).Reachable (started first) c) :
    (∀ t u, (c.locals t).holds = true → (c.locals u).holds = true → t = u) ∧
    (c.shared.probeInFlight = true ↔ ∃ t, (c.locals t).holds = true) := by
  obtain ⟨hsound, hknows⟩ := reachable_sound first h
  constructor
  · intro t u ht hu
    have hmine := (hknows t).holder.mp ht
    rw [(hknows u).holder.mp hu] at hmine
    exact (Option.some.inj hmine).symm
  · rw [hsound.flag, Option.isSome_iff_exists]
    constructor
    · rintro ⟨t, ht⟩
      exact ⟨t, (hknows t).holder.mpr ht⟩
    · rintro ⟨t, ht⟩
      exact ⟨t, (hknows t).holder.mp ht⟩

/-- **Only a client that reached the cluster becomes the resident one.**  In every order of the
    checks: the resident client is the one replaced last, a client is replaced only by one
    whose own probe answered before, and a probe is made only after two failures were counted
    with no success between them.  The count is that of the failures since the last success. -/
theorem resident_proven (first : C) (h : (selfHeal τ C).Reachable (started first) c) :
    c.shared.resident = residentAfter first c.shared.log ∧
    c.shared.healthFailures = failuresAfter c.shared.log ∧
    (∀ before t client brokers after, c.shared.log = before ++ .probed t client brokers :: after →
      FailedTwice before) ∧
    ∀ before t client after, c.shared.log = before ++ .replaced t client :: after →
      (∃ brokers, .probed t client (some brokers) ∈ before) ∧ FailedTwice before := by
  obtain ⟨hsound, -⟩ := reachable_sound first h
  refine ⟨hsound.resident, hsound.failures, ?_, ?_⟩
  · intro before t client brokers after hlog
    exact hsound.justified before _ after hlog
  · intro before t client after hlog
    have hreason : Reason before (.replaced t client) := hsound.justified before _ after hlog
    obtain ⟨brokers, hprobed⟩ := hreason
    refine ⟨⟨brokers, hprobed⟩, ?_⟩
    obtain ⟨early, late, hsplit⟩ := List.append_of_mem hprobed
    have htwice : FailedTwice early := by
      apply hsound.justified early (.probed t client (some brokers))
        (late ++ .replaced t client :: after)
      rw [hlog, hsplit, List.append_assoc, List.cons_append]
    exact htwice.mono ⟨_, hsplit.symm⟩

/-- **An answer is earned by the check that gives it.**  In every order of the checks: one that
    says healthy was told this number of brokers, during itself, by the client resident when
    it began or by a client of its own that it made the resident one; one that says
    unreachable gives the error of the client resident when it began, and replaced nothing. -/
theorem health_earned (first : C) (h : (selfHeal τ C).Reachable (started first) c) (t : τ)
    (began : Nat) :
    (∀ brokers, c.locals t = .done began (.healthy brokers) →
      .described t (residentAfter first (c.shared.log.take began)) (.ok brokers) ∈
          since c.shared.log began ∨
        ∃ client, .probed t client (some brokers) ∈ since c.shared.log began ∧
          .replaced t client ∈ since c.shared.log began) ∧
    ∀ e, c.locals t = .done began (.unreachable e) →
      .described t (residentAfter first (c.shared.log.take began)) (.error e) ∈
          since c.shared.log began ∧
        ∀ client, .replaced t client ∉ since c.shared.log began := by
  obtain ⟨-, hknows⟩ := reachable_sound first h
  have hlog := (hknows t).log
  constructor
  · intro brokers hdone
    rw [hdone] at hlog
    exact hlog.2.imp_left (·.described)
  · intro e hdone
    rw [hdone] at hlog
    exact ⟨hlog.2.described, hlog.2.unchanged⟩

/-- Client `0` went stale.  Check `0` fails, then check `1` fails and heals the handle while
    check `2`, which fails as well, finds the flag set. -/
def heals : List (Event Nat (HealMove Nat) Empty) :=
  [.act 0 .go, .act 0 (.describes (.error "timed out")), .act 0 .go, .act 0 .go,
    .act 1 .go, .act 2 .go, .act 1 (.describes (.error "timed out")), .act 1 .go, .act 1 .go,
    .act 2 (.describes (.error "down")), .act 2 .go, .act 1 (.builds (some 7)), .act 2 .go,
    .act 1 (.probes (some 3)), .act 1 .go, .act 1 .go]

theorem heals_once : ∃ c, (selfHeal Nat Nat).replay (started 0) heals = some c ∧
    c.shared.probeInFlight = true ∧ ∀ u, (c.locals u).holds = true → u = 1 := by
  have hruns : ∃ c, (selfHeal Nat Nat).replay (started 0) heals = some c ∧
      (c.locals 1).holds = true := ⟨_, rfl, rfl⟩
  obtain ⟨c, hreplay, hholds⟩ := hruns
  obtain ⟨hone, hflag⟩ :=
    one_probe_at_a_time 0 (System.replay_reachable heals .start hreplay)
  exact ⟨c, hreplay, hflag.mpr ⟨1, hholds⟩, fun u hu => hone u 1 hu hholds⟩

theorem heals_proven : ∃ c, (selfHeal Nat Nat).replay (started 0) heals = some c ∧
    c.shared.resident = 7 ∧ c.shared.resident = residentAfter 0 c.shared.log := by
  have hruns : ∃ c, (selfHeal Nat Nat).replay (started 0) heals = some c ∧
      c.shared.resident = 7 := ⟨_, rfl, rfl⟩
  obtain ⟨c, hreplay, hseven⟩ := hruns
  exact ⟨c, hreplay, hseven,
    (resident_proven 0 (System.replay_reachable heals .start hreplay)).1⟩

theorem heals_earned : ∃ c, (selfHeal Nat Nat).replay (started 0) (heals ++ [.act 1 .go]) = some c ∧
    c.locals 1 = .done 2 (.healthy 3) ∧
    (.described 1 (residentAfter 0 (c.shared.log.take 2)) (.ok 3) ∈ since c.shared.log 2 ∨
      ∃ client, .probed 1 client (some 3) ∈ since c.shared.log 2 ∧
        .replaced 1 client ∈ since c.shared.log 2) := by
  have hruns : ∃ c, (selfHeal Nat Nat).replay (started 0) (heals ++ [.act 1 .go]) = some c ∧
      c.locals 1 = .done 2 (.healthy 3) := ⟨_, rfl, rfl⟩
  obtain ⟨c, hreplay, hdone⟩ := hruns
  exact ⟨c, hreplay, hdone,
    (health_earned 0 (System.replay_reachable _ .start hreplay) 1 2).1 3 hdone⟩

end

end Arne.Cluster
