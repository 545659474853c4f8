import Arne.Cluster.Refresh
import Arne.Lib.Monitor

/-!
# The flights under their mutex (`cluster/single_flight.rs`)

`SingleFlight` keeps the keys in flight in a set behind a mutex, with one condition variable
for all of them.  Here each taking of the mutex, each look into the set, each sleep, wake-up
and notification is a step of its own, a wake-up may come for no reason, a refresh may panic
and the request it is made for may be dropped.  Between these steps a caller does what
`act` says.
-/

namespace Arne.Cluster

open Arne.Interleaving

/-- In milliseconds. -/
def MAX_WAIT : Int := 2000

/-- What the callers share.  `due` records the callers that took their key out of the set and
    have not notified yet. -/
structure Guarded (τ K V : Type) where
  flights : Shared τ K V
  finished : Monitor τ
  due : List τ

/-- How far a caller has come.  A refresh that ends with an answer, or without one, ends in
    the guard's `drop`. -/
inductive GuardedPhase (V E : Type) where
  | outside (l : Phase V E)
  | locked (look : Nat)
  | taken (look : Nat)
  | testing (since : Int)
  | sleeping (since : Int)
  | waking (since : Int)
  | leaving (cause : Option Nat)
  | dropping
  | removing (answer : Option (Except E V))
  | removed (answer : Option (Except E V))
  | notifying (answer : Option (Except E V))
  | gone

inductive GuardedMove (V E : Type) where
  | go
  | rouse
  | refresh (outcome : Except E V)
  | abandon

variable {τ K V E : Type}

/-- Where a caller goes on under the mutex. -/
def Phase.underMutex : Phase V E → Option (GuardedPhase V E)
  | .checked look => some (.locked look)
  | .stored true v => some (.removing (some (.ok v)))
  | .failed true e => some (.removing (some (.error e)))
  | _ => none

/-- Where a caller can be cut off: by a panic of its refresh, or by the drop of its request,
    which the wait for a flight outlasts. -/
def Phase.mayBeAbandoned : Phase V E → Bool
  | .woken _ => true
  | .owning _ => true
  | .refreshing _ => true
  | _ => false

/-- After the guard is dropped. -/
def afterDrop : Option (Except E V) → GuardedPhase V E
  | some answer => .outside (.returned answer .own)
  | none => .gone

/-- The count of stores, where the flight ends without a value. -/
def outcomeOf (stores : Nat) : Option (Except E V) → Option Nat
  | some (.ok _) => none
  | _ => some stores

def Guarded.with (s : Guarded τ K V) (finished : Monitor τ) : Guarded τ K V :=
  { s with finished := finished }

/-- One turn of `wait_timeout_while`, under the mutex. -/
def testKey (t : τ) (key : K) (since : Int) (s : Guarded τ K V) :
    Guarded τ K V × GuardedPhase V E :=
  if (s.flights.inFlight key).isNone then (s, .leaving (s.flights.failedAt key))
  else if MAX_WAIT < s.flights.clock - since then (s, .leaving none)
  else (s.with (s.finished.sleep t), .sleeping since)

section

variable [DecidableEq K]

/-- `begin_or_wait` under the mutex, up to its first look at the wait. -/
def insertKey (t : τ) (key : K) (look : Nat) (s : Guarded τ K V) :
    Guarded τ K V × GuardedPhase V E :=
  if (s.flights.inFlight key).isNone then
    ({ s with
        flights := { s.flights with inFlight := Function.update s.flights.inFlight key (some t) } },
      .taken look)
  else (s, .testing s.flights.clock)

/-- `in_flight.remove`. -/
def removeKey (t : τ) (key : K) (answer : Option (Except E V)) (s : Guarded τ K V) :
    Guarded τ K V :=
  { s with
    flights := s.flights.release true key (outcomeOf s.flights.stores answer)
    due := t :: s.due }

/-- A step outside of the mutex and the condition variable. -/
def outsideAct (routine : Routine) (refusal : K → E) (call : τ → Call K) (t : τ)
    (m : GuardedMove V E) (s : Guarded τ K V) (l : Phase V E) :
    Option (Guarded τ K V × GuardedPhase V E) :=
  match m with
  | .go =>
      match l.underMutex with
      | some l' => (s.finished.lock t).map fun finished => (s.with finished, l')
      | none => (act routine refusal call t .go s.flights l).map fun p =>
          ({ s with flights := p.1 }, .outside p.2)
  | .rouse => none
  | .refresh outcome =>
      (act routine refusal call t (.refresh outcome) s.flights l).map fun p =>
        ({ s with flights := p.1 }, .outside p.2)
  | .abandon => if l.mayBeAbandoned then some (s, if l.holds then .dropping else .gone) else none

/-- One step of caller `t`. -/
def guardedAct [DecidableEq τ] (routine : Routine) (refusal : K → E) (call : τ → Call K) (t : τ)
    (m : GuardedMove V E) (s : Guarded τ K V) (l : GuardedPhase V E) :
    Option (Guarded τ K V × GuardedPhase V E) :=
  match l, m with
  | .outside l, m => outsideAct routine refusal call t m s l
  | .locked look, .go => some (insertKey t (call t).key look s)
  | .taken look, .go => some (s.with s.finished.unlock, .outside (.owning look))
  | .testing since, .go => some (testKey t (call t).key since s)
  -- woken by a notification, or by the timeout or for no reason
  | .sleeping since, .go => if t ∈ s.finished.asleep then none else some (s, .waking since)
  | .sleeping since, .rouse => some (s.with (s.finished.rouse t), .waking since)
  | .waking since, .go =>
      (s.finished.lock t).map fun finished => (s.with finished, .testing since)
  | .leaving cause, .go => some (s.with s.finished.unlock, .outside (.woken cause))
  | .dropping, .go => (s.finished.lock t).map fun finished => (s.with finished, .removing none)
  | .removing answer, .go => some (removeKey t (call t).key answer s, .removed answer)
  -- the mutex is given up before the notification
  | .removed answer, .go => some (s.with s.finished.unlock, .notifying answer)
  | .notifying answer, .go =>
      some ({ s.with s.finished.notifyAll with due := s.due.filter (· ≠ t) }, afterDrop answer)
  | _, _ => none

/-- The callers of one cache, and a clock that does not go back. -/
def guarded [DecidableEq τ] (routine : Routine) (refusal : K → E) (call : τ → Call K) :
    System τ (GuardedMove V E) Nat (Guarded τ K V) (GuardedPhase V E) where
  act := guardedAct routine refusal call
  env := fun ms s => some { s with flights := { s.flights with clock := s.flights.clock + ms } }

end

/-- Nobody has called yet; the cache may hold values from before. -/
def guardedInitial (clock : Int) (cache : K → Option (Stamped V)) :
    Config τ (Guarded τ K V) (GuardedPhase V E) where
  shared := ⟨(initial (E := E) clock cache).shared, .new, []⟩
  locals := fun _ => .outside .entered

/-! ### What a caller holds -/

/-- The phases under the mutex. -/
def GuardedPhase.inside : GuardedPhase V E → Bool
  | .locked _ => true
  | .taken _ => true
  | .testing _ => true
  | .leaving _ => true
  | .removing _ => true
  | .removed _ => true
  | _ => false

def GuardedPhase.dozes : GuardedPhase V E → Bool
  | .sleeping _ => true
  | _ => false

/-- The phases in which the caller's key is in the set. -/
def GuardedPhase.holds : GuardedPhase V E → Bool
  | .outside l => l.holds
  | .taken _ => true
  | .dropping => true
  | .removing _ => true
  | _ => false

/-- The key is out of the set, and the sleepers have not been told. -/
def GuardedPhase.owes : GuardedPhase V E → Bool
  | .removed _ => true
  | .notifying _ => true
  | _ => false

/-- Nothing stands for a wait without the monitor. -/
def GuardedPhase.Proper (l : GuardedPhase V E) : Prop := l ≠ .outside .waiting

/-- The key is in flight, or a notification is due for it. -/
def Awaited (call : τ → Call K) (s : Guarded τ K V) (key : K) : Prop :=
  (s.flights.inFlight key).isSome = true ∨ ∃ u ∈ s.due, (call u).key = key

/-- What caller `t` knows of the shared state, wherever it stands. -/
structure KnowsGuarded (call : τ → Call K) (t : τ) (s : Guarded τ K V) (l : GuardedPhase V E) :
    Prop where
  stands : Monitor.Stands t l.inside l.dozes s.finished
  holder : ∀ k, s.flights.inFlight k = some t ↔ k = (call t).key ∧ l.holds = true
  due : t ∈ s.due ↔ l.owes = true
  awaited : t ∈ s.finished.asleep → Awaited call s (call t).key
  proper : l.Proper

/-- What a step leaves to the other callers: whoever may sleep on has a reason still. -/
structure YieldsGuarded (call : τ → Call K) (o : Option τ) (s s' : Guarded τ K V) : Prop where
  finished : Monitor.Yields o s.finished s'.finished
  holder : ∀ k u, o ≠ some u → (s'.flights.inFlight k = some u ↔ s.flights.inFlight k = some u)
  due : ∀ u, o ≠ some u → (u ∈ s'.due ↔ u ∈ s.due)
  awaited : ∀ k, Awaited call s k → Awaited call s' k ∨ s'.finished.asleep = []

variable {call : τ → Call K} {t : τ} {o : Option τ} {s s' : Guarded τ K V}
  {l l' : GuardedPhase V E}

/-- What a caller knows, no step of another can undo. -/
theorem KnowsGuarded.stable (h : KnowsGuarded call t s l) (hyields : YieldsGuarded call o s s')
    (hne : o ≠ some t) : KnowsGuarded call t s' l where
  stands := h.stands.stable hyields.finished hne
  holder := fun k => (hyields.holder k t hne).trans (h.holder k)
  due := (hyields.due t hne).trans h.due
  awaited := by
    intro hmem
    have hbefore := h.awaited (hyields.finished.sleep t hne hmem)
    rcases hyields.awaited _ hbefore with hstill | hnone
    · exact hstill
    · rw [hnone] at hmem
      cases hmem
  proper := h.proper

/-- What a step keeps, whoever takes it. -/
structure StepKeeps (call : τ → Call K) (t : τ) (s s' : Guarded τ K V) (l' : GuardedPhase V E) :
    Prop where
  knows : KnowsGuarded call t s' l'
  yields : YieldsGuarded call (some t) s s'

/-- A step that leaves the set, the mutex and the sleepers alone. -/
theorem KnowsGuarded.moves (h : KnowsGuarded call t s l)
    (hflights : s'.flights.inFlight = s.flights.inFlight) (hfinished : s'.finished = s.finished)
    (hdue : s'.due = s.due) (hinside : l'.inside = l.inside) (hdozes : l'.dozes = l.dozes)
    (hholds : l'.holds = l.holds) (howes : l'.owes = l.owes) (hproper : l'.Proper) :
    StepKeeps call t s s' l' := by
  have hsame : ∀ k, Awaited call s k → Awaited call s' k := by
    intro k hk
    unfold Awaited at hk ⊢
    rwa [hflights, hdue]
  refine ⟨⟨?_, ?_, ?_, ?_, hproper⟩, ?_, ?_, ?_, fun k hk => Or.inl (hsame k hk)⟩
  · rw [hinside, hdozes, hfinished]
    exact h.stands
  · rw [hflights, hholds]
    exact h.holder
  · rw [hdue, howes]
    exact h.due
  · rw [hfinished]
    exact fun hmem => hsame _ (h.awaited hmem)
  · rw [hfinished]
    exact .refl _ _
  · rw [hflights]
    exact fun _ _ _ => Iff.rfl
  · rw [hdue]
    exact fun _ _ => Iff.rfl

/-- A step of the monitor that leaves the set alone. -/
theorem KnowsGuarded.turns (h : KnowsGuarded call t s l) {finished : Monitor τ}
    (hyields : Monitor.Yields (some t) s.finished finished)
    (hstands : Monitor.Stands t l'.inside l'.dozes finished)
    (hawaited : t ∈ finished.asleep → Awaited call s (call t).key)
    (hholds : l'.holds = l.holds) (howes : l'.owes = l.owes) (hproper : l'.Proper) :
    StepKeeps call t s (s.with finished) l' where
  knows :=
    { stands := hstands
      holder := by
        rw [hholds]
        exact h.holder
      due := by
        rw [howes]
        exact h.due
      awaited := hawaited
      proper := hproper }
  yields :=
    { finished := hyields
      holder := fun _ _ _ => Iff.rfl
      due := fun _ _ => Iff.rfl
      awaited := fun _ hk => Or.inl hk }

theorem KnowsGuarded.locks (h : KnowsGuarded call t s l) {finished : Monitor τ}
    (hlock : s.finished.lock t = some finished) (houtside : l.inside = false)
    (hinside : l'.inside = true) (hdozes : l'.dozes = l.dozes)
    (hholds : l'.holds = l.holds) (howes : l'.owes = l.owes) (hproper : l'.Proper) :
    StepKeeps call t s (s.with finished) l' := by
  apply h.turns (Monitor.lock_yields hlock) _ _ hholds howes hproper
  · have hstands := h.stands
    rw [houtside] at hstands
    rw [hinside, hdozes]
    exact Monitor.lock_stands hlock hstands
  · obtain ⟨-, rfl⟩ := Monitor.lock_eq_some_iff.mp hlock
    exact h.awaited

theorem KnowsGuarded.unlocks (h : KnowsGuarded call t s l) (hinside : l.inside = true)
    (houtside : l'.inside = false) (hdozes : l'.dozes = l.dozes)
    (hholds : l'.holds = l.holds) (howes : l'.owes = l.owes) (hproper : l'.Proper) :
    StepKeeps call t s (s.with s.finished.unlock) l' := by
  have hstands := h.stands
  rw [hinside] at hstands
  apply h.turns (Monitor.unlock_yields hstands) _ h.awaited hholds howes hproper
  rw [houtside, hdozes]
  exact Monitor.unlock_stands hstands

/-! ### The steps -/

/-- The steps that a caller has before it, at the most. -/
def Phase.ahead : Phase V E → Nat
  | .entered => 20
  | .timed _ => 19
  | .checked _ => 18
  | .waiting => 12
  | .woken _ => 11
  | .retimed _ _ => 10
  | .stale _ => 9
  | .owning _ => 8
  | .alone _ => 8
  | .refreshing _ => 7
  | .fetched _ _ => 6
  | .stamped _ _ _ => 5
  | .stored _ _ => 4
  | .failed _ _ => 4
  | .returned _ _ => 0

theorem Phase.underMutex_spec {l : Phase V E} (hl : l.underMutex = some l') :
    l'.inside = true ∧ l'.dozes = false ∧ l'.holds = l.holds ∧ l'.owes = false ∧ l'.Proper := by
  unfold Phase.underMutex at hl
  split at hl
  · cases hl
    exact ⟨rfl, rfl, rfl, rfl, nofun⟩
  · cases hl
    exact ⟨rfl, rfl, rfl, rfl, nofun⟩
  · cases hl
    exact ⟨rfl, rfl, rfl, rfl, nofun⟩
  · cases hl

theorem testKey_keeps {since : Int} (h : KnowsGuarded call t s (.testing since : GuardedPhase V E))
    (hs : testKey t (call t).key since s = (s', l')) : StepKeeps call t s s' l' := by
  unfold testKey at hs
  split at hs
  · cases hs
    exact h.moves rfl rfl rfl rfl rfl rfl rfl nofun
  · rename_i hbusy
    split at hs
    · cases hs
      exact h.moves rfl rfl rfl rfl rfl rfl rfl nofun
    · cases hs
      -- whoever goes to sleep has just seen its key in the set
      refine h.turns (Monitor.sleep_yields h.stands) Monitor.sleep_stands ?_ rfl rfl nofun
      intro _
      left
      rw [Option.isNone_iff_eq_none] at hbusy
      exact Option.isSome_iff_ne_none.mpr hbusy

theorem notify_keeps [DecidableEq τ] {answer : Option (Except E V)}
    (h : KnowsGuarded call t s (.notifying answer)) :
    StepKeeps call t s { s.with s.finished.notifyAll with due := s.due.filter (· ≠ t) }
      (afterDrop answer : GuardedPhase V E) := by
  have hplace : (afterDrop answer : GuardedPhase V E).inside = false ∧
      (afterDrop answer : GuardedPhase V E).dozes = false ∧
      (afterDrop answer : GuardedPhase V E).holds = false ∧
      (afterDrop answer : GuardedPhase V E).owes = false ∧
      (afterDrop answer : GuardedPhase V E).Proper := by
    rcases answer with _ | answer
    · exact ⟨rfl, rfl, rfl, rfl, nofun⟩
    · exact ⟨rfl, rfl, rfl, rfl, nofun⟩
  obtain ⟨hinside, hdozes, hholds, howes, hproper⟩ := hplace
  refine ⟨⟨?_, ?_, ?_, fun hmem => (by cases hmem), hproper⟩, Monitor.notifyAll_yields,
    fun _ _ _ => Iff.rfl, ?_, fun _ _ => Or.inr rfl⟩
  · rw [hinside, hdozes]
    exact Monitor.notifyAll_stands h.stands
  · rw [hholds]
    exact h.holder
  · rw [howes, List.mem_filter]
    simp
  · intro u hne
    rw [List.mem_filter]
    have hother : u ≠ t := fun heq => hne (by rw [heq])
    simp [hother]

variable [DecidableEq K]

/-- What the atomic steps between two uses of the set leave of it, and how far they lead. -/
theorem act_outside {routine : Routine} {refusal : K → E} {m : Move V E}
    {f f' : Shared τ K V} {l l' : Phase V E} (hl : l.underMutex = none)
    (hact : act routine refusal call t m f l = some (f', l')) :
    f'.inFlight = f.inFlight ∧ l'.holds = l.holds ∧ l' ≠ .waiting ∧ l'.ahead < l.ahead := by
  unfold act at hact
  cases l with
  | entered =>
    cases m <;> cases hact
    exact ⟨rfl, rfl, nofun, by simp [Phase.ahead]⟩
  | timed now =>
    cases m <;> cases hact
    unfold check
    split
    · split
      · exact ⟨rfl, rfl, nofun, by simp [Phase.ahead]⟩
      · exact ⟨rfl, rfl, nofun, by simp [Phase.ahead]⟩
    · split
      · exact ⟨rfl, rfl, nofun, by simp [Phase.ahead]⟩
      · exact ⟨rfl, rfl, nofun, by simp [Phase.ahead]⟩
  | checked look => cases hl
  | waiting =>
    cases m with
    | go =>
      dsimp only at hact
      split at hact
      · cases hact
        exact ⟨rfl, rfl, nofun, by simp [Phase.ahead]⟩
      · cases hact
    | timeOut =>
      cases hact
      exact ⟨rfl, rfl, nofun, by simp [Phase.ahead]⟩
    | refresh outcome => cases hact
  | woken cause =>
    cases m with
    | go =>
      dsimp only at hact
      split at hact
      · cases hact
        exact ⟨rfl, rfl, nofun, by simp [Phase.ahead]⟩
      · cases hact
        unfold rereadAny
        split
        · exact ⟨rfl, rfl, nofun, by simp [Phase.ahead]⟩
        · exact ⟨rfl, rfl, nofun, by simp [Phase.ahead]⟩
    | _ => cases hact
  | retimed cause now =>
    cases m <;> cases hact
    unfold rereadFresh
    split
    · split
      · exact ⟨rfl, rfl, nofun, by simp [Phase.ahead]⟩
      · exact ⟨rfl, rfl, nofun, by simp [Phase.ahead]⟩
    · exact ⟨rfl, rfl, nofun, by simp [Phase.ahead]⟩
  | stale cause =>
    cases m <;> cases hact
    unfold rereadAny
    split
    · exact ⟨rfl, rfl, nofun, by simp [Phase.ahead]⟩
    · exact ⟨rfl, rfl, nofun, by simp [Phase.ahead]⟩
  | owning look =>
    cases m <;> cases hact
    exact ⟨rfl, rfl, nofun, by simp [Phase.ahead]⟩
  | alone look =>
    cases m <;> cases hact
    exact ⟨rfl, rfl, nofun, by simp [Phase.ahead]⟩
  | refreshing held =>
    cases m with
    | refresh outcome =>
      rcases outcome with e | v
      · cases hact
        exact ⟨rfl, rfl, nofun, by simp [Phase.ahead]⟩
      · cases hact
        exact ⟨rfl, rfl, nofun, by simp [Phase.ahead]⟩
    | _ => cases hact
  | fetched held v =>
    cases m with
    | go =>
      dsimp only at hact
      split at hact
      · cases hact
        exact ⟨rfl, rfl, nofun, by simp [Phase.ahead]⟩
      · rename_i halone
        cases hact
        rw [Bool.or_eq_true, not_or, Bool.not_eq_true] at halone
        exact ⟨rfl, halone.1.symm, nofun, by simp [Phase.ahead]⟩
    | _ => cases hact
  | stamped held v now =>
    cases m <;> cases hact
    exact ⟨rfl, rfl, nofun, by simp [Phase.ahead]⟩
  | stored held v =>
    cases m <;> cases hact
    cases held with
    | false => exact ⟨rfl, rfl, nofun, by simp [Phase.ahead]⟩
    | true => cases hl
  | failed held e =>
    cases m <;> cases hact
    cases held with
    | false => exact ⟨rfl, rfl, nofun, by simp [Phase.ahead]⟩
    | true => cases hl
  | returned answer origin => cases m <;> cases hact

theorem insertKey_keeps {look : Nat} (h : KnowsGuarded call t s (.locked look : GuardedPhase V E))
    (hs : insertKey t (call t).key look s = (s', l')) : StepKeeps call t s s' l' := by
  unfold insertKey at hs
  split at hs
  · rename_i hfree
    cases hs
    rw [Option.isNone_iff_eq_none] at hfree
    have hother : ∀ k u, some t ≠ some u →
        (Function.update s.flights.inFlight (call t).key (some t) k = some u ↔
          s.flights.inFlight k = some u) := by
      intro k u hne
      by_cases hk : k = (call t).key
      · rw [hk, Function.update_self, hfree]
        exact ⟨fun hu => absurd hu hne, fun hu => (by cases hu)⟩
      · rw [Function.update_of_ne hk]
    have hkeeps : ∀ k, Awaited call s k → (Function.update s.flights.inFlight (call t).key (some t)
        k).isSome = true ∨ ∃ u ∈ s.due, (call u).key = k := by
      intro k hk
      by_cases hkey : k = (call t).key
      · rw [hkey, Function.update_self]
        exact Or.inl rfl
      · rw [Function.update_of_ne hkey]
        exact hk
    refine ⟨⟨h.stands, ?_, h.due, fun hmem => hkeeps _ (h.awaited hmem), nofun⟩,
      .refl _ _, hother, fun _ _ => Iff.rfl, fun k hk => Or.inl (hkeeps k hk)⟩
    intro k
    change Function.update s.flights.inFlight (call t).key (some t) k = some t ↔ _
    by_cases hk : k = (call t).key
    · rw [hk, Function.update_self]
      exact ⟨fun _ => ⟨rfl, rfl⟩, fun _ => rfl⟩
    · rw [Function.update_of_ne hk, h.holder k]
      exact ⟨fun hmine => absurd hmine.1 hk, fun hmine => absurd hmine.1 hk⟩
  · cases hs
    exact h.moves rfl rfl rfl rfl rfl rfl rfl nofun

theorem removeKey_keeps {answer : Option (Except E V)}
    (h : KnowsGuarded call t s (.removing answer)) :
    StepKeeps call t s (removeKey t (call t).key answer s) (.removed answer) := by
  have hmine : s.flights.inFlight (call t).key = some t := (h.holder _).mpr ⟨rfl, rfl⟩
  have hother : ∀ k u, some t ≠ some u →
      (Function.update s.flights.inFlight (call t).key none k = some u ↔
        s.flights.inFlight k = some u) := by
    intro k u hne
    by_cases hk : k = (call t).key
    · rw [hk, Function.update_self, hmine]
      exact ⟨fun hu => (by cases hu), fun hu => absurd hu hne⟩
    · rw [Function.update_of_ne hk]
  -- whoever slept behind the key is owed a notification from here on
  have hkeeps : ∀ k, Awaited call s k → (Function.update s.flights.inFlight (call t).key none
      k).isSome = true ∨ ∃ u ∈ t :: s.due, (call u).key = k := by
    intro k hk
    by_cases hkey : k = (call t).key
    · exact Or.inr ⟨t, List.mem_cons_self, hkey.symm⟩
    · rw [Function.update_of_ne hkey]
      exact hk.imp_right fun ⟨u, hu, hkey⟩ => ⟨u, List.mem_cons_of_mem _ hu, hkey⟩
  refine ⟨⟨h.stands, ?_, ?_, fun hmem => hkeeps _ (h.awaited hmem), nofun⟩,
    .refl _ _, hother, ?_, fun k hk => Or.inl (hkeeps k hk)⟩
  · intro k
    change Function.update s.flights.inFlight (call t).key none k = some t ↔ _
    by_cases hk : k = (call t).key
    · rw [hk, Function.update_self]
      exact ⟨fun hnone => (by cases hnone), fun hmine => (by cases hmine.2)⟩
    · rw [Function.update_of_ne hk, h.holder k]
      exact ⟨fun hmine => absurd hmine.1 hk, fun hmine => absurd hmine.1 hk⟩
  · exact ⟨fun _ => rfl, fun _ => List.mem_cons_self⟩
  · intro u hne
    constructor
    · intro hu
      rcases List.mem_cons.mp hu with rfl | hu
      · exact absurd rfl hne
      · exact hu
    · exact List.mem_cons_of_mem _

variable [DecidableEq τ]

omit [DecidableEq τ] in
theorem outsideAct_keeps {routine : Routine} {refusal : K → E} {m : GuardedMove V E}
    {l : Phase V E} (h : KnowsGuarded call t s (.outside l))
    (hact : outsideAct routine refusal call t m s l = some (s', l')) :
    StepKeeps call t s s' l' := by
  unfold outsideAct at hact
  cases m with
  | go =>
    dsimp only at hact
    split at hact
    · rename_i l'' hunder
      obtain ⟨finished, hlock, hs⟩ := Option.map_eq_some_iff.mp hact
      cases hs
      obtain ⟨hinside, hdozes, hholds, howes, hproper'⟩ := Phase.underMutex_spec hunder
      exact h.locks hlock rfl hinside hdozes hholds howes hproper'
    · rename_i hunder
      obtain ⟨⟨f, l''⟩, hp, hs⟩ := Option.map_eq_some_iff.mp hact
      cases hs
      obtain ⟨hset, hholds, hproper', -⟩ := act_outside hunder hp
      exact h.moves hset rfl rfl rfl rfl hholds rfl fun hwaits =>
        hproper' (GuardedPhase.outside.inj hwaits)
  | rouse => cases hact
  | refresh outcome =>
    obtain ⟨⟨f, l''⟩, hp, hs⟩ := Option.map_eq_some_iff.mp hact
    cases hs
    have hunder : l.underMutex = none := by
      cases l <;> first | rfl | cases hp
    obtain ⟨hset, hholds, hproper', -⟩ := act_outside hunder hp
    exact h.moves hset rfl rfl rfl rfl hholds rfl fun hwaits =>
      hproper' (GuardedPhase.outside.inj hwaits)
  | abandon =>
    dsimp only at hact
    split at hact
    · cases hact
      by_cases hholds : l.holds = true
      · rw [if_pos hholds]
        exact h.moves rfl rfl rfl rfl rfl hholds.symm rfl nofun
      · rw [if_neg hholds]
        rw [Bool.not_eq_true] at hholds
        exact h.moves rfl rfl rfl rfl rfl hholds.symm rfl nofun
    · cases hact

theorem guardedAct_keeps {routine : Routine} {refusal : K → E} {m : GuardedMove V E}
    (h : KnowsGuarded call t s l)
    (hact : guardedAct routine refusal call t m s l = some (s', l')) :
    StepKeeps call t s s' l' := by
  cases l with
  | outside l =>
    have hout : outsideAct routine refusal call t m s l = some (s', l') := by
      cases m <;> exact hact
    exact outsideAct_keeps h hout
  | sleeping since =>
    cases m with
    | go =>
      simp only [guardedAct] at hact
      split at hact
      · cases hact
      · rename_i hawake
        cases hact
        exact h.turns (.refl _ _) (h.stands.awake hawake) (fun hmem => absurd hmem hawake)
          rfl rfl nofun
    | rouse =>
      cases hact
      refine h.turns Monitor.rouse_yields (Monitor.rouse_stands h.stands) ?_ rfl rfl nofun
      exact fun hmem => h.awaited (List.mem_filter.mp hmem).1
    | _ => cases hact
  | gone => cases m <;> cases hact
  | locked look =>
    cases m with
    | go => exact insertKey_keeps h (Option.some.inj hact)
    | _ => cases hact
  | taken look =>
    cases m <;> cases hact
    exact h.unlocks rfl rfl rfl rfl rfl nofun
  | testing since =>
    cases m with
    | go => exact testKey_keeps h (Option.some.inj hact)
    | _ => cases hact
  | waking since =>
    cases m with
    | go =>
      obtain ⟨finished, hlock, hs⟩ := Option.map_eq_some_iff.mp hact
      cases hs
      exact h.locks hlock rfl rfl rfl rfl rfl nofun
    | _ => cases hact
  | leaving cause =>
    cases m <;> cases hact
    exact h.unlocks rfl rfl rfl rfl rfl nofun
  | dropping =>
    cases m with
    | go =>
      obtain ⟨finished, hlock, hs⟩ := Option.map_eq_some_iff.mp hact
      cases hs
      exact h.locks hlock rfl rfl rfl rfl rfl nofun
    | _ => cases hact
  | removing answer =>
    cases m <;> cases hact
    exact removeKey_keeps h
  | removed answer =>
    cases m <;> cases hact
    exact h.unlocks rfl rfl rfl rfl rfl nofun
  | notifying answer =>
    cases m <;> cases hact
    exact notify_keeps h

/-- The outline of every proof about the callers of one cache under the mutex. -/
theorem guarded_outline (routine : Routine) (refusal : K → E) (call : τ → Call K) :
    Outline (guarded (V := V) routine refusal call) (fun _ _ _ _ => True) (fun _ => True)
      (KnowsGuarded call) (YieldsGuarded call) where
  act := fun _ hknows _ hact =>
    have hkeeps := guardedAct_keeps hknows hact
    ⟨trivial, hkeeps.knows, hkeeps.yields⟩
  env := by
    intro ms s s' _ henv
    simp only [guarded, Option.some.injEq] at henv
    subst henv
    exact ⟨trivial, .refl _ _, fun _ _ _ => Iff.rfl, fun _ _ => Iff.rfl, fun _ hk => Or.inl hk⟩
  stable := fun hne _ hknows hyields => hknows.stable hyields hne

variable {routine : Routine} {refusal : K → E} {clock : Int} {cache : K → Option (Stamped V)}
  {c : Config τ (Guarded τ K V) (GuardedPhase V E)}

theorem reachable_knowsGuarded
    (h : (guarded routine refusal call).Reachable (guardedInitial clock cache) c) (t : τ) :
    KnowsGuarded call t c.shared (c.locals t) := by
  have hstart : ∀ u, KnowsGuarded call u
      (guardedInitial (τ := τ) (E := E) clock cache).shared
      (.outside .entered : GuardedPhase V E) := by
    intro u
    refine ⟨Monitor.stands_new, ?_, ?_, fun hmem => (by cases hmem), nofun⟩
    · intro k
      exact ⟨fun hk => (by cases hk), fun hk => (by cases hk.2)⟩
    · exact ⟨fun hmem => (by cases hmem), fun howes => (by cases howes)⟩
  exact ((guarded_outline routine refusal call).reached trivial hstart h).2 t

/-! ### Who waits, and for whom -/

/-- A key is in the set exactly while a caller holds its flight. -/
theorem inFlight_iff (h : (guarded routine refusal call).Reachable (guardedInitial clock cache) c)
    (k : K) : (c.shared.flights.inFlight k).isSome = true ↔
      ∃ t, (call t).key = k ∧ (c.locals t).holds = true := by
  have hknows := reachable_knowsGuarded h
  rw [Option.isSome_iff_exists]
  constructor
  · rintro ⟨t, ht⟩
    obtain ⟨hk, hholds⟩ := ((hknows t).holder k).mp ht
    exact ⟨t, hk.symm, hholds⟩
  · rintro ⟨t, hk, hholds⟩
    exact ⟨t, ((hknows t).holder k).mpr ⟨hk.symm, hholds⟩⟩

/-- Whoever sleeps has a caller to wait for. -/
theorem asleep_awaits
    (h : (guarded routine refusal call).Reachable (guardedInitial clock cache) c) {t : τ}
    (hmem : t ∈ c.shared.finished.asleep) :
    ∃ u, (call u).key = (call t).key ∧
      ((c.locals u).holds = true ∨ (c.locals u).owes = true) := by
  have hknows := reachable_knowsGuarded h
  rcases (hknows t).awaited hmem with hbusy | ⟨u, hu, hkey⟩
  · obtain ⟨u, hkey, hholds⟩ := (inFlight_iff h _).mp hbusy
    exact ⟨u, hkey, Or.inl hholds⟩
  · exact ⟨u, hkey, Or.inr ((hknows u).due.mp hu)⟩

/-- **A key is in flight exactly while one guard for it lives, and nobody sleeps for nothing.**
    In every order of the steps of any callers, with wake-ups for no reason, panics and
    dropped requests: one caller at most is under the mutex; a key is in the set exactly
    while a caller holds its flight, and no two hold it; and whoever sleeps sleeps behind a
    caller that holds the flight of its key, or that has given it up and is about to notify. -/
theorem no_wakeup_lost
    (h : (guarded routine refusal call).Reachable (guardedInitial clock cache) c) :
    (∀ t u, (c.locals t).inside = true → (c.locals u).inside = true → t = u) ∧
    (∀ k, (c.shared.flights.inFlight k).isSome = true ↔
      ∃ t, (call t).key = k ∧ (c.locals t).holds = true) ∧
    (∀ t u, (call t).key = (call u).key → (c.locals t).holds = true →
      (c.locals u).holds = true → t = u) ∧
    ∀ t ∈ c.shared.finished.asleep, (c.locals t).dozes = true ∧
      ∃ u, (call u).key = (call t).key ∧
        ((c.locals u).holds = true ∨ (c.locals u).owes = true) := by
  have hknows := reachable_knowsGuarded h
  refine ⟨?_, inFlight_iff h, ?_, ?_⟩
  · intro t u ht hu
    have hstands := (hknows t).stands
    have hstands' := (hknows u).stands
    rw [ht] at hstands
    rw [hu] at hstands'
    exact hstands.exclusive hstands'
  · intro t u hkey ht hu
    have hmine := ((hknows t).holder _).mpr ⟨rfl, ht⟩
    rw [((hknows u).holder _).mpr ⟨hkey, hu⟩] at hmine
    exact (Option.some.inj hmine).symm
  · intro t hmem
    exact ⟨(hknows t).stands.sleep hmem, asleep_awaits h hmem⟩

/-- Two callers of one snapshot, with nothing cached, by a ttl of 8000. -/
def guardedPair :
    System Bool (GuardedMove Nat String) Nat (Guarded Bool Unit Nat) (GuardedPhase Nat String) :=
  guarded .cachedOrRefresh (fun _ => "not read") fun _ => ⟨(), some 8000⟩

def goes (n : Nat) (t : Bool) : List (Event Bool (GuardedMove Nat String) Nat) :=
  List.replicate n (.act t .go)

/-- The second caller sleeps behind the first, whose refresh panics. -/
def sleepsBehind : List (Event Bool (GuardedMove Nat String) Nat) :=
  goes 6 false ++ goes 5 true

def cutOff : List (Event Bool (GuardedMove Nat String) Nat) :=
  sleepsBehind ++ .act false .abandon :: goes 2 false

theorem cutOff_tells : ∃ c,
    guardedPair.replay (guardedInitial 10000 fun _ => none) cutOff = some c ∧
    c.shared.flights.inFlight () = none ∧ true ∈ c.shared.finished.asleep ∧
      ∃ u, (c.locals u).holds = true ∨ (c.locals u).owes = true := by
  have hruns : ∃ c, guardedPair.replay (guardedInitial 10000 fun _ => none) cutOff = some c ∧
      c.shared.flights.inFlight () = none ∧ c.shared.finished.asleep = [true] := ⟨_, rfl, rfl, rfl⟩
  obtain ⟨c, hreplay, hfree, hasleep⟩ := hruns
  have hmem : true ∈ c.shared.finished.asleep := by
    rw [hasleep]
    exact List.mem_singleton_self _
  obtain ⟨-, u, -, hreason⟩ :=
    (no_wakeup_lost (System.replay_reachable cutOff .start hreplay)).2.2.2 true hmem
  exact ⟨c, hreplay, hfree, hmem, u, hreason⟩

end Arne.Cluster
