import Arne.Cluster.Groups
import Arne.Lib.Interleaving

/-!
# Reading through a cache behind a flight (`cluster/snapshot.rs`, `cluster/single_flight.rs`)

A caller looks into the cache; finding nothing young enough it takes the key's flight and
refreshes, or, when another holds the flight, waits and looks again.  Each look, the
taking and the release of the flight, each reading of the clock and each store is one
atomic step, and the steps of any number of callers interleave.
-/

namespace Arne.Cluster

open Arne.Interleaving

/-- The functions that read through a cache behind a flight. -/
inductive Routine where
  | cachedOrRefresh
  | topicDetail
  | groupDetail
  | groupLagCached
  | groupDescriptionCached
deriving DecidableEq, Repr

/-- After a wait `cached_or_refresh` looks for a fresh value before it takes any; the
    others take any at once. -/
def Routine.rereadsFresh : Routine → Bool
  | .cachedOrRefresh => true
  | _ => false

/-- What a refresh without the flight brings: `cached_or_refresh` does not store it. -/
def Routine.storesAlone : Routine → Bool
  | .cachedOrRefresh => false
  | _ => true

/-- A keyed cache drops entries of this age at a store; a snapshot is kept for good. -/
def Routine.horizon : Routine → Option Int
  | .cachedOrRefresh => none
  | .groupLagCached => some evictAgeMs
  | _ => some 600000

/-- One call: the key, and how old a value may be; without a ttl nothing is read. -/
structure Call (K : Type) where
  key : K
  ttl : Option Int
deriving DecidableEq, Repr

/-- A cached value, with a serial number the code does not have: the count of stores. -/
structure Entry (V : Type) extends Stamped V where
  serial : Nat
deriving DecidableEq, Repr

/-- `now - at < ttl`. -/
def Entry.young {V : Type} (e : Entry V) (ttl : Option Int) (now : Int) : Bool :=
  ttl.any fun t => decide (now - e.sampledAt < t)

/-- A refresh that was started: when, by what ttl, how many values had been stored at the
    caller's last look at the cache, and what the cache held. -/
structure Start (K V : Type) where
  key : K
  ttl : Option Int
  now : Int
  look : Nat
  cached : Option (Entry V)
deriving DecidableEq, Repr

/-- What the callers share.  The code's set of keys in flight is here a map to the callers
    that hold them; `stores`, `failedAt` and `starts` record the run. -/
structure Shared (τ K V : Type) where
  clock : Int
  cache : K → Option (Entry V)
  inFlight : K → Option τ
  stores : Nat
  /-- The count of stores when the key's last flight ended, if it ended in a failure. -/
  failedAt : K → Option Nat
  starts : List (Start K V)

/-- Where a caller's answer is from: an entry it read, at what time and after which failed
    refresh, or a read of its own. -/
inductive Origin (V : Type) where
  | cached (entry : Entry V) (now : Int) (cause : Option Nat)
  | own
deriving DecidableEq, Repr

/-- How far a caller has come.  `look` is the count of stores at its last look, `held`
    whether it refreshes under the flight, `cause` the failed refresh that ended its wait. -/
inductive Phase (V E : Type) where
  | entered
  | timed (now : Int)
  | checked (look : Nat)
  | waiting
  | woken (cause : Option Nat)
  | retimed (cause : Option Nat) (now : Int)
  | stale (cause : Option Nat)
  | owning (look : Nat)
  | alone (look : Nat)
  | refreshing (held : Bool)
  | fetched (held : Bool) (value : V)
  | stamped (held : Bool) (value : V) (now : Int)
  | stored (held : Bool) (value : V)
  | failed (held : Bool) (error : E)
  | returned (answer : Except E V) (origin : Origin V)

/-- What is not up to the caller: whether its wait expires, and what its refresh gives. -/
inductive Move (V E : Type) where
  | go
  | timeOut
  | refresh (outcome : Except E V)

variable {τ K V E : Type} [DecidableEq K]

/-! ### The steps of a caller -/

/-- The first look: `fresh`, or without a ttl whatever is known. -/
def check (refusal : K → E) (call : Call K) (s : Shared τ K V) (now : Int) : Phase V E :=
  match s.cache call.key with
  | some e =>
      if call.ttl.isNone || e.young call.ttl now then .returned (.ok e.value) (.cached e now none)
      else .checked s.stores
  | none =>
      if call.ttl.isNone then .returned (.error (refusal call.key)) .own else .checked s.stores

/-- `begin_or_wait`, up to the wait. -/
def beginOrWait (t : τ) (key : K) (look : Nat) (s : Shared τ K V) : Shared τ K V × Phase V E :=
  match s.inFlight key with
  | none => ({ s with inFlight := Function.update s.inFlight key (some t) }, .owning look)
  | some _ => (s, .waiting)

/-- `fresh`, after the wait. -/
def rereadFresh (call : Call K) (cause : Option Nat) (s : Shared τ K V) (now : Int) : Phase V E :=
  match s.cache call.key with
  | some e =>
      if e.young call.ttl now then .returned (.ok e.value) (.cached e now cause) else .stale cause
  | none => .stale cause

/-- `any`, or `get`: the last look of a caller that waited. -/
def rereadAny (call : Call K) (cause : Option Nat) (s : Shared τ K V) : Phase V E :=
  match s.cache call.key with
  | some e => .returned (.ok e.value) (.cached e s.clock cause)
  | none => .alone s.stores

def Shared.start (call : Call K) (look : Nat) (s : Shared τ K V) : Shared τ K V :=
  { s with starts := s.starts ++ [⟨call.key, call.ttl, s.clock, look, s.cache call.key⟩] }

/-- `put`, or `insert` with its sweep. -/
def Shared.put (routine : Routine) (key : K) (value : V) (now : Int) (s : Shared τ K V) :
    Shared τ K V :=
  { s with
    stores := s.stores + 1
    cache := Function.update
      (fun k => (s.cache k).filter fun e =>
        routine.horizon.all fun h => decide (now - e.sampledAt < h))
      key (some ⟨⟨value, now⟩, s.stores + 1⟩) }

/-- The guard of the flight is dropped. -/
def Shared.release (held : Bool) (key : K) (outcome : Option Nat) (s : Shared τ K V) :
    Shared τ K V :=
  if held then
    { s with
      inFlight := Function.update s.inFlight key none
      failedAt := Function.update s.failedAt key outcome }
  else s

/-- One step of caller `t`. -/
def act (routine : Routine) (refusal : K → E) (call : τ → Call K) (t : τ) (m : Move V E)
    (s : Shared τ K V) (l : Phase V E) : Option (Shared τ K V × Phase V E) :=
  match l, m with
  | .entered, .go => some (s, .timed s.clock)
  | .timed now, .go => some (s, check refusal (call t) s now)
  | .checked look, .go => some (beginOrWait t (call t).key look s)
  -- woken once the key is out of the set; the condition variable may not wake it before
  | .waiting, .go =>
      if (s.inFlight (call t).key).isNone then some (s, .woken (s.failedAt (call t).key)) else none
  | .waiting, .timeOut => some (s, .woken none)
  | .woken cause, .go =>
      if routine.rereadsFresh then some (s, .retimed cause s.clock)
      else some (s, rereadAny (call t) cause s)
  | .retimed cause now, .go => some (s, rereadFresh (call t) cause s now)
  | .stale cause, .go => some (s, rereadAny (call t) cause s)
  -- `topic_detail` and `group_detail` look once more here, and use nothing of what they see
  | .owning look, .go => some (s.start (call t) look, .refreshing true)
  | .alone look, .go => some (s.start (call t) look, .refreshing false)
  | .refreshing held, .refresh (.ok v) => some (s, .fetched held v)
  | .refreshing held, .refresh (.error e) => some (s, .failed held e)
  | .fetched held v, .go =>
      if held || routine.storesAlone then some (s, .stamped held v s.clock)
      else some (s, .returned (.ok v) .own)
  | .stamped held v now, .go => some (s.put routine (call t).key v now, .stored held v)
  | .stored held v, .go => some (s.release held (call t).key none, .returned (.ok v) .own)
  | .failed held e, .go =>
      some (s.release held (call t).key (some s.stores), .returned (.error e) .own)
  | _, _ => none

/-- The callers of one cache, and a clock that does not go back. -/
def readThrough (routine : Routine) (refusal : K → E) (call : τ → Call K) :
    System τ (Move V E) Nat (Shared τ K V) (Phase V E) where
  act := act routine refusal call
  env := fun ms s => some { s with clock := s.clock + ms }

/-- Nobody has called yet; the cache may hold values from before. -/
def initial (clock : Int) (cache : K → Option (Stamped V)) : Config τ (Shared τ K V) (Phase V E) where
  shared :=
    { clock := clock
      cache := fun k => (cache k).map fun e => ⟨e, 0⟩
      inFlight := fun _ => none
      stores := 0
      failedAt := fun _ => none
      starts := [] }
  locals := fun _ => .entered

/-! ### What a step can do to the shared state -/

theorem Entry.young_mono {e : Entry V} {ttl : Option Int} {now now' : Int} (hle : now ≤ now')
    (h : e.young ttl now = false) : e.young ttl now' = false := by
  cases ttl with
  | none => rfl
  | some t =>
    simp only [Entry.young, Option.any_some, decide_eq_false_iff_not, not_lt] at h ⊢
    omega

/-- The most any step does, whoever takes it: time goes on, what appears in the cache is
    a later store than all before, and nobody takes a flight from its holder. -/
structure Evolves (o : Option τ) (s s' : Shared τ K V) : Prop where
  clock : s.clock ≤ s'.clock
  stores : s.stores ≤ s'.stores
  cache : ∀ k e, s'.cache k = some e → s.cache k = some e ∨ s.stores < e.serial
  inFlight : ∀ k u, s.inFlight k = some u → o ≠ some u → s'.inFlight k = some u

omit [DecidableEq K] in
theorem Evolves.refl (o : Option τ) (s : Shared τ K V) : Evolves o s s where
  clock := le_refl _
  stores := le_refl _
  cache := fun _ _ h => Or.inl h
  inFlight := fun _ _ h _ => h

omit [DecidableEq K] in
theorem Shared.start_evolves (o : Option τ) (call : Call K) (look : Nat) (s : Shared τ K V) :
    Evolves o s (s.start call look) where
  clock := le_refl _
  stores := le_refl _
  cache := fun _ _ h => Or.inl h
  inFlight := fun _ _ h _ => h

theorem Shared.put_cache {routine : Routine} {key k : K} {value : V} {now : Int}
    {s : Shared τ K V} {e : Entry V} (h : (s.put routine key value now).cache k = some e) :
    s.cache k = some e ∨ e.serial = s.stores + 1 := by
  simp only [Shared.put] at h
  by_cases hk : k = key
  · subst hk
    rw [Function.update_self, Option.some.injEq] at h
    exact Or.inr (by rw [← h])
  · rw [Function.update_of_ne hk] at h
    exact Or.inl (Option.filter_eq_some_iff.mp h).1

theorem Shared.put_evolves (o : Option τ) (routine : Routine) (key : K) (value : V) (now : Int)
    (s : Shared τ K V) : Evolves o s (s.put routine key value now) where
  clock := le_refl _
  stores := Nat.le_succ _
  cache := fun _ _ h => (Shared.put_cache h).imp_right fun hserial => by omega
  inFlight := fun _ _ h _ => h

/-- A guard is dropped by the caller that holds the flight. -/
theorem Shared.release_evolves {t : τ} {held : Bool} {key : K} {outcome : Option Nat}
    {s : Shared τ K V} (hheld : held = true → s.inFlight key = some t) :
    Evolves (some t) s (s.release held key outcome) := by
  unfold Shared.release
  cases held with
  | false => exact Evolves.refl _ s
  | true =>
    refine ⟨le_refl _, le_refl _, fun _ _ h => Or.inl h, ?_⟩
    intro k u hu hne
    by_cases hk : k = key
    · subst hk
      rw [hheld rfl] at hu
      exact absurd hu hne
    · simpa [Function.update_of_ne hk] using hu

/-- Taking the flight, or waiting for it: a holder is never displaced. -/
theorem beginOrWait_cases (t : τ) (key : K) (look : Nat) (s : Shared τ K V) :
    (beginOrWait (E := E) t key look s = (s, .waiting) ∨
      s.inFlight key = none ∧ beginOrWait (E := E) t key look s =
        ({ s with inFlight := Function.update s.inFlight key (some t) }, .owning look)) := by
  unfold beginOrWait
  cases h : s.inFlight key with
  | none => exact Or.inr ⟨rfl, rfl⟩
  | some u => exact Or.inl rfl

theorem take_evolves (o : Option τ) {t : τ} {key : K} {s : Shared τ K V}
    (hfree : s.inFlight key = none) :
    Evolves o s { s with inFlight := Function.update s.inFlight key (some t) } := by
  refine ⟨le_refl _, le_refl _, fun _ _ h => Or.inl h, ?_⟩
  intro k u hu _
  by_cases hk : k = key
  · subst hk
    rw [hfree] at hu
    cases hu
  · simpa [Function.update_of_ne hk] using hu

/-- What a step of caller `t` does to the shared state: nothing; it takes the free flight of
    its key; it starts its refresh; it stores what it fetched; or it drops its guard. -/
inductive SharedStep (routine : Routine) (call : τ → Call K) (t : τ) (s : Shared τ K V) :
    Phase V E → Phase V E → Shared τ K V → Prop
  | kept {l l' : Phase V E} : SharedStep routine call t s l l' s
  | taken (look : Nat) (hfree : s.inFlight (call t).key = none) :
      SharedStep routine call t s (.checked look) (.owning look)
        { s with inFlight := Function.update s.inFlight (call t).key (some t) }
  | started {l : Phase V E} (look : Nat) (held : Bool) (hl : l = .owning look ∨ l = .alone look) :
      SharedStep routine call t s l (.refreshing held) (s.start (call t) look)
  | put (held : Bool) (v : V) (now : Int) :
      SharedStep routine call t s (.stamped held v now) (.stored held v)
        (s.put routine (call t).key v now)
  | ended (held : Bool) (v : V) {l' : Phase V E} :
      SharedStep routine call t s (.stored held v) l' (s.release held (call t).key none)
  | failed (held : Bool) (e : E) {l' : Phase V E} :
      SharedStep routine call t s (.failed held e) l'
        (s.release held (call t).key (some s.stores))

theorem act_sharedStep {routine : Routine} {refusal : K → E} {call : τ → Call K} {t : τ}
    {m : Move V E} {s s' : Shared τ K V} {l l' : Phase V E}
    (hact : act routine refusal call t m s l = some (s', l')) :
    SharedStep routine call t s l l' s' := by
  unfold act at hact
  cases l with
  | checked look =>
    cases m with
    | go =>
      rw [Option.some.injEq] at hact
      rcases beginOrWait_cases (E := E) t (call t).key look s with h | ⟨hfree, h⟩
      · rw [h] at hact
        cases hact
        exact .kept
      · rw [h] at hact
        cases hact
        exact .taken look hfree
    | _ => cases hact
  | owning look =>
    cases m <;> cases hact
    exact .started look true (Or.inl rfl)
  | alone look =>
    cases m <;> cases hact
    exact .started look false (Or.inr rfl)
  | stamped held v now =>
    cases m <;> cases hact
    exact .put held v now
  | stored held v =>
    cases m <;> cases hact
    exact .ended held v
  | failed held e =>
    cases m <;> cases hact
    exact .failed held e
  | waiting | woken | fetched =>
    cases m with
    | go =>
      dsimp only at hact
      split at hact <;> cases hact <;> exact .kept
    | _ => cases hact <;> exact .kept
  | refreshing held =>
    cases m with
    | refresh outcome => cases outcome <;> cases hact <;> exact .kept
    | _ => cases hact
  | returned answer origin => cases m <;> cases hact
  | _ =>
    cases m <;> cases hact
    exact .kept

/-! ### What a caller knows -/

/-- A refresh was started although the cache held a value young enough for its caller. -/
def Start.onFresh {K V : Type} (st : Start K V) : Bool :=
  st.cached.any fun e => e.young st.ttl st.now

/-- What the cache held at the caller's last look is not young enough, now or later. -/
structure SawNoneYoung (call : Call K) (look : Nat) (s : Shared τ K V) : Prop where
  look_le : look ≤ s.stores
  old : ∀ e, s.cache call.key = some e → e.serial ≤ look → e.young call.ttl s.clock = false

/-- What caller `t` knows of the shared state, wherever it stands. -/
def Knows (call : τ → Call K) (t : τ) (s : Shared τ K V) : Phase V E → Prop
  | .timed now => now ≤ s.clock
  | .retimed _ now => now ≤ s.clock
  | .checked look => SawNoneYoung (call t) look s
  | .alone look => SawNoneYoung (call t) look s
  | .owning look => SawNoneYoung (call t) look s ∧ s.inFlight (call t).key = some t
  | .refreshing held => held = true → s.inFlight (call t).key = some t
  | .fetched held _ => held = true → s.inFlight (call t).key = some t
  | .stamped held _ _ => held = true → s.inFlight (call t).key = some t
  | .stored held _ => held = true → s.inFlight (call t).key = some t
  | .failed held _ => held = true → s.inFlight (call t).key = some t
  | _ => True

/-- Serials count the stores, and a value on which a refresh started fresh was stored after
    the last look of its caller. -/
structure Recorded (s : Shared τ K V) : Prop where
  serial_le : ∀ k e, s.cache k = some e → e.serial ≤ s.stores
  starts : ∀ st ∈ s.starts, st.onFresh = true → ∃ e, st.cached = some e ∧ st.look < e.serial

omit [DecidableEq K] in
theorem SawNoneYoung.stable {call : Call K} {look : Nat} {o : Option τ} {s s' : Shared τ K V}
    (h : SawNoneYoung call look s) (hev : Evolves o s s') : SawNoneYoung call look s' where
  look_le := h.look_le.trans hev.stores
  old := by
    intro e he hserial
    rcases hev.cache _ e he with hold | hnew
    · exact Entry.young_mono hev.clock (h.old e hold hserial)
    · have := h.look_le
      omega

omit [DecidableEq K] in
/-- What a caller knows, no step of another can undo. -/
theorem Knows.stable {call : τ → Call K} {o : Option τ} {t : τ} {s s' : Shared τ K V}
    {l : Phase V E} (hne : o ≠ some t) (h : Knows call t s l) (hev : Evolves o s s') :
    Knows call t s' l := by
  have hheld : s.inFlight (call t).key = some t → s'.inFlight (call t).key = some t :=
    fun hin => hev.inFlight _ _ hin hne
  cases l with
  | timed now => exact le_trans h hev.clock
  | retimed cause now => exact le_trans h hev.clock
  | checked look => exact SawNoneYoung.stable h hev
  | alone look => exact SawNoneYoung.stable h hev
  | owning look => exact ⟨h.1.stable hev, hheld h.2⟩
  | refreshing held => exact fun hh => hheld (h hh)
  | fetched held v => exact fun hh => hheld (h hh)
  | stamped held v now => exact fun hh => hheld (h hh)
  | stored held v => exact fun hh => hheld (h hh)
  | failed held e => exact fun hh => hheld (h hh)
  | _ => trivial

omit [DecidableEq K] in
/-- A caller that goes on from its first look has seen nothing young enough. -/
theorem check_knows {refusal : K → E} {call : τ → Call K} {t : τ} {s : Shared τ K V} {now : Int}
    (hnow : now ≤ s.clock) : Knows call t s (check refusal (call t) s now) := by
  unfold check
  cases hcached : s.cache (call t).key with
  | none =>
    dsimp only
    split
    · trivial
    · exact ⟨le_refl _, fun e he => by simp [hcached] at he⟩
  | some e =>
    dsimp only
    split
    · trivial
    · rename_i hyoung
      simp only [Bool.or_eq_true, not_or, Bool.not_eq_true] at hyoung
      refine ⟨le_refl _, ?_⟩
      intro e' he' _
      rw [hcached, Option.some.injEq] at he'
      exact he' ▸ Entry.young_mono hnow hyoung.2

omit [DecidableEq K] in
theorem rereadAny_knows {call : τ → Call K} {t : τ} {cause : Option Nat} {s : Shared τ K V} :
    Knows (E := E) call t s (rereadAny (call t) cause s) := by
  unfold rereadAny
  cases hcached : s.cache (call t).key with
  | none => exact ⟨le_refl _, fun e he => by simp [hcached] at he⟩
  | some e => trivial

omit [DecidableEq K] in
theorem rereadFresh_knows {call : τ → Call K} {t : τ} {cause : Option Nat} {s : Shared τ K V}
    {now : Int} : Knows (E := E) call t s (rereadFresh (call t) cause s now) := by
  unfold rereadFresh
  cases s.cache (call t).key with
  | none => trivial
  | some e =>
    dsimp only
    split <;> trivial

omit [DecidableEq K] in
/-- What was there at the last look is too old, so what is young was stored since. -/
theorem Shared.start_recorded {call : Call K} {look : Nat} {s : Shared τ K V} (hinv : Recorded s)
    (hsaw : SawNoneYoung call look s) : Recorded (s.start call look) where
  serial_le := hinv.serial_le
  starts := by
    intro st hst hfresh
    rcases List.mem_append.mp hst with hst | hst
    · exact hinv.starts st hst hfresh
    · rw [List.mem_singleton.mp hst] at hfresh ⊢
      obtain ⟨e, hcached, hyoung⟩ := Option.any_eq_true _ _ |>.mp hfresh
      refine ⟨e, hcached, ?_⟩
      by_contra hserial
      rw [hsaw.old e hcached (not_lt.mp hserial)] at hyoung
      cases hyoung

theorem Shared.put_recorded {routine : Routine} {key : K} {value : V} {now : Int}
    {s : Shared τ K V} (hinv : Recorded s) : Recorded (s.put routine key value now) where
  serial_le := by
    intro k e he
    show e.serial ≤ s.stores + 1
    rcases Shared.put_cache he with hold | hserial
    · have := hinv.serial_le k e hold
      omega
    · omega
  starts := hinv.starts

theorem Shared.release_starts (held : Bool) (key : K) (outcome : Option Nat)
    (s : Shared τ K V) : (s.release held key outcome).starts = s.starts := by
  unfold Shared.release
  split <;> rfl

theorem Shared.release_recorded {held : Bool} {key : K} {outcome : Option Nat}
    {s : Shared τ K V} (hinv : Recorded s) : Recorded (s.release held key outcome) := by
  unfold Shared.release
  cases held with
  | false => exact hinv
  | true => exact ⟨hinv.serial_le, hinv.starts⟩

end Arne.Cluster
