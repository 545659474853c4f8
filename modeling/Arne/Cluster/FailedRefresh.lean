import Arne.Cluster.Refresh

/-!
# Failed refreshes

A refresh that fails leaves the cache as it was.  What the callers that waited for it take
is decided when it fails: a caller that waits at that moment, over a cached value, can wake
to find that value, however old.  Where nobody waits, or nothing is cached, no caller
answers with a value from before the failure that is too old for it.
-/

namespace Arne.Cluster

open Arne.Interleaving

variable {τ K V E : Type} [DecidableEq τ] [DecidableEq K]

/-- The caller was woken by a failed refresh and answered with a value that was cached
    before the failure and was too old for it. -/
def Phase.papersOver (ttl : Option Int) : Phase V E → Bool
  | .returned _ (.cached e now (some failedAt)) =>
      decide (e.serial ≤ failedAt) && !e.young ttl now
  | _ => false

/-- The caller waits for a flight to end. -/
def Phase.waits : Phase V E → Bool
  | .waiting => true
  | _ => false

/-- The caller is about to end its flight with the error of its refresh. -/
def Phase.failsFlight : Phase V E → Bool
  | .failed held _ => held
  | _ => false

theorem Phase.waits_iff {l : Phase V E} : l.waits = true ↔ l = .waiting := by
  cases l <;> simp [Phase.waits]

theorem Phase.failsFlight_iff {l : Phase V E} :
    l.failsFlight = true ↔ ∃ e, l = .failed true e := by
  cases l <;> simp [Phase.failsFlight]

/-- No flight fails over a value cached for its key while another caller waits for it. -/
def failsUnwaited (call : τ → Call K) (c : Config τ (Shared τ K V) (Phase V E)) (t : τ)
    (_ : Move V E) : Prop :=
  (c.locals t).failsFlight = true → c.shared.cache (call t).key = none ∨
    ∀ u, (call u).key = (call t).key → (c.locals u).waits = false

/-- What is cached for the key was stored after the failure. -/
structure Since (key : K) (failedAt : Nat) (s : Shared τ K V) : Prop where
  le : failedAt ≤ s.stores
  newer : ∀ e, s.cache key = some e → failedAt < e.serial

/-- A caller that waits, or was woken by a failure, can find only what was stored since. -/
def AwaitsWell (call : τ → Call K) (u : τ) (s : Shared τ K V) : Phase V E → Prop
  | .waiting => s.inFlight (call u).key = none →
      ∀ failedAt, s.failedAt (call u).key = some failedAt → Since (call u).key failedAt s
  | .woken cause => ∀ failedAt, cause = some failedAt → Since (call u).key failedAt s
  | .retimed cause _ => ∀ failedAt, cause = some failedAt → Since (call u).key failedAt s
  | .stale cause => ∀ failedAt, cause = some failedAt → Since (call u).key failedAt s
  | l => l.papersOver (call u).ttl = false

omit [DecidableEq τ] [DecidableEq K] in
theorem Since.stable {key : K} {failedAt : Nat} {o : Option τ} {s s' : Shared τ K V}
    (h : Since key failedAt s) (hev : Evolves o s s') : Since key failedAt s' where
  le := h.le.trans hev.stores
  newer := by
    intro e he
    rcases hev.cache key e he with hold | hnew
    · exact h.newer e hold
    · exact lt_of_le_of_lt h.le hnew

/-! ### What a step does to the cache and to the flights -/

section

variable {routine : Routine} {refusal : K → E} {call : τ → Call K} {t : τ} {m : Move V E}
  {s s' : Shared τ K V} {l l' : Phase V E}

omit [DecidableEq τ] in
theorem Shared.release_cache (held : Bool) (key : K) (outcome : Option Nat) (s : Shared τ K V) :
    (s.release held key outcome).cache = s.cache := by
  unfold Shared.release
  split <;> rfl

omit [DecidableEq τ] in
/-- Only the store of a fetched value changes the cache. -/
theorem act_keeps_cache (hact : act routine refusal call t m s l = some (s', l')) :
    s'.cache = s.cache ∨ ∃ held v, l' = .stored held v := by
  cases act_sharedStep hact with
  | put held v now => exact Or.inr ⟨held, v, rfl⟩
  | ended held v => exact Or.inl (Shared.release_cache ..)
  | failed held e => exact Or.inl (Shared.release_cache ..)
  | _ => exact Or.inl rfl

omit [DecidableEq τ] in
/-- A refresh that fails, and the caller that reports it, leave the cache as it was. -/
theorem failed_keeps_cache (hact : act routine refusal call t m s l = some (s', l'))
    (hfailed : (∃ held e, l' = .failed held e) ∨ ∃ held e, l = .failed held e) :
    s'.cache = s.cache := by
  rcases act_keeps_cache hact with h | ⟨held, v, rfl⟩
  · exact h
  · rcases hfailed with ⟨_, _, h⟩ | ⟨_, _, rfl⟩
    · cases h
    · cases m <;> simp [act] at hact

/-- What a step of `t` does to the flight of a key: nothing; `t` takes it; or `t` ends its
    own, with a value or with the error of its refresh. -/
inductive FlightStep (call : τ → Call K) (t : τ) (key : K) (s s' : Shared τ K V)
    (l : Phase V E) : Prop
  | same (hflight : s'.inFlight key = s.inFlight key) (hfailed : s'.failedAt key = s.failedAt key)
  | taken (hflight : s'.inFlight key = some t)
  | ended (hkey : (call t).key = key) (hfailed : s'.failedAt key = none)
  | failed (hkey : (call t).key = key) (hl : l.failsFlight = true)
      (hfailed : s'.failedAt key = some s.stores) (hcache : s'.cache = s.cache)
      (hstores : s'.stores = s.stores)

omit [DecidableEq τ] in
/-- The guard of a flight is dropped, with a value or with an error. -/
theorem release_flightStep {held : Bool} {outcome : Option Nat} (key : K)
    (houtcome : outcome = none ∨ outcome = some s.stores ∧ l.failsFlight = held) :
    FlightStep call t key s (s.release held (call t).key outcome) l := by
  cases held with
  | false => exact .same rfl rfl
  | true =>
    by_cases hkey : (call t).key = key
    · subst hkey
      have hfailed : (s.release true (call t).key outcome).failedAt (call t).key = outcome := by
        simp [Shared.release]
      rcases houtcome with rfl | ⟨rfl, hl⟩
      · exact .ended rfl hfailed
      · exact .failed rfl hl hfailed rfl rfl
    · have hne : key ≠ (call t).key := fun h => hkey h.symm
      apply FlightStep.same
      · simp [Shared.release, Function.update_of_ne hne]
      · simp [Shared.release, Function.update_of_ne hne]

omit [DecidableEq τ] in
theorem act_flightStep (key : K) (hact : act routine refusal call t m s l = some (s', l')) :
    FlightStep call t key s s' l := by
  cases act_sharedStep hact with
  | taken look hfree =>
    by_cases hkey : key = (call t).key
    · subst hkey
      exact .taken (Function.update_self ..)
    · exact .same (Function.update_of_ne hkey ..) rfl
  | ended held v => exact release_flightStep key (Or.inl rfl)
  | failed held e => exact release_flightStep key (Or.inr ⟨rfl, rfl⟩)
  | _ => exact .same rfl rfl

/-! ### What the callers find -/

omit [DecidableEq τ] [DecidableEq K] in
/-- The first look is no look after a failure. -/
theorem check_awaitsWell (now : Int) : AwaitsWell call t s (check refusal (call t) s now) := by
  unfold check
  split <;> split <;> rfl

omit [DecidableEq τ] [DecidableEq K] in
/-- A value that `fresh` gives is young enough. -/
theorem rereadFresh_awaitsWell {cause : Option Nat} {now : Int}
    (h : ∀ failedAt, cause = some failedAt → Since (call t).key failedAt s) :
    AwaitsWell (E := E) call t s (rereadFresh (call t) cause s now) := by
  unfold rereadFresh
  split
  · split
    · rename_i e _ hyoung
      cases cause <;> simp [AwaitsWell, Phase.papersOver, hyoung]
    · exact h
  · exact h

omit [DecidableEq τ] [DecidableEq K] in
/-- What `any` gives was stored since. -/
theorem rereadAny_awaitsWell {cause : Option Nat}
    (h : ∀ failedAt, cause = some failedAt → Since (call t).key failedAt s) :
    AwaitsWell (E := E) call t s (rereadAny (call t) cause s) := by
  unfold rereadAny
  split
  · rename_i e he
    cases cause with
    | none => rfl
    | some failedAt =>
      have hsince := (h failedAt rfl).newer e he
      simp [AwaitsWell, Phase.papersOver, Nat.not_le.mpr hsince]
  · rfl

omit [DecidableEq τ] in
/-- The caller's own step. -/
theorem act_awaitsWell (hwell : AwaitsWell call t s l)
    (hact : act .cachedOrRefresh refusal call t m s l = some (s', l')) :
    AwaitsWell call t s' l' := by
  unfold act at hact
  cases l with
  | timed now =>
    cases m <;> cases hact
    exact check_awaitsWell now
  | checked look =>
    cases m with
    | go =>
      rw [Option.some.injEq, beginOrWait] at hact
      cases hflight : s.inFlight (call t).key with
      | none =>
        rw [hflight] at hact
        cases hact
        rfl
      | some w =>
        rw [hflight] at hact
        cases hact
        intro hfree
        rw [hflight] at hfree
        cases hfree
    | _ => cases hact
  | waiting =>
    cases m with
    | go =>
      dsimp only at hact
      split at hact
      · rename_i hfree
        cases hact
        exact hwell (Option.isNone_iff_eq_none.mp hfree)
      · cases hact
    | timeOut =>
      cases hact
      rintro failedAt ⟨⟩
    | refresh outcome => cases hact
  | woken cause =>
    cases m <;> cases hact
    exact hwell
  | retimed cause now =>
    cases m <;> cases hact
    exact rereadFresh_awaitsWell hwell
  | stale cause =>
    cases m <;> cases hact
    exact rereadAny_awaitsWell hwell
  | fetched held v =>
    cases m with
    | go =>
      dsimp only at hact
      split at hact <;> cases hact <;> rfl
    | _ => cases hact
  | refreshing held =>
    cases m with
    | refresh outcome => cases outcome <;> cases hact <;> rfl
    | _ => cases hact
  | returned answer origin => cases m <;> cases hact
  | _ =>
    cases m <;> cases hact
    rfl

omit [DecidableEq τ] [DecidableEq K] in
/-- Once a caller is awake the flights no longer matter to it. -/
theorem AwaitsWell.of_awake {o : Option τ} {u : τ} {lu : Phase V E}
    (hwell : AwaitsWell call u s lu) (hev : Evolves o s s') (hawake : lu.waits = false) :
    AwaitsWell call u s' lu := by
  cases lu with
  | waiting => cases hawake
  | woken cause => exact fun failedAt h => (hwell failedAt h).stable hev
  | retimed cause now => exact fun failedAt h => (hwell failedAt h).stable hev
  | stale cause => exact fun failedAt h => (hwell failedAt h).stable hev
  | _ => exact hwell

omit [DecidableEq τ] [DecidableEq K] in
/-- Whatever leaves the flight of the key alone. -/
theorem AwaitsWell.stable {o : Option τ} {u : τ} {lu : Phase V E}
    (hwell : AwaitsWell call u s lu) (hev : Evolves o s s')
    (hflight : s'.inFlight (call u).key = s.inFlight (call u).key)
    (hfailed : s'.failedAt (call u).key = s.failedAt (call u).key) : AwaitsWell call u s' lu := by
  by_cases hwaits : lu.waits = true
  · rw [Phase.waits_iff] at hwaits
    subst hwaits
    intro hfree failedAt hfailedAt
    exact (hwell (hflight ▸ hfree) failedAt (hfailed ▸ hfailedAt)).stable hev
  · exact hwell.of_awake hev (Bool.eq_false_of_not_eq_true hwaits)

omit [DecidableEq τ] [DecidableEq K] in
/-- The step of another caller, which ends no flight in a failure over a cached value that
    this one waits for. -/
theorem AwaitsWell.other {u : τ} {lu : Phase V E} (hwell : AwaitsWell call u s lu)
    (hev : Evolves (some t) s s') (hflight : FlightStep call t (call u).key s s' l)
    (hfails : l.failsFlight = true → (call u).key = (call t).key → lu.waits = true →
      s.cache (call t).key = none) :
    AwaitsWell call u s' lu := by
  by_cases hwaits : lu.waits = true
  · rw [Phase.waits_iff] at hwaits
    subst hwaits
    cases hflight with
    | same hsame hkept => exact hwell.stable hev hsame hkept
    | taken htaken =>
      intro hfree
      rw [htaken] at hfree
      cases hfree
    | ended _ hnone =>
      intro _ failedAt hfailedAt
      rw [hnone] at hfailedAt
      cases hfailedAt
    | failed hkey hl hfailed hcache hstores =>
      intro _ failedAt hfailedAt
      rw [hfailed, Option.some.injEq] at hfailedAt
      have hempty := hfails hl hkey.symm rfl
      refine ⟨by rw [hstores, hfailedAt], ?_⟩
      intro e he
      rw [hcache, ← hkey, hempty] at he
      cases he
  · exact hwell.of_awake hev (Bool.eq_false_of_not_eq_true hwaits)

end

/-! ### Runs -/

section

variable {refusal : K → E} {call : τ → Call K} {clock : Int} {cache : K → Option (Stamped V)}
  {c : Config τ (Shared τ K V) (Phase V E)}

/-- In a run whose flights fail unwaited for, or with nothing cached, every caller that was
    woken by a failure finds only what was stored since. -/
theorem reached_awaitsWell
    (h : (readThrough .cachedOrRefresh refusal call).ReachedAs (failsUnwaited call)
      (initial clock cache) c) (u : τ) : AwaitsWell call u c.shared (c.locals u) := by
  induction h with
  | start => rfl
  | @act c t m s' l' hreached hok hact ih =>
    obtain ⟨hrecorded, hknows⟩ := reachable_knows hreached.reachable
    obtain ⟨_, _, hev⟩ := act_outline .cachedOrRefresh refusal call hrecorded (hknows t) hact
    by_cases hu : u = t
    · subst hu
      simp only [Function.update_self]
      exact act_awaitsWell ih hact
    · simp only [Function.update_of_ne hu]
      apply ih.other hev (act_flightStep (call u).key hact)
      intro hfails hkey hwaits
      rcases hok hfails with hempty | hunwaited
      · exact hempty
      · rw [hunwaited u hkey] at hwaits
        cases hwaits
  | @env c ms s' hreached henv ih =>
    obtain ⟨hrecorded, _⟩ := reachable_knows hreached.reachable
    obtain ⟨_, hev⟩ := (readThrough_outline .cachedOrRefresh refusal call
      fun _ _ _ _ => True).env hrecorded henv
    simp only [readThrough, Option.some.injEq] at henv
    subst henv
    exact ih.stable hev rfl rfl

omit [DecidableEq τ] [DecidableEq K] in
theorem AwaitsWell.not_papersOver {u : τ} {s : Shared τ K V} {l : Phase V E}
    (h : AwaitsWell call u s l) : l.papersOver (call u).ttl = false := by
  cases l with
  | returned answer origin => exact h
  | _ => rfl

/-- An entry gets too old for any caller. -/
theorem Entry.exists_old (e : Entry V) (ttl : Option Int) (now : Int) :
    ∃ ms : Nat, e.young ttl (now + ms) = false := by
  cases ttl with
  | none => exact ⟨0, rfl⟩
  | some bound =>
    refine ⟨(bound - (now - e.sampledAt)).toNat, ?_⟩
    simp only [Entry.young, Option.any_some, decide_eq_false_iff_not, not_lt]
    omega

/-- A caller that waits for a flight that has ended in a failure, over a value too old for
    it that nobody replaces, answers with that value: it wakes and looks twice. -/
theorem waiter_papersOver {s : Shared τ K V} {locals : τ → Phase V E} {u : τ} {failedAt : Nat}
    {e : Entry V} (hwaiting : locals u = .waiting) (hfree : s.inFlight (call u).key = none)
    (hfailedAt : s.failedAt (call u).key = some failedAt) (hcached : s.cache (call u).key = some e)
    (hserial : e.serial ≤ failedAt) (hold : e.young (call u).ttl s.clock = false) :
    ∃ c', (readThrough .cachedOrRefresh refusal call).Reachable ⟨s, locals⟩ c' ∧
      (c'.locals u).papersOver (call u).ttl = true := by
  have hwaits : (readThrough .cachedOrRefresh refusal call).Reachable ⟨s, locals⟩
      ⟨s, Function.update locals u .waiting⟩ := by
    rw [← hwaiting, Function.update_eq_self]
    exact .start
  have hwoken : (readThrough .cachedOrRefresh refusal call).Reachable ⟨s, locals⟩
      ⟨s, Function.update locals u (.woken (some failedAt))⟩ :=
    hwaits.goOn (m := .go) (by simp [readThrough, act, hfree, hfailedAt])
  have hretimed : (readThrough .cachedOrRefresh refusal call).Reachable ⟨s, locals⟩
      ⟨s, Function.update locals u (.retimed (some failedAt) s.clock)⟩ :=
    hwoken.goOn (m := .go) rfl
  have hstale : (readThrough .cachedOrRefresh refusal call).Reachable ⟨s, locals⟩
      ⟨s, Function.update locals u (.stale (some failedAt))⟩ :=
    hretimed.goOn (m := .go) (by simp [readThrough, act, rereadFresh, hcached, hold])
  have hreturned : (readThrough .cachedOrRefresh refusal call).Reachable ⟨s, locals⟩
      ⟨s, Function.update locals u
        (.returned (.ok e.value) (.cached e s.clock (some failedAt)))⟩ :=
    hstale.goOn (m := .go) (by simp [readThrough, act, rereadAny, hcached])
  refine ⟨_, hreturned, ?_⟩
  simp [Phase.papersOver, hserial, hold]

/-- Where a flight fails over a cached value that another caller waits for, that caller can
    come to answer with it once the value is too old. -/
theorem failsFlight_reaches_papersOver
    (h : (readThrough .cachedOrRefresh refusal call).Reachable (initial clock cache) c) {t u : τ}
    {e : Entry V} (hfails : (c.locals t).failsFlight = true)
    (hcached : c.shared.cache (call t).key = some e) (hkey : (call u).key = (call t).key)
    (hwaits : (c.locals u).waits = true) :
    ∃ c', (readThrough .cachedOrRefresh refusal call).Reachable c c' ∧
      (c'.locals u).papersOver (call u).ttl = true := by
  obtain ⟨error, hfailed⟩ := Phase.failsFlight_iff.mp hfails
  have hwaiting := Phase.waits_iff.mp hwaits
  have hne : u ≠ t := by
    rintro rfl
    rw [hfailed] at hwaiting
    cases hwaiting
  have hserial := (reachable_knows h).1.serial_le _ _ hcached
  obtain ⟨ms, hold⟩ := e.exists_old (call u).ttl c.shared.clock
  -- the flight ends, and time goes on
  have hended : (readThrough .cachedOrRefresh refusal call).Reachable c _ :=
    .act (t := t) (m := .go) .start trivial (by rw [hfailed]; rfl)
  have hlater : (readThrough .cachedOrRefresh refusal call).Reachable c _ :=
    .env (n := ms) hended rfl
  obtain ⟨c', hreached, hpapers⟩ := @waiter_papersOver τ K V E _ _ refusal call
    { c.shared.release true (call t).key (some c.shared.stores) with
      clock := c.shared.clock + ms }
    (Function.update c.locals t (.returned (.error error) .own)) u c.shared.stores e
    (by rw [Function.update_of_ne hne, hwaiting]) (by simp [Shared.release, hkey])
    (by simp [Shared.release, hkey]) (by simpa [Shared.release, hkey] using hcached) hserial
    (by simpa [Shared.release] using hold)
  exact ⟨c', System.Reached.trans hlater hreached, hpapers⟩

end

/-- `cached_or_refresh` and failures, over every interleaving of any callers.  A failed
    refresh leaves the cache as it was.  In a run in which no flight fails over a cached
    value while another caller waits for it, no caller that was woken by a failure answers
    with a value from before it that is too old for the caller; and where a flight does
    fail so, the one that waits can come to answer so. -/
theorem failure_not_papered_over (refusal : K → E) (call : τ → Call K) (clock : Int)
    (cache : K → Option (Stamped V)) :
    (∀ (t : τ) (m : Move V E) (s s' : Shared τ K V) (l l' : Phase V E),
      act .cachedOrRefresh refusal call t m s l = some (s', l') →
      ((∃ held e, l' = .failed held e) ∨ ∃ held e, l = .failed held e) →
      s'.cache = s.cache) ∧
    (∀ c : Config τ (Shared τ K V) (Phase V E),
      (readThrough .cachedOrRefresh refusal call).ReachedAs (failsUnwaited call)
        (initial clock cache) c →
      ∀ t, (c.locals t).papersOver (call t).ttl = false) ∧
    (∀ (c : Config τ (Shared τ K V) (Phase V E)) (t : τ),
      (readThrough .cachedOrRefresh refusal call).Reachable (initial clock cache) c →
      ¬ failsUnwaited call c t .go →
      ∃ u c', (c.locals u).waits = true ∧
        (readThrough .cachedOrRefresh refusal call).Reachable c c' ∧
        (c'.locals u).papersOver (call u).ttl = true) := by
  refine ⟨?_, ?_, ?_⟩
  · intro t m s s' l l' hact hfailed
    exact failed_keeps_cache hact hfailed
  · intro c hreached t
    exact (reached_awaitsWell hreached t).not_papersOver
  · intro c t hreachable hnot
    obtain ⟨hfails, hneither⟩ := Classical.not_imp.mp hnot
    obtain ⟨hsome, hwaited⟩ := not_or.mp hneither
    obtain ⟨e, hcached⟩ := Option.ne_none_iff_exists'.mp hsome
    push Not at hwaited
    obtain ⟨u, hkey, hwaits⟩ := hwaited
    obtain ⟨c', hreached, hpapers⟩ := failsFlight_reaches_papersOver hreachable hfails hcached
      hkey (Bool.eq_true_of_not_eq_false hwaits)
    exact ⟨u, c', Bool.eq_true_of_not_eq_false hwaits, hreached, hpapers⟩

/-- Both callers look; the first takes the flight and the second waits; the first fails and
    returns, and the second, woken, looks twice more. -/
def failsWhileWaited : List (Event Bool (Move Nat String) Nat) :=
  [.act false .go, .act false .go, .act true .go, .act true .go, .act false .go, .act true .go,
    .act false .go, .act false (.refresh (.error "timed out")), .act false .go,
    .act true .go, .act true .go, .act true .go, .act true .go]

/-- `failsUnwaited` for the pair. -/
def pairFailsUnwaited (c : Config Bool (Shared Bool Unit Nat) (Phase Nat String)) (t : Bool)
    (_ : Move Nat String) : Bool :=
  !(c.locals t).failsFlight || (c.shared.cache ()).isNone ||
    !(c.locals false).waits && !(c.locals true).waits

theorem pairFailsUnwaited_spec {c : Config Bool (Shared Bool Unit Nat) (Phase Nat String)}
    {t : Bool} {m : Move Nat String} (hguard : pairFailsUnwaited c t m = true) :
    failsUnwaited (fun _ => (⟨(), some 8000⟩ : Call Unit)) c t m := by
  intro hfails
  simp only [pairFailsUnwaited, hfails, Bool.not_true, Bool.false_or, Bool.or_eq_true,
    Option.isNone_iff_eq_none, Bool.and_eq_true, Bool.not_eq_true'] at hguard
  exact hguard.imp_right fun hnone u _ => by cases u <;> simp [hnone]

/-- With nothing cached the second caller goes on to refresh by itself. -/
theorem pair_waiter_refreshes :
    ∃ c, pair.replayAs pairFailsUnwaited (initial 20000 fun _ => none) failsWhileWaited = some c ∧
      ∀ t, (c.locals t).papersOver (some 8000) = false := by
  refine ⟨_, rfl, ?_⟩
  intro t
  exact (failure_not_papered_over (fun _ => "not read")
    (fun _ : Bool => (⟨(), some 8000⟩ : Call Unit)) 20000 fun _ => none).2.1 _
    (System.replayAs_reached failsWhileWaited (fun _ _ _ => pairFailsUnwaited_spec) .start rfl) t

/-- With a stale value cached the second caller answers with it. -/
theorem pair_papers_over :
    ∃ c, pair.replay (initial 20000 fun _ => some ⟨7, 0⟩) failsWhileWaited = some c ∧
      (c.locals true).papersOver (some 8000) = true :=
  ⟨_, rfl, by decide⟩

end Arne.Cluster
