import Arne.Cluster.ReadThrough

/-!
# One refresh at a time

What holds in every interleaving of the callers of one cache: a flight has one holder, and
a refresh is started on a fresh value only where another caller stored one after the
starter's last look.
-/

namespace Arne.Cluster

open Arne.Interleaving

variable {τ K V E : Type} [DecidableEq τ] [DecidableEq K]

section

variable (routine : Routine) (refusal : K → E) (call : τ → Call K)

omit [DecidableEq τ] in
/-- What a step does to the shared state, any caller may rely on, and the record stays right. -/
theorem SharedStep.outline {t : τ} {s s' : Shared τ K V} {l l' : Phase V E} (hinv : Recorded s)
    (hknows : Knows call t s l) (hstep : SharedStep routine call t s l l' s') :
    Recorded s' ∧ Evolves (some t) s s' := by
  cases hstep with
  | kept => exact ⟨hinv, Evolves.refl _ s⟩
  | taken look hfree => exact ⟨⟨hinv.serial_le, hinv.starts⟩, take_evolves _ hfree⟩
  | started look held hl =>
    have hsaw : SawNoneYoung (call t) look s := by
      rcases hl with rfl | rfl
      · exact hknows.1
      · exact hknows
    exact ⟨Shared.start_recorded hinv hsaw, Shared.start_evolves _ _ look s⟩
  | put held v now => exact ⟨Shared.put_recorded hinv, Shared.put_evolves _ routine _ _ _ s⟩
  | ended held v => exact ⟨Shared.release_recorded hinv, Shared.release_evolves hknows⟩
  | failed held e => exact ⟨Shared.release_recorded hinv, Shared.release_evolves hknows⟩

omit [DecidableEq τ] in
/-- The caller knows what its next phase says. -/
theorem act_knows {t : τ} {m : Move V E} {s s' : Shared τ K V} {l l' : Phase V E}
    (hknows : Knows call t s l) (hact : act routine refusal call t m s l = some (s', l')) :
    Knows call t s' l' := by
  unfold act at hact
  cases l with
  | entered =>
    cases m <;> cases hact
    exact le_refl _
  | timed now =>
    cases m <;> cases hact
    exact check_knows hknows
  | checked look =>
    cases m with
    | go =>
      rw [Option.some.injEq] at hact
      rcases beginOrWait_cases (E := E) t (call t).key look s with h | ⟨hfree, h⟩
      · rw [h] at hact
        cases hact
        trivial
      · rw [h] at hact
        cases hact
        exact ⟨SawNoneYoung.stable hknows (take_evolves (some t) (t := t) hfree), by simp⟩
    | _ => cases hact
  | waiting =>
    cases m with
    | go =>
      dsimp only at hact
      split at hact
      · cases hact
        trivial
      · cases hact
    | timeOut =>
      cases hact
      trivial
    | refresh outcome => cases hact
  | woken cause =>
    cases m with
    | go =>
      dsimp only at hact
      split at hact
      · cases hact
        exact le_refl _
      · cases hact
        exact rereadAny_knows
    | _ => cases hact
  | retimed cause now =>
    cases m <;> cases hact
    exact rereadFresh_knows
  | stale cause =>
    cases m <;> cases hact
    exact rereadAny_knows
  | owning look =>
    cases m <;> cases hact
    exact fun _ => hknows.2
  | alone look =>
    cases m <;> cases hact
    exact nofun
  | refreshing held =>
    cases m with
    | refresh outcome =>
      cases outcome with
      | ok v =>
        cases hact
        exact hknows
      | error e =>
        cases hact
        exact hknows
    | _ => cases hact
  | fetched held v =>
    cases m with
    | go =>
      dsimp only at hact
      split at hact
      · cases hact
        exact hknows
      · cases hact
        trivial
    | _ => cases hact
  | stamped held v now =>
    cases m <;> cases hact
    exact hknows
  | stored held v =>
    cases m <;> cases hact
    trivial
  | failed held e =>
    cases m <;> cases hact
    trivial
  | returned answer origin => cases m <;> cases hact

omit [DecidableEq τ] in
/-- One step: the record stays right, the caller knows what its next phase says, and the
    shared state evolves as any caller may rely on. -/
theorem act_outline {t : τ} {m : Move V E} {s s' : Shared τ K V} {l l' : Phase V E}
    (hinv : Recorded s) (hknows : Knows call t s l)
    (hact : act routine refusal call t m s l = some (s', l')) :
    Recorded s' ∧ Knows call t s' l' ∧ Evolves (some t) s s' := by
  obtain ⟨hrecorded, hev⟩ := SharedStep.outline routine call hinv hknows (act_sharedStep hact)
  exact ⟨hrecorded, act_knows routine refusal call hknows hact, hev⟩

omit [DecidableEq τ] in
/-- The outline of every proof about the callers of one cache. -/
theorem readThrough_outline (ok : τ → Move V E → Shared τ K V → Phase V E → Prop) :
    Outline (readThrough routine refusal call) ok Recorded (Knows call) Evolves where
  act := fun hinv hknows _ hact => act_outline routine refusal call hinv hknows hact
  env := by
    intro ms s s' hinv henv
    simp only [readThrough, Option.some.injEq] at henv
    subst henv
    have hclock : s.clock ≤ s.clock + (ms : Int) := by omega
    exact ⟨⟨hinv.serial_le, hinv.starts⟩,
      ⟨hclock, le_refl _, fun _ _ h => Or.inl h, fun _ _ h _ => h⟩⟩
  stable := fun hne _ hknows hev => Knows.stable hne hknows hev

variable {routine refusal call} {clock : Int} {cache : K → Option (Stamped V)}
  {c : Config τ (Shared τ K V) (Phase V E)}

/-- What the outline gives for a configuration that the callers' steps lead to. -/
theorem reachable_knows (h : (readThrough routine refusal call).Reachable (initial clock cache) c) :
    Recorded c.shared ∧ ∀ t, Knows call t c.shared (c.locals t) := by
  apply (readThrough_outline routine refusal call _).reached ?_ ?_ h
  · refine ⟨?_, fun st hst => by cases hst⟩
    intro k e he
    obtain ⟨v, _, rfl⟩ := Option.map_eq_some_iff.mp he
    exact le_refl _
  · intro t
    trivial

/-- The phases in which a caller holds the flight of its key. -/
def Phase.holds : Phase V E → Bool
  | .owning _ => true
  | .refreshing held => held
  | .fetched held _ => held
  | .stamped held _ _ => held
  | .stored held _ => held
  | .failed held _ => held
  | _ => false

/-- No two callers refresh one key under the flight at a time. -/
theorem flight_exclusive
    (h : (readThrough routine refusal call).Reachable (initial clock cache) c) {t u : τ}
    (hkey : (call t).key = (call u).key) (ht : (c.locals t).holds = true)
    (hu : (c.locals u).holds = true) : t = u := by
  obtain ⟨_, hknows⟩ := reachable_knows h
  have hin : ∀ w, (c.locals w).holds = true → c.shared.inFlight (call w).key = some w := by
    intro w hw
    have hk := hknows w
    revert hw hk
    cases c.locals w <;> simp +contextual [Phase.holds, Knows]
  have := hin t ht
  rw [hkey, hin u hu, Option.some.injEq] at this
  exact this.symm

end

/-! ### Starts on a fresh cache -/

/-- When the caller is about to refresh, the cache holds nothing for its key that was stored
    since the caller's last look. -/
def undisturbed (call : τ → Call K) (t : τ) (_ : Move V E) (s : Shared τ K V) :
    Phase V E → Bool
  | .owning look => (s.cache (call t).key).all fun e => decide (e.serial ≤ look)
  | .alone look => (s.cache (call t).key).all fun e => decide (e.serial ≤ look)
  | _ => true

/-- What the cache held when the refresh was started was there at the caller's last look. -/
def Start.undisturbed {K V : Type} (st : Start K V) : Bool :=
  st.cached.all fun e => decide (e.serial ≤ st.look)

section

variable {routine : Routine} {refusal : K → E} {call : τ → Call K} {t : τ} {m : Move V E}
  {s s' : Shared τ K V} {l l' : Phase V E}

omit [DecidableEq τ] in
/-- A step starts no refresh, or it is that of a caller about to refresh. -/
theorem act_starts (hact : act routine refusal call t m s l = some (s', l')) :
    s'.starts = s.starts ∨ ∃ look, (l = .owning look ∨ l = .alone look) ∧
      s' = s.start (call t) look := by
  cases act_sharedStep hact with
  | started look held hl => exact Or.inr ⟨look, hl, rfl⟩
  | ended held v => exact Or.inl (Shared.release_starts ..)
  | failed held e => exact Or.inl (Shared.release_starts ..)
  | _ => exact Or.inl rfl

omit [DecidableEq τ] in
/-- A caller that is not disturbed starts an undisturbed refresh. -/
theorem act_undisturbed (hall : ∀ st ∈ s.starts, st.undisturbed = true)
    (hok : undisturbed call t m s l = true)
    (hact : act routine refusal call t m s l = some (s', l')) :
    ∀ st ∈ s'.starts, st.undisturbed = true := by
  rcases act_starts hact with hsame | ⟨look, hphase, rfl⟩
  · rwa [hsame]
  · intro st hst
    rcases List.mem_append.mp hst with hold | hnew
    · exact hall st hold
    · rw [List.mem_singleton.mp hnew]
      rcases hphase with rfl | rfl
      · exact hok
      · exact hok

omit [DecidableEq τ] in
/-- A caller that is disturbed refreshes all the same. -/
theorem act_of_disturbed (hnot : undisturbed (E := E) call t .go s l = false) :
    ∃ e look l', s.cache (call t).key = some e ∧
      act routine refusal call t .go s l = some (s.start (call t) look, l') := by
  unfold undisturbed at hnot
  split at hnot
  · rename_i look
    obtain ⟨e, he, _⟩ := (Option.all_eq_false ..).mp hnot
    exact ⟨e, look, .refreshing true, he, rfl⟩
  · rename_i look
    obtain ⟨e, he, _⟩ := (Option.all_eq_false ..).mp hnot
    exact ⟨e, look, .refreshing false, he, rfl⟩
  · cases hnot

end

/-- Any callers of any of the routines, in every interleaving.  In a run in which no other
    caller stores a value for a key between a caller's last look at the cache and the start
    of its refresh, no refresh is started on a value young enough for its caller.  And
    where a value was stored in between that the cache still holds, the caller goes on to
    refresh, however young the value is. -/
theorem no_start_on_fresh (routine : Routine) (refusal : K → E) (call : τ → Call K)
    (clock : Int) (cache : K → Option (Stamped V)) :
    (∀ c : Config τ (Shared τ K V) (Phase V E),
      (readThrough routine refusal call).Reached
        (fun t m s l => undisturbed call t m s l = true) (initial clock cache) c →
      ∀ st ∈ c.shared.starts, st.onFresh = false) ∧
    (∀ (t : τ) (s : Shared τ K V) (l : Phase V E), undisturbed call t .go s l = false →
      ∃ e st s' l', s.cache (call t).key = some e ∧
        act routine refusal call t .go s l = some (s', l') ∧ s'.starts = s.starts ++ [st] ∧
        st.onFresh = e.young (call t).ttl s.clock) := by
  refine ⟨?_, ?_⟩
  · intro c hreached st hst
    have hundisturbed : ∀ st ∈ c.shared.starts, st.undisturbed = true := by
      clear hst
      induction hreached with
      | start => exact fun st hst => by cases hst
      | act _ hok hact ih => exact act_undisturbed ih hok hact
      | env _ henv ih =>
        simp only [readThrough, Option.some.injEq] at henv
        exact henv ▸ ih
    obtain ⟨hrecorded, _⟩ := reachable_knows (System.ReachedAs.reachable hreached)
    by_contra hfresh
    obtain ⟨e, hcached, hlook⟩ := hrecorded.starts st hst (Bool.eq_true_of_not_eq_false hfresh)
    have hserial := hundisturbed st hst
    simp only [Start.undisturbed, hcached, Option.all_some, decide_eq_true_eq] at hserial
    omega
  · intro t s l hnot
    obtain ⟨e, look, l', he, hact⟩ := @act_of_disturbed _ _ _ _ _ routine refusal _ _ _ _ hnot
    refine ⟨e, _, _, l', he, hact, rfl, ?_⟩
    simp [Start.onFresh, he]

/-- Two callers of one snapshot, with nothing cached, by a ttl of 8000 at time 10000. -/
def pair : System Bool (Move Nat String) Nat (Shared Bool Unit Nat) (Phase Nat String) :=
  readThrough .cachedOrRefresh (fun _ => "not read") fun _ => ⟨(), some 8000⟩

/-- The first caller alone: it looks, takes the flight, refreshes, stores and returns. -/
def firstAlone : List (Event Bool (Move Nat String) Nat) :=
  [.act false .go, .act false .go, .act false .go, .act false .go,
    .act false (.refresh (.ok 1)), .act false .go, .act false .go, .act false .go]

theorem pair_first_starts_stale :
    ∃ c, pair.replayWithin (undisturbed fun _ => ⟨(), some 8000⟩) (initial 10000 fun _ => none)
        firstAlone = some c ∧
      ∀ st ∈ c.shared.starts, st.onFresh = false := by
  refine ⟨_, rfl, ?_⟩
  exact (no_start_on_fresh .cachedOrRefresh (fun _ => "not read")
    (fun _ : Bool => (⟨(), some 8000⟩ : Call Unit)) 10000 fun _ => none).1 _
    (System.replayWithin_reached firstAlone (fun _ _ _ _ h => h) .start rfl)

/-- The second caller looks before the first, and goes on once the first is done: it takes
    the free flight and refreshes a value just stored. -/
theorem pair_second_starts_on_fresh :
    ∃ c, pair.replay (initial 10000 fun _ => none)
        ([.act true .go, .act true .go] ++ firstAlone ++ [.act true .go, .act true .go]) = some c ∧
      ∃ st ∈ c.shared.starts, st.onFresh = true := by
  refine ⟨_, rfl, ⟨(), some 8000, 10000, 0, some ⟨⟨1, 10000⟩, 1⟩⟩, ?_, by decide⟩
  exact List.mem_cons_of_mem _ List.mem_cons_self

end Arne.Cluster
