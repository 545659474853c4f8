import Arne.Cluster.FlightMonitor

/-!
# The atomic flights stand for the mutex

What the callers do under the mutex and the condition variable, callers that take and release
a flight in one step do too: the same values are stored and served, under the same flights.
A caller that was cut off is there one whose refresh failed, or one that takes no further
step.
-/

namespace Arne.Cluster

open Arne.Interleaving

variable {τ K V E : Type} [DecidableEq K] {routine : Routine} {refusal : K → E}
  {call : τ → Call K} {t : τ} {s s' : Guarded τ K V} {l l' : GuardedPhase V E}

/-- The atomic phases that a phase stands for. -/
def GuardedPhase.Shows : GuardedPhase V E → Phase V E → Prop
  | .outside l, a => a = l
  | .locked look, a => a = .checked look
  | .taken look, a => a = .owning look
  | .testing _, a => a = .waiting
  | .sleeping _, a => a = .waiting
  | .waking _, a => a = .waiting
  | .leaving cause, a => a = .woken cause
  | .dropping, a => (∃ look, a = .owning look) ∨ a = .refreshing true
  | .removing (some (.ok v)), a => a = .stored true v
  | .removing (some (.error e)), a => a = .failed true e
  | .removing none, a => (∃ look, a = .owning look) ∨ a = .refreshing true
  | .removed (some answer), a => a = .returned answer .own
  | .notifying (some answer), a => a = .returned answer .own
  | .removed none, a => a.holds = false
  | .notifying none, a => a.holds = false
  | .gone, a => a.holds = false

/-- The same clock, cache, flights and stores; an atomic caller that stands for one that was
    cut off may have recorded a start of its own. -/
def Shared.Covers (f : Shared τ K V) (a : Shared τ K V) : Prop :=
  f.starts.Sublist a.starts ∧ a = { f with starts := a.starts }

/-- The atomic callers stand where the callers do. -/
structure Mirrors (c : Config τ (Guarded τ K V) (GuardedPhase V E))
    (a : Config τ (Shared τ K V) (Phase V E)) : Prop where
  shared : c.shared.flights.Covers a.shared
  locals : ∀ t, (c.locals t).Shows (a.locals t)

/-! ### The atomic steps do not read the record -/

/-- A step is the same under a longer record of the starts. -/
theorem act_covers {m : Move V E} {f f' a : Shared τ K V} {l l' : Phase V E}
    (hl : l.underMutex = none) (hcovers : f.Covers a)
    (hact : act routine refusal call t m f l = some (f', l')) :
    ∃ a', f'.Covers a' ∧ act routine refusal call t m a l = some (a', l') := by
  obtain ⟨hsub, ha⟩ := hcovers
  obtain ⟨clock, cached, inFlight, stores, failedAt, starts⟩ := a
  cases ha
  have hmore : ∀ st, (f.starts ++ [st]).Sublist (starts ++ [st]) := fun st => hsub.append_right [st]
  unfold act at hact
  cases l with
  | entered =>
    cases m <;> cases hact
    refine ⟨_, ?_, rfl⟩
    exact ⟨hsub, rfl⟩
  | timed now =>
    cases m <;> cases hact
    refine ⟨_, ?_, rfl⟩
    exact ⟨hsub, rfl⟩
  | checked look => cases hl
  | waiting =>
    cases m with
    | go =>
      dsimp only at hact
      split at hact
      · rename_i hfree
        cases hact
        refine ⟨_, ?_, if_pos hfree⟩
        exact ⟨hsub, rfl⟩
      · cases hact
    | timeOut =>
      cases hact
      refine ⟨_, ?_, rfl⟩
      exact ⟨hsub, rfl⟩
    | refresh outcome => cases hact
  | woken cause =>
    cases m with
    | go =>
      dsimp only at hact
      split at hact
      · rename_i hreread
        cases hact
        refine ⟨_, ?_, if_pos hreread⟩
        exact ⟨hsub, rfl⟩
      · rename_i hreread
        cases hact
        refine ⟨_, ?_, if_neg hreread⟩
        exact ⟨hsub, rfl⟩
    | _ => cases hact
  | retimed cause now =>
    cases m <;> cases hact
    refine ⟨_, ?_, rfl⟩
    exact ⟨hsub, rfl⟩
  | stale cause =>
    cases m <;> cases hact
    refine ⟨_, ?_, rfl⟩
    exact ⟨hsub, rfl⟩
  | owning look =>
    cases m <;> cases hact
    refine ⟨_, ?_, rfl⟩
    exact ⟨hmore _, rfl⟩
  | alone look =>
    cases m <;> cases hact
    refine ⟨_, ?_, rfl⟩
    exact ⟨hmore _, rfl⟩
  | refreshing held =>
    cases m with
    | refresh outcome =>
      cases outcome with
      | error e =>
        cases hact
        refine ⟨_, ?_, rfl⟩
        exact ⟨hsub, rfl⟩
      | ok v =>
        cases hact
        refine ⟨_, ?_, rfl⟩
        exact ⟨hsub, rfl⟩
    | _ => cases hact
  | fetched held v =>
    cases m with
    | go =>
      dsimp only at hact
      split at hact
      · rename_i hstores
        cases hact
        refine ⟨_, ?_, if_pos hstores⟩
        exact ⟨hsub, rfl⟩
      · rename_i hstores
        cases hact
        refine ⟨_, ?_, if_neg hstores⟩
        exact ⟨hsub, rfl⟩
    | _ => cases hact
  | stamped held v now =>
    cases m <;> cases hact
    refine ⟨_, ?_, rfl⟩
    exact ⟨hsub, rfl⟩
  | stored held v =>
    cases m <;> cases hact
    cases held with
    | false =>
      refine ⟨_, ?_, rfl⟩
      exact ⟨hsub, rfl⟩
    | true => cases hl
  | failed held e =>
    cases m <;> cases hact
    cases held with
    | false =>
      refine ⟨_, ?_, rfl⟩
      exact ⟨hsub, rfl⟩
    | true => cases hl
  | returned answer origin => cases m <;> cases hact

theorem Shared.Covers.release {f a : Shared τ K V} (h : f.Covers a) (key : K)
    (outcome : Option Nat) :
    (f.release true key outcome).Covers (a.release true key outcome) := by
  obtain ⟨hsub, ha⟩ := h
  obtain ⟨clock, cached, inFlight, stores, failedAt, starts⟩ := a
  cases ha
  exact ⟨hsub, rfl⟩

omit [DecidableEq K] in
theorem Shared.Covers.inFlight {f a : Shared τ K V} (h : f.Covers a) : a.inFlight = f.inFlight := by
  rw [h.2]

/-! ### Following the callers -/

variable [DecidableEq τ] {c : Config τ (Guarded τ K V) (GuardedPhase V E)}
  {a : Config τ (Shared τ K V) (Phase V E)}

/-- One atomic step. -/
theorem atomic_step {m : Move V E} {f : Shared τ K V} {p : Phase V E}
    (hact : act routine refusal call t m a.shared (a.locals t) = some (f, p)) :
    (readThrough routine refusal call).Reachable a ⟨f, Function.update a.locals t p⟩ :=
  .act .start trivial hact

omit [DecidableEq K] in
/-- The caller stands elsewhere, and the atomic caller with it. -/
theorem Mirrors.moved {f : Shared τ K V} {p : Phase V E} (h : Mirrors c a)
    (hcovers : s'.flights.Covers f) (hshows : l'.Shows p) :
    Mirrors ⟨s', Function.update c.locals t l'⟩ ⟨f, Function.update a.locals t p⟩ where
  shared := hcovers
  locals := by
    intro u
    by_cases hu : u = t
    · rw [hu]
      simpa using hshows
    · simpa [Function.update_of_ne hu] using h.locals u

omit [DecidableEq K] in
/-- The caller takes a step that the atomic caller does not. -/
theorem Mirrors.waits (h : Mirrors c a) (hflights : s'.flights = c.shared.flights)
    (hshows : l'.Shows (a.locals t)) : Mirrors ⟨s', Function.update c.locals t l'⟩ a where
  shared := by
    rw [hflights]
    exact h.shared
  locals := by
    intro u
    by_cases hu : u = t
    · rw [hu]
      simpa using hshows
    · simpa [Function.update_of_ne hu] using h.locals u

/-- What the callers can do, the atomic callers can follow to. -/
def Followed (routine : Routine) (refusal : K → E) (call : τ → Call K)
    (a : Config τ (Shared τ K V) (Phase V E))
    (c' : Config τ (Guarded τ K V) (GuardedPhase V E)) : Prop :=
  ∃ a', (readThrough routine refusal call).Reachable a a' ∧ Mirrors c' a'

theorem Mirrors.stays (h : Mirrors c a) (hflights : s'.flights = c.shared.flights)
    (hshows : l'.Shows (a.locals t)) :
    Followed routine refusal call a ⟨s', Function.update c.locals t l'⟩ :=
  ⟨a, .start, h.waits hflights hshows⟩

theorem Mirrors.steps {m : Move V E} {f : Shared τ K V} {p : Phase V E} (h : Mirrors c a)
    (hact : act routine refusal call t m a.shared (a.locals t) = some (f, p))
    (hcovers : s'.flights.Covers f) (hshows : l'.Shows p) :
    Followed routine refusal call a ⟨s', Function.update c.locals t l'⟩ :=
  ⟨_, atomic_step hact, h.moved hcovers hshows⟩

/-- The atomic caller of one that was cut off fails and gives the flight back. -/
theorem Mirrors.fails [Inhabited E] (h : Mirrors c a)
    (hrefreshing : a.locals t = .refreshing true) :
    Followed routine refusal call a
      ⟨removeKey t (call t).key (none : Option (Except E V)) c.shared,
        Function.update c.locals t (.removed none)⟩ := by
  have hfailed : act routine refusal call t (.refresh (.error default)) a.shared (a.locals t) =
      some (a.shared, .failed true default) := by
    rw [hrefreshing]
    rfl
  have hreleased : act routine refusal call t .go a.shared
      (Function.update a.locals t (.failed true default) t) =
        some (a.shared.release true (call t).key (some a.shared.stores),
          .returned (.error default) .own) := by
    rw [Function.update_self]
    rfl
  refine ⟨_, (atomic_step hfailed).act trivial hreleased, ?_⟩
  rw [Function.update_idem]
  have hstores : a.shared.stores = c.shared.flights.stores := by
    rw [h.shared.2]
  rw [hstores]
  exact h.moved (h.shared.release _ _) rfl

theorem Mirrors.cut [Inhabited E] (h : Mirrors c a) (hl : c.locals t = .removing none) :
    Followed routine refusal call a
      ⟨removeKey t (call t).key (none : Option (Except E V)) c.shared,
        Function.update c.locals t (.removed none)⟩ := by
  have hshows := h.locals t
  rw [hl] at hshows
  rcases hshows with ⟨look, howning⟩ | hrefreshing
  -- cut off before its refresh began: the atomic caller begins one
  · have hstarted : act routine refusal call t .go a.shared (a.locals t) =
        some (a.shared.start (call t) look, .refreshing true) := by
      rw [howning]
      rfl
    have hmirrors : Mirrors c ⟨a.shared.start (call t) look,
        Function.update a.locals t (.refreshing true)⟩ := by
      refine ⟨⟨?_, ?_⟩, ?_⟩
      · exact h.shared.1.trans (List.sublist_append_left _ _)
      · have hsame := h.shared.2
        unfold Shared.start
        rw [hsame]
      · intro u
        by_cases hu : u = t
        · rw [hu, hl]
          right
          exact Function.update_self ..
        · simpa [Function.update_of_ne hu] using h.locals u
    obtain ⟨a', hreach, hmirrors'⟩ := hmirrors.fails (t := t) (by simp)
    exact ⟨a', (atomic_step hstarted).trans hreach, hmirrors'⟩
  · exact h.fails hrefreshing

theorem Mirrors.outside {m : GuardedMove V E} {l : Phase V E} (h : Mirrors c a)
    (hl : c.locals t = .outside l)
    (hact : outsideAct routine refusal call t m c.shared l = some (s', l')) :
    Followed routine refusal call a ⟨s', Function.update c.locals t l'⟩ := by
  have hatomic : a.locals t = l := by
    have hshows := h.locals t
    rw [hl] at hshows
    exact hshows
  unfold outsideAct at hact
  cases m with
  | go =>
    dsimp only at hact
    split at hact
    · rename_i l'' hunder
      obtain ⟨finished, -, hs⟩ := Option.map_eq_some_iff.mp hact
      cases hs
      refine h.stays rfl ?_
      rw [hatomic]
      unfold Phase.underMutex at hunder
      split at hunder
      · cases hunder
        rfl
      · cases hunder
        rfl
      · cases hunder
        rfl
      · cases hunder
    · rename_i hunder
      obtain ⟨⟨f, l''⟩, hp, hs⟩ := Option.map_eq_some_iff.mp hact
      cases hs
      obtain ⟨f', hcovers, hp'⟩ := act_covers hunder h.shared hp
      rw [← hatomic] at hp'
      exact h.steps hp' hcovers rfl
  | rouse => cases hact
  | refresh outcome =>
    obtain ⟨⟨f, l''⟩, hp, hs⟩ := Option.map_eq_some_iff.mp hact
    cases hs
    have hunder : l.underMutex = none := by
      cases l <;> first | rfl | cases hp
    obtain ⟨f', hcovers, hp'⟩ := act_covers hunder h.shared hp
    rw [← hatomic] at hp'
    exact h.steps hp' hcovers rfl
  | abandon =>
    dsimp only at hact
    split at hact
    · rename_i hmay
      cases hact
      refine h.stays rfl ?_
      rw [hatomic]
      cases l with
      | woken cause => rfl
      | owning look => exact Or.inl ⟨look, rfl⟩
      | refreshing held =>
        cases held with
        | false => rfl
        | true => exact Or.inr rfl
      | _ => cases hmay
    · cases hact

theorem Mirrors.inserts {look : Nat} (h : Mirrors c a) (hl : c.locals t = .locked look)
    (hs : insertKey t (call t).key look c.shared = (s', l')) :
    Followed routine refusal call a ⟨s', Function.update c.locals t l'⟩ := by
  have hatomic := h.locals t
  rw [hl] at hatomic
  have hstep : act routine refusal call t .go a.shared (a.locals t) =
      some (beginOrWait t (call t).key look a.shared) := by
    rw [hatomic]
    rfl
  unfold insertKey at hs
  unfold beginOrWait at hstep
  rw [h.shared.inFlight] at hstep
  split at hs
  · rename_i hfree
    rw [Option.isNone_iff_eq_none] at hfree
    rw [hfree] at hstep
    cases hs
    refine h.steps hstep ⟨h.shared.1, ?_⟩ rfl
    rw [h.shared.2]
  · rename_i hbusy
    rw [Option.isNone_iff_eq_none] at hbusy
    obtain ⟨u, hu⟩ := Option.ne_none_iff_exists'.mp hbusy
    rw [hu] at hstep
    cases hs
    exact h.steps hstep h.shared rfl

theorem Mirrors.tests {since : Int} (h : Mirrors c a) (hl : c.locals t = .testing since)
    (hs : testKey t (call t).key since c.shared = (s', l')) :
    Followed routine refusal call a ⟨s', Function.update c.locals t l'⟩ := by
  have hatomic := h.locals t
  rw [hl] at hatomic
  unfold testKey at hs
  split at hs
  · rename_i hfree
    cases hs
    have hwoken : act routine refusal call t .go a.shared (a.locals t) =
        some (a.shared, .woken (c.shared.flights.failedAt (call t).key)) := by
      have hfailed : a.shared.failedAt = c.shared.flights.failedAt := by
        rw [h.shared.2]
      rw [hatomic, ← hfailed]
      apply if_pos
      rw [h.shared.inFlight]
      exact hfree
    exact h.steps hwoken h.shared rfl
  · split at hs
    · cases hs
      have hwoken : act routine refusal call t .timeOut a.shared (a.locals t) =
          some (a.shared, .woken none) := by
        rw [hatomic]
        rfl
      exact h.steps hwoken h.shared rfl
    · cases hs
      exact h.stays rfl hatomic

theorem Mirrors.removes [Inhabited E] {answer : Option (Except E V)} (h : Mirrors c a)
    (hl : c.locals t = .removing answer) :
    Followed routine refusal call a
      ⟨removeKey t (call t).key answer c.shared, Function.update c.locals t (.removed answer)⟩ := by
  have hatomic := h.locals t
  rw [hl] at hatomic
  rcases answer with _ | e | v
  · exact h.cut hl
  · have hreleased : act routine refusal call t .go a.shared (a.locals t) =
        some (a.shared.release true (call t).key (some c.shared.flights.stores),
          .returned (.error e) .own) := by
      have hstores : a.shared.stores = c.shared.flights.stores := by
        rw [h.shared.2]
      rw [hatomic, ← hstores]
      rfl
    exact h.steps hreleased (h.shared.release _ _) rfl
  · have hreleased : act routine refusal call t .go a.shared (a.locals t) =
        some (a.shared.release true (call t).key none, .returned (.ok v) .own) := by
      rw [hatomic]
      rfl
    exact h.steps hreleased (h.shared.release _ _) rfl

theorem Mirrors.follows [Inhabited E] {m : GuardedMove V E} (h : Mirrors c a)
    (hact : guardedAct routine refusal call t m c.shared (c.locals t) = some (s', l')) :
    Followed routine refusal call a ⟨s', Function.update c.locals t l'⟩ := by
  have hatomic := h.locals t
  generalize hl : c.locals t = l at hact hatomic
  cases l with
  | outside l =>
    have hout : outsideAct routine refusal call t m c.shared l = some (s', l') := by
      cases m <;> exact hact
    exact h.outside hl hout
  | locked look =>
    cases m with
    | go => exact h.inserts hl (Option.some.inj hact)
    | _ => cases hact
  | taken look =>
    cases m <;> cases hact
    exact h.stays rfl hatomic
  | testing since =>
    cases m with
    | go => exact h.tests hl (Option.some.inj hact)
    | _ => cases hact
  | sleeping since =>
    cases m with
    | go =>
      simp only [guardedAct] at hact
      split at hact
      · cases hact
      · cases hact
        exact h.stays rfl hatomic
    | rouse =>
      cases hact
      exact h.stays rfl hatomic
    | _ => cases hact
  | waking since =>
    cases m with
    | go =>
      obtain ⟨finished, -, hs⟩ := Option.map_eq_some_iff.mp hact
      cases hs
      exact h.stays rfl hatomic
    | _ => cases hact
  | leaving cause =>
    cases m <;> cases hact
    exact h.stays rfl hatomic
  | dropping =>
    cases m with
    | go =>
      obtain ⟨finished, -, hs⟩ := Option.map_eq_some_iff.mp hact
      cases hs
      exact h.stays rfl hatomic
    | _ => cases hact
  | removing answer =>
    cases m <;> cases hact
    exact h.removes hl
  | removed answer =>
    cases m <;> cases hact
    refine h.stays rfl ?_
    cases answer <;> exact hatomic
  | notifying answer =>
    cases m <;> cases hact
    refine h.stays rfl ?_
    cases answer <;> exact hatomic
  | gone => cases m <;> cases hact

theorem guarded_simulation [Inhabited E] :
    Simulation (guarded (V := V) routine refusal call) (readThrough routine refusal call)
      Mirrors where
  act := fun hmirrors hact => hmirrors.follows hact
  env := by
    intro c a ms s' hmirrors henv
    simp only [guarded, Option.some.injEq] at henv
    subst henv
    refine ⟨⟨{ a.shared with clock := a.shared.clock + ms }, a.locals⟩, .env .start rfl,
      ⟨hmirrors.shared.1, ?_⟩, hmirrors.locals⟩
    dsimp only
    rw [hmirrors.shared.2]

/-- **The atomic flights stand for the mutex.**  Whatever the callers come to, in any order of
    their steps under the mutex and the condition variable, callers of the atomic model come
    to as well: with the same cache and flights, each where its caller is, an answer the
    same, and every refresh that was started started there. -/
theorem guarded_refines [Inhabited E] {clock : Int} {cache : K → Option (Stamped V)}
    (h : (guarded routine refusal call).Reachable (guardedInitial clock cache) c) :
    ∃ a, (readThrough routine refusal call).Reachable (initial clock cache) a ∧ Mirrors c a := by
  have hstart : Mirrors (guardedInitial clock cache)
      (initial clock cache : Config τ (Shared τ K V) (Phase V E)) :=
    ⟨⟨List.Sublist.refl _, rfl⟩, fun _ => rfl⟩
  exact guarded_simulation.reachable hstart h

theorem cutOff_refines :
    ∃ c a, guardedPair.replay (guardedInitial 10000 fun _ => none) cutOff = some c ∧
      pair.Reachable (initial 10000 fun _ => none) a ∧ Mirrors c a := by
  have hruns : ∃ c, guardedPair.replay (guardedInitial 10000 fun _ => none) cutOff = some c :=
    ⟨_, rfl⟩
  obtain ⟨c, hreplay⟩ := hruns
  obtain ⟨a, hreach, hmirrors⟩ := guarded_refines (System.replay_reachable cutOff .start hreplay)
  exact ⟨c, a, hreplay, hreach, hmirrors⟩

end Arne.Cluster
