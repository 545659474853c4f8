import Mathlib.Algebra.Ring.Nat
import Mathlib.Logic.Function.Basic

/-!
# Interleavings of threads over a shared state

Any number of threads, each with a local state, take atomic steps on one shared state;
an environment changes the shared state too.  A step is a partial function, so that a
given order of steps can be replayed; what holds in every order follows from a
rely-guarantee outline: an invariant of the shared state, an assertion for each thread,
and a bound on what one step does to the shared state, under which the assertions of
the other threads are stable.
-/

namespace Arne.Interleaving

/-- What a thread `τ` can do by a move `M`, and the environment by an event `N`. -/
structure System (τ M N S L : Type) where
  act : τ → M → S → L → Option (S × L)
  env : N → S → Option S

structure Config (τ S L : Type) where
  shared : S
  locals : τ → L

inductive Event (τ M N : Type) where
  | act (t : τ) (m : M)
  | env (n : N)

variable {τ M N S L : Type} [DecidableEq τ]

/-- One event, where it is enabled. -/
def System.step (sys : System τ M N S L) (c : Config τ S L) : Event τ M N → Option (Config τ S L)
  | .act t m => (sys.act t m c.shared (c.locals t)).map fun p =>
      ⟨p.1, Function.update c.locals t p.2⟩
  | .env n => (sys.env n c.shared).map fun s => ⟨s, c.locals⟩

/-- A given order of events, as far as every step of a thread meets a `guard` on the whole
    configuration. -/
def System.replayAs (sys : System τ M N S L) (guard : Config τ S L → τ → M → Bool)
    (c : Config τ S L) : List (Event τ M N) → Option (Config τ S L)
  | [] => some c
  | .act t m :: rest =>
      if guard c t m then (sys.step c (.act t m)).bind fun c' => sys.replayAs guard c' rest
      else none
  | .env n :: rest => (sys.step c (.env n)).bind fun c' => sys.replayAs guard c' rest

/-- The same with a guard on what the thread sees. -/
def System.replayWithin (sys : System τ M N S L) (guard : τ → M → S → L → Bool)
    (c : Config τ S L) (es : List (Event τ M N)) : Option (Config τ S L) :=
  sys.replayAs (fun c t m => guard t m c.shared (c.locals t)) c es

/-- A given order of events. -/
def System.replay (sys : System τ M N S L) (c : Config τ S L) (es : List (Event τ M N)) :
    Option (Config τ S L) :=
  sys.replayWithin (fun _ _ _ _ => true) c es

/-- The configurations that some order of steps leads to, when every step of a thread
    meets a condition `ok` on the configuration it is taken in. -/
inductive System.ReachedAs (sys : System τ M N S L) (ok : Config τ S L → τ → M → Prop)
    (c₀ : Config τ S L) : Config τ S L → Prop where
  | start : sys.ReachedAs ok c₀ c₀
  | act {c : Config τ S L} {t : τ} {m : M} {s' : S} {l' : L} (h : sys.ReachedAs ok c₀ c)
      (hok : ok c t m)
      (hact : sys.act t m c.shared (c.locals t) = some (s', l')) :
      sys.ReachedAs ok c₀ ⟨s', Function.update c.locals t l'⟩
  | env {c : Config τ S L} {n : N} {s' : S} (h : sys.ReachedAs ok c₀ c)
      (henv : sys.env n c.shared = some s') : sys.ReachedAs ok c₀ ⟨s', c.locals⟩

/-- The same with a condition on what the thread sees. -/
def System.Reached (sys : System τ M N S L) (ok : τ → M → S → L → Prop)
    (c₀ c : Config τ S L) : Prop :=
  sys.ReachedAs (fun c t m => ok t m c.shared (c.locals t)) c₀ c

/-- The configurations that any order of steps leads to. -/
def System.Reachable (sys : System τ M N S L) (c₀ c : Config τ S L) : Prop :=
  sys.Reached (fun _ _ _ _ => True) c₀ c

variable {sys : System τ M N S L} {ok ok' : τ → M → S → L → Prop}
  {okAs okAs' : Config τ S L → τ → M → Prop} {c₀ c : Config τ S L}

theorem System.ReachedAs.mono (hsub : ∀ c t m, okAs c t m → okAs' c t m)
    (h : sys.ReachedAs okAs c₀ c) : sys.ReachedAs okAs' c₀ c := by
  induction h with
  | start => exact .start
  | act _ hok hact ih => exact .act ih (hsub _ _ _ hok) hact
  | env _ henv ih => exact .env ih henv

theorem System.ReachedAs.reachable (h : sys.ReachedAs okAs c₀ c) : sys.Reachable c₀ c :=
  h.mono fun _ _ _ _ => trivial

theorem System.Reached.mono (hsub : ∀ t m s l, ok t m s l → ok' t m s l)
    (h : sys.Reached ok c₀ c) : sys.Reached ok' c₀ c :=
  System.ReachedAs.mono (fun _ _ _ hok => hsub _ _ _ _ hok) h

/-- A replay within a guard leads where steps that meet the guard lead. -/
theorem System.replayAs_reached {guard : Config τ S L → τ → M → Bool} (es : List (Event τ M N))
    {c' : Config τ S L} (hguard : ∀ c t m, guard c t m = true → okAs c t m)
    (h : sys.ReachedAs okAs c₀ c) (hreplay : sys.replayAs guard c es = some c') :
    sys.ReachedAs okAs c₀ c' := by
  induction es generalizing c with
  | nil =>
    simp only [System.replayAs, Option.some.injEq] at hreplay
    exact hreplay ▸ h
  | cons e rest ih =>
    cases e with
    | act t m =>
      simp only [System.replayAs] at hreplay
      split at hreplay
      · rename_i hmeets
        obtain ⟨d, hstep, hrest⟩ := Option.bind_eq_some_iff.mp hreplay
        obtain ⟨p, hact, rfl⟩ := Option.map_eq_some_iff.mp hstep
        exact ih (.act h (hguard _ _ _ hmeets) hact) hrest
      · cases hreplay
    | env n =>
      obtain ⟨d, hstep, hrest⟩ := Option.bind_eq_some_iff.mp hreplay
      obtain ⟨s, henv, rfl⟩ := Option.map_eq_some_iff.mp hstep
      exact ih (.env h henv) hrest

theorem System.replayWithin_reached {guard : τ → M → S → L → Bool} (es : List (Event τ M N))
    {c' : Config τ S L} (hguard : ∀ t m s l, guard t m s l = true → ok t m s l)
    (h : sys.Reached ok c₀ c) (hreplay : sys.replayWithin guard c es = some c') :
    sys.Reached ok c₀ c' :=
  System.replayAs_reached es (fun _ _ _ hmeets => hguard _ _ _ _ hmeets) h hreplay

theorem System.replay_reachable (es : List (Event τ M N)) {c' : Config τ S L}
    (h : sys.Reachable c₀ c) (hreplay : sys.replay c es = some c') : sys.Reachable c₀ c' :=
  System.replayWithin_reached es (fun _ _ _ _ _ => trivial) h hreplay

/-- A thread that has come to `l` goes on alone. -/
theorem System.Reachable.goOn {locals : τ → L} {t : τ} {m : M} {s s' : S} {l l' : L}
    (h : sys.Reachable c₀ ⟨s, Function.update locals t l⟩) (hact : sys.act t m s l = some (s', l')) :
    sys.Reachable c₀ ⟨s', Function.update locals t l'⟩ := by
  have hown : (⟨s, Function.update locals t l⟩ : Config τ S L).locals t = l :=
    Function.update_self ..
  have hstep : sys.Reachable c₀ ⟨s', Function.update (Function.update locals t l) t l'⟩ :=
    System.ReachedAs.act h trivial (hown.symm ▸ hact)
  rwa [Function.update_idem] at hstep

/-! ### Bounded runs -/

/-- What the events of a run cost, the measure pays, but for what events give to it. -/
theorem System.replay_cost_le {measure : Config τ S L → Nat} {cost credit : Event τ M N → Nat}
    (hstep : ∀ {c e c'}, sys.step c e = some c' → measure c' + cost e ≤ measure c + credit e)
    (es : List (Event τ M N)) {c' : Config τ S L} (hreplay : sys.replay c es = some c') :
    (es.map cost).sum + measure c' ≤ measure c + (es.map credit).sum := by
  induction es generalizing c with
  | nil =>
    cases hreplay
    simp only [List.map_nil, List.sum_nil, Nat.zero_add, Nat.add_zero, Nat.le_refl]
  | cons e rest ih =>
    have hfirst : ∃ d, sys.step c e = some d ∧ sys.replay d rest = some c' := by
      cases e with
      | act t m => exact Option.bind_eq_some_iff.mp hreplay
      | env n => exact Option.bind_eq_some_iff.mp hreplay
    obtain ⟨d, hd, hrest⟩ := hfirst
    have hpaid := hstep hd
    have hlater := ih hrest
    simp only [List.map_cons, List.sum_cons]
    omega

/-! ### Simulation -/

theorem System.Reached.trans {d : Config τ S L} (h : sys.Reached ok c₀ c)
    (h' : sys.Reached ok c d) : sys.Reached ok c₀ d := by
  induction h' with
  | start => exact h
  | act _ hok hact ih => exact .act ih hok hact
  | env _ henv ih => exact .env ih henv

/-- One system follows another: whatever a step does, some steps of the other do, one or many
    or none, so that the configurations stay related. -/
structure Simulation {M' N' S' L' : Type} (sys : System τ M N S L) (sys' : System τ M' N' S' L')
    (follows : Config τ S L → Config τ S' L' → Prop) : Prop where
  act : ∀ {c a t m s' l'}, follows c a → sys.act t m c.shared (c.locals t) = some (s', l') →
    ∃ a', sys'.Reachable a a' ∧ follows ⟨s', Function.update c.locals t l'⟩ a'
  env : ∀ {c a n s'}, follows c a → sys.env n c.shared = some s' →
    ∃ a', sys'.Reachable a a' ∧ follows ⟨s', c.locals⟩ a'

theorem Simulation.reachable {M' N' S' L' : Type} {sys' : System τ M' N' S' L'}
    {follows : Config τ S L → Config τ S' L' → Prop} (simulation : Simulation sys sys' follows)
    {a₀ : Config τ S' L'} (hstart : follows c₀ a₀) (h : sys.Reachable c₀ c) :
    ∃ a, sys'.Reachable a₀ a ∧ follows c a := by
  induction h with
  | start => exact ⟨a₀, .start, hstart⟩
  | act _ _ hact ih =>
    obtain ⟨a, hreach, hfollows⟩ := ih
    obtain ⟨a', hmore, hfollows'⟩ := simulation.act hfollows hact
    exact ⟨a', hreach.trans hmore, hfollows'⟩
  | env _ henv ih =>
    obtain ⟨a, hreach, hfollows⟩ := ih
    obtain ⟨a', hmore, hfollows'⟩ := simulation.env hfollows henv
    exact ⟨a', hreach.trans hmore, hfollows'⟩

/-! ### Rely and guarantee -/

/-- An outline of a proof about all interleavings.  `inv` is about the shared state,
    `asserts t` about what thread `t` knows of it, and `guar` bounds a step: of a thread
    (`some t`) or of the environment (`none`). -/
structure Outline (sys : System τ M N S L) (ok : τ → M → S → L → Prop) (inv : S → Prop)
    (asserts : τ → S → L → Prop) (guar : Option τ → S → S → Prop) : Prop where
  act : ∀ {t m s l s' l'}, inv s → asserts t s l → ok t m s l → sys.act t m s l = some (s', l') →
    inv s' ∧ asserts t s' l' ∧ guar (some t) s s'
  env : ∀ {n s s'}, inv s → sys.env n s = some s' → inv s' ∧ guar none s s'
  stable : ∀ {o u s s' l}, o ≠ some u → inv s → asserts u s l → guar o s s' → asserts u s' l

/-- What an outline states at the start it states of every configuration reached. -/
theorem Outline.reached {inv : S → Prop} {asserts : τ → S → L → Prop}
    {guar : Option τ → S → S → Prop} (outline : Outline sys ok inv asserts guar)
    (hinv : inv c₀.shared) (hasserts : ∀ t, asserts t c₀.shared (c₀.locals t))
    (h : sys.Reached ok c₀ c) : inv c.shared ∧ ∀ t, asserts t c.shared (c.locals t) := by
  induction h with
  | start => exact ⟨hinv, hasserts⟩
  | @act c t m s' l' _ hok hact ih =>
    obtain ⟨hi, ha⟩ := ih
    obtain ⟨hi', ha', hg⟩ := outline.act hi (ha t) hok hact
    refine ⟨hi', ?_⟩
    intro u
    by_cases hu : u = t
    · subst hu
      simpa using ha'
    · simp only [Function.update_of_ne hu]
      exact outline.stable (fun h => hu (Option.some.inj h).symm) hi (ha u) hg
  | @env c n s' _ henv ih =>
    obtain ⟨hi, ha⟩ := ih
    obtain ⟨hi', hg⟩ := outline.env hi henv
    exact ⟨hi', fun u => outline.stable (by simp) hi (ha u) hg⟩

end Arne.Interleaving
