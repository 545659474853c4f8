import Mathlib.Data.List.Basic

/-!
# Monitors

A mutex and its condition variable.  A thread that cannot go on under the mutex goes to sleep,
which gives the mutex up in the same step.  It wakes by a notification, by its timeout or for no
reason at all, and takes the mutex again before it looks again.
-/

namespace Arne

structure Monitor (τ : Type) where
  lockedBy : Option τ
  asleep : List τ

namespace Monitor

variable {τ : Type}

def new : Monitor τ := ⟨none, []⟩

/-- `none` while the mutex is held. -/
def lock (t : τ) (m : Monitor τ) : Option (Monitor τ) :=
  if m.lockedBy.isNone then some { m with lockedBy := some t } else none

def unlock (m : Monitor τ) : Monitor τ := { m with lockedBy := none }

def sleep (t : τ) (m : Monitor τ) : Monitor τ := ⟨none, t :: m.asleep⟩

/-- A wake-up that no notification caused. -/
def rouse [DecidableEq τ] (t : τ) (m : Monitor τ) : Monitor τ :=
  { m with asleep := m.asleep.filter (· ≠ t) }

def notifyAll (m : Monitor τ) : Monitor τ := { m with asleep := [] }

/-- How a thread stands to the monitor: whether it holds the mutex, and whether it is where a
    sleeper can be. -/
structure Stands (t : τ) (inside dozes : Bool) (m : Monitor τ) : Prop where
  lock : m.lockedBy = some t ↔ inside = true
  sleep : t ∈ m.asleep → dozes = true

/-- What a step of one thread leaves to the others. -/
structure Yields (o : Option τ) (m m' : Monitor τ) : Prop where
  lock : ∀ u, o ≠ some u → (m'.lockedBy = some u ↔ m.lockedBy = some u)
  sleep : ∀ u, o ≠ some u → u ∈ m'.asleep → u ∈ m.asleep

variable {t u : τ} {o : Option τ} {inside dozes dozes' : Bool} {m m' : Monitor τ}

theorem stands_new : Stands t false false (new : Monitor τ) where
  lock := ⟨fun h => (by cases h), fun h => (by cases h)⟩
  sleep := fun h => (by cases h)

theorem Stands.stable (h : Stands t inside dozes m) (hyields : Yields o m m') (hne : o ≠ some t) :
    Stands t inside dozes m' where
  lock := (hyields.lock t hne).trans h.lock
  sleep := fun hmem => h.sleep (hyields.sleep t hne hmem)

/-- No two threads are under the mutex. -/
theorem Stands.exclusive (ht : Stands t true dozes m) (hu : Stands u true dozes' m) : t = u := by
  have hmine := ht.lock.mpr rfl
  rw [hu.lock.mpr rfl] at hmine
  exact (Option.some.inj hmine).symm

theorem Yields.refl (o : Option τ) (m : Monitor τ) : Yields o m m where
  lock := fun _ _ => Iff.rfl
  sleep := fun _ _ hmem => hmem

/-! ### The mutex -/

theorem lock_eq_some_iff :
    m.lock t = some m' ↔ m.lockedBy = none ∧ m' = { m with lockedBy := some t } := by
  unfold Monitor.lock
  rw [← Option.isNone_iff_eq_none]
  split
  · rename_i hfree
    rw [Option.some.injEq]
    exact ⟨fun h => ⟨hfree, h.symm⟩, fun h => h.2.symm⟩
  · rename_i hheld
    exact ⟨fun h => (by cases h), fun h => absurd h.1 hheld⟩

theorem lock_eq_none_iff : m.lock t = none ↔ m.lockedBy ≠ none := by
  rw [Option.eq_none_iff_forall_ne_some]
  constructor
  · intro h hfree
    exact h _ (lock_eq_some_iff.mpr ⟨hfree, rfl⟩)
  · intro hheld m' hlock
    exact hheld (lock_eq_some_iff.mp hlock).1

theorem lock_yields (h : m.lock t = some m') : Yields (some t) m m' := by
  obtain ⟨hfree, rfl⟩ := lock_eq_some_iff.mp h
  refine ⟨?_, fun _ _ hmem => hmem⟩
  intro u hne
  rw [hfree]
  exact ⟨fun hlock => absurd hlock hne, fun hlock => (by cases hlock)⟩

theorem lock_stands (h : m.lock t = some m') (hstands : Stands t false dozes m) :
    Stands t true dozes m' := by
  obtain ⟨-, rfl⟩ := lock_eq_some_iff.mp h
  exact ⟨⟨fun _ => rfl, fun _ => rfl⟩, hstands.sleep⟩

/-- Giving up what one holds. -/
theorem Stands.left_to (hstands : Stands t true dozes m) (hfree : m'.lockedBy = none) :
    ∀ u, some t ≠ some u → (m'.lockedBy = some u ↔ m.lockedBy = some u) := by
  intro u hne
  rw [hfree, hstands.lock.mpr rfl]
  exact ⟨fun hlock => (by cases hlock), fun hlock => absurd hlock hne⟩

theorem unlock_yields (hstands : Stands t true dozes m) : Yields (some t) m m.unlock where
  lock := hstands.left_to rfl
  sleep := fun _ _ hmem => hmem

theorem unlock_stands (hstands : Stands t true dozes m) : Stands t false dozes m.unlock where
  lock := ⟨fun h => (by cases h), fun h => (by cases h)⟩
  sleep := hstands.sleep

/-! ### The condition variable -/

theorem sleep_yields (hstands : Stands t true dozes m) : Yields (some t) m (m.sleep t) where
  lock := hstands.left_to rfl
  sleep := by
    intro u hne hmem
    rcases List.mem_cons.mp hmem with rfl | hmem
    · exact absurd rfl hne
    · exact hmem

theorem sleep_stands : Stands t false true (m.sleep t) where
  lock := ⟨fun h => (by cases h), fun h => (by cases h)⟩
  sleep := fun _ => rfl

theorem Stands.awake (hstands : Stands t inside dozes m) (hawake : t ∉ m.asleep) :
    Stands t inside false m where
  lock := hstands.lock
  sleep := fun hmem => absurd hmem hawake

section

variable [DecidableEq τ]

theorem rouse_yields : Yields (some t) m (m.rouse t) where
  lock := fun _ _ => Iff.rfl
  sleep := fun _ _ hmem => (List.mem_filter.mp hmem).1

theorem rouse_stands (hstands : Stands t inside dozes m) : Stands t inside false (m.rouse t) where
  lock := hstands.lock
  sleep := by
    intro hmem
    have hother := (List.mem_filter.mp hmem).2
    simp at hother

end

theorem notifyAll_yields : Yields o m m.notifyAll where
  lock := fun _ _ => Iff.rfl
  sleep := fun _ _ hmem => (by cases hmem)

theorem notifyAll_stands (hstands : Stands t inside dozes m) :
    Stands t inside dozes m.notifyAll where
  lock := hstands.lock
  sleep := fun hmem => (by cases hmem)

end Monitor

end Arne
