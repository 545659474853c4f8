import Arne.Cluster.FlightMonitor
import Mathlib.Algebra.Order.BigOperators.Group.Finset

/-!
# The callers behind a flight come to rest

Every wait ends: the steps that any number of callers can take are bounded, but for wake-ups
that no notification caused, and when none of them can take another, whoever still waits
waits for the cluster.
-/

namespace Arne.Cluster

open Arne.Interleaving

variable {τ K V E : Type} [DecidableEq τ] [DecidableEq K] {routine : Routine} {refusal : K → E}
  {call : τ → Call K} {t : τ} {s s' : Guarded τ K V} {l l' : GuardedPhase V E} {clock : Int}
  {cache : K → Option (Stamped V)} {c c' : Config τ (Guarded τ K V) (GuardedPhase V E)}

/-! ### Where callers can rest -/

/-- No caller can take a step of its own. -/
def CallersRest (routine : Routine) (refusal : K → E) (call : τ → Call K)
    (c : Config τ (Guarded τ K V) (GuardedPhase V E)) : Prop :=
  ∀ t, guardedAct routine refusal call t .go c.shared (c.locals t) = none

omit [DecidableEq τ] in
/-- Between two uses of the set a caller can go on until it has its answer, or has the cluster
    asked. -/
theorem act_rests {m : Move V E} {f : Shared τ K V} {l : Phase V E} (hm : m = .go)
    (hunder : l.underMutex = none) (hproper : l ≠ .waiting)
    (hact : act routine refusal call t m f l = none) :
    (∃ held, l = .refreshing held) ∨ ∃ answer origin, l = .returned answer origin := by
  subst hm
  unfold act at hact
  cases l with
  | refreshing held => exact Or.inl ⟨held, rfl⟩
  | returned answer origin => exact Or.inr ⟨answer, origin, rfl⟩
  | waiting => exact absurd rfl hproper
  | woken cause =>
    dsimp only at hact
    split at hact <;> cases hact
  | fetched held v =>
    dsimp only at hact
    split at hact <;> cases hact
  | _ => cases hact

/-- Where a caller can be that cannot take a step although the mutex is free. -/
def Stuck (t : τ) (s : Guarded τ K V) (l : GuardedPhase V E) : Prop :=
  (∃ answer origin, l = .outside (.returned answer origin)) ∨ l = .gone ∨
    (∃ held, l = .outside (.refreshing held)) ∨ ∃ since, l = .sleeping since ∧ t ∈ s.finished.asleep

theorem stuck_of_rest (hfree : s.finished.lockedBy = none) (hproper : l.Proper)
    (hact : guardedAct routine refusal call t .go s l = none) : Stuck t s l := by
  have hlock : s.finished.lock t ≠ none := fun hnone => Monitor.lock_eq_none_iff.mp hnone hfree
  cases l with
  | outside l =>
    have hout : outsideAct routine refusal call t .go s l = none := hact
    unfold outsideAct at hout
    dsimp only at hout
    split at hout
    · rw [Option.map_eq_none_iff] at hout
      exact absurd hout hlock
    · rename_i hunder
      rw [Option.map_eq_none_iff] at hout
      rcases act_rests rfl hunder (fun hwaits => hproper (by rw [hwaits])) hout with
        ⟨held, rfl⟩ | ⟨answer, origin, rfl⟩
      · exact Or.inr (Or.inr (Or.inl ⟨held, rfl⟩))
      · exact Or.inl ⟨answer, origin, rfl⟩
  | sleeping since =>
    simp only [guardedAct] at hact
    split at hact
    · rename_i hmem
      exact Or.inr (Or.inr (Or.inr ⟨since, rfl, hmem⟩))
    · cases hact
  | gone => exact Or.inr (Or.inl rfl)
  | waking since => exact absurd (Option.map_eq_none_iff.mp hact) hlock
  | dropping => exact absurd (Option.map_eq_none_iff.mp hact) hlock
  | _ => cases hact

/-- Nobody is under the mutex when no caller can take a step. -/
theorem CallersRest.outside (hrest : CallersRest routine refusal call c) (t : τ) :
    (c.locals t).inside = false := by
  have hstuck := hrest t
  generalize c.locals t = l at hstuck
  cases l with
  | locked look => cases hstuck
  | taken look => cases hstuck
  | testing since => cases hstuck
  | leaving cause => cases hstuck
  | removing answer => cases hstuck
  | removed answer => cases hstuck
  | _ => rfl

/-- **Whoever waits, waits for the cluster.**  When no caller can take a step of its own, in
    whatever order they came there: each has returned or was cut off, waits for its own
    refresh, or sleeps behind a caller that waits for the refresh of the same key. -/
theorem rest_is_refresh
    (h : (guarded routine refusal call).Reachable (guardedInitial clock cache) c)
    (hrest : CallersRest routine refusal call c) (t : τ) :
    (∃ answer origin, c.locals t = .outside (.returned answer origin)) ∨ c.locals t = .gone ∨
      (∃ held, c.locals t = .outside (.refreshing held)) ∨
      ∃ since u, c.locals t = .sleeping since ∧ (call u).key = (call t).key ∧
        c.locals u = .outside (.refreshing true) := by
  have hknows := reachable_knowsGuarded h
  have hfree : c.shared.finished.lockedBy = none := by
    rw [Option.eq_none_iff_forall_ne_some]
    intro u hu
    have hinside := (hknows u).stands.lock.mp hu
    rw [hrest.outside u] at hinside
    cases hinside
  have hstuck : ∀ u, Stuck u c.shared (c.locals u) := fun u =>
    stuck_of_rest hfree (hknows u).proper (hrest u)
  rcases hstuck t with hreturned | hgone | hrefreshing | ⟨since, hsleeping, hmem⟩
  · exact Or.inl hreturned
  · exact Or.inr (Or.inl hgone)
  · exact Or.inr (Or.inr (Or.inl hrefreshing))
  · refine Or.inr (Or.inr (Or.inr ?_))
    obtain ⟨u, hkey, hreason⟩ := asleep_awaits h hmem
    refine ⟨since, u, hsleeping, hkey, ?_⟩
    -- the only stuck phase that holds a flight is the refresh itself
    rcases hstuck u with ⟨answer, origin, hu⟩ | hu | ⟨held, hu⟩ | ⟨since', hu, -⟩
    all_goals rw [hu] at hreason
    · rcases hreason with hholds | howes
      · cases hholds
      · cases howes
    · rcases hreason with hholds | howes
      · cases hholds
      · cases howes
    · rcases hreason with hholds | howes
      · have hheld : held = true := hholds
        rw [hu, hheld]
      · cases howes
    · rcases hreason with hholds | howes
      · cases hholds
      · cases howes

/-! ### What a step costs -/

/-- The steps that a caller has before it, at the most, if it is not told to look again. -/
def GuardedPhase.ahead : GuardedPhase V E → Nat
  | .outside l => l.ahead
  | .locked _ => 17
  | .waking _ => 15
  | .testing _ => 14
  | .sleeping _ => 13
  | .leaving _ => 12
  | .taken _ => 9
  | .dropping => 4
  | .removing _ => 3
  | .removed _ => 2
  | .notifying _ => 1
  | .gone => 0

/-- A sleeper that was told has its wake-up and another look before it, and a caller that is
    not done may tell each of `n` callers yet. -/
def GuardedPhase.price (n : Nat) (told : Bool) (l : GuardedPhase V E) : Nat :=
  l.ahead + (if l.dozes && told then 3 else 0) + if l.ahead = 0 then 0 else 3 * n

def priceOf (n : Nat) (t : τ) (s : Guarded τ K V) (l : GuardedPhase V E) : Nat :=
  l.price n (decide (t ∉ s.finished.asleep))

variable {n : Nat} {told told' : Bool}

omit [DecidableEq τ] [DecidableEq K] in
theorem price_drops (hdozes : l'.dozes = false) (hless : l'.ahead < l.ahead) :
    l'.price n told' + 1 ≤ l.price n told := by
  unfold GuardedPhase.price
  rw [hdozes, if_neg (by omega : l.ahead ≠ 0)]
  simp only [Bool.false_and, Bool.false_eq_true, if_false]
  split <;> omega

omit [DecidableEq τ] [DecidableEq K] in
theorem price_told_le : l.price n told' ≤ l.price n told + 3 := by
  unfold GuardedPhase.price
  split <;> omega

omit [DecidableEq K] in
theorem priceOf_eq (h : t ∈ s'.finished.asleep ↔ t ∈ s.finished.asleep) :
    priceOf n t s' l = priceOf n t s l := by
  unfold priceOf
  rw [decide_eq_decide.mpr (not_congr h)]

omit [DecidableEq K] in
theorem priceOf_sleeping {since : Int} :
    priceOf n t s (.sleeping since : GuardedPhase V E) =
      13 + (if t ∈ s.finished.asleep then 0 else 3) + 3 * n := by
  have hahead : (GuardedPhase.sleeping since : GuardedPhase V E).ahead ≠ 0 := Nat.succ_ne_zero 12
  unfold priceOf GuardedPhase.price
  rw [if_neg hahead]
  by_cases hasleep : t ∈ s.finished.asleep
  · rw [if_pos hasleep, decide_eq_false (not_not.mpr hasleep)]
    rfl
  · rw [if_neg hasleep, decide_eq_true hasleep]
    rfl

omit [DecidableEq K] in
theorem priceOf_awake {k : Nat} (hdozes : l.dozes = false) (hahead : l.ahead = k + 1) :
    priceOf n t s l = k + 1 + 3 * n := by
  unfold priceOf GuardedPhase.price
  rw [hdozes, hahead, Bool.false_and, if_neg Bool.false_ne_true, if_neg (Nat.succ_ne_zero k),
    Nat.add_zero]

omit [DecidableEq K] in
theorem priceOf_done (hdozes : l.dozes = false) (hahead : l.ahead = 0) :
    priceOf n t s l = 0 := by
  unfold priceOf GuardedPhase.price
  rw [hdozes, hahead, Bool.false_and, if_neg Bool.false_ne_true, if_pos rfl]

/-- What one step costs, but for a wake-up that no notification caused. -/
def GuardedMove.cost : GuardedMove V E → Nat
  | .rouse => 0
  | _ => 1

/-- The steps that such a wake-up adds. -/
def GuardedMove.credit : GuardedMove V E → Nat
  | .rouse => 2
  | _ => 0

/-- A step of `t` pays for itself; where it tells the others, for what it adds to each. -/
def Pays (n : Nat) (t : τ) (m : GuardedMove V E) (s s' : Guarded τ K V) (l l' : GuardedPhase V E) :
    Prop :=
  ((∀ u, u ≠ t → (u ∈ s'.finished.asleep ↔ u ∈ s.finished.asleep)) ∧
    priceOf n t s' l' + m.cost ≤ priceOf n t s l + m.credit) ∨
  (m = .go ∧ priceOf n t s' l' + 3 * n + 1 ≤ priceOf n t s l)

omit [DecidableEq K] in
theorem Pays.of_ahead {m : GuardedMove V E}
    (hsleepers : ∀ u, u ≠ t → (u ∈ s'.finished.asleep ↔ u ∈ s.finished.asleep))
    (hdozes : l'.dozes = false) (hless : l'.ahead < l.ahead) : Pays n t m s s' l l' := by
  refine Or.inl ⟨hsleepers, ?_⟩
  have hdrops : priceOf n t s' l' + 1 ≤ priceOf n t s l := price_drops hdozes hless
  have hcost : m.cost ≤ 1 := by
    cases m <;> simp [GuardedMove.cost]
  omega

omit [DecidableEq τ] [DecidableEq K] in
theorem lock_sleepers {finished : Monitor τ} (hlock : s.finished.lock t = some finished) (u : τ) :
    u ∈ finished.asleep ↔ u ∈ s.finished.asleep := by
  obtain ⟨-, rfl⟩ := Monitor.lock_eq_some_iff.mp hlock
  exact Iff.rfl

omit [DecidableEq τ] [DecidableEq K] in
theorem underMutex_ahead {l : Phase V E} (hunder : l.underMutex = some l') :
    l'.ahead < l.ahead := by
  unfold Phase.underMutex at hunder
  split at hunder
  · cases hunder
    exact Nat.lt_succ_self 17
  · cases hunder
    exact Nat.lt_succ_self 3
  · cases hunder
    exact Nat.lt_succ_self 3
  · cases hunder

theorem outsideAct_pays {m : GuardedMove V E} {l : Phase V E}
    (hact : outsideAct routine refusal call t m s l = some (s', l')) :
    Pays n t m s s' (.outside l) l' := by
  unfold outsideAct at hact
  cases m with
  | go =>
    dsimp only at hact
    split at hact
    · rename_i l'' hunder
      obtain ⟨finished, hlock, hs⟩ := Option.map_eq_some_iff.mp hact
      cases hs
      exact .of_ahead (fun u _ => lock_sleepers hlock u) (Phase.underMutex_spec hunder).2.1
        (underMutex_ahead hunder)
    · rename_i hunder
      obtain ⟨⟨f, l''⟩, hp, hs⟩ := Option.map_eq_some_iff.mp hact
      cases hs
      exact .of_ahead (fun _ _ => Iff.rfl) rfl (act_outside hunder hp).2.2.2
  | rouse => cases hact
  | refresh outcome =>
    obtain ⟨⟨f, l''⟩, hp, hs⟩ := Option.map_eq_some_iff.mp hact
    cases hs
    have hunder : l.underMutex = none := by
      cases l <;> first | rfl | cases hp
    exact .of_ahead (fun _ _ => Iff.rfl) rfl (act_outside hunder hp).2.2.2
  | abandon =>
    dsimp only at hact
    split at hact
    · rename_i hmay
      cases hact
      have hless : (if l.holds then .dropping else .gone : GuardedPhase V E).ahead < l.ahead := by
        cases l with
        | woken cause => exact Nat.zero_lt_succ 10
        | owning look => exact Nat.lt_of_sub_eq_succ rfl
        | refreshing held => cases held <;> exact Nat.lt_of_sub_eq_succ rfl
        | _ => cases hmay
      have hdozes : (if l.holds then .dropping else .gone : GuardedPhase V E).dozes = false := by
        split <;> rfl
      exact .of_ahead (fun _ _ => Iff.rfl) hdozes hless
    · cases hact

theorem guardedAct_pays {m : GuardedMove V E}
    (hact : guardedAct routine refusal call t m s l = some (s', l')) : Pays n t m s s' l l' := by
  have hstay : ∀ u, u ≠ t → (u ∈ s.finished.asleep ↔ u ∈ s.finished.asleep) := fun _ _ => Iff.rfl
  cases l with
  | outside l =>
    have hout : outsideAct routine refusal call t m s l = some (s', l') := by
      cases m <;> exact hact
    exact outsideAct_pays hout
  | sleeping since =>
    cases m with
    | go =>
      simp only [guardedAct] at hact
      split at hact
      · cases hact
      · rename_i hawake
        cases hact
        refine Or.inl ⟨hstay, ?_⟩
        have hwaking : priceOf n t s (.waking since : GuardedPhase V E) = 15 + 3 * n :=
          priceOf_awake rfl rfl
        rw [priceOf_sleeping, hwaking, if_neg hawake]
        simp only [GuardedMove.cost, GuardedMove.credit]
        omega
    | rouse =>
      cases hact
      refine Or.inl ⟨?_, ?_⟩
      · intro u hne
        simp [Guarded.with, Monitor.rouse, hne]
      · have hwaking : priceOf n t (s.with (s.finished.rouse t))
            (.waking since : GuardedPhase V E) = 15 + 3 * n := priceOf_awake rfl rfl
        rw [priceOf_sleeping, hwaking]
        simp only [GuardedMove.cost, GuardedMove.credit]
        omega
    | _ => cases hact
  | gone => cases m <;> cases hact
  | locked look =>
    cases m with
    | go =>
      have hs := Option.some.inj hact
      unfold insertKey at hs
      split at hs
      · cases hs
        exact .of_ahead hstay rfl (Nat.lt_of_sub_eq_succ rfl)
      · cases hs
        exact .of_ahead hstay rfl (Nat.lt_of_sub_eq_succ rfl)
    | _ => cases hact
  | taken look =>
    cases m <;> cases hact
    exact .of_ahead hstay rfl (Nat.lt_of_sub_eq_succ rfl)
  | testing since =>
    cases m with
    | go =>
      have hs := Option.some.inj hact
      unfold testKey at hs
      split at hs
      · cases hs
        exact .of_ahead hstay rfl (Nat.lt_of_sub_eq_succ rfl)
      · split at hs
        · cases hs
          exact .of_ahead hstay rfl (Nat.lt_of_sub_eq_succ rfl)
        · cases hs
          refine Or.inl ⟨?_, ?_⟩
          · intro u hne
            simp [Guarded.with, Monitor.sleep, hne]
          · have hasleep : t ∈ (s.with (s.finished.sleep t)).finished.asleep := List.mem_cons_self
            have htesting : priceOf n t s (.testing since : GuardedPhase V E) = 14 + 3 * n :=
              priceOf_awake rfl rfl
            rw [priceOf_sleeping, htesting, if_pos hasleep]
            simp only [GuardedMove.cost, GuardedMove.credit]
            omega
    | _ => cases hact
  | waking since =>
    cases m with
    | go =>
      obtain ⟨finished, hlock, hs⟩ := Option.map_eq_some_iff.mp hact
      cases hs
      exact .of_ahead (fun u _ => lock_sleepers hlock u) rfl (Nat.lt_of_sub_eq_succ rfl)
    | _ => cases hact
  | leaving cause =>
    cases m <;> cases hact
    exact .of_ahead hstay rfl (Nat.lt_of_sub_eq_succ rfl)
  | dropping =>
    cases m with
    | go =>
      obtain ⟨finished, hlock, hs⟩ := Option.map_eq_some_iff.mp hact
      cases hs
      exact .of_ahead (fun u _ => lock_sleepers hlock u) rfl (Nat.lt_of_sub_eq_succ rfl)
    | _ => cases hact
  | removing answer =>
    cases m <;> cases hact
    exact .of_ahead hstay rfl (Nat.lt_of_sub_eq_succ rfl)
  | removed answer =>
    cases m <;> cases hact
    exact .of_ahead hstay rfl (Nat.lt_of_sub_eq_succ rfl)
  | notifying answer =>
    cases m <;> cases hact
    refine Or.inr ⟨rfl, ?_⟩
    have hnotifying : priceOf n t s (.notifying answer : GuardedPhase V E) = 1 + 3 * n :=
      priceOf_awake rfl rfl
    have hdone : ∀ s' : Guarded τ K V,
        priceOf n t s' (afterDrop answer : GuardedPhase V E) = 0 := by
      intro s'
      cases answer <;> exact priceOf_done rfl rfl
    rw [hnotifying, hdone]
    omega

/-! ### Whole runs -/

variable [Fintype τ]

/-- What all callers have before them. -/
def totalPrice (c : Config τ (Guarded τ K V) (GuardedPhase V E)) : Nat :=
  Finset.univ.sum fun t => priceOf (Fintype.card τ) t c.shared (c.locals t)

def eventCost : Event τ (GuardedMove V E) Nat → Nat
  | .act _ m => m.cost
  | .env _ => 0

def eventCredit : Event τ (GuardedMove V E) Nat → Nat
  | .act _ m => m.credit
  | .env _ => 0

omit [DecidableEq K] in
/-- The prices of the others change by 3 each at the most, and not without a notification. -/
theorem totalPrice_update {m : GuardedMove V E} {s' : Guarded τ K V}
    (hpays : Pays (Fintype.card τ) t m c.shared s' (c.locals t) l') :
    totalPrice ⟨s', Function.update c.locals t l'⟩ + m.cost ≤ totalPrice c + m.credit := by
  have hsplit : ∀ d : Config τ (Guarded τ K V) (GuardedPhase V E), totalPrice d =
      priceOf (Fintype.card τ) t d.shared (d.locals t) +
        (Finset.univ.erase t).sum fun u => priceOf (Fintype.card τ) u d.shared (d.locals u) :=
    fun d => (Finset.add_sum_erase _ _ (Finset.mem_univ t)).symm
  rw [hsplit, hsplit c]
  dsimp only
  rw [Function.update_self]
  have hothers : (Finset.univ.erase t).sum
      (fun u => priceOf (Fintype.card τ) u s' (Function.update c.locals t l' u)) =
      (Finset.univ.erase t).sum (fun u => priceOf (Fintype.card τ) u s' (c.locals u)) := by
    apply Finset.sum_congr rfl
    intro u hu
    rw [Function.update_of_ne (Finset.ne_of_mem_erase hu)]
  rw [hothers]
  rcases hpays with ⟨hsleepers, hown⟩ | ⟨rfl, hown⟩
  · have hsame : (Finset.univ.erase t).sum
        (fun u => priceOf (Fintype.card τ) u s' (c.locals u)) =
        (Finset.univ.erase t).sum
          (fun u => priceOf (Fintype.card τ) u c.shared (c.locals u)) := by
      apply Finset.sum_congr rfl
      intro u hu
      exact priceOf_eq (hsleepers u (Finset.ne_of_mem_erase hu))
    omega
  · have hmore : (Finset.univ.erase t).sum
        (fun u => priceOf (Fintype.card τ) u s' (c.locals u)) ≤
        (Finset.univ.erase t).sum
          (fun u => priceOf (Fintype.card τ) u c.shared (c.locals u) + 3) :=
      Finset.sum_le_sum fun u _ => price_told_le
    rw [Finset.sum_add_distrib, Finset.sum_const, Nat.nsmul_eq_mul] at hmore
    have hcard : (Finset.univ.erase t).card ≤ Fintype.card τ := Finset.card_le_univ _
    simp only [GuardedMove.cost, GuardedMove.credit]
    omega

theorem step_pays {e : Event τ (GuardedMove V E) Nat}
    (hstep : (guarded routine refusal call).step c e = some c') :
    totalPrice c' + eventCost e ≤ totalPrice c + eventCredit e := by
  cases e with
  | act t m =>
    obtain ⟨⟨s', l'⟩, hact, rfl⟩ := Option.map_eq_some_iff.mp hstep
    exact totalPrice_update (guardedAct_pays hact)
  | env ms =>
    cases hstep
    exact Nat.le_refl _

omit [DecidableEq K] in
theorem totalPrice_initial :
    totalPrice (guardedInitial clock cache : Config τ (Guarded τ K V) (GuardedPhase V E)) =
      Fintype.card τ * (20 + 3 * Fintype.card τ) := by
  unfold totalPrice
  rw [Finset.sum_const_nat (m := 20 + 3 * Fintype.card τ)]
  · rfl
  · intro t _
    rfl

/-- **Every wait ends.**  However the steps of the callers come: all of them together take a
    bounded number, but for wake-ups that no notification caused, and two more for each of
    those.  When none can take another, each has returned or was cut off, waits for its own
    refresh, or sleeps behind a caller that waits for the refresh of the same key. -/
theorem callers_come_to_rest {es : List (Event τ (GuardedMove V E) Nat)}
    (hreplay : (guarded routine refusal call).replay (guardedInitial clock cache) es = some c) :
    (es.map eventCost).sum ≤
      Fintype.card τ * (20 + 3 * Fintype.card τ) + (es.map eventCredit).sum ∧
    (CallersRest routine refusal call c → ∀ t,
      (∃ answer origin, c.locals t = .outside (.returned answer origin)) ∨ c.locals t = .gone ∨
        (∃ held, c.locals t = .outside (.refreshing held)) ∨
        ∃ since u, c.locals t = .sleeping since ∧ (call u).key = (call t).key ∧
          c.locals u = .outside (.refreshing true)) := by
  have hpaid := System.replay_cost_le step_pays es hreplay
  rw [totalPrice_initial] at hpaid
  exact ⟨by omega, rest_is_refresh (System.replay_reachable es .start hreplay)⟩

theorem sleepsBehind_rests :
    ∃ c, guardedPair.replay (guardedInitial 10000 fun _ => none) sleepsBehind = some c ∧
      (sleepsBehind.map eventCost).sum ≤ 2 * (20 + 3 * 2) ∧
      ((∃ answer origin, c.locals true = .outside (.returned answer origin)) ∨
        c.locals true = .gone ∨ (∃ held, c.locals true = .outside (.refreshing held)) ∨
        ∃ since u, c.locals true = .sleeping since ∧ c.locals u = .outside (.refreshing true)) := by
  have hruns : ∃ c, guardedPair.replay (guardedInitial 10000 fun _ => none) sleepsBehind = some c ∧
      CallersRest .cachedOrRefresh (fun _ => "not read") (fun _ => ⟨(), some 8000⟩) c := by
    refine ⟨_, rfl, ?_⟩
    intro t
    cases t <;> rfl
  obtain ⟨c, hreplay, hrest⟩ := hruns
  obtain ⟨hcost, hwaits⟩ := callers_come_to_rest hreplay
  refine ⟨c, hreplay, hcost, ?_⟩
  rcases hwaits hrest true with hreturned | hgone | hrefreshing | ⟨since, u, hsleeping, -, hu⟩
  · exact Or.inl hreturned
  · exact Or.inr (Or.inl hgone)
  · exact Or.inr (Or.inr (Or.inl hrefreshing))
  · exact Or.inr (Or.inr (Or.inr ⟨since, u, hsleeping, hu⟩))

end Arne.Cluster
