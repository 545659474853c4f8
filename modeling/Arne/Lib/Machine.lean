import Mathlib.Data.List.Basic

/-!
# Machines that take one act after another

What an act does to a state, where the act is enabled, is a partial function.  Invariants
hold in every state that the acts lead to, and a measure that the counted acts decrease
bounds how many of them a run can have.
-/

namespace Arne.Machine

variable {A S : Type} {step : A → S → Option S}

/-- The acts in order, as far as each is enabled. -/
def run (step : A → S → Option S) (s : S) : List A → Option S
  | [] => some s
  | a :: rest => (step a s).bind fun s' => run step s' rest

/-- The states that some acts lead to. -/
inductive Reaches (step : A → S → Option S) (s₀ : S) : S → Prop where
  | start : Reaches step s₀ s₀
  | act {s s' : S} (a : A) (h : Reaches step s₀ s) (hstep : step a s = some s') :
      Reaches step s₀ s'

variable {s₀ s s' : S}

theorem run_cons {a : A} {rest : List A} :
    run step s (a :: rest) = some s' ↔ ∃ t, step a s = some t ∧ run step t rest = some s' :=
  Option.bind_eq_some_iff

theorem Reaches.run (h : Reaches step s₀ s) {acts : List A}
    (hrun : run step s acts = some s') : Reaches step s₀ s' := by
  induction acts generalizing s with
  | nil =>
    cases hrun
    exact h
  | cons a rest ih =>
    obtain ⟨t, hstep, hrest⟩ := run_cons.mp hrun
    exact ih (.act a h hstep) hrest

theorem run_reaches {acts : List A} (hrun : Machine.run step s₀ acts = some s) :
    Reaches step s₀ s :=
  Reaches.start.run hrun

theorem Reaches.trans (h : Reaches step s₀ s) (h' : Reaches step s s') : Reaches step s₀ s' := by
  induction h' with
  | start => exact h
  | act a _ hstep ih => exact .act a ih hstep

/-- What holds at the start and is kept by every act holds wherever the acts lead. -/
theorem Reaches.invariant {inv : S → Prop} (h : Reaches step s₀ s) (hinit : inv s₀)
    (hkeep : ∀ {a s s'}, inv s → step a s = some s' → inv s') : inv s := by
  induction h with
  | start => exact hinit
  | act a _ hstep ih => exact hkeep ih hstep

/-! ### Bounded runs -/

/-- Acts that are counted decrease the measure, and no act increases it. -/
structure Spends (step : A → S → Option S) (inv : S → Prop) (counts : A → Bool)
    (measure : S → Nat) : Prop where
  keep : ∀ {a s s'}, inv s → step a s = some s' → inv s'
  le : ∀ {a s s'}, inv s → step a s = some s' → measure s' ≤ measure s
  lt : ∀ {a s s'}, inv s → step a s = some s' → counts a = true → measure s' < measure s

variable {inv : S → Prop} {counts : A → Bool} {measure : S → Nat}

/-- A run has at most as many counted acts as the measure falls by. -/
theorem Spends.count_le (h : Spends step inv counts measure) (hinv : inv s) {acts : List A}
    (hrun : run step s acts = some s') : acts.countP counts + measure s' ≤ measure s := by
  induction acts generalizing s with
  | nil =>
    cases hrun
    simp only [List.countP_nil, Nat.zero_add, Nat.le_refl]
  | cons a rest ih =>
    obtain ⟨t, hstep, hrest⟩ := run_cons.mp hrun
    have hlater : rest.countP counts + measure s' ≤ measure t := ih (h.keep hinv hstep) hrest
    rw [List.countP_cons]
    split
    · rename_i hcounts
      have hless := h.lt hinv hstep hcounts
      omega
    · have hle := h.le hinv hstep
      omega

/-! ### Histories -/

/-- Every event of a history had its reason in what came before it. -/
def Justified {E : Type} (reason : List E → E → Prop) (history : List E) : Prop :=
  ∀ before e after, history = before ++ e :: after → reason before e

variable {E : Type} {reason : List E → E → Prop} {history : List E}

theorem justified_nil : Justified reason [] := by
  intro before e after h
  rw [List.nil_eq, List.append_eq_nil_iff] at h
  cases h.2

theorem Justified.concat (h : Justified reason history) {e : E} (he : reason history e) :
    Justified reason (history ++ [e]) := by
  intro before x after hsplit
  rcases List.eq_nil_or_concat after with rfl | ⟨after', y, rfl⟩
  · obtain ⟨rfl, hlast⟩ := List.append_inj' hsplit rfl
    obtain ⟨rfl, -⟩ := List.cons.inj hlast
    exact he
  · rw [List.concat_eq_append, ← List.cons_append, ← List.append_assoc] at hsplit
    obtain ⟨rfl, -⟩ := List.append_inj' hsplit rfl
    exact h before x after' rfl

end Arne.Machine
