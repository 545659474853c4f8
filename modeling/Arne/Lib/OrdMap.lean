import Mathlib.Algebra.Order.Ring.Int
import Mathlib.Data.List.Nodup
import Mathlib.Data.List.Perm.Basic

/-!
# Insertion-ordered maps

A map that remembers the order its keys were first set in: setting a present key
keeps its place, setting a new one appends, erasing forgets the place.  The
entries carry the proof that no key occurs twice, so iterating the entries visits
each key once.
-/

namespace Arne

structure OrdMap (κ ν : Type _) where
  entries : List (κ × ν)
  nodup : (entries.map Prod.fst).Nodup

namespace OrdMap

variable {κ ν : Type _}

instance [DecidableEq κ] [DecidableEq ν] : DecidableEq (OrdMap κ ν) := fun a b =>
  decidable_of_iff (a.entries = b.entries) (by
    cases a; cases b; simp)

instance [Repr κ] [Repr ν] : Repr (OrdMap κ ν) := ⟨fun m n => reprPrec m.entries n⟩

def empty : OrdMap κ ν := ⟨[], List.nodup_nil⟩

def keys (m : OrdMap κ ν) : List κ := m.entries.map Prod.fst

def size (m : OrdMap κ ν) : Nat := m.entries.length

variable [DecidableEq κ]

def get? (m : OrdMap κ ν) (k : κ) : Option ν :=
  (m.entries.find? fun e => decide (e.1 = k)).map Prod.snd

def has (m : OrdMap κ ν) (k : κ) : Bool := (m.get? k).isSome

theorem mem_entries_iff (m : OrdMap κ ν) (k : κ) (v : ν) :
    (k, v) ∈ m.entries ↔ m.get? k = some v := by
  obtain ⟨entries, nodup⟩ := m
  simp only [get?]
  induction entries with
  | nil => simp
  | cons e entries ih =>
    simp only [List.map_cons, List.nodup_cons] at nodup
    by_cases he : e.1 = k
    · have hnot : (k, v) ∉ entries := fun hmem =>
        nodup.1 (List.mem_map.mpr ⟨(k, v), hmem, he.symm⟩)
      rw [List.find?_cons_of_pos (by simpa using he)]
      simp only [List.mem_cons, hnot, or_false, Option.map_some, Option.some.injEq]
      exact ⟨fun h => (congrArg Prod.snd h).symm, fun h => Prod.ext he.symm h.symm⟩
    · rw [List.find?_cons_of_neg (by simpa using he), ← ih nodup.2]
      simp only [List.mem_cons, or_iff_right_iff_imp]
      exact fun h => absurd (congrArg Prod.fst h).symm he

theorem mem_keys_iff (m : OrdMap κ ν) (k : κ) : k ∈ m.keys ↔ ∃ v, m.get? k = some v := by
  simp only [keys, List.mem_map, ← mem_entries_iff]
  constructor
  · rintro ⟨⟨k', v⟩, hmem, rfl⟩; exact ⟨v, hmem⟩
  · rintro ⟨v, hmem⟩; exact ⟨(k, v), hmem, rfl⟩

theorem get?_eq_none_iff (m : OrdMap κ ν) (k : κ) : m.get? k = none ↔ k ∉ m.keys := by
  rw [mem_keys_iff]
  cases m.get? k <;> simp

theorem has_iff (m : OrdMap κ ν) (k : κ) : m.has k = true ↔ ∃ v, m.get? k = some v := by
  rw [has, Option.isSome_iff_exists]

theorem size_ne_zero_of_get? {m : OrdMap κ ν} {k : κ} {v : ν} (h : m.get? k = some v) :
    m.size ≠ 0 := by
  intro hzero
  have hmem := (mem_entries_iff m k v).mpr h
  rw [List.length_eq_zero_iff.mp hzero] at hmem
  cases hmem

theorem exists_get?_of_size {m : OrdMap κ ν} (h : m.size ≠ 0) : ∃ k v, m.get? k = some v := by
  obtain ⟨⟨k, v⟩, hmem⟩ := List.exists_mem_of_length_pos (Nat.pos_of_ne_zero h)
  exact ⟨k, v, (mem_entries_iff m k v).mp hmem⟩

/-! ### Setting -/

private def replace (k : κ) (v : ν) (entries : List (κ × ν)) : List (κ × ν) :=
  entries.map fun e => if e.1 = k then (k, v) else e

private theorem replace_keys (k : κ) (v : ν) (entries : List (κ × ν)) :
    (replace k v entries).map Prod.fst = entries.map Prod.fst := by
  induction entries with
  | nil => rfl
  | cons e entries ih =>
    have hhead : (if e.1 = k then (k, v) else e).1 = e.1 := by
      split
      · rename_i h; exact h.symm
      · rfl
    simp only [replace, List.map_cons, hhead] at ih ⊢
    rw [ih]

/-- `Map.set`: a present key keeps its place, a new one goes last. -/
def set (m : OrdMap κ ν) (k : κ) (v : ν) : OrdMap κ ν :=
  if h : k ∈ m.entries.map Prod.fst then
    ⟨replace k v m.entries, by rw [replace_keys]; exact m.nodup⟩
  else
    ⟨m.entries ++ [(k, v)], by
      rw [List.map_append, List.nodup_append]
      refine ⟨m.nodup, by simp, ?_⟩
      intro a ha b hb
      have hbk : b = k := by simpa using hb
      rintro rfl
      exact h (hbk ▸ ha)⟩

theorem mem_set_entries (m : OrdMap κ ν) (k : κ) (v : ν) (e : κ × ν) :
    e ∈ (m.set k v).entries ↔ e = (k, v) ∨ (e ∈ m.entries ∧ e.1 ≠ k) := by
  unfold set
  split
  · rename_i h
    obtain ⟨e', he', hk⟩ := List.mem_map.mp h
    simp only [replace, List.mem_map]
    constructor
    · rintro ⟨a, ha, rfl⟩
      split
      · exact Or.inl rfl
      · rename_i hne; exact Or.inr ⟨ha, hne⟩
    · rintro (rfl | ⟨hmem, hne⟩)
      · exact ⟨e', he', by rw [if_pos hk]⟩
      · exact ⟨e, hmem, by rw [if_neg hne]⟩
  · rename_i h
    simp only [List.mem_append, List.mem_singleton]
    constructor
    · rintro (hmem | rfl)
      · exact Or.inr ⟨hmem, fun hk => h (hk ▸ List.mem_map_of_mem hmem)⟩
      · exact Or.inl rfl
    · rintro (rfl | ⟨hmem, -⟩)
      · exact Or.inr rfl
      · exact Or.inl hmem

theorem get?_eq_some_iff (m : OrdMap κ ν) (k : κ) (v : ν) :
    m.get? k = some v ↔ (k, v) ∈ m.entries := (mem_entries_iff m k v).symm

@[simp] theorem get?_empty (k : κ) : (empty : OrdMap κ ν).get? k = none := rfl

theorem get?_set (m : OrdMap κ ν) (k : κ) (v : ν) (j : κ) :
    (m.set k v).get? j = if j = k then some v else m.get? j := by
  apply Option.ext
  intro w
  rw [get?_eq_some_iff, mem_set_entries]
  split
  · rename_i h
    subst h
    simp [eq_comm]
  · rename_i h
    rw [get?_eq_some_iff]
    constructor
    · rintro (he | ⟨hmem, -⟩)
      · exact absurd (congrArg Prod.fst he) h
      · exact hmem
    · exact fun hmem => Or.inr ⟨hmem, h⟩

@[simp] theorem get?_set_self (m : OrdMap κ ν) (k : κ) (v : ν) : (m.set k v).get? k = some v := by
  rw [get?_set, if_pos rfl]

theorem get?_set_ne (m : OrdMap κ ν) {k j : κ} (v : ν) (h : j ≠ k) :
    (m.set k v).get? j = m.get? j := by
  rw [get?_set, if_neg h]

private theorem sum_replace (f : ν → Nat) (k : κ) (v : ν) (entries : List (κ × ν))
    (hnodup : (entries.map Prod.fst).Nodup) (hk : k ∈ entries.map Prod.fst) :
    ((replace k v entries).map fun e => f e.2).sum +
        (((entries.find? fun e => decide (e.1 = k)).map Prod.snd).elim 0 f) =
      (entries.map fun e => f e.2).sum + f v := by
  induction entries with
  | nil => cases hk
  | cons e rest ih =>
    simp only [List.map_cons, List.nodup_cons] at hnodup
    by_cases he : e.1 = k
    · have hrest : replace k v rest = rest := by
        have hkeep : ∀ e' ∈ rest, (if e'.1 = k then (k, v) else e') = e' := by
          intro e' he'
          apply if_neg
          intro hk'
          exact hnodup.1 (he.trans hk'.symm ▸ List.mem_map_of_mem he')
        exact (List.map_congr_left hkeep).trans (List.map_id' rest)
      have hhead : replace k v (e :: rest) = (k, v) :: rest := by
        rw [← congrArg ((k, v) :: ·) hrest]
        simp only [replace, List.map_cons, he, if_true]
      rw [hhead]
      simp [he]
      omega
    · have hmem : k ∈ rest.map Prod.fst := by
        rcases List.mem_cons.mp hk with h | h
        · exact absurd h.symm he
        · exact h
      have hhead : replace k v (e :: rest) = e :: replace k v rest := by simp [replace, he]
      have hrest := ih hnodup.2 hmem
      rw [hhead, List.find?_cons_of_neg (by simpa using he)]
      simp only [List.map_cons, List.sum_cons]
      omega

/-- Setting a key exchanges its old value for the new one in any sum over the values. -/
theorem sum_set (f : ν → Nat) (m : OrdMap κ ν) (k : κ) (v : ν) :
    ((m.set k v).entries.map fun e => f e.2).sum + (m.get? k).elim 0 f =
      (m.entries.map fun e => f e.2).sum + f v := by
  unfold set
  split
  · rename_i hk
    exact sum_replace f k v m.entries m.nodup hk
  · rename_i hk
    rw [(m.get?_eq_none_iff k).mpr hk]
    simp

/-! ### Erasing -/

/-- `Map.delete`. -/
def erase (m : OrdMap κ ν) (k : κ) : OrdMap κ ν :=
  ⟨m.entries.filter fun e => decide (e.1 ≠ k), by
    have hsub : (m.entries.filter fun e => decide (e.1 ≠ k)).Sublist m.entries :=
      List.filter_sublist
    exact m.nodup.sublist (hsub.map Prod.fst)⟩

theorem get?_erase (m : OrdMap κ ν) (k j : κ) :
    (m.erase k).get? j = if j = k then none else m.get? j := by
  apply Option.ext
  intro w
  rw [get?_eq_some_iff]
  simp only [erase, List.mem_filter, decide_eq_true_eq]
  split
  · rename_i h; simp [h]
  · rename_i h
    rw [get?_eq_some_iff]
    exact ⟨fun hm => hm.1, fun hm => ⟨hm, h⟩⟩

/-! ### Setting many entries -/

/-- Setting a list of entries in turn: the last one for a key wins. -/
def setAll (m : OrdMap κ ν) : List (κ × ν) → OrdMap κ ν
  | [] => m
  | (k, v) :: rest => setAll (m.set k v) rest

/-- The value the last entry for `k` in a list of settings carries. -/
def lastFor (k : κ) : List (κ × ν) → Option ν
  | [] => none
  | (k', v) :: rest => (lastFor k rest).or (if k = k' then some v else none)

theorem get?_setAll (m : OrdMap κ ν) (settings : List (κ × ν)) (k : κ) :
    (m.setAll settings).get? k = (lastFor k settings).or (m.get? k) := by
  induction settings generalizing m with
  | nil => rfl
  | cons e rest ih =>
    obtain ⟨k', v⟩ := e
    rw [setAll, ih, get?_set, lastFor]
    cases lastFor k rest with
    | some w => rfl
    | none => by_cases h : k = k' <;> simp [h]

theorem lastFor_eq_none_iff (k : κ) (settings : List (κ × ν)) :
    lastFor k settings = none ↔ k ∉ settings.map Prod.fst := by
  induction settings with
  | nil => simp [lastFor]
  | cons e rest ih =>
    obtain ⟨k', v⟩ := e
    simp only [lastFor, Option.or_eq_none_iff, ih, List.map_cons, List.mem_cons, not_or]
    by_cases h : k = k' <;> simp [h]

theorem lastFor_mem {k : κ} {v : ν} {settings : List (κ × ν)} (h : lastFor k settings = some v) :
    (k, v) ∈ settings := by
  induction settings with
  | nil => simp [lastFor] at h
  | cons e rest ih =>
    obtain ⟨k', w⟩ := e
    simp only [lastFor, Option.or_eq_some_iff] at h
    rcases h with h | ⟨-, h⟩
    · exact List.mem_cons_of_mem _ (ih h)
    · split at h
      · rename_i hk
        cases h
        exact hk ▸ List.mem_cons_self
      · cases h

/-- Among settings that name each key once, the entry for a key is its last. -/
theorem lastFor_of_mem {k : κ} {v : ν} {settings : List (κ × ν)}
    (hnodup : (settings.map Prod.fst).Nodup) (h : (k, v) ∈ settings) :
    lastFor k settings = some v := by
  induction settings with
  | nil => cases h
  | cons e rest ih =>
    obtain ⟨k', w⟩ := e
    simp only [List.map_cons, List.nodup_cons] at hnodup
    rcases List.mem_cons.mp h with heq | hmem
    · cases heq
      have hnone : lastFor k rest = none := (lastFor_eq_none_iff k rest).mpr hnodup.1
      simp [lastFor, hnone]
    · rw [lastFor, ih hnodup.2 hmem, Option.some_or]

/-- The entries of a map set each key to its own value. -/
theorem lastFor_entries (m : OrdMap κ ν) (k : κ) : lastFor k m.entries = m.get? k := by
  cases h : m.get? k with
  | none => exact (lastFor_eq_none_iff k _).mpr ((get?_eq_none_iff m k).mp h)
  | some v => exact lastFor_of_mem m.nodup ((mem_entries_iff m k v).mpr h)

/-- Settings made from a map's entries, where some entries may make none. -/
theorem lastFor_filterMap {μ : Type _} (f : κ → ν → Option μ) (settings : List (κ × ν))
    (hnodup : (settings.map Prod.fst).Nodup) (k : κ) :
    lastFor k (settings.filterMap fun e => (f e.1 e.2).map fun v => (e.1, v)) =
      (lastFor k settings).bind (f k) := by
  induction settings with
  | nil => rfl
  | cons e rest ih =>
    obtain ⟨k', v⟩ := e
    simp only [List.map_cons, List.nodup_cons] at hnodup
    have ih := ih hnodup.2
    by_cases hk : k = k'
    · subst hk
      have hnone : lastFor k rest = none := (lastFor_eq_none_iff k rest).mpr hnodup.1
      rw [hnone] at ih
      cases hf : f k v with
      | none => simp [hf, ih, lastFor, hnone]
      | some w => simp [hf, ih, lastFor, hnone]
    · cases hf : f k' v with
      | none => simp [hf, ih, lastFor, hk]
      | some w => simp [hf, ih, lastFor, hk]

theorem lastFor_map {μ : Type _} (f : ν → μ) (settings : List (κ × ν)) (k : κ) :
    lastFor k (settings.map fun e => (e.1, f e.2)) = (lastFor k settings).map f := by
  induction settings with
  | nil => rfl
  | cons e rest ih =>
    simp only [List.map_cons, lastFor, ih]
    cases lastFor k rest with
    | some w => rfl
    | none => split <;> rfl

/-- Rearranging settings that name each key once changes nothing. -/
theorem lastFor_perm {settings settings' : List (κ × ν)} (h : settings.Perm settings')
    (hnodup : (settings.map Prod.fst).Nodup) (k : κ) :
    lastFor k settings = lastFor k settings' := by
  have hnodup' : (settings'.map Prod.fst).Nodup := (h.map Prod.fst).nodup_iff.mp hnodup
  cases hk : lastFor k settings with
  | none =>
    rw [lastFor_eq_none_iff, (h.map Prod.fst).mem_iff] at hk
    exact ((lastFor_eq_none_iff k _).mpr hk).symm
  | some v => exact (lastFor_of_mem hnodup' (h.mem_iff.mp (lastFor_mem hk))).symm

/-- A fold of updates that each touch one key, over entries that name each key once. -/
theorem get?_foldl {μ : Type _} {f : OrdMap κ ν → κ × μ → OrdMap κ ν}
    {g : Option ν → μ → Option ν}
    (hf : ∀ m e k, (f m e).get? k = if k = e.1 then g (m.get? k) e.2 else m.get? k)
    (entries : List (κ × μ)) (hnodup : (entries.map Prod.fst).Nodup) (m : OrdMap κ ν) (k : κ) :
    (entries.foldl f m).get? k = (lastFor k entries).elim (m.get? k) (g (m.get? k)) := by
  induction entries generalizing m with
  | nil => rfl
  | cons e rest ih =>
    obtain ⟨k', v⟩ := e
    simp only [List.map_cons, List.nodup_cons] at hnodup
    rw [List.foldl_cons, ih hnodup.2, hf, lastFor]
    by_cases hk : k = k'
    · subst hk
      simp [(lastFor_eq_none_iff k rest).mpr hnodup.1]
    · simp [hk]

end OrdMap

end Arne
