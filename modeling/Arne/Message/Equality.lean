import Mathlib.Algebra.Order.BigOperators.Group.List
import Mathlib.Algebra.Order.Ring.Nat
import Mathlib.Data.List.Forall2
import Mathlib.Data.List.Perm.Subperm
import Arne.Message.Filter

/-!
# Comparing whole values up to case

Two objects are compared by looking every key of the one up in the other, up to case, and
taking the first member found; that their sizes are equal stands in for the other
direction.  The comparison is always transitive.  It is an equivalence among the values in
which no object has two keys equal up to case, and in no larger way: at any other value it
is not reflexive or not symmetric.
-/

namespace Arne.Message

/-! ### Scalars -/

theorem Double.eqValue_refl (a : Double) : a.eqValue a = true := by
  simp [Double.eqValue]

theorem Double.eqValue_symm {a b : Double} (h : a.eqValue b = true) : b.eqValue a = true := by
  simp only [Double.eqValue, Bool.or_eq_true, Bool.and_eq_true, beq_iff_eq] at h ⊢
  tauto

theorem Double.eqValue_trans {a b c : Double} (hab : a.eqValue b = true)
    (hbc : b.eqValue c = true) : a.eqValue c = true := by
  -- a zero has no digits, so a number with the digits of a zero is one
  have hzero : ∀ d : Double, d.isZero = true ↔ d.digits = [] := by
    intro d
    simp [Double.isZero]
  simp only [Double.eqValue, Bool.or_eq_true, Bool.and_eq_true, beq_iff_eq, hzero] at *
  grind

/-- The comparison of values that are not both arrays or both objects. -/
def sameScalar (lower : String → String) : Json → Json → Bool
  | .null, .null => true
  | .bool a, .bool b => a == b
  | .number a, .number b => a.eqValue b
  | .string a, .string b => lower a == lower b
  | _, _ => false

section

variable {lower : String → String}

theorem sameScalar_refl {a : Json} (h : a.isContainer = false) : sameScalar lower a a = true := by
  cases a <;> simp [sameScalar, Double.eqValue_refl, Json.isContainer] at h ⊢

theorem sameScalar_symm {a b : Json} (h : sameScalar lower a b = true) :
    sameScalar lower b a = true := by
  cases a <;> cases b <;> simp_all [sameScalar, Double.eqValue_symm]

theorem sameScalar_trans {a b c : Json} (hab : sameScalar lower a b = true)
    (hbc : sameScalar lower b c = true) : sameScalar lower a c = true := by
  cases a <;> cases b <;> cases c <;> simp_all [sameScalar]
  exact Double.eqValue_trans hab hbc

theorem isContainer_of_sameScalar {a b : Json} (h : sameScalar lower a b = true) :
    a.isContainer = false ∧ b.isContainer = false := by
  cases a <;> cases b <;> simp_all [sameScalar, Json.isContainer]

end

/-! ### The comparison -/

section

variable (lower : String → String)
  (entries : List (String × Json) → List (String × Json))

/-- The first entry whose key is this one up to case. -/
def firstEntry (members : List (String × Json)) (key : String) : Option (String × Json) :=
  (entries members).find? fun e => lower e.1 == lower key

/-- A comparison of values that looks keys up to case in the entries of an object. -/
structure ComparesUpToCase (eq : Json → Json → Bool) : Prop where
  entries_perm : ∀ members, (entries members).Perm members
  scalar : ∀ a b, a.isContainer = false ∨ b.isContainer = false → eq a b = sameScalar lower a b
  array : ∀ x y, eq (.array x) (.array y) = true ↔ List.Forall₂ (fun v w => eq v w = true) x y
  object : ∀ x y, eq (.object x) (.object y) = true ↔ x.length = y.length ∧
    ∀ e ∈ x, ∃ e', firstEntry lower entries y e.1 = some e' ∧ eq e.2 e'.2 = true
  array_object : ∀ x y, eq (.array x) (.object y) = false
  object_array : ∀ x y, eq (.object x) (.array y) = false

/-- No object has two keys that are equal up to case. -/
def Json.CaseDistinct : Json → Prop := Json.EveryObject fun keys => (keys.map lower).Nodup

end

section

variable {lower : String → String} {entries : List (String × Json) → List (String × Json)}
  {eq : Json → Json → Bool} (h : ComparesUpToCase lower entries eq)
include h

theorem ComparesUpToCase.eq_scalar {a b : Json} (ha : a.isContainer = false) :
    eq a b = true ↔ sameScalar lower a b = true := by
  rw [h.scalar a b (Or.inl ha)]

/-- Equal values are of one kind. -/
theorem ComparesUpToCase.kinds {a b : Json} (heq : eq a b = true) :
    sameScalar lower a b = true ∨
      (∃ x y, a = .array x ∧ b = .array y) ∨ (∃ x y, a = .object x ∧ b = .object y) := by
  by_cases hleaf : a.isContainer = false ∨ b.isContainer = false
  · exact Or.inl ((h.scalar a b hleaf) ▸ heq)
  · cases a with
    | array x =>
      cases b with
      | array y => exact Or.inr (Or.inl ⟨x, y, rfl, rfl⟩)
      | object y => simp [h.array_object x y] at heq
      | _ => exact absurd (Or.inr rfl) hleaf
    | object x =>
      cases b with
      | array y => simp [h.object_array x y] at heq
      | object y => exact Or.inr (Or.inr ⟨x, y, rfl, rfl⟩)
      | _ => exact absurd (Or.inr rfl) hleaf
    | _ => exact absurd (Or.inl rfl) hleaf

/-! ### Lookups -/

theorem ComparesUpToCase.mem_of_firstEntry {members : List (String × Json)} {key : String}
    {e : String × Json} (hfirst : firstEntry lower entries members key = some e) :
    e ∈ members ∧ lower e.1 = lower key :=
  ⟨(h.entries_perm members).mem_iff.mp (List.mem_of_find?_eq_some hfirst),
    by simpa using List.find?_some hfirst⟩

/-- Some entry is first for the key of every member. -/
theorem ComparesUpToCase.exists_firstEntry {members : List (String × Json)} {e : String × Json}
    (hmem : e ∈ members) {key : String} (hkey : lower e.1 = lower key) :
    ∃ e', firstEntry lower entries members key = some e' := by
  apply Option.isSome_iff_exists.mp
  rw [firstEntry, List.find?_isSome]
  exact ⟨e, (h.entries_perm members).mem_iff.mpr hmem, by simpa using hkey⟩

omit h in
theorem firstEntry_congr {members : List (String × Json)} {key key' : String}
    (hkey : lower key = lower key') :
    firstEntry lower entries members key = firstEntry lower entries members key' := by
  rw [firstEntry, firstEntry, hkey]

omit h in
/-- A member is determined by its key up to case where keys are distinct up to case. -/
theorem eq_of_lower_eq {members : List (String × Json)}
    (hdistinct : ((members.map Prod.fst).map lower).Nodup) {e e' : String × Json}
    (he : e ∈ members) (he' : e' ∈ members) (hkey : lower e.1 = lower e'.1) : e = e' := by
  rw [List.map_map] at hdistinct
  exact List.inj_on_of_nodup_map hdistinct he he' hkey

theorem ComparesUpToCase.firstEntry_of_distinct {members : List (String × Json)}
    (hdistinct : ((members.map Prod.fst).map lower).Nodup) {e : String × Json}
    (he : e ∈ members) {key : String} (hkey : lower e.1 = lower key) :
    firstEntry lower entries members key = some e := by
  obtain ⟨e', hfirst⟩ := h.exists_firstEntry he hkey
  obtain ⟨he', hkey'⟩ := h.mem_of_firstEntry hfirst
  rw [hfirst, eq_of_lower_eq hdistinct he' he (hkey'.trans hkey.symm)]

/-! ### The laws -/

omit h in
theorem forall₂_symm_of_mem {R : Json → Json → Prop} {x y : List Json} (hxy : List.Forall₂ R x y)
    (hsymm : ∀ v ∈ x, ∀ w, R v w → R w v) : List.Forall₂ R y x := by
  induction hxy with
  | nil => exact .nil
  | cons hhead _ ih =>
    obtain ⟨hfirst, hrest⟩ := List.forall_mem_cons.mp hsymm
    exact .cons (hfirst _ hhead) (ih hrest)

omit h in
theorem forall₂_trans_of_mem {R : Json → Json → Prop} {x y z : List Json}
    (hxy : List.Forall₂ R x y) (hyz : List.Forall₂ R y z)
    (htrans : ∀ v ∈ x, ∀ w u, R v w → R w u → R v u) : List.Forall₂ R x z := by
  induction hxy generalizing z with
  | nil =>
    cases hyz
    exact .nil
  | cons hhead _ ih =>
    obtain ⟨hfirst, hrest⟩ := List.forall_mem_cons.mp htrans
    cases hyz with
    | cons hhead' hyz => exact .cons (hfirst _ _ hhead hhead') (ih hyz hrest)

/-- Equality is transitive, whatever the keys. -/
theorem ComparesUpToCase.trans (a : Json) :
    ∀ b c, eq a b = true → eq b c = true → eq a c = true := by
  induction a using Json.induct with
  | leaf a ha =>
    intro b c hab hbc
    rw [h.eq_scalar ha] at hab ⊢
    have hb := (isContainer_of_sameScalar hab).2
    exact sameScalar_trans hab ((h.eq_scalar hb).mp hbc)
  | array x ih =>
    intro b c hab hbc
    rcases h.kinds hab with hs | ⟨_, y, hx, rfl⟩ | ⟨_, _, hx, _⟩
    · cases (isContainer_of_sameScalar hs).1
    · rcases h.kinds hbc with hs | ⟨_, z, hy, rfl⟩ | ⟨_, _, hy, _⟩
      · cases (isContainer_of_sameScalar hs).1
      · exact (h.array x z).mpr
          (forall₂_trans_of_mem ((h.array x y).mp hab) ((h.array y z).mp hbc) ih)
      · cases hy
    · cases hx
  | object x ih =>
    intro b c hab hbc
    rcases h.kinds hab with hs | ⟨_, _, hx, _⟩ | ⟨_, y, hx, rfl⟩
    · cases (isContainer_of_sameScalar hs).1
    · cases hx
    · rcases h.kinds hbc with hs | ⟨_, _, hy, _⟩ | ⟨_, z, hy, rfl⟩
      · cases (isContainer_of_sameScalar hs).1
      · cases hy
      · obtain ⟨hxy, hfirst⟩ := (h.object x y).mp hab
        obtain ⟨hyz, hsecond⟩ := (h.object y z).mp hbc
        refine (h.object x z).mpr ⟨hxy.trans hyz, ?_⟩
        intro e he
        obtain ⟨e', he', heq⟩ := hfirst e he
        obtain ⟨hmem, hkey⟩ := h.mem_of_firstEntry he'
        obtain ⟨e'', he'', heq'⟩ := hsecond e' hmem
        rw [firstEntry_congr hkey] at he''
        exact ⟨e'', he'', ih e he _ _ heq heq'⟩

/-- A value whose keys are distinct up to case equals itself. -/
theorem ComparesUpToCase.refl_of_distinct (a : Json) (ha : a.CaseDistinct lower) :
    eq a a = true := by
  induction a using Json.induct with
  | leaf a hleaf => exact (h.eq_scalar hleaf).mpr (sameScalar_refl hleaf)
  | array x ih =>
    apply (h.array x x).mpr
    exact List.forall₂_same.mpr fun v hv => ih v hv (Json.everyObjectItems_iff.mp ha v hv)
  | object x ih =>
    obtain ⟨hdistinct, hvalues⟩ := ha
    refine (h.object x x).mpr ⟨rfl, ?_⟩
    intro e he
    exact ⟨e, h.firstEntry_of_distinct hdistinct he rfl,
      ih e he (Json.everyObjectMembers_iff.mp hvalues e he)⟩

/-- Where the keys of the first object are distinct up to case, those of the second are
    the same ones, so the lookups go both ways. -/
theorem ComparesUpToCase.symm_of_distinct (a : Json) (ha : a.CaseDistinct lower) :
    ∀ b, eq a b = true → eq b a = true := by
  induction a using Json.induct with
  | leaf a hleaf =>
    intro b hab
    have hs := (h.eq_scalar hleaf).mp hab
    exact (h.eq_scalar (isContainer_of_sameScalar hs).2).mpr (sameScalar_symm hs)
  | array x ih =>
    intro b hab
    rcases h.kinds hab with hs | ⟨_, y, hx, rfl⟩ | ⟨_, _, hx, _⟩
    · cases (isContainer_of_sameScalar hs).1
    · exact (h.array y x).mpr (forall₂_symm_of_mem ((h.array x y).mp hab)
        fun v hv => ih v hv (Json.everyObjectItems_iff.mp ha v hv))
    · cases hx
  | object x ih =>
    intro b hab
    obtain ⟨hdistinct, hvalues⟩ := ha
    rcases h.kinds hab with hs | ⟨_, _, hx, _⟩ | ⟨_, y, hx, rfl⟩
    · cases (isContainer_of_sameScalar hs).1
    · cases hx
    · obtain ⟨hlength, hfirst⟩ := (h.object x y).mp hab
      have hsubset : (x.map Prod.fst).map lower ⊆ (y.map Prod.fst).map lower := by
        intro key hkey
        simp only [List.map_map, List.mem_map, Function.comp_apply] at hkey ⊢
        obtain ⟨e, he, rfl⟩ := hkey
        obtain ⟨e', he', _⟩ := hfirst e he
        exact ⟨e', h.mem_of_firstEntry he'⟩
      have hperm : ((x.map Prod.fst).map lower).Perm ((y.map Prod.fst).map lower) :=
        (List.subperm_of_subset hdistinct hsubset).perm_of_length_le (by simp [hlength])
      have hdistinct' : ((y.map Prod.fst).map lower).Nodup := hperm.nodup_iff.mp hdistinct
      refine (h.object y x).mpr ⟨hlength.symm, ?_⟩
      intro e' he'
      have hkey : lower e'.1 ∈ (x.map Prod.fst).map lower :=
        hperm.mem_iff.mpr (List.mem_map_of_mem (List.mem_map_of_mem he'))
      simp only [List.map_map, List.mem_map, Function.comp_apply] at hkey
      obtain ⟨e, he, hkey⟩ := hkey
      obtain ⟨e'', hfound, heq⟩ := hfirst e he
      have hsame := h.firstEntry_of_distinct hdistinct' he' hkey.symm
      rw [hsame, Option.some.injEq] at hfound
      subst hfound
      exact ⟨e, h.firstEntry_of_distinct hdistinct he hkey,
        ih e he (Json.everyObjectMembers_iff.mp hvalues e he) _ heq⟩

/-! ### Values whose keys collide -/

omit h in
/-- As many keys as wanted, distinct up to case, away from given ones. -/
theorem exists_freshKeys (hfresh : ∀ keys : List String, ∃ k, lower k ∉ keys) (n : Nat)
    (avoid : List String) :
    ∃ keys : List String, keys.length = n ∧ (keys.map lower).Nodup ∧
      ∀ k ∈ keys, lower k ∉ avoid := by
  induction n with
  | zero => exact ⟨[], rfl, List.nodup_nil, fun k hk => absurd hk List.not_mem_nil⟩
  | succ n ih =>
    obtain ⟨keys, hlength, hnodup, havoid⟩ := ih
    obtain ⟨k, hk⟩ := hfresh (keys.map lower ++ avoid)
    obtain ⟨hkeys, hk⟩ := not_or.mp (mt List.mem_append.mpr hk)
    refine ⟨k :: keys, congrArg Nat.succ hlength, List.nodup_cons.mpr ⟨hkeys, hnodup⟩, ?_⟩
    exact List.forall_mem_cons.mpr ⟨hk, havoid⟩

/-- The members that a lookup of their own key finds. -/
def found (lower : String → String) (entries : List (String × Json) → List (String × Json))
    (members : List (String × Json)) : List (String × Json) :=
  members.filter fun e => (firstEntry lower entries members e.1).any fun e' => e'.1 == e.1

theorem ComparesUpToCase.mem_found {members : List (String × Json)}
    (hkeys : (members.map Prod.fst).Nodup) {e : String × Json} :
    e ∈ found lower entries members ↔
      firstEntry lower entries members e.1 = some e := by
  rw [found, List.mem_filter, Option.any_eq_true]
  constructor
  · rintro ⟨he, e', hfirst, hkey⟩
    have hmem := (h.mem_of_firstEntry hfirst).1
    rw [hfirst, List.inj_on_of_nodup_map hkeys hmem he (beq_iff_eq.mp hkey)]
  · intro hfirst
    exact ⟨(h.mem_of_firstEntry hfirst).1, e, hfirst, beq_self_eq_true _⟩

/-- The members found have keys that are distinct up to case. -/
theorem ComparesUpToCase.found_distinct {members : List (String × Json)}
    (hkeys : (members.map Prod.fst).Nodup) :
    (((found lower entries members).map Prod.fst).map lower).Nodup := by
  rw [List.map_map]
  have hnodup : members.Nodup := List.Nodup.of_map _ hkeys
  refine List.Nodup.map_on ?_ (hnodup.filter _)
  intro e he e' he' hkey
  have hfirst := (h.mem_found hkeys).mp he
  have hfirst' := (h.mem_found hkeys).mp he'
  rw [firstEntry_congr hkey, hfirst'] at hfirst
  exact (Option.some.inj hfirst).symm

/-- An object with two keys equal up to case equals an object that does not equal it: the
    members found, and others in place of the rest. -/
theorem ComparesUpToCase.asymmetric_object (hfresh : ∀ keys : List String, ∃ k, lower k ∉ keys)
    {x : List (String × Json)} (hx : (Json.object x).DistinctKeys)
    (hself : eq (.object x) (.object x) = true)
    (hcollide : ¬ ((x.map Prod.fst).map lower).Nodup) :
    ∃ b : Json, b.DistinctKeys ∧ eq (.object x) b = true ∧ eq b (.object x) = false := by
  obtain ⟨hkeys, hvalues⟩ := hx
  have hsub : (found lower entries x).length ≤ x.length := List.length_filter_le _ _
  have hless : (found lower entries x).length < x.length := by
    refine lt_of_le_of_ne hsub ?_
    intro heq
    have hall : found lower entries x = x := List.filter_sublist.eq_of_length heq
    apply hcollide
    rw [← hall]
    exact h.found_distinct hkeys
  obtain ⟨fresh, hlength, hnodup, havoid⟩ := exists_freshKeys hfresh
    (x.length - (found lower entries x).length) ((x.map Prod.fst).map lower)
  let y := found lower entries x ++ fresh.map fun k => (k, Json.null)
  have hykeys : (y.map Prod.fst).map lower =
      ((found lower entries x).map Prod.fst).map lower ++ fresh.map lower := by
    simp [y, Function.comp_def]
  have hfoundmem : ∀ e ∈ found lower entries x, e ∈ x := fun e he => List.mem_of_mem_filter he
  have hydistinct : ((y.map Prod.fst).map lower).Nodup := by
    rw [hykeys]
    refine List.nodup_append.mpr ⟨h.found_distinct hkeys, hnodup, ?_⟩
    rintro key hkey _ hkey' rfl
    obtain ⟨k, hk, rfl⟩ := List.mem_map.mp hkey'
    apply havoid k hk
    simp only [List.map_map, List.mem_map, Function.comp_apply] at hkey ⊢
    obtain ⟨e, he, heq⟩ := hkey
    exact ⟨e, hfoundmem e he, heq⟩
  refine ⟨.object y, ⟨List.Nodup.of_map _ hydistinct, ?_⟩, ?_, ?_⟩
  · apply Json.everyObjectMembers_iff.mpr
    intro e he
    rcases List.mem_append.mp he with he | he
    · exact Json.everyObjectMembers_iff.mp hvalues e (hfoundmem e he)
    · obtain ⟨k, _, rfl⟩ := List.mem_map.mp he
      trivial
  · refine (h.object x y).mpr ⟨by simp [y, hlength]; omega, ?_⟩
    intro e he
    obtain ⟨e', hfirst, heq⟩ := ((h.object x x).mp hself).2 e he
    have hkey := (h.mem_of_firstEntry hfirst).2
    have hmem : e' ∈ found lower entries x := by
      apply (h.mem_found hkeys).mpr
      rwa [firstEntry_congr hkey]
    exact ⟨e', h.firstEntry_of_distinct hydistinct (List.mem_append_left _ hmem) hkey, heq⟩
  · by_contra heq
    have hback := ((h.object y x).mp (by simpa using heq)).2
    obtain ⟨k, hk⟩ : ∃ k, k ∈ fresh := List.exists_mem_of_length_pos (by omega)
    obtain ⟨e, hfirst, _⟩ :=
      hback (k, Json.null) (List.mem_append_right _ (List.mem_map_of_mem hk))
    obtain ⟨he, hkey⟩ := h.mem_of_firstEntry hfirst
    apply havoid k hk
    rw [← hkey]
    exact List.mem_map_of_mem (List.mem_map_of_mem he)

/-- An array with an item exchanged. -/
theorem ComparesUpToCase.asymmetric_item {x : List Json} (hx : (Json.array x).DistinctKeys)
    (hself : eq (.array x) (.array x) = true) {v b : Json} (hv : v ∈ x) (hb : b.DistinctKeys)
    (hvb : eq v b = true) (hbv : eq b v = false) :
    ∃ c : Json, c.DistinctKeys ∧ eq (.array x) c = true ∧ eq c (.array x) = false := by
  have hitems : ∀ w ∈ x, w.DistinctKeys := Json.everyObjectItems_iff.mp hx
  have hselves : ∀ w ∈ x, eq w w = true := List.forall₂_same.mp ((h.array x x).mp hself)
  obtain ⟨before, after, rfl⟩ := List.append_of_mem hv
  have hother : ∀ l : List Json, (∀ w ∈ l, w ∈ before ++ v :: after) →
      List.Forall₂ (fun v w => eq v w = true) l l :=
    fun l hl => List.forall₂_same.mpr fun w hw => hselves w (hl w hw)
  have hbefore : ∀ w ∈ before, w ∈ before ++ v :: after :=
    fun w hw => List.mem_append_left _ hw
  have hafter : ∀ w ∈ after, w ∈ before ++ v :: after :=
    fun w hw => List.mem_append_right _ (List.mem_cons_of_mem _ hw)
  refine ⟨.array (before ++ b :: after), ?_, ?_, ?_⟩
  · apply Json.everyObjectItems_iff.mpr
    intro w hw
    rcases List.mem_append.mp hw with hw | hw
    · exact hitems w (hbefore w hw)
    · rcases List.mem_cons.mp hw with rfl | hw
      · exact hb
      · exact hitems w (hafter w hw)
  · exact (h.array _ _).mpr
      (List.rel_append (hother before hbefore) (.cons hvb (hother after hafter)))
  · by_contra heq
    have hback := (h.array _ _).mp (by simpa using heq)
    have hzip : (b, v) ∈ (before ++ b :: after).zip (before ++ v :: after) := by
      rw [List.zip_append rfl]
      exact List.mem_append_right _ List.mem_cons_self
    have := (List.forall₂_iff_zip.mp hback).2 hzip
    rw [hbv] at this
    cases this

/-- The members of an object without a collision of its own equal themselves. -/
theorem ComparesUpToCase.members_self {x : List (String × Json)}
    (hdistinct : ((x.map Prod.fst).map lower).Nodup) (hself : eq (.object x) (.object x) = true) :
    ∀ e ∈ x, eq e.2 e.2 = true := by
  intro e he
  obtain ⟨e', hfirst, heq⟩ := ((h.object x x).mp hself).2 e he
  rw [h.firstEntry_of_distinct hdistinct he rfl, Option.some.injEq] at hfirst
  rwa [← hfirst] at heq

/-- An object without a collision of its own, with the value of a member exchanged. -/
theorem ComparesUpToCase.asymmetric_member {x : List (String × Json)}
    (hx : (Json.object x).DistinctKeys) (hself : eq (.object x) (.object x) = true)
    (hdistinct : ((x.map Prod.fst).map lower).Nodup) {e : String × Json} (he : e ∈ x) {b : Json}
    (hb : b.DistinctKeys) (heb : eq e.2 b = true) (hbe : eq b e.2 = false) :
    ∃ c : Json, c.DistinctKeys ∧ eq (.object x) c = true ∧ eq c (.object x) = false := by
  obtain ⟨hkeys, hvalues⟩ := hx
  have hmembers : ∀ e' ∈ x, e'.2.DistinctKeys := Json.everyObjectMembers_iff.mp hvalues
  have hselves := h.members_self hdistinct hself
  obtain ⟨before, after, rfl⟩ := List.append_of_mem he
  let y := before ++ (e.1, b) :: after
  have hsame : y.map Prod.fst = (before ++ e :: after).map Prod.fst := by simp [y]
  have hydistinct : ((y.map Prod.fst).map lower).Nodup := hsame ▸ hdistinct
  have hmem : (e.1, b) ∈ y := List.mem_append_right _ List.mem_cons_self
  refine ⟨.object y, ⟨hsame ▸ hkeys, ?_⟩, ?_, ?_⟩
  · apply Json.everyObjectMembers_iff.mpr
    intro e' he'
    rcases List.mem_append.mp he' with he' | he'
    · exact hmembers e' (List.mem_append_left _ he')
    · rcases List.mem_cons.mp he' with rfl | he'
      · exact hb
      · exact hmembers e' (List.mem_append_right _ (List.mem_cons_of_mem _ he'))
  · refine (h.object _ _).mpr ⟨by simp [y], ?_⟩
    intro e' he'
    rcases List.mem_append.mp he' with hbefore | hrest
    · exact ⟨e', h.firstEntry_of_distinct hydistinct (List.mem_append_left _ hbefore) rfl,
        hselves e' he'⟩
    · rcases List.mem_cons.mp hrest with rfl | hafter
      · exact ⟨_, h.firstEntry_of_distinct hydistinct hmem rfl, heb⟩
      · exact ⟨e', h.firstEntry_of_distinct hydistinct
          (List.mem_append_right _ (List.mem_cons_of_mem _ hafter)) rfl, hselves e' he'⟩
  · by_contra heq
    obtain ⟨e', hfirst, heq'⟩ := ((h.object _ _).mp (by simpa using heq)).2 _ hmem
    rw [h.firstEntry_of_distinct hdistinct he rfl, Option.some.injEq] at hfirst
    rw [← hfirst, hbe] at heq'
    cases heq'

/-- A value with a collision in it that equals itself equals a value that does not equal
    it. -/
theorem ComparesUpToCase.asymmetric (hfresh : ∀ keys : List String, ∃ k, lower k ∉ keys)
    (a : Json) (ha : a.DistinctKeys) (hself : eq a a = true) (hcollide : ¬ a.CaseDistinct lower) :
    ∃ b : Json, b.DistinctKeys ∧ eq a b = true ∧ eq b a = false := by
  induction a using Json.induct with
  | leaf a hleaf => cases a <;> first | exact absurd trivial hcollide | cases hleaf
  | array x ih =>
    obtain ⟨v, hv, hcollide⟩ : ∃ v ∈ x, ¬ v.CaseDistinct lower := by
      by_contra hall
      push Not at hall
      exact hcollide (Json.everyObjectItems_iff.mpr hall)
    have hselves : ∀ w ∈ x, eq w w = true := List.forall₂_same.mp ((h.array x x).mp hself)
    obtain ⟨b, hb, hvb, hbv⟩ :=
      ih v hv (Json.everyObjectItems_iff.mp ha v hv) (hselves v hv) hcollide
    exact h.asymmetric_item ha hself hv hb hvb hbv
  | object x ih =>
    by_cases hdistinct : ((x.map Prod.fst).map lower).Nodup
    · obtain ⟨e, he, hcollide⟩ : ∃ e ∈ x, ¬ e.2.CaseDistinct lower := by
        by_contra hall
        push Not at hall
        exact hcollide ⟨hdistinct, Json.everyObjectMembers_iff.mpr hall⟩
      obtain ⟨b, hb, heb, hbe⟩ := ih e he (Json.everyObjectMembers_iff.mp ha.2 e he)
        (h.members_self hdistinct hself e he) hcollide
      exact h.asymmetric_member ha hself hdistinct he hb heb hbe
    · exact h.asymmetric_object hfresh ha hself hdistinct

/-- The laws of an equivalence, for one value as the left operand. -/
def LawfulAt (eq : Json → Json → Bool) (a : Json) : Prop :=
  eq a a = true ∧
    (∀ b : Json, b.DistinctKeys → eq a b = true → eq b a = true) ∧
    ∀ b c : Json, eq a b = true → eq b c = true → eq a c = true

/-- The comparison is lawful at exactly the values without a collision. -/
theorem ComparesUpToCase.lawfulAt_iff (hfresh : ∀ keys : List String, ∃ k, lower k ∉ keys)
    {a : Json} (ha : a.DistinctKeys) : LawfulAt eq a ↔ a.CaseDistinct lower := by
  constructor
  · rintro ⟨hself, hsymm, _⟩
    by_contra hcollide
    obtain ⟨b, hb, hab, hba⟩ := h.asymmetric hfresh a ha hself hcollide
    rw [hsymm b hb hab] at hba
    cases hba
  · intro hdistinct
    exact ⟨h.refl_of_distinct a hdistinct, fun b _ => h.symm_of_distinct a hdistinct b, h.trans a⟩

theorem ComparesUpToCase.comm_of_distinct {a b : Json} (ha : a.CaseDistinct lower)
    (hb : b.CaseDistinct lower) : eq a b = eq b a := by
  rw [Bool.eq_iff_iff]
  exact ⟨h.symm_of_distinct a ha b, h.symm_of_distinct b hb a⟩

end

/-! ### Loops over items and members -/

section

variable {lower : String → String} {entries : List (String × Json) → List (String × Json)}
  {eq : Json → Json → Bool} {items : List Json → List Json → Bool}
  {members : List (String × Json) → List (String × Json) → Bool}

theorem forall₂_of_loop (items_nil : ∀ y, items [] y = true)
    (items_cons : ∀ v x w y, items (v :: x) (w :: y) = (eq v w && items x y)) {x y : List Json}
    (hlength : x.length = y.length) :
    items x y = true ↔ List.Forall₂ (fun v w => eq v w = true) x y := by
  induction x generalizing y with
  | nil =>
    obtain rfl := List.length_eq_zero_iff.mp hlength.symm
    simp [items_nil]
  | cons v x ih =>
    cases y with
    | nil => cases hlength
    | cons w y => simp [items_cons, ih (Nat.succ.inj hlength)]

theorem all_found_of_loop (members_nil : ∀ y, members [] y = true)
    (members_cons : ∀ e x y, members (e :: x) y =
      ((y.find? fun e' => lower e'.1 == lower e.1).any (fun e' => eq e.2 e'.2) && members x y))
    (x y : List (String × Json)) :
    members x (entries y) = true ↔
      ∀ e ∈ x, ∃ e', firstEntry lower entries y e.1 = some e' ∧ eq e.2 e'.2 = true := by
  induction x with
  | nil => simp [members_nil]
  | cons e x ih =>
    rw [members_cons, Bool.and_eq_true, ih, List.forall_mem_cons, Option.any_eq_true]
    exact Iff.rfl

/-- A comparison written as two loops, the one over the items of an array and the other
    over the members of an object. -/
theorem comparesUpToCase_of_loops (entries_perm : ∀ members, (entries members).Perm members)
    (scalar : ∀ a b, a.isContainer = false ∨ b.isContainer = false →
      eq a b = sameScalar lower a b)
    (array : ∀ x y, eq (.array x) (.array y) = (x.length == y.length && items x y))
    (object : ∀ x y, eq (.object x) (.object y) = (x.length == y.length && members x (entries y)))
    (array_object : ∀ x y, eq (.array x) (.object y) = false)
    (object_array : ∀ x y, eq (.object x) (.array y) = false)
    (items_nil : ∀ y, items [] y = true)
    (items_cons : ∀ v x w y, items (v :: x) (w :: y) = (eq v w && items x y))
    (members_nil : ∀ y, members [] y = true)
    (members_cons : ∀ e x y, members (e :: x) y =
      ((y.find? fun e' => lower e'.1 == lower e.1).any (fun e' => eq e.2 e'.2) && members x y)) :
    ComparesUpToCase lower entries eq where
  entries_perm := entries_perm
  scalar := scalar
  array := by
    intro x y
    rw [array, Bool.and_eq_true, beq_iff_eq]
    constructor
    · rintro ⟨hlength, hitems⟩
      exact (forall₂_of_loop items_nil items_cons hlength).mp hitems
    · intro hall
      exact ⟨hall.length_eq, (forall₂_of_loop items_nil items_cons hall.length_eq).mpr hall⟩
  object := by
    intro x y
    rw [object, Bool.and_eq_true, beq_iff_eq, all_found_of_loop members_nil members_cons]
  array_object := array_object
  object_array := object_array

end

/-! ### The server's comparison -/

section

variable (lower : String → String)

theorem comparesUpToCase_jsonEqCi : ComparesUpToCase lower mapEntries (jsonEqCi lower) := by
  apply @comparesUpToCase_of_loops lower mapEntries (jsonEqCi lower) (jsonEqCiItems lower)
    (jsonEqCiMembers lower)
  case entries_perm => exact fun members => List.perm_insertionSort _ members
  case scalar =>
    intro a b hleaf
    cases a <;> cases b <;> first | rfl | simp [Json.isContainer] at hleaf
  case array => exact fun x y => by rw [jsonEqCi]
  case object => exact fun x y => by rw [jsonEqCi]
  case array_object => exact fun _ _ => rfl
  case object_array => exact fun _ _ => rfl
  case items_nil => exact fun _ => rfl
  case items_cons => exact fun v x w y => by rw [jsonEqCiItems]
  case members_nil => exact fun _ => rfl
  case members_cons =>
    intro e x y
    rw [jsonEqCiMembers]
    cases y.find? fun e' => lower e'.1 == lower e.1 <;> rfl

end

/-- A readable text that equals itself is matched by `value=` and not by `value!=`. -/
theorem typed_text_matched (env : TextEnv) {text : String} {msg : MessageOut}
    (htext : (readableValue msg).map DecodedPayload.text = some text)
    (hself : ∀ root, env.parse text = some root → jsonEqCi env.toLowercase root root = true) :
    (Filter.valueEquals (env.toLowercase text) (env.parse text)).matches env msg = true ∧
      (Filter.valueNotEquals (env.toLowercase text) (env.parse text)).matches env msg = false := by
  obtain ⟨v, hv, rfl⟩ := Option.map_eq_some_iff.mp htext
  have hequals : valueEquals env (env.toLowercase v.text) (env.parse v.text) v.text = true := by
    unfold valueEquals
    cases hparse : env.parse v.text with
    | none => simp
    | some root => exact hself root hparse
  simp [Filter.matches, hv, hequals]

/-- The comparison of whole values is lawful at a value exactly when none of its objects
    has two keys equal up to case.  Between two such values it is symmetric, and a message
    whose value is the typed text is then matched by `value=` and not by `value!=`. -/
theorem jsonEqCi_lawful_iff (env : TextEnv)
    (hfresh : ∀ keys : List String, ∃ k, env.toLowercase k ∉ keys) :
    (∀ a : Json, a.DistinctKeys →
      (LawfulAt (jsonEqCi env.toLowercase) a ↔ a.CaseDistinct env.toLowercase)) ∧
      (∀ a b : Json, a.CaseDistinct env.toLowercase → b.CaseDistinct env.toLowercase →
        jsonEqCi env.toLowercase a b = jsonEqCi env.toLowercase b a) ∧
      ∀ (text : String) (msg : MessageOut),
        (readableValue msg).map DecodedPayload.text = some text →
        (∀ root, env.parse text = some root → root.CaseDistinct env.toLowercase) →
        ∃ equals notEquals, Filter.parse env "value_eq" text none none = .ok equals ∧
          Filter.parse env "value_neq" text none none = .ok notEquals ∧
          equals.matches env msg = true ∧ notEquals.matches env msg = false := by
  have h := comparesUpToCase_jsonEqCi env.toLowercase
  refine ⟨fun a ha => h.lawfulAt_iff hfresh ha, fun a b ha hb => h.comm_of_distinct ha hb, ?_⟩
  intro text msg htext hdistinct
  have hself : ∀ root, env.parse text = some root → jsonEqCi env.toLowercase root root = true :=
    fun root hroot => h.refl_of_distinct root (hdistinct root hroot)
  exact ⟨_, _, rfl, rfl, typed_text_matched env htext hself⟩

/-- Two fields whose names differ in case. -/
def twinFields : Json := .object [("a", .bool true), ("A", .bool false)]

def twinText : String := "\x7b\"a\":true,\"A\":false\x7d"

/-- A parser for that text, and lower-casing of ASCII. -/
def twinEnv : TextEnv where
  parse text := if text = twinText then some twinFields else none
  toLowercase text := String.ofList (text.toList.map Char.toLower)

def twinMessage : MessageOut := ⟨0, 0, none, none, some ⟨.json, twinText, none, none⟩, []⟩

/-- A text longer than the given ones is none of them in lower case. -/
theorem twinEnv_fresh (keys : List String) : ∃ k, twinEnv.toLowercase k ∉ keys := by
  refine ⟨String.ofList (List.replicate ((keys.map String.length).sum + 1) 'a'), ?_⟩
  intro hmem
  have hlength := List.mem_map_of_mem (f := String.length) hmem
  have hle := List.le_sum_of_mem hlength
  simp [twinEnv] at hle

/-- An object in an array in an object, their names unlike also in lower case. -/
def nestedFields : Json :=
  .object [
    ("Order", .object [
      ("Lines", .array [.object [("Paid", .bool true), ("item", .string "ink")], .null]),
      ("by", .string "post")]),
    ("seen", .bool false)]

/-- Each object's names are unlike, whatever is asked of names. -/
theorem nestedFields_every {p : List String → Prop} (houter : p ["Order", "seen"])
    (horder : p ["Lines", "by"]) (hline : p ["Paid", "item"]) :
    Json.EveryObject p nestedFields :=
  ⟨houter, ⟨horder, ⟨⟨hline, trivial, trivial, trivial⟩, trivial, trivial⟩, trivial, trivial⟩,
    trivial, trivial⟩

theorem nested_fields_lawful : LawfulAt (jsonEqCi twinEnv.toLowercase) nestedFields := by
  have hdistinct : nestedFields.DistinctKeys :=
    nestedFields_every (by decide) (by decide) (by decide)
  apply ((jsonEqCi_lawful_iff twinEnv twinEnv_fresh).1 nestedFields hdistinct).mpr
  exact nestedFields_every (by decide) (by decide) (by decide)

/-- Looked up from `a`, the member `A` is found first: the value does not equal itself,
    and typed into the filter box its own text is matched by `value!=` only. -/
theorem twin_fields_unequal_to_themselves :
    twinFields.DistinctKeys ∧ jsonEqCi twinEnv.toLowercase twinFields twinFields = false ∧
      (Filter.valueEquals (twinEnv.toLowercase twinText) (twinEnv.parse twinText)).matches
        twinEnv twinMessage = false ∧
      (Filter.valueNotEquals (twinEnv.toLowercase twinText) (twinEnv.parse twinText)).matches
        twinEnv twinMessage = true :=
  ⟨⟨by decide, trivial, trivial, trivial⟩, by decide, by decide, by decide⟩

end Arne.Message
