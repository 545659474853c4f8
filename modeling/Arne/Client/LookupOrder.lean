import Arne.Client.FilterQuery
import Arne.Message.Equality

/-!
# Looking members up in two orders

Both sides compare a value with the query by looking the value's members up in the
query's objects, up to case, and taking the first member found: the server in the order of
the keys, the client in JavaScript's order of properties.  While the members found are
the same ones the two comparisons are at the same place.  They part where two different
members are found, and there alone they can come to different answers.
-/

namespace Arne.Client

open Arne.Message

section

variable (lower : String → String)
  (entries entries' : List (String × Json) → List (String × Json))

/-- The lookup of a key finds this member in either order. -/
def FoundAlike (members : List (String × Json)) (key : String) (e : String × Json) : Prop :=
  firstEntry lower entries members key = some e ∧ firstEntry lower entries' members key = some e

/-- Two values differ at a place that is reached by lookups which find the same member in
    either order. -/
inductive Differ : Json → Json → Prop
  | scalar {a b : Json} : a.isContainer = false ∨ b.isContainer = false →
      sameScalar lower a b = false → Differ a b
  | array_object (x : List Json) (y : List (String × Json)) : Differ (.array x) (.object y)
  | object_array (x : List (String × Json)) (y : List Json) : Differ (.object x) (.array y)
  | items {x y : List Json} : x.length ≠ y.length → Differ (.array x) (.array y)
  | members {x y : List (String × Json)} : x.length ≠ y.length → Differ (.object x) (.object y)
  | missing {x y : List (String × Json)} {e : String × Json} : e ∈ x →
      firstEntry lower entries y e.1 = none → Differ (.object x) (.object y)
  | item {x y : List Json} {v w : Json} : (v, w) ∈ x.zip y → Differ v w →
      Differ (.array x) (.array y)
  | member {x y : List (String × Json)} {e e' : String × Json} : e ∈ x →
      FoundAlike lower entries entries' y e.1 e' → Differ e.2 e'.2 → Differ (.object x) (.object y)

/-- At such a place a lookup for a member of the first value finds two different members
    of the second, the one in the one order and the other in the other. -/
inductive Forks : Json → Json → Json → Json → Json → Prop
  | here {x y : List (String × Json)} {e s c : String × Json} : e ∈ x →
      firstEntry lower entries y e.1 = some s → firstEntry lower entries' y e.1 = some c →
      s ≠ c → Forks (.object x) (.object y) e.2 s.2 c.2
  | item {x y : List Json} {v w a s c : Json} : (v, w) ∈ x.zip y → Forks v w a s c →
      Forks (.array x) (.array y) a s c
  | member {x y : List (String × Json)} {e e' : String × Json} {a s c : Json} : e ∈ x →
      FoundAlike lower entries entries' y e.1 e' → Forks e.2 e'.2 a s c →
      Forks (.object x) (.object y) a s c

end

section

variable {lower : String → String}
  {entries entries' : List (String × Json) → List (String × Json)} {eq eq' : Json → Json → Bool}

theorem FoundAlike.symm {members : List (String × Json)} {key : String} {e : String × Json}
    (h : FoundAlike lower entries entries' members key e) :
    FoundAlike lower entries' entries members key e :=
  ⟨h.2, h.1⟩

/-- A key is found in every order or in none. -/
theorem firstEntry_eq_none (h : ComparesUpToCase lower entries eq)
    (h' : ComparesUpToCase lower entries' eq') {members : List (String × Json)} {key : String}
    (hnone : firstEntry lower entries members key = none) :
    firstEntry lower entries' members key = none := by
  rw [firstEntry, List.find?_eq_none] at hnone ⊢
  intro e he
  exact hnone e ((h.entries_perm members).mem_iff.mpr ((h'.entries_perm members).mem_iff.mp he))

theorem Differ.symm (h : ComparesUpToCase lower entries eq)
    (h' : ComparesUpToCase lower entries' eq') {a b : Json}
    (hdiffer : Differ lower entries entries' a b) :
    Differ lower entries' entries a b := by
  induction hdiffer with
  | scalar hleaf hne => exact .scalar hleaf hne
  | array_object x y => exact .array_object x y
  | object_array x y => exact .object_array x y
  | items hlength => exact .items hlength
  | members hlength => exact .members hlength
  | missing he hnone => exact .missing he (firstEntry_eq_none h h' hnone)
  | item hmem _ ih => exact .item hmem ih
  | member he hfound _ ih => exact .member he hfound.symm ih

theorem Forks.symm {a b x s c : Json} (hforks : Forks lower entries entries' a b x s c) :
    Forks lower entries' entries a b x c s := by
  induction hforks with
  | here he hs hc hne => exact .here he hc hs hne.symm
  | item hmem _ ih => exact .item hmem ih
  | member he hfound _ ih => exact .member he hfound.symm ih

/-- Values that differ there are unequal in either order. -/
theorem Differ.unequal (h : ComparesUpToCase lower entries eq) {a b : Json}
    (hdiffer : Differ lower entries entries' a b) : eq a b = false := by
  induction hdiffer with
  | scalar hleaf hne => rw [h.scalar _ _ hleaf, hne]
  | array_object x y => exact h.array_object x y
  | object_array x y => exact h.object_array x y
  | items hlength =>
    apply Bool.eq_false_of_not_eq_true
    exact fun heq => hlength ((h.array _ _).mp heq).length_eq
  | members hlength =>
    apply Bool.eq_false_of_not_eq_true
    exact fun heq => hlength ((h.object _ _).mp heq).1
  | missing he hnone =>
    apply Bool.eq_false_of_not_eq_true
    intro heq
    obtain ⟨e', hfirst, _⟩ := ((h.object _ _).mp heq).2 _ he
    rw [hnone] at hfirst
    cases hfirst
  | item hmem _ ih =>
    apply Bool.eq_false_of_not_eq_true
    intro heq
    have hall := List.forall₂_iff_zip.mp ((h.array _ _).mp heq)
    rw [hall.2 hmem] at ih
    cases ih
  | member he hfound _ ih =>
    apply Bool.eq_false_of_not_eq_true
    intro heq
    obtain ⟨e', hfirst, hvalue⟩ := ((h.object _ _).mp heq).2 _ he
    rw [hfound.1, Option.some.injEq] at hfirst
    rw [hfirst, hvalue] at ih
    cases ih

/-- In equal values every lookup that parts finds an equal member. -/
theorem Forks.equal (h : ComparesUpToCase lower entries eq) {a b x s c : Json}
    (hforks : Forks lower entries entries' a b x s c) (heq : eq a b = true) : eq x s = true := by
  induction hforks with
  | here he hs _ _ =>
    obtain ⟨e', hfirst, hvalue⟩ := ((h.object _ _).mp heq).2 _ he
    rw [hs, Option.some.injEq] at hfirst
    rwa [hfirst]
  | item hmem _ ih => exact ih ((List.forall₂_iff_zip.mp ((h.array _ _).mp heq)).2 hmem)
  | member he hfound _ ih =>
    obtain ⟨e', hfirst, hvalue⟩ := ((h.object _ _).mp heq).2 _ he
    rw [hfound.1, Option.some.injEq] at hfirst
    exact ih (hfirst ▸ hvalue)

/-- Nothing else makes values unequal: by induction on the first value, one lookup after
    another. -/
theorem equal_of_not_differ (h : ComparesUpToCase lower entries eq)
    (h' : ComparesUpToCase lower entries' eq') (a : Json) :
    ∀ b, ¬ Differ lower entries entries' a b →
      (∀ x s c, Forks lower entries entries' a b x s c → eq x s = true) → eq a b = true := by
  induction a using Json.induct with
  | leaf a hleaf =>
    intro b hdiffer _
    rw [h.scalar a b (Or.inl hleaf)]
    by_contra hne
    exact hdiffer (.scalar (Or.inl hleaf) (Bool.eq_false_of_not_eq_true hne))
  | array x ih =>
    intro b hdiffer hforks
    cases b with
    | array y =>
      have hlength : x.length = y.length := by
        by_contra hne
        exact hdiffer (.items hne)
      apply (h.array x y).mpr
      refine List.forall₂_iff_zip.mpr ⟨hlength, ?_⟩
      intro v w hmem
      exact ih v (List.of_mem_zip hmem).1 w (fun hd => hdiffer (.item hmem hd))
        fun a s c hf => hforks a s c (.item hmem hf)
    | object y => exact absurd (.array_object x y) hdiffer
    | _ => exact absurd (.scalar (Or.inr rfl) rfl) hdiffer
  | object x ih =>
    intro b hdiffer hforks
    cases b with
    | object y =>
      have hlength : x.length = y.length := by
        by_contra hne
        exact hdiffer (.members hne)
      refine (h.object x y).mpr ⟨hlength, ?_⟩
      intro e he
      obtain ⟨s, hs⟩ : ∃ s, firstEntry lower entries y e.1 = some s := by
        apply Option.ne_none_iff_exists'.mp
        exact fun hnone => hdiffer (.missing he hnone)
      obtain ⟨c, hc⟩ : ∃ c, firstEntry lower entries' y e.1 = some c := by
        apply Option.ne_none_iff_exists'.mp
        intro hnone
        exact hdiffer (.missing he (firstEntry_eq_none h' h hnone))
      refine ⟨s, hs, ?_⟩
      by_cases hsame : s = c
      · subst hsame
        exact ih e he s.2 (fun hd => hdiffer (.member he ⟨hs, hc⟩ hd))
          fun a s' c' hf => hforks a s' c' (.member he ⟨hs, hc⟩ hf)
      · exact hforks _ _ _ (.here he hs hc hsame)
    | array y => exact absurd (.object_array x y) hdiffer
    | _ => exact absurd (.scalar (Or.inr rfl) rfl) hdiffer

/-- Two values are equal in the one order exactly when they do not differ at a place common
    to both, and each lookup that parts finds an equal member. -/
theorem equal_iff (h : ComparesUpToCase lower entries eq)
    (h' : ComparesUpToCase lower entries' eq') {a b : Json} :
    eq a b = true ↔ ¬ Differ lower entries entries' a b ∧
      ∀ x s c, Forks lower entries entries' a b x s c → eq x s = true := by
  constructor
  · intro heq
    refine ⟨?_, fun x s c hforks => hforks.equal h heq⟩
    intro hdiffer
    rw [hdiffer.unequal h] at heq
    cases heq
  · rintro ⟨hdiffer, hforks⟩
    exact equal_of_not_differ h h' a b hdiffer hforks

/-- Two comparisons answer alike exactly when the values differ at a common place, or the
    lookups that part find equal members throughout in both orders or in neither. -/
theorem compare_alike_iff (h : ComparesUpToCase lower entries eq)
    (h' : ComparesUpToCase lower entries' eq') {a b : Json} :
    (eq' a b = true ↔ eq a b = true) ↔ Differ lower entries entries' a b ∨
      ((∀ x s c, Forks lower entries entries' a b x s c → eq x s = true) ↔
        ∀ x s c, Forks lower entries entries' a b x s c → eq' x c = true) := by
  have hserver := @equal_iff lower entries entries' eq eq' h h' a b
  have hclient := @equal_iff lower entries' entries eq' eq h' h a b
  have hdiffer : Differ lower entries' entries a b ↔ Differ lower entries entries' a b :=
    ⟨Differ.symm h' h, Differ.symm h h'⟩
  have hforks : (∀ x c s, Forks lower entries' entries a b x c s → eq' x c = true) ↔
      ∀ x s c, Forks lower entries entries' a b x s c → eq' x c = true :=
    ⟨fun hall x s c hf => hall x c s hf.symm, fun hall x c s hf => hall x s c hf.symm⟩
  rw [hserver, hclient, hdiffer, hforks]
  tauto

end

/-! ### The two orders of the filters -/

theorem objectEntries_perm (members : List (String × Json)) :
    (objectEntries members).Perm members := by
  rw [objectEntries]
  refine List.Perm.trans (List.Perm.append_right _ (List.perm_insertionSort _ _)) ?_
  exact List.filter_append_perm (fun e : String × Json => isArrayIndex e.1) members

theorem comparesUpToCase_jsonEqCi (env : TextEnv) :
    ComparesUpToCase env.toLowercase objectEntries (jsonEqCi env) := by
  apply @comparesUpToCase_of_loops env.toLowercase objectEntries (jsonEqCi env)
    (jsonEqCiItems env) (jsonEqCiMembers env)
  case entries_perm => exact objectEntries_perm
  case scalar =>
    intro a b hleaf
    cases a <;> cases b <;> first | rfl | simp [Json.isContainer] at hleaf
  case array => exact fun x y => by rw [jsonEqCi]
  case object => exact fun x y => by rw [jsonEqCi]
  case array_object => exact fun _ _ => rfl
  case object_array => exact fun _ _ => rfl
  case items_nil => exact fun _ => rfl
  case items_cons => exact fun v x w y => by rw [jsonEqCiItems]
  case members_nil => exact fun _ => rfl
  case members_cons =>
    intro e x y
    rw [jsonEqCiMembers]
    cases y.find? fun e' => env.toLowercase e'.1 == env.toLowercase e.1 <;> rfl

/-- The value and the query differ at a place that both sides come to. -/
def DifferForBoth (env : TextEnv) : Json → Json → Prop :=
  Differ env.toLowercase mapEntries objectEntries

/-- Both sides come to a lookup for this member of the value, and find the first member of
    the query in the order of the keys and the second in the order of the properties. -/
def PartsAt (env : TextEnv) : Json → Json → Json → Json → Json → Prop :=
  Forks env.toLowercase mapEntries objectEntries

/-- The value and the query differ at a place that both sides come to, or, of the lookups
    that find different members there, all those of the server find an equal one exactly
    when all those of the client do. -/
def LookupsAlike (env : TextEnv) (actual expected : Json) : Prop :=
  DifferForBoth env actual expected ∨
    ((∀ v server client, PartsAt env actual expected v server client →
        Message.jsonEqCi env.toLowercase v server = true) ↔
      ∀ v server client, PartsAt env actual expected v server client →
        jsonEqCi env v client = true)

/-- Both sides compare a value with the query alike exactly then. -/
theorem jsonEqCi_alike_iff (env : TextEnv) (actual expected : Json) :
    (jsonEqCi env actual expected = true ↔
        Message.jsonEqCi env.toLowercase actual expected = true) ↔
      LookupsAlike env actual expected :=
  compare_alike_iff (Message.comparesUpToCase_jsonEqCi env.toLowercase)
    (comparesUpToCase_jsonEqCi env)

/-- Neither side finds `A0`, so neither comes to the lookup that would part them. -/
example : LookupsAlike twinEnv (.object [("A0", .null), ("a", .null)])
    (.object [("a", .null), ("A", .bool true)]) :=
  Or.inl (.missing List.mem_cons_self (by decide))

end Arne.Client
