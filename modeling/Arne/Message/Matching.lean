import Arne.Message.Filter

/-!
# What the filters match

A filter says something about what a message holds only where that can be read: `!=` is
the negation of `=` on a readable target and fails, like `=`, on any other.  A path
without markers reaches at most one node, so for it the same holds; with markers every
path filter asks whether some scalar reached passes its test.
-/

namespace Arne.Message

/-! ### The nodes a path reaches -/

/-- A `[]` stands outside double quotes in a text. -/
def hasMarkerFrom : Bool → List Char → Bool
  | _, [] => false
  | inQuotes, c :: rest =>
      if c == '"' then hasMarkerFrom (!inQuotes) rest
      else (c == '[' && !inQuotes && rest.head? == some ']') || hasMarkerFrom inQuotes rest

def hasMarker (path : String) : Bool := hasMarkerFrom false path.toList

/-- The tokenizer emits a marker exactly where one stands. -/
theorem anyElement_mem_splitPathLoop (text : List Char) (skip : Bool) (segments : List Segment)
    (current : List Char) (inQuotes afterMarker : Bool) :
    .anyElement ∈ splitPathLoop text skip segments current inQuotes afterMarker ↔
      .anyElement ∈ segments ∨
        hasMarkerFrom inQuotes (if skip then text.tail else text) = true := by
  induction text generalizing skip segments current inQuotes afterMarker with
  | nil =>
    rw [splitPathLoop]
    cases skip <;> cases (afterMarker && current.isEmpty) <;> simp [hasMarkerFrom]
  | cons c rest ih =>
    cases skip with
    | true =>
      rw [splitPathLoop, ih]
      rfl
    | false =>
      rw [splitPathLoop, if_neg Bool.false_ne_true, hasMarkerFrom]
      split
      · rw [ih]
        rfl
      · split
        · rename_i hdot
          have hbracket : (c == '[' && !inQuotes && rest.head? == some ']') = false := by
            obtain ⟨hc, _⟩ := Bool.and_eq_true_iff.mp hdot
            rw [beq_iff_eq.mp hc]
            rfl
          rw [hbracket, Bool.false_or]
          split
          · rw [ih]
            simp
          · rw [ih]
            rfl
        · split
          · rename_i hmarker
            rw [ih, hmarker]
            simp
          · rename_i hmarker
            rw [ih, Bool.eq_false_of_not_eq_true hmarker, Bool.false_or]
            rfl

theorem anyElement_mem_splitPath (path : String) :
    .anyElement ∈ splitPath path ↔ hasMarker path = true := by
  rw [splitPath, anyElement_mem_splitPathLoop]
  simp [hasMarker]

/-- Without markers the walk does not branch. -/
theorem walk_length_le {segments : List Segment} (h : .anyElement ∉ segments) (node : Json) :
    (walk segments node).length ≤ 1 := by
  induction segments generalizing node with
  | nil => exact Nat.le_refl 1
  | cons s rest ih =>
    obtain ⟨hs, hrest⟩ : .anyElement ≠ s ∧ .anyElement ∉ rest := by simpa using h
    cases s with
    | anyElement => exact absurd rfl hs
    | name n =>
      cases node with
      | object members =>
        rw [walk]
        cases mapGet members n with
        | none => exact Nat.zero_le 1
        | some v => exact ih hrest v
      | array items =>
        rw [walk]
        cases (parseUsize n).bind fun i => items[i]? with
        | none => exact Nat.zero_le 1
        | some v => exact ih hrest v
      | _ => exact Nat.zero_le 1

/-- A path without markers reaches at most one node. -/
theorem pathCandidates_length_le {path : String} (h : hasMarker path = false) (root : Json) :
    (pathCandidates root path).length ≤ 1 := by
  apply walk_length_le
  rw [anyElement_mem_splitPath, h]
  exact Bool.false_ne_true

/-! ### The verdicts -/

section

variable (env : TextEnv)

/-- What the filter with these wire parameters says of a message. -/
def verdict (kind q : String) (path op : Option String) (msg : MessageOut) : Bool :=
  match Filter.parse env kind q path op with
  | .ok f => f.matches env msg
  | .error _ => false

/-- The value can be read as JSON, and the path reaches the node there. -/
def Reaches (msg : MessageOut) (path : String) (c : Json) : Prop :=
  ∃ v root, msg.value = some v ∧ v.encoding ≠ .decodeError ∧ env.parse v.text = some root ∧
    c ∈ pathCandidates root path

variable {env} {msg : MessageOut}

theorem readableValue_eq_some {v : DecodedPayload} :
    readableValue msg = some v ↔ msg.value = some v ∧ v.encoding ≠ .decodeError := by
  simp [readableValue, Option.filter_eq_some_iff]

theorem readableValue_eq_none (h : ∀ v, msg.value = some v → v.encoding = .decodeError) :
    readableValue msg = none := by
  apply Option.eq_none_iff_forall_ne_some.mpr
  intro v hv
  obtain ⟨hv, hencoding⟩ := readableValue_eq_some.mp hv
  exact hencoding (h v hv)

theorem anyJsonPathMatch_iff {path : String} {pred : Json → Bool} :
    anyJsonPathMatch env msg path pred = true ↔ ∃ c, Reaches env msg path c ∧ pred c = true := by
  unfold anyJsonPathMatch
  cases hvalue : readableValue msg with
  | none =>
    constructor
    · exact fun h => absurd h Bool.false_ne_true
    · rintro ⟨c, ⟨v, root, hv, hencoding, _⟩, _⟩
      rw [readableValue_eq_some.mpr ⟨hv, hencoding⟩] at hvalue
      cases hvalue
  | some v =>
    obtain ⟨hv, hencoding⟩ := readableValue_eq_some.mp hvalue
    simp only
    cases hroot : env.parse v.text with
    | none =>
      constructor
      · exact fun h => absurd h Bool.false_ne_true
      · rintro ⟨c, ⟨v', root, hv', _, hroot', _⟩, _⟩
        rw [hv, Option.some.injEq] at hv'
        rw [← hv', hroot] at hroot'
        cases hroot'
    | some root =>
      simp only [List.any_eq_true]
      constructor
      · rintro ⟨c, hc, hpred⟩
        exact ⟨c, ⟨v, root, hv, hencoding, hroot, hc⟩, hpred⟩
      · rintro ⟨c, ⟨v', root', hv', _, hroot', hc⟩, hpred⟩
        rw [hv, Option.some.injEq] at hv'
        rw [← hv', hroot, Option.some.injEq] at hroot'
        subst hroot'
        exact ⟨c, hc, hpred⟩

/-- The one node a path without markers reaches. -/
theorem Reaches.unique {path : String} (h : hasMarker path = false) {c c' : Json}
    (hc : Reaches env msg path c) (hc' : Reaches env msg path c') : c = c' := by
  obtain ⟨v, root, hv, _, hroot, hmem⟩ := hc
  obtain ⟨v', root', hv', _, hroot', hmem'⟩ := hc'
  rw [hv, Option.some.injEq] at hv'
  subst hv'
  rw [hroot, Option.some.injEq] at hroot'
  subst hroot'
  have hlength := pathCandidates_length_le h root
  cases hlist : pathCandidates root path with
  | nil =>
    rw [hlist] at hmem
    cases hmem
  | cons d rest =>
    rw [hlist] at hlength hmem hmem'
    obtain rfl : rest = [] := List.length_eq_zero_iff.mp (by simpa using hlength)
    rw [List.mem_singleton.mp hmem, List.mem_singleton.mp hmem']

theorem scalarText_eq_none {lower : String → String} {c : Json} :
    scalarText lower c = none ↔ c.isContainer = true := by
  cases c <;> simp [scalarText, Json.isContainer]

section

variable (q : String) (path op : Option String)

theorem keyNotEquals_iff :
    verdict env "key_neq" q path op msg = true ↔
      (∃ key, msg.key = some key) ∧ verdict env "key_eq" q path op msg = false := by
  cases hkey : msg.key <;> simp [verdict, Filter.parse, Filter.matches, hkey]

theorem valueNotEquals_iff :
    verdict env "value_neq" q path op msg = true ↔
      (∃ v, msg.value = some v ∧ v.encoding ≠ .decodeError) ∧
        verdict env "value_eq" q path op msg = false := by
  simp only [← readableValue_eq_some]
  cases hvalue : readableValue msg <;> simp [verdict, Filter.parse, Filter.matches, hvalue]

/-- A value that is missing or failed to decode is matched by no filter on the value. -/
theorem unreadable_not_matched
    (h : ∀ v, msg.value = some v → v.encoding = .decodeError) {kind : String}
    (hkind : kind ∈ ["value_contains", "value_eq", "value_neq", "value_cmp", "json_eq", "json_neq",
      "json_contains", "json_cmp"]) :
    verdict env kind q path op msg = false := by
  have hnone := readableValue_eq_none h
  have hpath : ∀ p pred, anyJsonPathMatch env msg p pred = false := by
    intro p pred
    rw [anyJsonPathMatch, hnone]
  simp only [List.mem_cons, List.not_mem_nil, or_false] at hkind
  rcases hkind with rfl | rfl | rfl | rfl | rfl | rfl | rfl | rfl
  · simp [verdict, Filter.parse, Filter.matches, hnone]
  · simp [verdict, Filter.parse, Filter.matches, hnone]
  · simp [verdict, Filter.parse, Filter.matches, hnone]
  · cases hop : CmpOp.parse op "value_cmp" <;>
      simp [verdict, Filter.parse, Filter.matches, bind, Except.bind, pure, Except.pure, hop,
        hnone]
  · cases path with
    | none => rfl
    | some p => exact hpath p _
  · cases path with
    | none => rfl
    | some p => exact hpath p _
  · cases path with
    | none => rfl
    | some p => exact hpath p _
  · cases path with
    | none => rfl
    | some p =>
      cases hop : CmpOp.parse op "json_cmp" <;>
        simp [verdict, Filter.parse, requirePath, Filter.matches, bind, Except.bind, pure,
          Except.pure, hop, hpath]

end

section

variable (q path : String)

/-- `json_eq` asks for a reached scalar with the text of the query. -/
theorem jsonEquals_iff :
    verdict env "json_eq" q (some path) none msg = true ↔
      ∃ c text, Reaches env msg path c ∧ scalarText env.toLowercase c = some text ∧
        text = env.toLowercase q := by
  refine (@anyJsonPathMatch_iff env msg _ _).trans (exists_congr ?_)
  intro c
  cases scalarText env.toLowercase c <;> simp

/-- `json_neq` asks for a reached scalar with another text. -/
theorem jsonNotEquals_iff :
    verdict env "json_neq" q (some path) none msg = true ↔
      ∃ c text, Reaches env msg path c ∧ scalarText env.toLowercase c = some text ∧
        text ≠ env.toLowercase q := by
  refine (@anyJsonPathMatch_iff env msg _ _).trans (exists_congr ?_)
  intro c
  cases scalarText env.toLowercase c <;> simp

theorem jsonContains_iff :
    verdict env "json_contains" q (some path) none msg = true ↔
      ∃ c text, Reaches env msg path c ∧ scalarText env.toLowercase c = some text ∧
        containsText text (env.toLowercase q) = true := by
  refine (@anyJsonPathMatch_iff env msg _ _).trans (exists_congr ?_)
  intro c
  cases scalarText env.toLowercase c <;> simp

theorem jsonCompare_iff {opText : String} {op : CmpOp}
    (hop : CmpOp.parse (some opText) "json_cmp" = .ok op) :
    verdict env "json_cmp" q (some path) (some opText) msg = true ↔
      ∃ c target expected, Reaches env msg path c ∧ scalarNumber env c = some target ∧
        jsonNumber env q = some expected ∧ op.holds target expected = true := by
  have hverdict : verdict env "json_cmp" q (some path) (some opText) msg =
      (Filter.jsonPathCompare path op (jsonNumber env q)).matches env msg := by
    simp [verdict, Filter.parse, requirePath, bind, Except.bind, hop, pure, Except.pure]
  rw [hverdict, Filter.matches]
  cases jsonNumber env q with
  | none => simp
  | some expected =>
    refine (@anyJsonPathMatch_iff env msg _ _).trans (exists_congr ?_)
    intro c
    cases scalarNumber env c <;> simp

/-- On a path without markers `!=` negates `=` where the path reaches a scalar. -/
theorem jsonNotEquals_iff_not {path : String} (hpath : hasMarker path = false) :
    verdict env "json_neq" q (some path) none msg = true ↔
      (∃ c, Reaches env msg path c ∧ c.isContainer = false) ∧
        verdict env "json_eq" q (some path) none msg = false := by
  rw [jsonNotEquals_iff, ← Bool.not_eq_true, jsonEquals_iff]
  constructor
  · rintro ⟨c, text, hc, htext, hne⟩
    constructor
    · refine ⟨c, hc, Bool.eq_false_of_not_eq_true ?_⟩
      rw [← @scalarText_eq_none env.toLowercase, htext]
      exact Option.some_ne_none text
    · rintro ⟨c', text', hc', htext', rfl⟩
      rw [hc.unique hpath hc', htext', Option.some.injEq] at htext
      exact hne htext.symm
  · rintro ⟨⟨c, hc, hscalar⟩, hnot⟩
    cases htext : scalarText env.toLowercase c with
    | none =>
      rw [scalarText_eq_none.mp htext] at hscalar
      cases hscalar
    | some text => exact ⟨c, text, hc, htext, fun heq => hnot ⟨c, text, hc, htext, heq⟩⟩

end

end

/-- `!=` matches where its target can be read and `=` does not match, for keys, for whole
    values and for paths without markers; those reach at most one node.  With markers
    every path filter asks for some scalar that passes its test.  No filter on the value
    matches where the value is missing or failed to decode; the one on key or value then
    asks about the key alone. -/
theorem notEquals_negates_equals (env : TextEnv) (q path : String) (msg : MessageOut) :
    (verdict env "key_neq" q none none msg = true ↔
      (∃ key, msg.key = some key) ∧ verdict env "key_eq" q none none msg = false) ∧
    (verdict env "value_neq" q none none msg = true ↔
      (∃ v, msg.value = some v ∧ v.encoding ≠ .decodeError) ∧
        verdict env "value_eq" q none none msg = false) ∧
    (hasMarker path = false →
      (∀ root, (pathCandidates root path).length ≤ 1) ∧
      (verdict env "json_neq" q (some path) none msg = true ↔
        (∃ c, Reaches env msg path c ∧ c.isContainer = false) ∧
          verdict env "json_eq" q (some path) none msg = false)) ∧
    (verdict env "json_eq" q (some path) none msg = true ↔
      ∃ c text, Reaches env msg path c ∧ scalarText env.toLowercase c = some text ∧
        text = env.toLowercase q) ∧
    (verdict env "json_neq" q (some path) none msg = true ↔
      ∃ c text, Reaches env msg path c ∧ scalarText env.toLowercase c = some text ∧
        text ≠ env.toLowercase q) ∧
    (verdict env "json_contains" q (some path) none msg = true ↔
      ∃ c text, Reaches env msg path c ∧ scalarText env.toLowercase c = some text ∧
        containsText text (env.toLowercase q) = true) ∧
    (∀ opText op, CmpOp.parse (some opText) "json_cmp" = .ok op →
      (verdict env "json_cmp" q (some path) (some opText) msg = true ↔
        ∃ c target expected, Reaches env msg path c ∧ scalarNumber env c = some target ∧
          jsonNumber env q = some expected ∧ op.holds target expected = true)) ∧
    ((∀ v, msg.value = some v → v.encoding = .decodeError) →
      (∀ kind ∈ ["value_contains", "value_eq", "value_neq", "value_cmp", "json_eq", "json_neq",
        "json_contains", "json_cmp"], ∀ p op, verdict env kind q p op msg = false) ∧
      verdict env "contains" q none none msg = verdict env "key_contains" q none none msg) := by
  refine ⟨keyNotEquals_iff q none none, valueNotEquals_iff q none none, ?_, jsonEquals_iff q path,
    jsonNotEquals_iff q path, jsonContains_iff q path, fun _ _ => jsonCompare_iff q path, ?_⟩
  · intro hpath
    exact ⟨pathCandidates_length_le hpath, jsonNotEquals_iff_not q hpath⟩
  · intro hunreadable
    refine ⟨fun kind hkind p op => unreadable_not_matched q p op hunreadable hkind, ?_⟩
    simp [verdict, Filter.parse, Filter.matches, readableValue_eq_none hunreadable]

end Arne.Message
