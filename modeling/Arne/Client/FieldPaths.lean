import Mathlib.Data.List.Dedup
import Mathlib.Data.List.Lex
import Arne.Client.FilterAgreement

/-!
# Proposing field paths (`lib/fieldPaths.ts`)

The filter box proposes the paths of the scalars in the rows of the window, each array
through its first element.  A proposal is the text of the way to a scalar, names with a
character of the grammar in quotes, and is read back as that way but for the empty names
that the text does not show.
-/

namespace Arne.Client

open Arne.Message

/-! ### The emitter -/

/-- `/[.:=[\]]/.test(k)`. -/
def hasGrammar (k : String) : Bool :=
  k.toList.any fun c => c == '.' || c == ':' || c == '=' || c == '[' || c == ']'

/-- A name as it stands in a proposal. -/
def seg (k : String) : List Char := if hasGrammar k then quotedName k else k.toList

/-- `node === null || typeof node !== 'object'`. -/
def isScalar : Json → Bool
  | .array _ => false
  | .object _ => false
  | _ => true

/-- The paths added below a node; the first argument is `maxDepth - depth`. -/
def walkFields : Nat → Json → List Char → List String
  | levels, node, pre =>
      if pre != [] && isScalar node then [String.ofList pre]
      else match levels, node with
        | levels + 1, .array (item :: _) => walkFields levels item (pre ++ ['[', ']'])
        | levels + 1, .object members =>
            (objectEntries members).flatMap fun e =>
              -- a name with a quote in it has no escape
              if e.1.toList.contains '"' then []
              else walkFields levels e.2 (if pre == [] then seg e.1 else pre ++ '.' :: seg e.1)
        | _, _ => []

/-- The code units of a text. -/
def utf16Units (text : String) : List Nat :=
  text.toList.flatMap fun c =>
    if c.toNat < 0x10000 then [c.toNat]
    else [0xD800 + (c.toNat - 0x10000) / 0x400, 0xDC00 + (c.toNat - 0x10000) % 0x400]

/-- The proposals of the rows, without repetition, in the order of `Array.sort`. -/
def extractFieldPaths (env : TextEnv) (rows : List MessageOut) (maxRows maxDepth : Nat) :
    List String :=
  let paths := (rows.take maxRows).flatMap fun m =>
    match valueText m with
    | some text =>
        match env.parse text with
        | some root => walkFields maxDepth root []
        -- a value that is no JSON contributes nothing
        | none => []
    | none => []
  paths.dedup.insertionSort fun a b => utf16Units a ≤ utf16Units b

/-! ### The ways to scalars -/

/-- The segments lead from a value to a scalar, through the first element of each array
    and by names without a double quote. -/
inductive LeadsTo : List Segment → Json → Prop where
  | scalar {v : Json} (h : isScalar v = true) : LeadsTo [] v
  | first {way : List Segment} {v : Json} {items : List Json} (h : LeadsTo way v) :
      LeadsTo (.anyElement :: way) (.array (v :: items))
  | member {way : List Segment} {n : String} {v : Json} {members : List (String × Json)}
      (hmem : (n, v) ∈ members) (hquote : '"' ∉ n.toList) (h : LeadsTo way v) :
      LeadsTo (.name n :: way) (.object members)

/-- The text of a way, behind a prefix. -/
def fieldText : List Char → List Segment → List Char
  | pre, [] => pre
  | pre, .anyElement :: way => fieldText (pre ++ ['[', ']']) way
  | pre, .name n :: way => fieldText (if pre == [] then seg n else pre ++ '.' :: seg n) way

theorem mem_objectEntries {members : List (String × Json)} {e : String × Json} :
    e ∈ objectEntries members ↔ e ∈ members := by
  rw [objectEntries, List.mem_append, (List.perm_insertionSort _ _).mem_iff, List.mem_filter,
    List.mem_filter, ← and_or_left]
  cases isArrayIndex e.1 <;> simp

theorem leadsTo_scalar {way : List Segment} {v : Json} (h : isScalar v = true) :
    LeadsTo way v ↔ way = [] := by
  constructor
  · intro hway
    cases hway with
    | scalar => rfl
    | first => cases h
    | member => cases h
  · rintro rfl
    exact .scalar h

theorem walkFields_scalar (levels : Nat) {node : Json} (h : isScalar node = true)
    (pre : List Char) :
    walkFields levels node pre = if pre = [] then [] else [String.ofList pre] := by
  by_cases hpre : pre = []
  · subst hpre
    cases levels <;> cases node <;> first | rfl | cases h
  · unfold walkFields
    rw [if_pos (by simp [hpre, h]), if_neg hpre]

theorem walkFields_zero {node : Json} (h : ¬ isScalar node = true) (pre : List Char) :
    walkFields 0 node pre = [] := by
  unfold walkFields
  rw [if_neg (by simp [h])]

@[simp] theorem walkFields_array (levels : Nat) (item : Json) (items : List Json)
    (pre : List Char) :
    walkFields (levels + 1) (.array (item :: items)) pre =
      walkFields levels item (pre ++ ['[', ']']) := by
  simp [walkFields, isScalar]

@[simp] theorem walkFields_array_nil (levels : Nat) (pre : List Char) :
    walkFields (levels + 1) (.array []) pre = [] := by
  simp [walkFields, isScalar]

theorem mem_walkFields_object {levels : Nat} {members : List (String × Json)} {pre : List Char}
    {path : String} :
    path ∈ walkFields (levels + 1) (.object members) pre ↔
      ∃ n v, (n, v) ∈ members ∧ '"' ∉ n.toList ∧
        path ∈ walkFields levels v (if pre == [] then seg n else pre ++ '.' :: seg n) := by
  simp only [walkFields, isScalar, Bool.and_false, Bool.false_eq_true, if_false, List.mem_flatMap,
    mem_objectEntries, Prod.exists]
  constructor
  · rintro ⟨n, v, hmem, hpath⟩
    split at hpath
    · cases hpath
    · rename_i hquote
      exact ⟨n, v, hmem, by simpa using hquote, hpath⟩
  · rintro ⟨n, v, hmem, hquote, hpath⟩
    refine ⟨n, v, hmem, ?_⟩
    rwa [if_neg (by simpa using hquote)]

/-- The paths added below a node are the texts of the ways from it to scalars. -/
theorem mem_walkFields (levels : Nat) (node : Json) (pre : List Char) (path : String) :
    path ∈ walkFields levels node pre ↔
      ∃ way, LeadsTo way node ∧ way.length ≤ levels ∧ fieldText pre way ≠ [] ∧
        path = String.ofList (fieldText pre way) := by
  induction levels generalizing node pre with
  | zero =>
    by_cases hscalar : isScalar node = true
    · simp only [walkFields_scalar 0 hscalar, leadsTo_scalar hscalar, exists_eq_left, fieldText]
      by_cases hpre : pre = [] <;> simp [hpre]
    · rw [walkFields_zero hscalar]
      constructor
      · exact fun h => absurd h List.not_mem_nil
      · rintro ⟨way, hway, hlength, _⟩
        obtain rfl : way = [] := List.length_eq_zero_iff.mp (Nat.le_zero.mp hlength)
        cases hway with
        | scalar h => exact absurd h hscalar
  | succ levels ih =>
    by_cases hscalar : isScalar node = true
    · -- the only way from a scalar is the empty one
      simp only [walkFields_scalar _ hscalar, leadsTo_scalar hscalar, exists_eq_left, fieldText]
      by_cases hpre : pre = [] <;> simp [hpre]
    · cases node with
      | null => exact absurd rfl hscalar
      | bool => exact absurd rfl hscalar
      | number => exact absurd rfl hscalar
      | string => exact absurd rfl hscalar
      | array items =>
        cases items with
        | nil =>
          rw [walkFields_array_nil]
          constructor
          · exact fun h => absurd h List.not_mem_nil
          · rintro ⟨way, hway, _⟩
            cases hway with
            | scalar h => cases h
        | cons item items =>
          rw [walkFields_array, ih]
          constructor
          · rintro ⟨way, hway, hlength, htext⟩
            exact ⟨.anyElement :: way, .first hway, Nat.succ_le_succ hlength, htext⟩
          · rintro ⟨way, hway, hlength, htext⟩
            cases hway with
            | scalar h => cases h
            | first hway => exact ⟨_, hway, Nat.le_of_succ_le_succ hlength, htext⟩
      | object members =>
        simp only [mem_walkFields_object, ih]
        constructor
        · rintro ⟨n, v, hmem, hquote, way, hway, hlength, htext⟩
          exact ⟨.name n :: way, .member hmem hquote hway, Nat.succ_le_succ hlength, htext⟩
        · rintro ⟨way, hway, hlength, htext⟩
          cases hway with
          | scalar h => cases h
          | member hmem hquote hway =>
            exact ⟨_, _, hmem, hquote, _, hway, Nat.le_of_succ_le_succ hlength, htext⟩

/-- The path of an emitted proposal is drawn from one value. -/
theorem mem_extractFieldPaths {env : TextEnv} {m : MessageOut} {text : String} {root : Json}
    (htext : valueText m = some text) (hroot : env.parse text = some root)
    {maxRows : Nat} (hrows : 0 < maxRows) (maxDepth : Nat) (path : String) :
    path ∈ extractFieldPaths env [m] maxRows maxDepth ↔ path ∈ walkFields maxDepth root [] := by
  have htake : [m].take maxRows = [m] := List.take_of_length_le hrows
  simp only [extractFieldPaths, (List.perm_insertionSort _ _).mem_iff, List.mem_dedup, htake,
    List.flatMap_cons, List.flatMap_nil, List.append_nil, htext, hroot]

/-! ### The text of a way -/

theorem seg_empty : seg "" = [] := rfl

theorem seg_ne_nil {n : String} (h : n ≠ "") : seg n ≠ [] := by
  unfold seg
  split
  · exact List.cons_ne_nil _ _
  · simpa using h

/-- A way as `walk` can take it: no name on it has a double quote. -/
def Unquoted (way : List Segment) : Prop := ∀ n, .name n ∈ way → '"' ∉ n.toList

theorem LeadsTo.unquoted {way : List Segment} {v : Json} (h : LeadsTo way v) : Unquoted way := by
  induction h with
  | scalar => exact fun n hn => absurd hn List.not_mem_nil
  | first _ ih =>
    intro n hn
    rcases List.mem_cons.mp hn with h | h
    · cases h
    · exact ih n h
  | member _ hquote _ ih =>
    intro n hn
    rcases List.mem_cons.mp hn with h | h
    · cases h
      exact hquote
    · exact ih n h

theorem spells_seg {n : String} (h : '"' ∉ n.toList) : Spells (seg n) n.toList := by
  unfold seg
  split
  · exact spells_quotedName h
  · rename_i hplain
    refine Or.inl ⟨rfl, List.all_eq_true.mpr ?_⟩
    intro c hc
    have hc' : ¬ (c = '.' ∨ c = '[') := by
      intro hor
      apply hplain
      refine List.any_eq_true.mpr ⟨c, hc, ?_⟩
      rcases hor with rfl | rfl <;> rfl
    have hquote : c ≠ '"' := fun heq => h (heq ▸ hc)
    simp [isPlain, hquote, not_or.mp hc']

theorem Unquoted.writes {way : List Segment} (h : Unquoted way) : Writes seg way :=
  fun n hn => spells_seg (h n hn)

theorem fieldText_name (n : String) (way : List Segment) :
    fieldText [] (.name n :: way) = fieldText (seg n) way := rfl

theorem fieldText_append (way : List Segment) {pre : List Char} (h : pre ≠ []) :
    fieldText pre way = pre ++ appended seg way := by
  induction way generalizing pre with
  | nil => simp [fieldText, appended]
  | cons s way ih =>
    cases s with
    | anyElement => simp [fieldText, appended, ih]
    | name n => simp [fieldText, appended, h, ih]

/-- Nothing is left of the empty names that a way begins with. -/
def withoutEmpty (way : List Segment) : List Segment := way.dropWhile (· == .name "")

theorem head_withoutEmpty (way : List Segment) :
    (withoutEmpty way).head? ≠ some (.name "") := by
  intro h
  have hnot := List.head?_dropWhile_not (· == Segment.name "") way
  rw [withoutEmpty] at h
  rw [h] at hnot
  cases hnot

theorem fieldText_eq (way : List Segment) : fieldText [] way = pathText seg (withoutEmpty way) := by
  induction way with
  | nil => rfl
  | cons s way ih =>
    cases s with
    | anyElement =>
      rw [fieldText, List.nil_append, fieldText_append way (List.cons_ne_nil _ _)]
      rfl
    | name n =>
      by_cases hn : n = ""
      · subst hn
        rw [fieldText_name, seg_empty, ih]
        rfl
      · have hkeep : withoutEmpty (.name n :: way) = .name n :: way := by
          simp [withoutEmpty, hn]
        rw [fieldText_name, fieldText_append way (seg_ne_nil hn), hkeep, pathText]

theorem withoutEmpty_ne_nil {way : List Segment} (hne : fieldText [] way ≠ []) :
    withoutEmpty way ≠ [] := by
  intro hnil
  rw [fieldText_eq, hnil] at hne
  exact hne rfl

/-- The path of a proposal is read back as the legible rest of its way. -/
theorem splitPath_fieldText {way : List Segment} (h : Unquoted way)
    (hne : fieldText [] way ≠ []) :
    splitPath (String.ofList (fieldText [] way)) = legible (withoutEmpty way) := by
  have hwrites : Writes seg (withoutEmpty way) :=
    fun n hn => h.writes n (List.dropWhile_subset _ hn)
  rw [splitPath_eq, fieldText_eq, splitPath_pathText hwrites (withoutEmpty_ne_nil hne)]

end Arne.Client
