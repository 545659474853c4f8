import Arne.Message.Filter

/-!
# Writing a path

A path is written as its segments one after the other: a name plainly or between double
quotes, a marker as `[]`, and a dot before every name but a leading one.  The tokenizer
reads such a text piece by piece.  It reads back every segment except an empty name that
stands directly before a marker, of which nothing is left.
-/

namespace Arne.Message

/-! ### The tokenizer over one piece of the text -/

/-- A character that belongs to the name wherever it stands. -/
def isPlain (c : Char) : Bool := c != '"' && c != '.' && c != '['

theorem isPlain_iff {c : Char} : isPlain c = true ↔ (c ≠ '"' ∧ c ≠ '.') ∧ c ≠ '[' := by
  simp [isPlain]

/-- A text that the tokenizer reads as a name: the name itself, or quoted. -/
def Spells (text name : List Char) : Prop :=
  (text = name ∧ name.all isPlain = true) ∨ (text = '"' :: (name ++ ['"']) ∧ '"' ∉ name)

section

variable (rest : List Char) (segments : List Segment) (current : List Char) (afterMarker : Bool)

theorem splitPathLoop_plain {name : List Char} (h : name.all isPlain = true) :
    splitPathLoop (name ++ rest) false segments current false afterMarker =
      splitPathLoop rest false segments (current ++ name) false (afterMarker && name.isEmpty) := by
  induction name generalizing current afterMarker with
  | nil => simp
  | cons c name ih =>
    obtain ⟨hc, hname⟩ : isPlain c = true ∧ name.all isPlain = true := by simpa using h
    obtain ⟨⟨hquote, hdot⟩, hbracket⟩ := isPlain_iff.mp hc
    rw [List.cons_append, splitPathLoop, if_neg (by simpa using hquote), if_neg (by simp [hdot]),
      if_neg (by simp [hbracket]), ih _ _ hname, List.append_assoc]
    simp

theorem splitPathLoop_inQuotes {name : List Char} (h : '"' ∉ name) :
    splitPathLoop (name ++ rest) false segments current true afterMarker =
      splitPathLoop rest false segments (current ++ name) true (afterMarker && name.isEmpty) := by
  induction name generalizing current afterMarker with
  | nil => simp
  | cons c name ih =>
    obtain ⟨hc, hname⟩ : '"' ≠ c ∧ '"' ∉ name := by simpa using h
    rw [List.cons_append, splitPathLoop, if_neg (by simpa using hc.symm), if_neg (by simp),
      if_neg (by simp), ih _ _ hname, List.append_assoc]
    simp

/-- However a name is written, it is added to the name being collected. -/
theorem splitPathLoop_spelled {text name : List Char} (h : Spells text name) :
    splitPathLoop (text ++ rest) false segments current false afterMarker =
      splitPathLoop rest false segments (current ++ name) false (afterMarker && name.isEmpty) := by
  rcases h with ⟨rfl, hplain⟩ | ⟨rfl, hquote⟩
  · exact splitPathLoop_plain rest segments current afterMarker hplain
  · have hopen : '"' :: (name ++ ['"']) ++ rest = '"' :: (name ++ '"' :: rest) := by simp
    rw [hopen, splitPathLoop, if_pos (by rfl), Bool.not_false,
      splitPathLoop_inQuotes _ _ _ _ hquote, splitPathLoop, if_pos (by rfl), Bool.not_true]

theorem splitPathLoop_dot :
    splitPathLoop ('.' :: rest) false segments current false afterMarker =
      splitPathLoop rest false
        (if afterMarker && current.isEmpty then segments
          else segments ++ [.name (String.ofList current)]) [] false false := by
  rw [splitPathLoop, if_neg (by decide), if_pos (by rfl)]
  cases h : afterMarker && current.isEmpty with
  | false => rfl
  | true =>
    obtain rfl : current = [] := by simp_all
    rfl

theorem splitPathLoop_marker :
    splitPathLoop ('[' :: ']' :: rest) false segments current false afterMarker =
      splitPathLoop rest false
        ((if current.isEmpty then segments else segments ++ [.name (String.ofList current)]) ++
          [.anyElement]) [] false true := by
  rw [splitPathLoop, if_neg (by decide), if_neg (by decide), if_pos (by rfl), splitPathLoop]
  cases current <;> rfl

end

/-- The tokenizer never takes a segment back. -/
theorem splitPathLoop_front (text : List Char) (skip : Bool) (segments : List Segment)
    (current : List Char) (inQuotes afterMarker : Bool) :
    segments <+: splitPathLoop text skip segments current inQuotes afterMarker := by
  induction text generalizing skip segments current inQuotes afterMarker with
  | nil =>
    rw [splitPathLoop]
    split
    · exact List.prefix_append _ _
    · exact List.prefix_refl _
  | cons c rest ih =>
    cases skip with
    | true => exact ih _ _ _ _ _
    | false =>
      rw [splitPathLoop]
      split_ifs
      · exact ih _ _ _ _ _
      · exact (List.prefix_append _ _).trans (ih _ _ _ _ _)
      · exact ih _ _ _ _ _
      · -- a name is emitted before the marker
        refine List.IsPrefix.trans ?_ (ih true _ [] inQuotes true)
        exact (List.prefix_append _ _).trans (List.prefix_append _ _)
      · refine List.IsPrefix.trans ?_ (ih true _ [] inQuotes true)
        exact List.prefix_append _ _
      · exact ih _ _ _ _ _

/-! ### Whole paths -/

/-- What is read back of written segments: an empty name directly before a marker is not. -/
def legible : List Segment → List Segment
  | [] => []
  | s :: rest =>
      if s = .name "" ∧ rest.head? = some .anyElement then legible rest else s :: legible rest

/-- An empty name stands directly before a marker. -/
def HidesName : List Segment → Prop
  | [] => False
  | s :: rest => (s = .name "" ∧ rest.head? = some .anyElement) ∨ HidesName rest

instance decidableHidesName : (segments : List Segment) → Decidable (HidesName segments)
  | [] => isFalse id
  | s :: rest =>
      have := decidableHidesName rest
      inferInstanceAs (Decidable
        ((s = .name "" ∧ rest.head? = some .anyElement) ∨ HidesName rest))

@[simp] theorem legible_nil : legible [] = [] := rfl

@[simp] theorem legible_marker (rest : List Segment) :
    legible (.anyElement :: rest) = .anyElement :: legible rest := by
  simp [legible]

theorem legible_length_le (segments : List Segment) :
    (legible segments).length ≤ segments.length := by
  induction segments with
  | nil => exact Nat.le_refl 0
  | cons s rest ih =>
    rw [legible]
    split
    · exact Nat.le_succ_of_le ih
    · exact Nat.succ_le_succ ih

/-- Segments are read back whole exactly when no name among them is hidden. -/
theorem length_legible_iff (segments : List Segment) :
    (legible segments).length = segments.length ↔ ¬ HidesName segments := by
  induction segments with
  | nil => simp [HidesName]
  | cons s rest ih =>
    rw [legible, HidesName]
    by_cases hhidden : s = .name "" ∧ rest.head? = some .anyElement
    · have := legible_length_le rest
      rw [if_pos hhidden, List.length_cons]
      constructor
      · omega
      · intro h
        exact absurd (Or.inl hhidden) h
    · rw [if_neg hhidden, List.length_cons, List.length_cons, Nat.succ_inj, ih]
      simp [hhidden]

theorem legible_eq {segments : List Segment} (h : ¬ HidesName segments) :
    legible segments = segments := by
  induction segments with
  | nil => rfl
  | cons s rest ih =>
    obtain ⟨hhead, hrest⟩ := not_or.mp h
    rw [legible, if_neg hhead, ih hrest]

section

variable (write : String → List Char)

/-- The text of segments that follow others. -/
def appended : List Segment → List Char
  | [] => []
  | .anyElement :: rest => '[' :: ']' :: appended rest
  | .name n :: rest => '.' :: (write n ++ appended rest)

/-- The text of a path. -/
def pathText : List Segment → List Char
  | .name n :: rest => write n ++ appended write rest
  | segments => appended write segments

/-- Each name of the path is written as the tokenizer reads it. -/
def Writes (segments : List Segment) : Prop :=
  ∀ n, .name n ∈ segments → Spells (write n) n.toList

variable {write} {segments : List Segment}

/-- Behind a name and behind a marker, the tokenizer goes on with what is legible. -/
theorem splitPathLoop_appended (h : Writes write segments) (read : List Segment) (n : String) :
    splitPathLoop (appended write segments) false read n.toList false false =
        read ++ legible (.name n :: segments) ∧
      splitPathLoop (appended write segments) false read [] false true =
        read ++ legible segments := by
  induction segments generalizing read n with
  | nil => simp [appended, splitPathLoop, legible]
  | cons s rest ih =>
    have hrest : Writes write rest := fun m hm => h m (List.mem_cons_of_mem _ hm)
    cases s with
    | name m =>
      have hm : Spells (write m) m.toList := h m List.mem_cons_self
      constructor
      · rw [appended, splitPathLoop_dot, splitPathLoop_spelled _ _ _ _ hm, Bool.false_and,
          Bool.false_and, if_neg Bool.false_ne_true, List.nil_append, (ih hrest _ m).1]
        simp [legible]
      · rw [appended, splitPathLoop_dot, splitPathLoop_spelled _ _ _ _ hm, Bool.false_and,
          List.nil_append, (ih hrest _ m).1]
        rfl
    | anyElement =>
      constructor
      · rw [appended, splitPathLoop_marker, (ih hrest _ "").2, legible, legible_marker]
        by_cases hn : n = ""
        · simp [hn]
        · have : n.toList.isEmpty = false := by simpa [List.isEmpty_iff] using hn
          simp [hn, this]
      · rw [appended, splitPathLoop_marker, (ih hrest _ "").2, legible_marker]
        simp

/-- A path is read back as what is legible of it. -/
theorem splitPath_pathText (h : Writes write segments) (hne : segments ≠ []) :
    splitPath (String.ofList (pathText write segments)) = legible segments := by
  rw [splitPath, String.toList_ofList]
  cases segments with
  | nil => exact absurd rfl hne
  | cons s rest =>
    have hrest : Writes write rest := fun m hm => h m (List.mem_cons_of_mem _ hm)
    cases s with
    | name n =>
      rw [pathText, splitPathLoop_spelled _ _ _ _ (h n List.mem_cons_self), Bool.false_and,
        List.nil_append, (splitPathLoop_appended hrest [] n).1, List.nil_append]
    | anyElement =>
      rw [pathText, appended, splitPathLoop_marker, (splitPathLoop_appended hrest _ "").2,
        legible_marker]
      · rfl
      · intro n segments h
        cases h

end

/-! ### The quoted spelling -/

/-- A name between double quotes. -/
def quotedName (n : String) : List Char := '"' :: (n.toList ++ ['"'])

theorem spells_quotedName {n : String} (h : '"' ∉ n.toList) : Spells (quotedName n) n.toList :=
  Or.inr ⟨rfl, h⟩

/-- Segments that are written without loss: markers, and names with a character in them
    but no double quote. -/
def Quotable (segments : List Segment) : Prop :=
  ∀ n, .name n ∈ segments → n ≠ "" ∧ '"' ∉ n.toList

theorem Quotable.not_hidesName {segments : List Segment} (h : Quotable segments) :
    ¬ HidesName segments := by
  induction segments with
  | nil => exact id
  | cons s rest ih =>
    rintro (⟨rfl, _⟩ | hrest)
    · exact (h "" List.mem_cons_self).1 rfl
    · exact ih (fun n hn => h n (List.mem_cons_of_mem _ hn)) hrest

theorem Quotable.writes {segments : List Segment} (h : Quotable segments) :
    Writes quotedName segments :=
  fun n hn => spells_quotedName (h n hn).2

/-- A quoted path is read back as it was written. -/
theorem splitPath_quoted {segments : List Segment} (h : Quotable segments) (hne : segments ≠ []) :
    splitPath (String.ofList (pathText quotedName segments)) = segments := by
  rw [splitPath_pathText h.writes hne, legible_eq h.not_hidesName]

end Arne.Message
