import Arne.Client.FieldPaths

/-!
# Completing a typed path (`lib/filterProposals.ts`)

A proposal is completed by matching the typed path against it token by token and adding
what is left.  The tokens keep their quotes, so this scanner is not the tokenizer of
paths, and the result is put together from pieces of both texts.  What was typed always
stays; the completed text addresses the proposed field unless a marker is added directly
behind an empty name.
-/

namespace Arne.Client

open Arne.Message

/-! ### The completion -/

structure RawToken where
  any : Bool
  raw : List Char
  start : Nat
deriving DecidableEq, Repr

/-- The scanner: characters still to read, the index of the next one, `start`,
    `path.slice(start, i)`, the flag and the tokens so far. -/
def rawTokensFrom (path : List Char) :
    List Char → Nat → Nat → List Char → Bool → List RawToken → List RawToken
  | [], _, start, slice, _, tokens =>
      -- `start < path.length` when there is a slice
      if slice != [] || path.getLast? == some '.' || path == [] then
        tokens ++ [⟨false, slice, start⟩]
      else tokens
  | '[' :: ']' :: '.' :: rest, i, start, slice, false, tokens =>
      rawTokensFrom path rest (i + 3) (i + 3) [] false
        ((if slice != [] then tokens ++ [⟨false, slice, start⟩] else tokens) ++
          [⟨true, ['[', ']'], i⟩])
  | '[' :: ']' :: rest, i, start, slice, false, tokens =>
      rawTokensFrom path rest (i + 2) (i + 2) [] false
        ((if slice != [] then tokens ++ [⟨false, slice, start⟩] else tokens) ++
          [⟨true, ['[', ']'], i⟩])
  | c :: rest, i, start, slice, inQuotes, tokens =>
      if c == '"' then rawTokensFrom path rest (i + 1) start (slice ++ [c]) (!inQuotes) tokens
      else if c == '.' && !inQuotes then
        rawTokensFrom path rest (i + 1) (i + 1) [] inQuotes (tokens ++ [⟨false, slice, start⟩])
      else rawTokensFrom path rest (i + 1) start (slice ++ [c]) inQuotes tokens

def rawTokens (path : List Char) : List RawToken := rawTokensFrom path path 0 0 [] false []

def isIndex (text : List Char) : Bool := isIndexText (String.ofList text)

/-- A typed token, not the last one, matches the field's at its place. -/
def tokensMatch (t f : RawToken) : Bool :=
  (t.any && f.any) || (!t.any && !f.any && t.raw == f.raw) || (!t.any && f.any && isIndex t.raw)

/-- The typed text with its last token completed. -/
def completedHead (typed : List Char) (last atLast : RawToken) : Option (List Char) :=
  if last.any then
    if !atLast.any then none else some typed
  else if !atLast.any then
    if !last.raw.isPrefixOf atLast.raw then none
    else some (typed.take last.start ++ atLast.raw)
  else if !isIndex last.raw then none
  else some typed

/-- What a token adds behind others. -/
def RawToken.text (t : RawToken) : List Char := if t.any then ['[', ']'] else '.' :: t.raw

def completeField (field typed : List Char) : Option (List Char) :=
  let fieldTokens := rawTokens field
  let typedTokens := rawTokens typed
  if typedTokens.length > fieldTokens.length then none
  else if !(typedTokens.dropLast.zip fieldTokens).all (fun p => tokensMatch p.1 p.2) then none
  else match typedTokens.getLast?, fieldTokens[typedTokens.length - 1]? with
    | some last, some atLast =>
        match completedHead typed last atLast with
        | some head =>
            let out := head ++ (fieldTokens.drop typedTokens.length).flatMap RawToken.text
            if out == typed then none else some out
        | none => none
    -- there is always a last token, and one of the field at its place
    | _, _ => none

/-- The rows of the dropdown for the text of the filter box. -/
def proposalsFor (env : TextEnv) (text : String) (fields : List String) : List String :=
  if text == "" || text.toList.head? == some '"' then []
  else
    let lower := env.toLowercase text
    if "value.".toList.isPrefixOf lower.toList then
      let typed := text.toList.drop 6
      if typed.any fun c => c == ':' || c == '=' || c == '<' || c == '>' then []
      else fields.filterMap fun f =>
        (completeField f.toList typed).map fun c => "value." ++ String.ofList c
    else if lower.toList.isPrefixOf "key".toList then ["key:", "key="]
    else if lower.toList.isPrefixOf "value".toList then
      let fieldRows := fields.map fun f => "value." ++ f
      if fieldRows.length > 0 then ["value:", "value="] ++ fieldRows
      else ["value:", "value=", "value."]
    else []

/-! ### The scanner over one piece of a text -/

section

variable (path rest : List Char) (i start : Nat) (slice : List Char) (tokens : List RawToken)

theorem rawTokensFrom_char {c : Char} {inQuotes : Bool}
    (hbracket : inQuotes = false → c ≠ '[') :
    rawTokensFrom path (c :: rest) i start slice inQuotes tokens =
      if c == '"' then rawTokensFrom path rest (i + 1) start (slice ++ [c]) (!inQuotes) tokens
      else if c == '.' && !inQuotes then
        rawTokensFrom path rest (i + 1) (i + 1) [] inQuotes (tokens ++ [⟨false, slice, start⟩])
      else rawTokensFrom path rest (i + 1) start (slice ++ [c]) inQuotes tokens := by
  rw [rawTokensFrom]
  · intro _ hinQuotes hc
    exact absurd hc (hbracket hinQuotes)
  · intro _ hinQuotes hc
    exact absurd hc (hbracket hinQuotes)

theorem rawTokensFrom_plain {name : List Char} (h : name.all isPlain = true) :
    rawTokensFrom path (name ++ rest) i start slice false tokens =
      rawTokensFrom path rest (i + name.length) start (slice ++ name) false tokens := by
  induction name generalizing i slice with
  | nil => simp
  | cons c name ih =>
    obtain ⟨hc, hname⟩ : isPlain c = true ∧ name.all isPlain = true := by simpa using h
    obtain ⟨⟨hquote, hdot⟩, hbracket⟩ := isPlain_iff.mp hc
    rw [List.cons_append, rawTokensFrom_char _ _ _ _ _ _ fun _ => hbracket,
      if_neg (by simpa using hquote), if_neg (by simp [hdot]), ih _ _ hname, List.append_assoc,
      List.length_cons, Nat.add_assoc, Nat.add_comm 1]
    rfl

theorem rawTokensFrom_inQuotes {name : List Char} (h : '"' ∉ name) :
    rawTokensFrom path (name ++ rest) i start slice true tokens =
      rawTokensFrom path rest (i + name.length) start (slice ++ name) true tokens := by
  induction name generalizing i slice with
  | nil => simp
  | cons c name ih =>
    obtain ⟨hc, hname⟩ : '"' ≠ c ∧ '"' ∉ name := by simpa using h
    rw [List.cons_append, rawTokensFrom_char _ _ _ _ _ _ (by simp),
      if_neg (by simpa using hc.symm), if_neg (by simp), ih _ _ hname, List.append_assoc,
      List.length_cons, Nat.add_assoc, Nat.add_comm 1]
    rfl

/-- A name of the field is kept as it is written. -/
theorem rawTokensFrom_seg {n : String} (h : '"' ∉ n.toList) :
    rawTokensFrom path (seg n ++ rest) i start slice false tokens =
      rawTokensFrom path rest (i + (seg n).length) start (slice ++ seg n) false tokens := by
  rcases spells_seg h with ⟨heq, hplain⟩ | ⟨heq, hquote⟩
  · rw [heq]
    exact rawTokensFrom_plain path rest i start slice tokens hplain
  · have hopen : seg n ++ rest = '"' :: (n.toList ++ '"' :: rest) := by simp [heq]
    rw [hopen, rawTokensFrom_char _ _ _ _ _ _ (by simp), if_pos (by rfl), Bool.not_false,
      rawTokensFrom_inQuotes _ _ _ _ _ _ hquote, rawTokensFrom_char _ _ _ _ _ _ (by simp),
      if_pos (by rfl), Bool.not_true, heq]
    congr 1
    · simp
      omega
    · simp

theorem rawTokensFrom_dot :
    rawTokensFrom path ('.' :: rest) i start slice false tokens =
      rawTokensFrom path rest (i + 1) (i + 1) [] false (tokens ++ [⟨false, slice, start⟩]) := by
  rw [rawTokensFrom_char _ _ _ _ _ _ (by simp), if_neg (by simp), if_pos (by rfl)]

/-- The tokens when a marker begins at an index. -/
def withMarker : List RawToken :=
  (if slice != [] then tokens ++ [⟨false, slice, start⟩] else tokens) ++ [⟨true, ['[', ']'], i⟩]

theorem rawTokensFrom_marker_dot :
    rawTokensFrom path ('[' :: ']' :: '.' :: rest) i start slice false tokens =
      rawTokensFrom path rest (i + 3) (i + 3) [] false (withMarker i start slice tokens) := by
  rw [rawTokensFrom, withMarker]

theorem rawTokensFrom_marker (h : rest.head? ≠ some '.') :
    rawTokensFrom path ('[' :: ']' :: rest) i start slice false tokens =
      rawTokensFrom path rest (i + 2) (i + 2) [] false (withMarker i start slice tokens) := by
  rw [rawTokensFrom, withMarker]
  rintro more rfl
  exact h rfl

end

/-! ### The tokens of a proposed field -/

/-- What the completion compares of a token. -/
def RawToken.shape (t : RawToken) : Bool × List Char := (t.any, t.raw)

def segmentShape : Segment → Bool × List Char
  | .anyElement => (true, ['[', ']'])
  | .name n => (false, seg n)

theorem shape_withMarker (i start : Nat) (slice : List Char) (tokens : List RawToken) :
    (withMarker i start slice tokens).map RawToken.shape =
      (if slice = [] then tokens.map RawToken.shape
        else tokens.map RawToken.shape ++ [(false, slice)]) ++ [(true, ['[', ']'])] := by
  by_cases hslice : slice = [] <;> simp [withMarker, RawToken.shape, hslice]

/-- A marker is passed with the dot that a name behind it would begin with. -/
theorem rawTokensFrom_marker_appended (path : List Char) (segments : List Segment) (i start : Nat)
    (slice : List Char) (tokens : List RawToken) :
    ∃ j, rawTokensFrom path ('[' :: ']' :: appended seg segments) i start slice false tokens =
      rawTokensFrom path (pathText seg segments) j j [] false
        (withMarker i start slice tokens) := by
  cases segments with
  | nil => exact ⟨_, rawTokensFrom_marker _ _ _ _ _ _ (by simp [appended])⟩
  | cons s segments =>
    cases s with
    | anyElement => exact ⟨_, rawTokensFrom_marker _ _ _ _ _ _ (by simp [appended])⟩
    | name n => exact ⟨_, rawTokensFrom_marker_dot _ _ _ _ _ _⟩

/-- The tokens behind a marker, from those of the text it is passed to. -/
theorem rawTokensFrom_behind_marker {segments : List Segment}
    (h : ∀ (i start : Nat) (tokens : List RawToken) (consumed : List Char),
      (segments = [] → consumed.getLast? = some ']') →
      (segments.head? = some (.name "") → consumed.getLast? = some '.') →
      (rawTokensFrom (consumed ++ pathText seg segments) (pathText seg segments) i start []
        false tokens).map RawToken.shape =
        tokens.map RawToken.shape ++ (legible segments).map segmentShape)
    (i start : Nat) (slice : List Char) (tokens : List RawToken) (consumed : List Char) :
    (rawTokensFrom (consumed ++ '[' :: ']' :: appended seg segments)
      ('[' :: ']' :: appended seg segments) i start slice false tokens).map RawToken.shape =
      (withMarker i start slice tokens).map RawToken.shape ++
        (legible segments).map segmentShape := by
  obtain ⟨j, hj⟩ := rawTokensFrom_marker_appended
    (consumed ++ '[' :: ']' :: appended seg segments) segments i start slice tokens
  rw [hj]
  cases segments with
  | nil =>
    have hpath : consumed ++ '[' :: ']' :: appended seg [] =
        (consumed ++ ['[', ']']) ++ pathText seg [] := by simp [appended, pathText]
    rw [hpath]
    exact h _ _ _ _ (by simp) (fun hhead => by cases hhead)
  | cons s more =>
    cases s with
    | anyElement =>
      have hpath : consumed ++ '[' :: ']' :: appended seg (.anyElement :: more) =
          (consumed ++ ['[', ']']) ++ pathText seg (.anyElement :: more) := by
        simp [appended, pathText]
      rw [hpath]
      exact h _ _ _ _ (fun hnil => by cases hnil) (fun hhead => by cases hhead)
    | name n =>
      -- the dot is passed too
      have hpath : consumed ++ '[' :: ']' :: appended seg (.name n :: more) =
          (consumed ++ ['[', ']', '.']) ++ pathText seg (.name n :: more) := by
        simp [appended, pathText]
      rw [hpath]
      exact h _ _ _ _ (fun hnil => by cases hnil) (by simp)

/-- Behind a name, and behind a marker and its dot, the tokens are those of the legible
    rest.  The characters read so far tell an empty name at the end from none. -/
theorem rawTokensFrom_appended {segments : List Segment} (hunquoted : Unquoted segments)
    (i start : Nat) (tokens : List RawToken) (consumed : List Char) :
    (∀ n, (n = "" → consumed.getLast? = some '.') →
      (rawTokensFrom (consumed ++ appended seg segments) (appended seg segments) i start (seg n)
        false tokens).map RawToken.shape =
        tokens.map RawToken.shape ++ (legible (.name n :: segments)).map segmentShape) ∧
      ((segments = [] → consumed.getLast? = some ']') →
        (segments.head? = some (.name "") → consumed.getLast? = some '.') →
        (rawTokensFrom (consumed ++ pathText seg segments) (pathText seg segments) i start []
          false tokens).map RawToken.shape =
          tokens.map RawToken.shape ++ (legible segments).map segmentShape) := by
  induction segments generalizing i start tokens consumed with
  | nil =>
    constructor
    · intro n hn
      have hpush : (seg n != [] || consumed.getLast? == some '.' || consumed == []) = true := by
        by_cases hempty : n = ""
        · simp [hn hempty]
        · simp [seg_ne_nil hempty]
      simp only [appended, List.append_nil, rawTokensFrom]
      rw [if_pos hpush]
      simp [legible, RawToken.shape, segmentShape]
    · intro hlast _
      have hlast := hlast rfl
      have hne : consumed ≠ [] := by
        rintro rfl
        cases hlast
      simp [pathText, appended, rawTokensFrom, hlast, hne]
  | cons s segments ih =>
    have hunquoted' : Unquoted segments := fun n hn => hunquoted n (List.mem_cons_of_mem _ hn)
    cases s with
    | anyElement =>
      -- both parts go on behind the marker
      have hmarker := rawTokensFrom_behind_marker fun i start tokens consumed =>
        (ih hunquoted' i start tokens consumed).2
      constructor
      · intro n _
        rw [appended, hmarker, shape_withMarker, legible]
        by_cases hn : n = ""
        · simp [hn, seg_empty, segmentShape]
        · simp [hn, seg_ne_nil hn, segmentShape]
      · intro _ _
        rw [pathText, appended, hmarker, shape_withMarker, legible_marker]
        · simp [segmentShape]
        · intro n more h
          cases h
    | name m =>
      have hm : '"' ∉ m.toList := hunquoted m List.mem_cons_self
      constructor
      · intro n _
        have hpath : consumed ++ appended seg (.name m :: segments) =
            (consumed ++ '.' :: seg m) ++ appended seg segments := by simp [appended]
        rw [hpath, appended, rawTokensFrom_dot, rawTokensFrom_seg _ _ _ _ _ _ hm, List.nil_append,
          (ih hunquoted' _ _ _ _).1 m]
        · simp [legible, RawToken.shape, segmentShape]
        · rintro rfl
          simp [seg_empty]
      · intro _ hempty
        have hpath : consumed ++ pathText seg (.name m :: segments) =
            (consumed ++ seg m) ++ appended seg segments := by simp [pathText]
        rw [hpath, pathText, rawTokensFrom_seg _ _ _ _ _ _ hm, List.nil_append,
          (ih hunquoted' _ _ _ _).1 m]
        rintro rfl
        simpa [seg_empty] using hempty rfl

/-- The tokens of a proposed field are its legible segments. -/
theorem rawTokens_pathText {way : List Segment} (hunquoted : Unquoted way) (hne : way ≠ [])
    (hhead : way.head? ≠ some (.name "")) :
    (rawTokens (pathText seg way)).map RawToken.shape = (legible way).map segmentShape :=
  (rawTokensFrom_appended hunquoted 0 0 [] []).2 (fun h => absurd h hne) (fun h => absurd h hhead)

/-! ### The tokens of a typed text -/

/-- The text before the last token, with the tokens in it; the flag says that it ends in a
    marker whose dot has not been typed. -/
inductive Head : List Char → List RawToken → Bool → Prop where
  | start : Head [] [] false
  | name {text raw : List Char} {tokens : List RawToken} {afterMarker : Bool}
      (h : Head text tokens afterMarker) (hraw : raw = [] → afterMarker = false) :
      Head (text ++ (raw ++ ['.'])) (tokens ++ [⟨false, raw, text.length⟩]) false
  | marker {text raw : List Char} {tokens : List RawToken} {afterMarker : Bool}
      (h : Head text tokens afterMarker) :
      Head (text ++ (raw ++ ['[', ']']))
        (withMarker (text.length + raw.length) text.length raw tokens) true
  | dot {text : List Char} {tokens : List RawToken} (h : Head text tokens true) :
      Head (text ++ ['.']) tokens false

/-- A head ends in a marker, or in a dot, or is empty. -/
theorem Head.getLast? {text : List Char} {tokens : List RawToken} {afterMarker : Bool}
    (h : Head text tokens afterMarker) :
    (afterMarker = true → text.getLast? = some ']') ∧
      (afterMarker = false → text = [] ∨ text.getLast? = some '.') := by
  cases h with
  | start => simp
  | name => simp
  | marker => simp
  | dot => simp

/-- A text is a head and a last name, or ends in a marker. -/
def Splits (path : List Char) (tokens : List RawToken) : Prop :=
  ∃ text before afterMarker, Head text before afterMarker ∧
    ((∃ last, tokens = before ++ [⟨false, last, text.length⟩] ∧ path = text ++ last ∧
        (last = [] → afterMarker = false)) ∨
      (tokens = before ∧ path = text ∧ afterMarker = true))

/-- The scanner splits the text it reads. -/
theorem rawTokensFrom_splits (path rest : List Char) (i start : Nat) (slice : List Char)
    (inQuotes : Bool) (tokens : List RawToken) {text : List Char} {afterMarker : Bool}
    (h : Head text tokens afterMarker) (hpath : path = text ++ (slice ++ rest))
    (hi : i = text.length + slice.length) (hstart : start = text.length)
    (hdot : afterMarker = true → slice = [] → rest.head? ≠ some '.') :
    Splits path (rawTokensFrom path rest i start slice inQuotes tokens) := by
  fun_induction rawTokensFrom path rest i start slice inQuotes tokens
    generalizing text afterMarker with
  | case1 i start slice _ tokens hpush =>
    subst hstart
    refine ⟨text, tokens, afterMarker, h, Or.inl ⟨slice, rfl, by simpa using hpath, ?_⟩⟩
    rintro rfl
    by_contra hmarker
    have hlast := h.getLast?.1 (by simpa using hmarker)
    obtain rfl : path = text := by simpa using hpath
    have hne : path ≠ [] := by
      rintro rfl
      cases hlast
    simp [hlast, hne] at hpush
  | case2 i start slice _ tokens hpush =>
    simp only [Bool.or_eq_true, bne_iff_ne, beq_iff_eq, not_or, not_not] at hpush
    obtain ⟨⟨rfl, hlast⟩, hne⟩ := hpush
    obtain rfl : path = text := by simpa using hpath
    refine ⟨path, tokens, afterMarker, h, Or.inr ⟨rfl, rfl, ?_⟩⟩
    by_contra hmarker
    rcases h.getLast?.2 (by simpa using hmarker) with h | h
    · exact hne h
    · exact hlast h
  | case3 rest i start slice tokens ih =>
    subst hstart hi
    exact ih (h.marker).dot (by simp [hpath]) (by simp; omega) (by simp; omega) (by simp)
  | case4 rest i start slice tokens hnodot ih =>
    subst hstart hi
    refine ih h.marker (by simp [hpath]) (by simp; omega) (by simp; omega) ?_
    intro _ _ hhead
    obtain ⟨more, rfl⟩ := List.head?_eq_some_iff.mp hhead
    exact hnodot more rfl
  | case5 c rest i start slice inQuotes tokens _ _ _ ih =>
    exact ih h (by simp [hpath]) (by simp [hi]; omega) hstart (by simp)
  | case6 c rest i start slice inQuotes tokens _ _ _ hc ih =>
    subst hstart hi
    obtain ⟨rfl, _⟩ : c = '.' ∧ inQuotes = false := by simpa using hc
    have hraw : slice = [] → afterMarker = false := by
      intro hslice
      by_contra hmarker
      exact hdot (by simpa using hmarker) hslice rfl
    exact ih (h.name hraw) (by simp [hpath]) (by simp; omega) (by simp; omega) (by simp)
  | case7 c rest i start slice inQuotes tokens _ _ _ _ ih =>
    exact ih h (by simp [hpath]) (by simp [hi]; omega) hstart (by simp)

theorem rawTokens_splits (path : List Char) : Splits path (rawTokens path) := by
  apply rawTokensFrom_splits path path 0 0 [] false [] .start rfl rfl rfl
  simp

/-! ### The segments of a typed text -/

/-- A marker, or a name as a proposal writes it. -/
def RawToken.Readable (t : RawToken) : Prop :=
  t.any = true ∨ ∃ n, t.raw = seg n ∧ '"' ∉ n.toList

/-- The segment of a token: its text without the quotes. -/
def RawToken.segment (t : RawToken) : Segment :=
  if t.any then .anyElement else .name (String.ofList (t.raw.filter (· != '"')))

theorem RawToken.segment_marker {t : RawToken} (h : t.any = true) : t.segment = .anyElement :=
  if_pos h

theorem RawToken.segment_name {t : RawToken} {n : String} (hany : t.any = false)
    (hraw : t.raw = seg n) (hquote : '"' ∉ n.toList) : t.segment = .name n := by
  have hkeep : n.toList.filter (· != '"') = n.toList := by
    apply List.filter_eq_self.mpr
    intro c hc
    have : c ≠ '"' := fun heq => hquote (heq ▸ hc)
    simpa using this
  have hunquoted : (seg n).filter (· != '"') = n.toList := by
    rcases spells_seg hquote with ⟨heq, _⟩ | ⟨heq, _⟩
    · rw [heq, hkeep]
    · rw [heq]
      simp [hkeep]
  rw [RawToken.segment, if_neg (by simp [hany]), hraw, hunquoted, String.ofList_toList]

/-- The tokenizer reads a head as the segments of its tokens. -/
theorem Head.splitPathLoop {text : List Char} {tokens : List RawToken} {afterMarker : Bool}
    (h : Head text tokens afterMarker) (hread : ∀ t ∈ tokens, t.Readable) (more : List Char) :
    Message.splitPathLoop (text ++ more) false [] [] false false =
      Message.splitPathLoop more false (tokens.map RawToken.segment) [] false afterMarker := by
  induction h generalizing more with
  | start => rfl
  | @name text raw tokens afterMarker h hraw ih =>
    have hbefore : ∀ t ∈ tokens, t.Readable := fun t ht => hread t (List.mem_append_left _ ht)
    obtain hany | ⟨n, hn, hquote⟩ :=
      hread ⟨false, raw, text.length⟩ (List.mem_append_right _ List.mem_cons_self)
    · cases hany
    have hsegment := RawToken.segment_name (t := ⟨false, raw, text.length⟩) rfl hn hquote
    obtain rfl : raw = seg n := hn
    have hmarker : (afterMarker && n.toList.isEmpty) = false := by
      by_cases hempty : n = ""
      · simp [hraw (by rw [hempty, seg_empty])]
      · have : n.toList.isEmpty = false := by simpa [List.isEmpty_iff] using hempty
        simp [this]
    rw [List.append_assoc, List.append_assoc, ih hbefore, splitPathLoop_spelled _ _ _ _
      (spells_seg hquote), List.nil_append, List.singleton_append, splitPathLoop_dot, hmarker,
      Bool.false_and, if_neg Bool.false_ne_true, String.ofList_toList, List.map_append,
      List.map_singleton, hsegment]
  | @marker text raw tokens afterMarker h ih =>
    have htokens : ∀ t ∈ tokens,
        t ∈ withMarker (text.length + raw.length) text.length raw tokens := by
      intro t ht
      rw [withMarker]
      split <;> simp [ht]
    have hbefore : ∀ t ∈ tokens, t.Readable := fun t ht => hread t (htokens t ht)
    rw [List.append_assoc, List.append_assoc, ih hbefore]
    by_cases hraw : raw = []
    · subst hraw
      rw [List.nil_append, List.cons_append, List.singleton_append, splitPathLoop_marker]
      simp [withMarker, RawToken.segment]
    · obtain hany | ⟨n, hn, hquote⟩ := hread ⟨false, raw, text.length⟩ (by simp [withMarker, hraw])
      · cases hany
      have hsegment := RawToken.segment_name (t := ⟨false, raw, text.length⟩) rfl hn hquote
      obtain rfl : raw = seg n := hn
      have hempty : n ≠ "" := by
        rintro rfl
        exact hraw seg_empty
      have hne : n.toList.isEmpty = false := by simpa [List.isEmpty_iff] using hempty
      rw [splitPathLoop_spelled _ _ _ _ (spells_seg hquote), List.nil_append, List.cons_append,
        List.singleton_append, splitPathLoop_marker, hne, if_neg Bool.false_ne_true,
        String.ofList_toList]
      simp [withMarker, hraw, hsegment, RawToken.segment_marker]
  | @dot text tokens h ih =>
    rw [List.append_assoc, ih hread, List.singleton_append, splitPathLoop_dot]
    rfl

/-! ### Tokens that match -/

theorem isIndex_chars {n : String} (h : isIndexText n = true) :
    n ≠ "" ∧ ∀ c ∈ n.toList, c = '+' ∨ ('0' ≤ c ∧ c ≤ '9') := by
  rw [isIndexText_def, Bool.and_eq_true, bne_iff_ne] at h
  obtain ⟨hne, hdigits⟩ := h
  have hdigits := List.all_eq_true.mp hdigits
  rcases withoutPlus_cases n.toList with heq | heq
  · constructor
    · rintro rfl
      exact hne rfl
    · intro c hc
      rw [heq] at hc
      exact Or.inr (by simpa using hdigits c hc)
  · constructor
    · rintro rfl
      cases heq
    · intro c hc
      rw [heq] at hc
      rcases List.mem_cons.mp hc with hc | hc
      · exact Or.inl hc
      · exact Or.inr (by simpa using hdigits c hc)

/-- An index is written as it is. -/
theorem isIndex_seg {n : String} (h : isIndexText n = true) :
    seg n = n.toList ∧ '"' ∉ n.toList := by
  obtain ⟨_, hchars⟩ := isIndex_chars h
  constructor
  · rw [seg, if_neg]
    rw [hasGrammar, List.any_eq_true]
    rintro ⟨c, hc, hgrammar⟩
    simp only [Bool.or_eq_true, beq_iff_eq] at hgrammar
    rcases hchars c hc with rfl | ⟨hlow, hhigh⟩
    · exact absurd hgrammar (by decide)
    · rcases hgrammar with (((rfl | rfl) | rfl) | rfl) | rfl <;>
        first | exact absurd hlow (by decide) | exact absurd hhigh (by decide)
  · intro hquote
    rcases hchars _ hquote with h | ⟨h, _⟩
    · exact absurd h (by decide)
    · exact absurd h (by decide)

/-- A typed segment stands for one of the field: the same one, or an index for a marker. -/
def StandsFor (s f : Segment) : Prop :=
  s = f ∨ (f = .anyElement ∧ ∃ n, s = .name n ∧ isIndexText n = true)

theorem matched_token {t f : RawToken} {s : Segment} (h : tokensMatch t f = true)
    (hshape : f.shape = segmentShape s) (hquote : ∀ n, s = .name n → '"' ∉ n.toList) :
    t.Readable ∧ StandsFor t.segment s := by
  obtain ⟨fany, fraw, fstart⟩ := f
  obtain ⟨tany, traw, tstart⟩ := t
  cases s with
  | anyElement =>
    obtain ⟨rfl, rfl⟩ : fany = true ∧ fraw = ['[', ']'] := by
      simpa [RawToken.shape, segmentShape] using hshape
    cases tany with
    | true => exact ⟨Or.inl rfl, Or.inl rfl⟩
    | false =>
      have hindex : isIndexText (String.ofList traw) = true := by
        simpa [tokensMatch, isIndex] using h
      obtain ⟨hseg, hno⟩ := isIndex_seg hindex
      rw [String.toList_ofList] at hseg
      refine ⟨Or.inr ⟨_, hseg.symm, hno⟩, Or.inr ⟨rfl, _, ?_, hindex⟩⟩
      exact RawToken.segment_name rfl hseg.symm hno
  | name n =>
    obtain ⟨rfl, rfl⟩ : fany = false ∧ fraw = seg n := by
      simpa [RawToken.shape, segmentShape] using hshape
    obtain ⟨rfl, rfl⟩ : tany = false ∧ traw = seg n := by
      simpa [tokensMatch] using h
    exact ⟨Or.inr ⟨n, rfl, hquote n rfl⟩,
      Or.inl (RawToken.segment_name rfl rfl (hquote n rfl))⟩

theorem matched_tokens {before matched : List RawToken} {segments : List Segment}
    (h : List.Forall₂ (fun t f => tokensMatch t f = true) before matched)
    (hshape : matched.map RawToken.shape = segments.map segmentShape)
    (hquote : Unquoted segments) :
    (∀ t ∈ before, t.Readable) ∧
      List.Forall₂ StandsFor (before.map RawToken.segment) segments := by
  induction h generalizing segments with
  | nil =>
    obtain rfl : segments = [] := by simpa using hshape.symm
    exact ⟨fun t ht => absurd ht List.not_mem_nil, .nil⟩
  | cons hhead _ ih =>
    cases segments with
    | nil => cases hshape
    | cons s segments =>
      obtain ⟨hs, hshape⟩ := List.cons_eq_cons.mp hshape
      obtain ⟨hread, hstands⟩ := matched_token hhead hs
        fun n hn => hquote n (hn ▸ List.mem_cons_self)
      obtain ⟨hreads, hall⟩ := ih hshape fun n hn => hquote n (List.mem_cons_of_mem _ hn)
      exact ⟨List.forall_mem_cons.mpr ⟨hread, hreads⟩, .cons hstands hall⟩

/-- What is left of the field is added as it would stand in a proposal. -/
theorem flatMap_text {rest : List RawToken} {segments : List Segment}
    (h : rest.map RawToken.shape = segments.map segmentShape) :
    rest.flatMap RawToken.text = appended seg segments := by
  induction segments generalizing rest with
  | nil =>
    obtain rfl : rest = [] := by simpa using h
    rfl
  | cons s segments ih =>
    cases rest with
    | nil => cases h
    | cons t rest =>
      obtain ⟨ht, hrest⟩ := List.cons_eq_cons.mp h
      obtain ⟨any, raw, start⟩ := t
      rw [List.flatMap_cons, ih hrest]
      cases s with
      | anyElement =>
        obtain ⟨rfl, rfl⟩ : any = true ∧ raw = ['[', ']'] := by
          simpa [RawToken.shape, segmentShape] using ht
        rfl
      | name n =>
        obtain ⟨rfl, rfl⟩ : any = false ∧ raw = seg n := by
          simpa [RawToken.shape, segmentShape] using ht
        rfl

/-- What a completion says of the tokens of both texts. -/
theorem completeField_eq_some {field typed out : List Char}
    (h : completeField field typed = some out) :
    ∃ before last matched atLast rest head, rawTokens typed = before ++ [last] ∧
      rawTokens field = matched ++ atLast :: rest ∧
      List.Forall₂ (fun t f => tokensMatch t f = true) before matched ∧
      completedHead typed last atLast = some head ∧
      out = head ++ rest.flatMap RawToken.text ∧ out ≠ typed := by
  unfold completeField at h
  simp only at h
  split at h
  · cases h
  · split at h
    · cases h
    · rename_i hlength hall
      split at h
      · rename_i last atLast hlast hatLast
        split at h
        · rename_i head hhead
          split at h
          · cases h
          · rename_i hne
            obtain rfl := Option.some.inj h
            obtain ⟨before, hbefore⟩ := List.getLast?_eq_some_iff.mp hlast
            rw [hbefore, List.length_append, List.length_singleton, Nat.add_sub_cancel] at hatLast
            obtain ⟨hlt, hget⟩ := List.getElem?_eq_some_iff.mp hatLast
            obtain ⟨matched, rest, hfield, htake, hrest⟩ : ∃ matched rest,
                rawTokens field = matched ++ atLast :: rest ∧ before.length = matched.length ∧
                  (rawTokens field).drop (before.length + 1) = rest := by
              refine ⟨(rawTokens field).take before.length, _, ?_, ?_, rfl⟩
              · rw [← hget, ← List.drop_eq_getElem_cons hlt, List.take_append_drop]
              · rw [List.length_take, Nat.min_eq_left (Nat.le_of_lt hlt)]
            refine ⟨before, last, matched, atLast, rest, head, hbefore, hfield, ?_, hhead, ?_, ?_⟩
            · refine List.forall₂_iff_zip.mpr ⟨htake, ?_⟩
              intro t f hmem
              have hzip : (before ++ []).zip (matched ++ atLast :: rest) =
                  before.zip matched ++ [].zip (atLast :: rest) := List.zip_append htake
              rw [List.append_nil, List.zip_nil_left, List.append_nil] at hzip
              rw [hbefore, List.dropLast_concat, hfield, hzip] at hall
              simp only [Bool.not_eq_true', Bool.not_eq_false, List.all_eq_true] at hall
              exact hall (t, f) hmem
            · rw [hbefore, List.length_append, List.length_singleton, hrest]
            · simpa using hne
        · cases h
      · cases h

/-- The completed segments are the field's, except that an index may stand where the field
    has a marker and the typed text this index. -/
def AddressesField (completed field typed : List Segment) : Prop :=
  completed.length = field.length ∧ ∀ (i : Nat) (s : Segment), completed[i]? = some s →
    field[i]? = some s ∨
      (field[i]? = some Segment.anyElement ∧ typed[i]? = some s ∧
        ∃ n, s = .name n ∧ isIndexText n = true)

theorem addressesField_append {before fields : List Segment} {y x : Segment}
    {rest typed : List Segment} (hbefore : List.Forall₂ StandsFor before fields)
    (htyped : before <+: typed)
    (hlast : y = x ∨ (x = .anyElement ∧ (∃ n, y = .name n ∧ isIndexText n = true) ∧
      typed[before.length]? = some y)) :
    AddressesField (before ++ y :: rest) (fields ++ x :: rest) typed := by
  have hlength := hbefore.length_eq
  refine ⟨by simp [hlength], ?_⟩
  intro i s hi
  rcases Nat.lt_trichotomy i before.length with hlt | rfl | hgt
  · rw [List.getElem?_append_left hlt] at hi
    rw [List.getElem?_append_left (hlength ▸ hlt)]
    obtain ⟨hlt', hget⟩ := List.getElem?_eq_some_iff.mp hi
    have hfield : fields[i]? = some fields[i] := List.getElem?_eq_getElem (hlength ▸ hlt)
    have hstands : StandsFor s fields[i] := hget ▸ hbefore.get hlt' (hlength ▸ hlt)
    rcases hstands with heq | ⟨hany, hindex⟩
    · exact Or.inl (by rw [hfield, ← heq])
    · obtain ⟨more, rfl⟩ := htyped
      exact Or.inr ⟨by rw [hfield, hany], by rw [List.getElem?_append_left hlt', hi], hindex⟩
  · rw [List.getElem?_append_right (le_refl _), Nat.sub_self, List.getElem?_cons_zero] at hi
    obtain rfl := Option.some.inj hi
    rw [List.getElem?_append_right (le_of_eq hlength.symm), hlength, Nat.sub_self,
      List.getElem?_cons_zero]
    rcases hlast with rfl | ⟨rfl, hindex, htyped⟩
    · exact Or.inl rfl
    · exact Or.inr ⟨rfl, hlength ▸ htyped, hindex⟩
  · left
    rw [List.getElem?_append_right (le_of_lt hgt)] at hi
    rw [List.getElem?_append_right (by omega), ← hi, ← hlength]
    obtain ⟨j, hj⟩ := Nat.exists_eq_succ_of_ne_zero (Nat.sub_ne_zero_of_lt hgt)
    rw [hj]
    rfl

/-- An index hides no more than the marker it stands for. -/
theorem hidesName_standsFor {y x : Segment} {rest : List Segment} (h : StandsFor y x) :
    HidesName (y :: rest) ↔ HidesName (x :: rest) := by
  rcases h with rfl | ⟨rfl, n, rfl, hindex⟩
  · exact Iff.rfl
  · have hn : n ≠ "" := (isIndex_chars hindex).1
    simp [HidesName, hn]

/-- The completion addresses the field exactly when nothing that is added is hidden. -/
theorem addressesField_iff {before fields : List Segment} {y x : Segment}
    {rest completed field typed : List Segment} (hbefore : List.Forall₂ StandsFor before fields)
    (htyped : before <+: typed)
    (hlast : y = x ∨ (x = .anyElement ∧ (∃ n, y = .name n ∧ isIndexText n = true) ∧
      typed[before.length]? = some y))
    (hcompleted : completed = before ++ legible (y :: rest))
    (hfield : field = fields ++ x :: rest) :
    AddressesField completed field typed ↔ ¬ HidesName (field.drop before.length) := by
  have hlength := hbefore.length_eq
  have hdrop : field.drop before.length = x :: rest := by rw [hfield, hlength, List.drop_left]
  have hstands : StandsFor y x := by
    rcases hlast with h | ⟨hany, hindex, _⟩
    · exact Or.inl h
    · exact Or.inr ⟨hany, hindex⟩
  rw [hdrop, ← hidesName_standsFor hstands, ← length_legible_iff]
  constructor
  · rintro ⟨hlen, _⟩
    rw [hcompleted, hfield, List.length_append, List.length_append, hlength] at hlen
    simpa using hlen
  · intro hlen
    have hlegible := legible_eq ((length_legible_iff _).mp hlen)
    rw [hcompleted, hfield, hlegible]
    exact addressesField_append hbefore htyped hlast

theorem legible_subset (segments : List Segment) : legible segments ⊆ segments := by
  induction segments with
  | nil => exact fun _ h => h
  | cons s rest ih =>
    rw [legible]
    split
    · exact List.subset_cons_of_subset _ ih
    · exact List.cons_subset_cons _ ih

/-- A head whose last marker has no dot ends in the marker's token. -/
theorem Head.marker_last {text : List Char} {tokens : List RawToken}
    (h : Head text tokens true) : ∃ before i, tokens = before ++ [⟨true, ['[', ']'], i⟩] := by
  cases h with
  | marker => exact ⟨_, _, rfl⟩

/-- `head` with `more` behind it begins as `typed` does: the segments before the last one
    stay, there is `x` or the index that was typed for a marker, and then what is legible of
    `more`. -/
def CompletesAt (typed head : List Char) (before : List Segment) (x : Segment)
    (more : List Segment) : Prop :=
  typed <+: head ∧ before <+: splitPath (String.ofList typed) ∧
    ∃ y, splitPath (String.ofList (head ++ appended seg more)) = before ++ legible (y :: more) ∧
      (y = x ∨ (x = .anyElement ∧ (∃ n, y = .name n ∧ isIndexText n = true) ∧
        (splitPath (String.ofList typed))[before.length]? = some y))

section

variable {before : List RawToken} {last atLast : RawToken} {x : Segment} {more : List Segment}
  {typed head text raw : List Char} {afterMarker : Bool}

/-- The text ends in the front of a name, which is written out. -/
theorem completesAt_name (h : Head text before afterMarker) (hread : ∀ t ∈ before, t.Readable)
    (hraw : raw = [] → afterMarker = false) (hmore : Unquoted more) {n : String}
    (hn : '"' ∉ n.toList) (hstarts : raw <+: seg n) :
    CompletesAt (text ++ raw) (text ++ seg n) (before.map RawToken.segment) (.name n) more := by
  have hrun := h.splitPathLoop hread
  have hmarker : (afterMarker && n.toList.isEmpty) = false := by
    by_cases hempty : n = ""
    · have hnil : raw = [] := by
        rw [hempty, seg_empty] at hstarts
        exact List.prefix_nil.mp hstarts
      simp [hraw hnil]
    · have hne : n.toList.isEmpty = false := by simpa [List.isEmpty_iff] using hempty
      simp [hne]
  simp only [CompletesAt, splitPath_eq, Message.splitPath, String.toList_ofList]
  refine ⟨(List.prefix_append_right_inj text).mpr hstarts, ?_, .name n, ?_, Or.inl rfl⟩
  · rw [hrun]
    exact splitPathLoop_front _ _ _ _ _ _
  · rw [List.append_assoc, hrun, splitPathLoop_spelled _ _ _ _ (spells_seg hn), hmarker,
      List.nil_append, (splitPathLoop_appended hmore.writes _ n).1]

/-- The text ends in an index where the field has a marker. -/
theorem completesAt_index (h : Head text before afterMarker) (hread : ∀ t ∈ before, t.Readable)
    (hmore : Unquoted more) (hindex : isIndexText (String.ofList raw) = true) :
    CompletesAt (text ++ raw) (text ++ raw) (before.map RawToken.segment) .anyElement more := by
  have hrun := h.splitPathLoop hread
  obtain ⟨hseg, hno⟩ := isIndex_seg hindex
  have hne : raw ≠ [] := by
    have hchars := (isIndex_chars hindex).1
    simpa using hchars
  have hspells := spells_seg hno
  rw [hseg, String.toList_ofList] at hspells
  have hmarker : (afterMarker && raw.isEmpty) = false := by
    have hfull : raw.isEmpty = false := by simpa [List.isEmpty_iff] using hne
    simp [hfull]
  have hlast : splitPathLoop (text ++ raw) false [] [] false false =
      before.map RawToken.segment ++ [.name (String.ofList raw)] := by
    have hspelled := splitPathLoop_spelled [] (before.map RawToken.segment) [] afterMarker hspells
    rw [List.append_nil] at hspelled
    rw [hrun, hspelled, splitPathLoop]
    simp [hne]
  have happended := (splitPathLoop_appended hmore.writes (before.map RawToken.segment)
    (String.ofList raw)).1
  rw [String.toList_ofList] at happended
  simp only [CompletesAt, splitPath_eq, Message.splitPath, String.toList_ofList]
  refine ⟨List.prefix_refl _, ?_, .name (String.ofList raw), ?_,
    Or.inr ⟨trivial, ⟨_, rfl, hindex⟩, ?_⟩⟩
  · rw [hlast]
    exact List.prefix_append _ _
  · rw [List.append_assoc, hrun, splitPathLoop_spelled _ _ _ _ hspells, hmarker,
      List.nil_append, happended]
  · rw [hlast]
    simp

/-- The text ends in the marker of the field. -/
theorem completesAt_marker {i : Nat}
    (h : Head text (before ++ [(⟨true, ['[', ']'], i⟩ : RawToken)]) true)
    (hread : ∀ t ∈ before, t.Readable) (hmore : Unquoted more) :
    CompletesAt text text (before.map RawToken.segment) .anyElement more := by
  have hreads : ∀ t ∈ before ++ [(⟨true, ['[', ']'], i⟩ : RawToken)], t.Readable := by
    intro t ht
    rcases List.mem_append.mp ht with ht | ht
    · exact hread t ht
    · obtain rfl := List.mem_singleton.mp ht
      exact Or.inl rfl
  have hrun := h.splitPathLoop hreads
  have hsegments : (before ++ [(⟨true, ['[', ']'], i⟩ : RawToken)]).map RawToken.segment =
      before.map RawToken.segment ++ [.anyElement] := by
    simp [RawToken.segment_marker]
  simp only [CompletesAt, splitPath_eq, Message.splitPath, String.toList_ofList]
  refine ⟨List.prefix_refl _, ?_, .anyElement, ?_, Or.inl rfl⟩
  · have hall := hrun []
    rw [List.append_nil] at hall
    rw [hall, hsegments]
    exact (List.prefix_append _ _).trans (splitPathLoop_front _ _ _ _ _ _)
  · rw [hrun, (splitPathLoop_appended hmore.writes _ "").2, hsegments, legible_marker]
    simp

/-- What a completion reads as. -/
theorem completed_segments (hsplits : Splits typed (before ++ [last]))
    (hread : ∀ t ∈ before, t.Readable) (hx : atLast.shape = segmentShape x)
    (hquote : ∀ n, x = .name n → '"' ∉ n.toList) (hmore : Unquoted more)
    (hhead : completedHead typed last atLast = some head) :
    CompletesAt typed head (before.map RawToken.segment) x more := by
  obtain ⟨text, tokens, afterMarker, hheadText, hor⟩ := hsplits
  rcases hor with ⟨raw, htokens, rfl, hraw⟩ | ⟨htokens, rfl, rfl⟩
  · -- the last token is a name
    obtain ⟨rfl, hlast⟩ : before = tokens ∧ last = ⟨false, raw, text.length⟩ := by
      simpa using List.append_inj' htokens rfl
    subst hlast
    cases x with
    | name n =>
      obtain ⟨hany, hseg⟩ : atLast.any = false ∧ atLast.raw = seg n := by
        simpa [RawToken.shape, segmentShape] using hx
      simp only [completedHead, hany, hseg, Bool.false_eq_true, if_false, Bool.not_false, if_true]
        at hhead
      split at hhead
      · cases hhead
      · rename_i hstarts
        obtain rfl := Option.some.inj hhead
        rw [List.take_left]
        exact completesAt_name hheadText hread hraw hmore (hquote n rfl) (by simpa using hstarts)
    | anyElement =>
      obtain ⟨hany, _⟩ : atLast.any = true ∧ atLast.raw = ['[', ']'] := by
        simpa [RawToken.shape, segmentShape] using hx
      simp only [completedHead, hany, Bool.false_eq_true, if_false, Bool.not_true] at hhead
      split at hhead
      · cases hhead
      · rename_i hindex
        obtain rfl := Option.some.inj hhead
        exact completesAt_index hheadText hread hmore (by simpa [isIndex] using hindex)
  · -- the text ends in a marker
    obtain ⟨before', i, htokens'⟩ := hheadText.marker_last
    obtain ⟨rfl, hlast⟩ : before = before' ∧ last = ⟨true, ['[', ']'], i⟩ := by
      simpa using List.append_inj' (htokens.trans htokens') rfl
    subst hlast htokens
    cases x with
    | name n =>
      obtain ⟨hany, _⟩ : atLast.any = false ∧ atLast.raw = seg n := by
        simpa [RawToken.shape, segmentShape] using hx
      simp [completedHead, hany] at hhead
    | anyElement =>
      obtain ⟨hany, _⟩ : atLast.any = true ∧ atLast.raw = ['[', ']'] := by
        simpa [RawToken.shape, segmentShape] using hx
      simp only [completedHead, hany, if_true, Bool.not_true, Bool.false_eq_true, if_false] at hhead
      obtain rfl := Option.some.inj hhead
      exact completesAt_marker hheadText hread hmore

end

/-- A completion of a proposed field keeps what was typed, and addresses the field
    exactly when no empty name is left before a marker that it adds. -/
theorem completeField_fieldText {way : List Segment} (hunquoted : Unquoted way)
    (hne : fieldText [] way ≠ []) {typed completed : List Char}
    (h : completeField (fieldText [] way) typed = some completed) :
    (typed <+: completed ∧ completed ≠ typed) ∧
      (AddressesField (splitPath (String.ofList completed))
          (splitPath (String.ofList (fieldText [] way))) (splitPath (String.ofList typed)) ↔
        ¬ HidesName ((splitPath (String.ofList (fieldText [] way))).drop
          ((rawTokens typed).length - 1))) := by
  have hwithout := withoutEmpty_ne_nil hne
  have hquote : Unquoted (withoutEmpty way) := fun n hn => hunquoted n (List.dropWhile_subset _ hn)
  have hshape : (rawTokens (fieldText [] way)).map RawToken.shape =
      (legible (withoutEmpty way)).map segmentShape := by
    rw [fieldText_eq]
    exact rawTokens_pathText hquote hwithout (head_withoutEmpty way)
  have hlegible : Unquoted (legible (withoutEmpty way)) :=
    fun n hn => hquote n (legible_subset _ hn)
  obtain ⟨before, last, matched, atLast, rest, head, htyped, hfield, hmatch, hhead, rfl, hnot⟩ :=
    completeField_eq_some h
  rw [hfield] at hshape
  obtain ⟨fields, others, hsplit, hfields, hothers⟩ := List.map_eq_append_iff.mp
    ((List.map_append ..).symm.trans hshape).symm
  obtain ⟨x, more, rfl, hx, hmore⟩ := List.map_eq_cons_iff.mp hothers
  rw [hsplit] at hlegible
  have hquoteFields : Unquoted fields := fun n hn => hlegible n (List.mem_append_left _ hn)
  have hquoteMore : Unquoted more :=
    fun n hn => hlegible n (List.mem_append_right _ (List.mem_cons_of_mem _ hn))
  obtain ⟨hread, hstands⟩ := matched_tokens hmatch hfields.symm hquoteFields
  have hsplits : Splits typed (before ++ [last]) := htyped ▸ rawTokens_splits typed
  obtain ⟨hfront, hsegments, y, hcompleted, hlast⟩ := completed_segments hsplits hread hx.symm
    (fun n hn => hlegible n (List.mem_append_right _ (hn ▸ List.mem_cons_self))) hquoteMore hhead
  rw [flatMap_text hmore.symm] at hnot ⊢
  refine ⟨⟨hfront.trans (List.prefix_append _ _), hnot⟩, ?_⟩
  rw [splitPath_fieldText hunquoted hne, htyped, List.length_append, List.length_singleton,
    Nat.add_sub_cancel]
  rw [← List.length_map RawToken.segment]
  exact addressesField_iff hstands hsegments hlast hcompleted hsplit

theorem mem_extractFieldPaths_way {env : TextEnv} {rows : List MessageOut} {maxRows maxDepth : Nat}
    {field : String} (h : field ∈ extractFieldPaths env rows maxRows maxDepth) :
    ∃ way, Unquoted way ∧ fieldText [] way ≠ [] ∧ field = String.ofList (fieldText [] way) := by
  simp only [extractFieldPaths, (List.perm_insertionSort _ _).mem_iff, List.mem_dedup,
    List.mem_flatMap] at h
  obtain ⟨m, _, hm⟩ := h
  split at hm
  · split at hm
    · obtain ⟨way, hway, _, hne, rfl⟩ := (mem_walkFields _ _ _ _).mp hm
      exact ⟨way, hway.unquoted, hne, rfl⟩
    · cases hm
  · cases hm

/-- A completion has what was typed as a proper prefix.  It addresses the proposed field,
    an index standing for a marker only where it was typed, exactly when the field has no
    empty name before a marker from the place of the last typed token on. -/
theorem completion_sound_iff {env : TextEnv} {rows : List MessageOut} {maxRows maxDepth : Nat}
    {field : String} (hfield : field ∈ extractFieldPaths env rows maxRows maxDepth)
    {typed completed : String}
    (h : completeField field.toList typed.toList = some completed.toList) :
    (typed.toList <+: completed.toList ∧ completed ≠ typed) ∧
      (AddressesField (splitPath completed) (splitPath field) (splitPath typed) ↔
        ¬ HidesName ((splitPath field).drop ((rawTokens typed.toList).length - 1))) := by
  obtain ⟨way, hunquoted, hne, rfl⟩ := mem_extractFieldPaths_way hfield
  rw [String.toList_ofList] at h
  obtain ⟨⟨hfront, hnot⟩, hiff⟩ := completeField_fieldText hunquoted hne h
  rw [String.ofList_toList, String.ofList_toList] at hiff
  exact ⟨⟨hfront, fun heq => hnot (congrArg String.toList heq)⟩, hiff⟩

/-- Two empty names before an array. -/
def gapText : String := "\x7b\"x\":\x7b\"\":\x7b\"\":[\x7b\"b\":true\x7d]\x7d\x7d\x7d"

def gapValue : Json :=
  .object [("x", .object [("", .object [("", .array [.object [("b", .bool true)]])])])]

def gapEnv : TextEnv where
  parse text := if text = gapText then some gapValue else none
  toLowercase text := String.ofList (text.toList.map Char.toLower)

def gapMessage : MessageOut := ⟨0, 0, none, none, some ⟨.json, gapText, none, none⟩, []⟩

/-- With an index typed for the marker the completion addresses the field. -/
theorem typed_index_addresses :
    AddressesField (splitPath "x..2.b") (splitPath "x..[].b") (splitPath "x..2") :=
  (completion_sound_iff
    (by decide : "x..[].b" ∈ extractFieldPaths gapEnv [gapMessage] 200 6)
    (by decide : completeField "x..[].b".toList "x..2".toList = some "x..2.b".toList)).2.mpr
    (by decide)

/-- With the first name typed, the completion loses a segment of the field. -/
theorem added_marker_hides_name :
    "x..[].b" ∈ extractFieldPaths gapEnv [gapMessage] 200 6 ∧
      completeField "x..[].b".toList "x".toList = some "x.[].b".toList ∧
      splitPath "x..[].b" = [.name "x", .name "", .anyElement, .name "b"] ∧
      splitPath "x.[].b" = [.name "x", .anyElement, .name "b"] ∧
      ¬ AddressesField (splitPath "x.[].b") (splitPath "x..[].b") (splitPath "x") := by
  refine ⟨by decide, by decide, by decide, by decide, ?_⟩
  rintro ⟨hlength, _⟩
  exact absurd hlength (by decide)

end Arne.Client
