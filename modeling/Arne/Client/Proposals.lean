import Mathlib.Data.List.TakeWhile
import Arne.Client.FieldPaths

/-!
# Using a proposal (`lib/fieldPaths.ts`, `lib/filterQuery.ts`)

A proposal is accepted as it stands and an operator and a query are typed behind it, so
its text has to be read back as the path by the scanner that looks for the operator and by
the tokenizer of paths.  It is, unless the way to the scalar has an empty name first or
before a marker, or a name with `<` or `>` that is not quoted, or one that ends in `!` and
is the last.
-/

namespace Arne.Client

open Arne.Message

/-! ### The scanner for the operator -/

/-- A name that stands unquoted with a comparison in it. -/
def hasComparison (n : String) : Bool :=
  !hasGrammar n && n.toList.any fun c => c == '<' || c == '>'

/-- The last segment is a name that stands unquoted and ends in `!`. -/
def EndsInBang (way : List Segment) : Prop :=
  ∃ n, way.getLast? = some (.name n) ∧ hasGrammar n = false ∧ n.toList.getLast? = some '!'

/-- Where a text begins with an operator outside the names. -/
def isOperatorChar (c : Char) : Bool := c == ':' || c == '=' || c == '>' || c == '<'

section

variable (i : Nat) (rest : List Char)

theorem operatorIndex_step {c : Char} (hquote : c ≠ '"') (hop : isOperatorChar c = false) :
    unquotedOperatorIndexFrom i false (c :: rest) =
      if c = '!' ∧ rest.head? = some '=' then some i
      else unquotedOperatorIndexFrom (i + 1) false rest := by
  have hop' : (c == ':' || c == '=' || c == '>' || c == '<') = false := hop
  rw [unquotedOperatorIndexFrom, if_neg (by simpa using hquote), if_neg Bool.false_ne_true, hop',
    if_neg Bool.false_ne_true]
  simp

/-- A plain name is passed over, unless it ends in `!` and the text goes on with `=`. -/
theorem operatorIndex_plain {name : List Char} (hquote : '"' ∉ name)
    (hop : name.any isOperatorChar = false) :
    unquotedOperatorIndexFrom i false (name ++ rest) =
      if name.getLast? = some '!' ∧ rest.head? = some '=' then some (i + name.length - 1)
      else unquotedOperatorIndexFrom (i + name.length) false rest := by
  induction name generalizing i with
  | nil => simp
  | cons c name ih =>
    obtain ⟨hc, hname⟩ : '"' ≠ c ∧ '"' ∉ name := by simpa using hquote
    obtain ⟨hcop, hnameop⟩ : isOperatorChar c = false ∧ name.any isOperatorChar = false := by
      simpa using hop
    rw [List.cons_append, operatorIndex_step i _ hc.symm hcop]
    cases name with
    | nil => simp
    | cons d name =>
      -- the next character is the name's own, so no `=`
      have hd : d ≠ '=' := by
        rintro rfl
        simp [isOperatorChar] at hnameop
      rw [if_neg (by simpa using fun _ => hd), ih (i + 1) hname hnameop, List.getLast?_cons_cons]
      simp only [List.length_cons]
      have hlast : i + 1 + (name.length + 1) - 1 = i + (name.length + 1 + 1) - 1 := by omega
      have hnext : i + 1 + (name.length + 1) = i + (name.length + 1 + 1) := by omega
      rw [hlast, hnext]

/-- An operator inside a name is found. -/
theorem operatorIndex_found {name : List Char} (hquote : '"' ∉ name)
    (hop : name.any isOperatorChar = true) :
    ∃ k, unquotedOperatorIndexFrom i false (name ++ rest) = some k ∧ k < i + name.length := by
  induction name generalizing i with
  | nil => cases hop
  | cons c name ih =>
    obtain ⟨hc, hname⟩ : '"' ≠ c ∧ '"' ∉ name := by simpa using hquote
    cases hcop : isOperatorChar c with
    | true =>
      have hop' : (c == ':' || c == '=' || c == '>' || c == '<') = true := hcop
      refine ⟨i, ?_, by simp⟩
      rw [List.cons_append, unquotedOperatorIndexFrom, if_neg (by simpa using hc.symm),
        if_neg Bool.false_ne_true, hop', if_pos rfl]
    | false =>
      rw [List.cons_append, operatorIndex_step i _ hc.symm hcop]
      split
      · exact ⟨i, rfl, by simp⟩
      · obtain ⟨k, hk, hlt⟩ := ih (i + 1) hname (by simpa [hcop] using hop)
        refine ⟨k, hk, ?_⟩
        rw [List.length_cons]
        omega

theorem operatorIndex_inQuotes {name : List Char} (h : '"' ∉ name) :
    unquotedOperatorIndexFrom i true (name ++ '"' :: rest) =
      unquotedOperatorIndexFrom (i + name.length + 1) false rest := by
  induction name generalizing i with
  | nil => simp [unquotedOperatorIndexFrom]
  | cons c name ih =>
    obtain ⟨hc, hname⟩ : '"' ≠ c ∧ '"' ∉ name := by simpa using h
    rw [List.cons_append, unquotedOperatorIndexFrom, if_neg (by simpa using hc.symm), if_pos rfl,
      ih (i + 1) hname, List.length_cons]
    congr 1
    omega

theorem operatorIndex_quotedName {n : String} (h : '"' ∉ n.toList) :
    unquotedOperatorIndexFrom i false (quotedName n ++ rest) =
      unquotedOperatorIndexFrom (i + (quotedName n).length) false rest := by
  have hopen : quotedName n ++ rest = '"' :: (n.toList ++ '"' :: rest) := by simp [quotedName]
  rw [hopen, unquotedOperatorIndexFrom, if_pos (by rfl), Bool.not_false,
    operatorIndex_inQuotes _ _ h]
  congr 1
  simp [quotedName]
  omega

/-- The operators in a name that stands unquoted are comparisons. -/
theorem any_isOperatorChar {n : String} (h : hasGrammar n = false) :
    n.toList.any isOperatorChar = hasComparison n := by
  have hno : ∀ c ∈ n.toList, c ≠ ':' ∧ c ≠ '=' := by
    intro c hc
    have := List.any_eq_false.mp h c hc
    simp only [Bool.or_eq_true, beq_iff_eq, not_or] at this
    exact ⟨this.1.1.1.2, this.1.1.2⟩
  rw [hasComparison, h, Bool.not_false, Bool.true_and, Bool.eq_iff_iff, List.any_eq_true,
    List.any_eq_true]
  constructor
  · rintro ⟨c, hc, hop⟩
    refine ⟨c, hc, ?_⟩
    have := hno c hc
    simp only [isOperatorChar, Bool.or_eq_true, beq_iff_eq] at hop ⊢
    tauto
  · rintro ⟨c, hc, hop⟩
    refine ⟨c, hc, ?_⟩
    simp only [isOperatorChar, Bool.or_eq_true, beq_iff_eq] at hop ⊢
    tauto

/-- A name of a proposal is passed over, unless it is unquoted and ends in `!` before `=`. -/
theorem operatorIndex_seg {n : String} (hquote : '"' ∉ n.toList)
    (hcmp : hasComparison n = false) :
    unquotedOperatorIndexFrom i false (seg n ++ rest) =
      if (hasGrammar n = false ∧ n.toList.getLast? = some '!') ∧ rest.head? = some '=' then
        some (i + (seg n).length - 1)
      else unquotedOperatorIndexFrom (i + (seg n).length) false rest := by
  unfold seg
  cases hgrammar : hasGrammar n with
  | true => simp [operatorIndex_quotedName i rest hquote]
  | false =>
    have hop : n.toList.any isOperatorChar = false := (any_isOperatorChar hgrammar).trans hcmp
    rw [if_neg Bool.false_ne_true, operatorIndex_plain i rest hquote hop]
    simp

/-- No name of the way has a comparison outside quotes. -/
def NoComparison (way : List Segment) : Prop := ∀ n, .name n ∈ way → hasComparison n = false

theorem endsInBang_cons {s : Segment} {way : List Segment} (h : way ≠ []) :
    EndsInBang (s :: way) ↔ EndsInBang way := by
  obtain ⟨t, way, rfl⟩ := List.exists_cons_of_ne_nil h
  simp [EndsInBang]

theorem endsInBang_marker {way : List Segment} :
    EndsInBang (.anyElement :: way) ↔ EndsInBang way := by
  cases way with
  | nil => simp [EndsInBang]
  | cons s way => exact endsInBang_cons (List.cons_ne_nil _ _)

theorem endsInBang_name {n : String} :
    EndsInBang [.name n] ↔ hasGrammar n = false ∧ n.toList.getLast? = some '!' := by
  simp [EndsInBang]

/-- What follows a name of a path never begins with an operator's second character. -/
theorem head_appended {way : List Segment} (h : way ≠ []) :
    (appended seg way ++ rest).head? ≠ some '=' := by
  obtain ⟨s, way, rfl⟩ := List.exists_cons_of_ne_nil h
  cases s <;> simp [appended]

open Classical in
/-- A path without comparisons is passed over, unless it ends in `!` before `=`. -/
theorem operatorIndex_appended {way : List Segment} (hunquoted : Unquoted way)
    (hcmp : NoComparison way) :
    unquotedOperatorIndexFrom i false (appended seg way ++ rest) =
      if EndsInBang way ∧ rest.head? = some '=' then
        some (i + (appended seg way).length - 1)
      else unquotedOperatorIndexFrom (i + (appended seg way).length) false rest := by
  induction way generalizing i with
  | nil => simp [appended, EndsInBang]
  | cons s way ih =>
    have hunquoted' : Unquoted way := fun n hn => hunquoted n (List.mem_cons_of_mem _ hn)
    have hcmp' : NoComparison way := fun n hn => hcmp n (List.mem_cons_of_mem _ hn)
    cases s with
    | anyElement =>
      simp only [appended, List.cons_append, endsInBang_marker]
      rw [operatorIndex_step i _ (by decide) (by decide), if_neg (by simp),
        operatorIndex_step _ _ (by decide) (by decide), if_neg (by simp), ih _ hunquoted' hcmp']
      simp only [List.length_cons]
      have hshift : i + 1 + 1 + (appended seg way).length =
          i + ((appended seg way).length + 1 + 1) := by omega
      rw [hshift]
    | name n =>
      have hn := List.mem_cons_self (a := Segment.name n) (l := way)
      simp only [appended, List.cons_append, List.append_assoc]
      rw [operatorIndex_step i _ (by decide) (by decide), if_neg (by simp),
        operatorIndex_seg _ _ (hunquoted n hn) (hcmp n hn)]
      by_cases hway : way = []
      · subst hway
        simp only [appended, List.nil_append, endsInBang_name, List.append_nil, List.length_cons]
        have hshift : i + 1 + (seg n).length = i + ((seg n).length + 1) := by omega
        rw [hshift]
        exact if_congr Iff.rfl rfl rfl
      · rw [if_neg (fun h => head_appended rest hway h.2), ih _ hunquoted' hcmp']
        simp only [endsInBang_cons hway, List.length_cons, List.length_append]
        have hshift : i + 1 + (seg n).length + (appended seg way).length =
            i + ((seg n).length + (appended seg way).length + 1) := by omega
        rw [hshift]

/-- An unquoted comparison in a path is found. -/
theorem operatorIndex_appended_found {way : List Segment} (hunquoted : Unquoted way)
    (hcmp : ¬ NoComparison way) :
    ∃ k, unquotedOperatorIndexFrom i false (appended seg way ++ rest) = some k ∧
      k < i + (appended seg way).length := by
  induction way generalizing i with
  | nil => exact absurd (fun n hn => absurd hn List.not_mem_nil) hcmp
  | cons s way ih =>
    have hunquoted' : Unquoted way := fun n hn => hunquoted n (List.mem_cons_of_mem _ hn)
    cases s with
    | anyElement =>
      have hcmp' : ¬ NoComparison way := by
        intro h
        apply hcmp
        intro n hn
        exact h n (by simpa using hn)
      obtain ⟨k, hk, hlt⟩ := ih (i + 1 + 1) hunquoted' hcmp'
      refine ⟨k, ?_, ?_⟩
      · simp only [appended, List.cons_append]
        rw [operatorIndex_step i _ (by decide) (by decide), if_neg (by simp),
          operatorIndex_step _ _ (by decide) (by decide), if_neg (by simp), hk]
      · simp only [appended, List.length_cons]
        omega
    | name n =>
      have hn : '"' ∉ n.toList := hunquoted n List.mem_cons_self
      simp only [appended, List.cons_append, List.append_assoc, List.length_cons,
        List.length_append]
      rw [operatorIndex_step i _ (by decide) (by decide), if_neg (by simp)]
      cases hcmpn : hasComparison n with
      | true =>
        have hgrammar : hasGrammar n = false := by
          simpa using (Bool.and_eq_true_iff.mp hcmpn).1
        have hseg : seg n = n.toList := by rw [seg, if_neg (by simp [hgrammar])]
        obtain ⟨k, hk, hlt⟩ := operatorIndex_found (i + 1) (appended seg way ++ rest) hn
          ((any_isOperatorChar hgrammar).trans hcmpn)
        rw [hseg]
        exact ⟨k, hk, by omega⟩
      | false =>
        have hcmp' : ¬ NoComparison way := by
          intro h
          apply hcmp
          intro m hm
          rcases List.mem_cons.mp hm with hm | hm
          · cases hm
            exact hcmpn
          · exact h m hm
        have hway : way ≠ [] := by
          rintro rfl
          exact hcmp' (fun m hm => absurd hm List.not_mem_nil)
        obtain ⟨k, hk, hlt⟩ := ih (i + 1 + (seg n).length) hunquoted' hcmp'
        rw [operatorIndex_seg _ _ hn hcmpn, if_neg (fun h => head_appended rest hway h.2), hk]
        exact ⟨k, rfl, by omega⟩

end

theorem operatorIndex_shift (text : List Char) (i : Nat) (inQuotes : Bool) :
    unquotedOperatorIndexFrom (i + 1) inQuotes text =
      (unquotedOperatorIndexFrom i inQuotes text).map (· + 1) := by
  induction text generalizing i inQuotes with
  | nil => rfl
  | cons c text ih =>
    simp only [unquotedOperatorIndexFrom, ih (i + 1)]
    split_ifs <;> rfl

theorem operatorIndex_from (text : List Char) (i : Nat) (inQuotes : Bool) :
    unquotedOperatorIndexFrom i inQuotes text =
      (unquotedOperatorIndexFrom 0 inQuotes text).map (· + i) := by
  induction i with
  | zero => simp
  | succ i ih =>
    rw [operatorIndex_shift, ih, Option.map_map]
    rfl

/-- A path and what stands behind other segments differ in the leading dot only. -/
theorem appended_eq_pathText (way : List Segment) :
    appended seg way = pathText seg way ∨ appended seg way = '.' :: pathText seg way := by
  cases way with
  | nil => exact Or.inl rfl
  | cons s way =>
    cases s with
    | anyElement => exact Or.inl rfl
    | name n => exact Or.inr rfl

section

variable (way : List Segment) (rest : List Char)

theorem operatorIndex_dot (text : List Char) :
    unquotedOperatorIndex ('.' :: text) = (unquotedOperatorIndex text).map (· + 1) := by
  rw [unquotedOperatorIndex, operatorIndex_step 0 _ (by decide) (by decide), if_neg (by simp),
    operatorIndex_shift]
  rfl

/-- Behind a path without comparisons the operator is found where it stands, unless the
    path ends in `!` and the operator is `=`. -/
theorem operatorIndex_path (hunquoted : Unquoted way) (hcmp : NoComparison way)
    (hbang : EndsInBang way → rest.head? ≠ some '=') :
    unquotedOperatorIndex (pathText seg way ++ rest) =
      (unquotedOperatorIndex rest).map (· + (pathText seg way).length) := by
  have happended : unquotedOperatorIndex (appended seg way ++ rest) =
      (unquotedOperatorIndex rest).map (· + (appended seg way).length) := by
    rw [unquotedOperatorIndex, operatorIndex_appended 0 rest hunquoted hcmp,
      if_neg (fun h => hbang h.1 h.2), operatorIndex_from, Nat.zero_add]
    rfl
  rcases appended_eq_pathText way with h | h
  · rwa [h] at happended
  · rw [h, List.cons_append, operatorIndex_dot, List.length_cons] at happended
    apply Option.map_injective (Nat.succ_injective)
    rw [Option.map_map]
    exact happended

/-- Otherwise an operator is found before the end of the path. -/
theorem operatorIndex_path_found (hunquoted : Unquoted way)
    (h : ¬ NoComparison way ∨ (EndsInBang way ∧ rest.head? = some '=')) :
    ∃ k, unquotedOperatorIndex (pathText seg way ++ rest) = some k ∧
      k < (pathText seg way).length := by
  have hne : appended seg way ≠ [] := by
    cases way with
    | nil =>
      rcases h with h | ⟨⟨n, hn, _⟩, _⟩
      · exact absurd (fun n hn => absurd hn List.not_mem_nil) h
      · cases hn
    | cons s way => cases s <;> exact List.cons_ne_nil _ _
  have hpos : 0 < (appended seg way).length := List.length_pos_iff.mpr hne
  have happended : ∃ k, unquotedOperatorIndex (appended seg way ++ rest) = some k ∧
      k < (appended seg way).length := by
    by_cases hcmp : NoComparison way
    · have hbang := h.resolve_left (fun h => h hcmp)
      rw [unquotedOperatorIndex, operatorIndex_appended 0 rest hunquoted hcmp, if_pos hbang]
      exact ⟨_, rfl, by omega⟩
    · obtain ⟨k, hk, hlt⟩ := operatorIndex_appended_found 0 rest hunquoted hcmp
      exact ⟨k, hk, by omega⟩
  obtain ⟨k, hk, hlt⟩ := happended
  rcases appended_eq_pathText way with heq | heq
  · rw [heq] at hk hlt
    exact ⟨k, hk, hlt⟩
  · rw [heq, List.cons_append, operatorIndex_dot] at hk
    obtain ⟨j, hj, rfl⟩ := Option.map_eq_some_iff.mp hk
    rw [heq, List.length_cons] at hlt
    exact ⟨j, hj, by omega⟩

end

/-! ### Reading a proposal with its operator and query -/

/-- The operators that follow a path. -/
inductive FieldOp where
  | contains
  | eq
  | neq
  | gt
  | gte
  | lt
  | lte
deriving DecidableEq, Repr

def FieldOp.text : FieldOp → String
  | .contains => ":"
  | .eq => "="
  | .neq => "!="
  | .gt => ">"
  | .gte => ">="
  | .lt => "<"
  | .lte => "<="

def FieldOp.filter : FieldOp → TimelineFilterKind
  | .contains => .jsonContains
  | .eq => .jsonEq
  | .neq => .jsonNeq
  | _ => .jsonCmp

def FieldOp.cmp : FieldOp → Option CmpOpWire
  | .gt => some .gt
  | .gte => some .gte
  | .lt => some .lt
  | .lte => some .lte
  | _ => none

/-- Only `=` begins with `=`. -/
theorem FieldOp.head_text (op : FieldOp) (q : List Char) :
    (op.text.toList ++ q).head? = some '=' ↔ op = .eq := by
  cases op <;> simp [FieldOp.text]

theorem FieldOp.index_text (op : FieldOp) (q : List Char) :
    unquotedOperatorIndex (op.text.toList ++ q) = some 0 := by
  cases op <;> simp [FieldOp.text, unquotedOperatorIndex, unquotedOperatorIndexFrom]

/-- What the text library documents: a parser builds objects with distinct keys, and
    lower-case ASCII at the front of a text stays when the text is lower-cased. -/
structure StandardText (env : TextEnv) : Prop where
  distinct : ∀ text root, env.parse text = some root → root.DistinctKeys
  keeps : ∀ front rest : List Char, (∀ c ∈ front, c.toNat < 128 ∧ ¬ c.isUpper) →
    ∃ lowered, (env.toLowercase (String.ofList (front ++ rest))).toList = front ++ lowered ∧
      (rest = [] → lowered = [])

section

variable {env : TextEnv}

/-- Behind `value.` the text is a field query. -/
theorem parseFilterQuery_field (henv : StandardText env) (rest : List Char) :
    parseFilterQuery env (String.ofList ("value.".toList ++ rest)) =
      (parseFieldQuery env rest).getD
        (applyContains env (String.ofList ("value.".toList ++ rest))) := by
  have hascii : ∀ c ∈ "value.".toList, c.toNat < 128 ∧ ¬ c.isUpper := by simp
  have hkeeps : ∀ n, n ≤ 6 → env.toLowercase (String.ofList ("value.".toList.take n)) =
      String.ofList ("value.".toList.take n) := by
    intro n hn
    obtain ⟨lowered, heq, hnil⟩ :=
      henv.keeps ("value.".toList.take n) [] (fun c hc => hascii c (List.mem_of_mem_take hc))
    rw [hnil rfl, List.append_nil] at heq
    rw [← String.ofList_toList (s := env.toLowercase _), heq]
  -- the first four, five and six characters are those of `value.`
  have hfront : ∀ op : String, op.length ≤ 6 →
      prefixIs env ("value.".toList ++ rest) op =
        ("value.".toList.take op.length == op.toList) := by
    intro op hop
    have htake : ("value.".toList ++ rest).take op.length = "value.".toList.take op.length :=
      List.take_append_of_le_length hop
    rw [prefixIs, htake, hkeeps _ hop, Bool.eq_iff_iff, beq_iff_eq, beq_iff_eq,
      ← String.toList_inj, String.toList_ofList]
  have hneq : prefixIs env ("value.".toList ++ rest) "value!=" = false := by
    have htake : ("value.".toList ++ rest).take "value!=".length =
        "value.".toList ++ rest.take 1 := by
      rw [List.take_append]
      rfl
    obtain ⟨lowered, heq, _⟩ := henv.keeps "value.".toList (rest.take 1) hascii
    rw [prefixIs, htake]
    apply beq_eq_false_iff_ne.mpr
    intro h
    rw [h] at heq
    exact absurd heq (by simp)
  have htext : (String.ofList ("value.".toList ++ rest)).toList = "value.".toList ++ rest :=
    String.toList_ofList
  have hquoted : quoted ("value.".toList ++ rest) = none := rfl
  rw [parseFilterQuery, htext, if_neg (by simp), hquoted]
  simp only [parseUnquoted, keywordCmp]
  rw [hfront "key:" (by decide), hfront "key=" (by decide), hfront "key!=" (by decide),
    hfront "key>" (by decide), hfront "key<" (by decide), hfront "value:" (by decide),
    hfront "value=" (by decide), hneq, hfront "value>" (by decide),
    hfront "value<" (by decide), hfront "value." (by decide)]
  rfl

/-- The path of a field query ends where the operator is found. -/
theorem parseFieldQuery_path {rest : List Char} {parsed : ParsedFilterQuery}
    (h : parseFieldQuery env rest = some parsed) :
    ∃ k api, unquotedOperatorIndex rest = some k ∧ parsed.api = some api ∧
      api.path = some (String.ofList (rest.take k)) := by
  unfold parseFieldQuery at h
  cases hidx : unquotedOperatorIndex rest with
  | none => simp [hidx] at h
  | some k =>
    cases k with
    | zero => simp [hidx] at h
    | succ k =>
      simp only [hidx] at h
      split at h
      · cases h
        exact ⟨_, _, rfl, rfl, rfl⟩
      · cases h
        exact ⟨_, _, rfl, rfl, rfl⟩
      · cases h
        exact ⟨_, _, rfl, rfl, rfl⟩
      · obtain ⟨c, _, rfl⟩ := Option.map_eq_some_iff.mp h
        exact ⟨_, _, rfl, rfl, rfl⟩

/-- An operator that is found where the path ends is read as itself. -/
theorem parseFieldQuery_op (op : FieldOp) {path q : List Char} (hpath : path ≠ [])
    (hq : q.head? ≠ some '=')
    (hidx : unquotedOperatorIndex (path ++ (op.text.toList ++ q)) = some path.length) :
    ∃ parsed, parseFieldQuery env (path ++ (op.text.toList ++ q)) = some parsed ∧
      parsed.api = some ⟨op.filter, String.ofList q, some (String.ofList path), op.cmp⟩ := by
  obtain ⟨k, hk⟩ := Nat.exists_eq_succ_of_ne_zero (mt List.length_eq_zero_iff.mp hpath)
  have htake : (path ++ (op.text.toList ++ q)).take (k + 1) = path := by
    rw [← Nat.succ_eq_add_one, ← hk, List.take_left]
  have hdrop : (path ++ (op.text.toList ++ q)).drop (k + 1) = op.text.toList ++ q := by
    rw [← Nat.succ_eq_add_one, ← hk, List.drop_left]
  have hdrops : ∀ n, (path ++ (op.text.toList ++ q)).drop (k + 1 + n) =
      (op.text.toList ++ q).drop n := by
    intro n
    rw [← List.drop_drop, hdrop]
  have hidx' : unquotedOperatorIndex (path ++ (op.text.toList ++ q)) = some (k + 1) := by
    rw [hidx, hk]
  unfold parseFieldQuery
  rw [hidx']
  simp only [hdrop, htake, sliceFrom, cmpAt, hdrops]
  cases op with
  | contains => exact ⟨_, rfl, rfl⟩
  | eq => exact ⟨_, rfl, rfl⟩
  | neq => exact ⟨_, rfl, rfl⟩
  | gte => exact ⟨_, rfl, rfl⟩
  | lte => exact ⟨_, rfl, rfl⟩
  | gt =>
    have hq' : ∀ more, q ≠ '=' :: more := by
      rintro more rfl
      exact hq rfl
    -- `hq'` rules out the two-character form
    simp [FieldOp.text, FieldOp.filter, FieldOp.cmp]
  | lt =>
    have hq' : ∀ more, q ≠ '=' :: more := by
      rintro more rfl
      exact hq rfl
    -- `hq'` rules out the two-character form
    simp [FieldOp.text, FieldOp.filter, FieldOp.cmp]

/-! ### Proposals that can be used -/

/-- The proposal with an operator and a query is a filter on its path with the operator. -/
def ReadsAs (env : TextEnv) (path : String) (op : FieldOp) (q : String) : Prop :=
  ∃ api, (parseFilterQuery env ("value." ++ path ++ op.text ++ q)).api = some api ∧
    api.filter = op.filter ∧ api.path = some path ∧ api.op = op.cmp

/-- Some node that the path reaches is a scalar. -/
def ReachesScalar (root : Json) (path : String) : Prop :=
  ∃ v, .json v ∈ pathCandidates root path ∧ isScalar v = true

/-- A proposal does what it is shown for: it can be typed on, and finds a scalar. -/
def Usable (env : TextEnv) (root : Json) (path : String) : Prop :=
  (∀ op q, q.toList.head? ≠ some '=' → ReadsAs env path op q) ∧ ReachesScalar root path

/-- A way whose text reads back as the way. -/
def Typeable (way : List Segment) : Prop :=
  way.head? ≠ some (.name "") ∧ ¬ HidesName way ∧ NoComparison way ∧ ¬ EndsInBang way

/-- Without the empty names that its text does not show, the way reaches a scalar too. -/
def ReachesBeside (root : Json) (way : List Segment) : Prop :=
  ∃ v, .json v ∈ walk (legible (withoutEmpty way)) (.json root) ∧ isScalar v = true

theorem typed_text (path : List Char) (op : FieldOp) (q : String) :
    "value." ++ String.ofList path ++ op.text ++ q =
      String.ofList ("value.".toList ++ (path ++ (op.text.toList ++ q.toList))) := by
  simp [← String.toList_inj]

theorem noComparison_withoutEmpty (way : List Segment) :
    NoComparison (withoutEmpty way) ↔ NoComparison way := by
  constructor
  · intro h n hn
    rw [← List.takeWhile_append_dropWhile (p := (· == .name "")) (l := way)] at hn
    rcases List.mem_append.mp hn with hn | hn
    · obtain rfl : n = "" := by simpa using List.mem_takeWhile_imp hn
      decide
    · exact h n hn
  · exact fun h n hn => h n (List.dropWhile_subset _ hn)

theorem endsInBang_withoutEmpty {way : List Segment} (hne : withoutEmpty way ≠ []) :
    EndsInBang (withoutEmpty way) ↔ EndsInBang way := by
  have hlast : (withoutEmpty way).getLast? = way.getLast? := by
    conv_rhs => rw [← List.takeWhile_append_dropWhile (p := (· == .name "")) (l := way)]
    exact (List.getLast?_append_of_ne_nil _ hne).symm
  rw [EndsInBang, EndsInBang, hlast]

/-- Where an operator is found inside the path, the proposal is cut there. -/
theorem not_reads_of_found (henv : StandardText env) {path : List Char} {op : FieldOp} {q : String}
    {k : Nat} (hidx : unquotedOperatorIndex (path ++ (op.text.toList ++ q.toList)) = some k)
    (hk : k < path.length) :
    ¬ ReadsAs env (String.ofList path) op q := by
  rintro ⟨api, hapi, _, hpath, _⟩
  rw [typed_text, parseFilterQuery_field henv] at hapi
  cases hparsed : parseFieldQuery env (path ++ (op.text.toList ++ q.toList)) with
  | none =>
    rw [hparsed, Option.getD_none, applyContains] at hapi
    cases hapi
    cases hpath
  | some parsed =>
    obtain ⟨j, api', hj, hapi', hpath'⟩ := parseFieldQuery_path hparsed
    rw [hparsed, Option.getD_some, hapi', Option.some.injEq] at hapi
    subst hapi
    obtain rfl : k = j := by simpa [hidx] using hj
    rw [hpath, Option.some.injEq, String.ofList_inj,
      List.take_append_of_le_length (Nat.le_of_lt hk)] at hpath'
    have := congrArg List.length hpath'
    rw [List.length_take] at this
    omega

/-- With an operator and a query behind it the text of a way is read as its path exactly when
    no operator is found in it, and no `!=` is made of its end. -/
theorem reads_iff (henv : StandardText env) {way : List Segment} (hunquoted : Unquoted way)
    (hne : fieldText [] way ≠ []) :
    (∀ op q, q.toList.head? ≠ some '=' → ReadsAs env (String.ofList (fieldText [] way)) op q) ↔
      NoComparison way ∧ ¬ EndsInBang way := by
  have hwithout := withoutEmpty_ne_nil hne
  have hquote : Unquoted (withoutEmpty way) :=
    fun n hn => hunquoted n (List.dropWhile_subset _ hn)
  rw [← noComparison_withoutEmpty, ← endsInBang_withoutEmpty hwithout]
  constructor
  · intro h
    have hfound : ∀ op : FieldOp, ¬ (¬ NoComparison (withoutEmpty way) ∨
        (EndsInBang (withoutEmpty way) ∧ op = .eq)) := by
      intro op hor
      obtain ⟨k, hk, hlt⟩ := operatorIndex_path_found (withoutEmpty way)
        (op.text.toList ++ "".toList) hquote (by rwa [op.head_text])
      rw [← fieldText_eq] at hk hlt
      exact not_reads_of_found henv hk hlt (h op "" (by simp))
    constructor
    · by_contra hcmp
      exact hfound .contains (Or.inl hcmp)
    · intro hbang
      exact hfound .eq (Or.inr ⟨hbang, rfl⟩)
  · rintro ⟨hcmp, hbang⟩ op q hq
    have hidx : unquotedOperatorIndex (fieldText [] way ++ (op.text.toList ++ q.toList)) =
        some (fieldText [] way).length := by
      rw [fieldText_eq, operatorIndex_path (withoutEmpty way) _ hquote hcmp
        (fun h => absurd h hbang), FieldOp.index_text]
      simp
    obtain ⟨parsed, hparsed, hapi⟩ := @parseFieldQuery_op env op _ _ hne hq hidx
    have hread : (parseFilterQuery env
        ("value." ++ String.ofList (fieldText [] way) ++ op.text ++ q)).api =
        some ⟨op.filter, String.ofList q.toList, some (String.ofList (fieldText [] way)),
          op.cmp⟩ := by
      rw [typed_text, parseFilterQuery_field henv, hparsed, Option.getD_some, hapi]
    exact ⟨_, hread, rfl, rfl, rfl⟩

end

/-! ### Values along a way -/

/-- The least value in which a way leads to a scalar. -/
def valueAlong : List Segment → Json
  | [] => .null
  | .anyElement :: way => .array [valueAlong way]
  | .name n :: way => .object [(n, valueAlong way)]

theorem leadsTo_valueAlong {way : List Segment} (h : Unquoted way) :
    LeadsTo way (valueAlong way) := by
  induction way with
  | nil => exact .scalar rfl
  | cons s way ih =>
    have hway : Unquoted way := fun n hn => h n (List.mem_cons_of_mem _ hn)
    cases s with
    | anyElement => exact .first (ih hway)
    | name n => exact .member List.mem_cons_self (h n List.mem_cons_self) (ih hway)

theorem distinct_valueAlong (way : List Segment) : (valueAlong way).DistinctKeys := by
  induction way with
  | nil => trivial
  | cons s way ih =>
    cases s with
    | anyElement => exact ⟨ih, trivial⟩
    | name n => exact ⟨List.nodup_singleton n, ih, trivial⟩

/-- With a hidden name, the legible rest of a way leads nowhere in its least value. -/
theorem walk_valueAlong {way : List Segment} (h : HidesName way) :
    walk (legible way) (.json (valueAlong way)) = [] := by
  induction way with
  | nil => exact absurd h id
  | cons s way ih =>
    rw [legible]
    by_cases hhidden : s = .name "" ∧ way.head? = some .anyElement
    · obtain ⟨rfl, hhead⟩ := hhidden
      obtain ⟨way, rfl⟩ := List.head?_eq_some_iff.mp hhead
      rw [if_pos ⟨rfl, hhead⟩, legible_marker]
      rfl
    · have hway : HidesName way := h.resolve_left hhidden
      rw [if_neg hhidden]
      cases s with
      | anyElement => simp [walk, valueAlong, ih hway]
      | name n => simp [walk, valueAlong, member, ih hway]

/-- A value in which a way that begins with an empty name leads to a scalar, and the rest
    of the way, taken from the root, does not. -/
def valueBeside (way : List Segment) : Json :=
  .object (("", valueAlong way.tail) ::
    match (withoutEmpty way).head? with
    | some (.name n) => [(n, .array [])]
    | _ => [])

theorem leadsTo_valueBeside {way : List Segment} (h : Unquoted (.name "" :: way)) :
    LeadsTo (.name "" :: way) (valueBeside (.name "" :: way)) :=
  .member List.mem_cons_self (h "" List.mem_cons_self)
    (leadsTo_valueAlong fun n hn => h n (List.mem_cons_of_mem _ hn))

theorem distinct_valueBeside (way : List Segment) : (valueBeside way).DistinctKeys := by
  have hhead := head_withoutEmpty way
  unfold valueBeside
  cases hfirst : (withoutEmpty way).head? with
  | none => exact ⟨List.nodup_singleton "", distinct_valueAlong _, trivial⟩
  | some s =>
    cases s with
    | anyElement => exact ⟨List.nodup_singleton "", distinct_valueAlong _, trivial⟩
    | name n =>
      have hn : "" ≠ n := by
        rintro rfl
        exact hhead hfirst
      exact ⟨by simpa using hn, distinct_valueAlong _, trivial, trivial⟩

theorem walk_array_nil (segments : List Segment) {v : Json}
    (h : .json v ∈ walk segments (.json (.array []))) : isScalar v = false := by
  cases segments with
  | nil =>
    obtain rfl : v = .array [] := by simpa [walk] using h
    rfl
  | cons s segments => cases s <;> simp [walk] at h

theorem walk_valueBeside (way : List Segment) {v : Json}
    (h : .json v ∈ walk (legible (withoutEmpty way)) (.json (valueBeside way))) :
    isScalar v = false := by
  have hhead := head_withoutEmpty way
  unfold valueBeside at h
  cases hrest : withoutEmpty way with
  | nil =>
    rw [hrest] at h
    obtain rfl := by simpa [walk] using h
    rfl
  | cons s rest =>
    rw [hrest] at h hhead
    cases s with
    | anyElement => simp [walk] at h
    | name n =>
      have hn : n ≠ "" := by simpa using hhead
      have hmember : member [("", valueAlong way.tail), (n, .array [])] n =
          some (.json (.array [])) := by
        simp [member, hn.symm]
      rw [legible, if_neg (by simp [hn]), walk, List.head?_cons] at h
      simp only [hmember] at h
      exact walk_array_nil _ h

/-- A way that is taken in a value reaches a scalar there. -/
theorem walk_leadsTo {way : List Segment} {root : Json} (h : LeadsTo way root)
    (hdistinct : root.DistinctKeys) :
    ∃ v, .json v ∈ walk way (.json root) ∧ isScalar v = true := by
  induction h with
  | scalar h => exact ⟨_, List.mem_singleton_self _, h⟩
  | first _ ih =>
    obtain ⟨v, hv, hscalar⟩ := ih hdistinct.1
    exact ⟨v, List.mem_flatMap.mpr ⟨_, List.mem_cons_self, hv⟩, hscalar⟩
  | @member way n v members hmem _ _ ih =>
    obtain ⟨hnodup, hvalues⟩ := hdistinct
    obtain ⟨w, hw, hscalar⟩ := ih (Json.everyObjectMembers_iff.mp hvalues (n, v) hmem)
    have hfind := find?_of_distinct hnodup hmem
    refine ⟨w, ?_, hscalar⟩
    simpa [walk, member, hfind] using hw

/-! ### What is proposed, and what can be used -/

/-- A way whose text is proposed for the values in which it leads to a scalar. -/
def Proposable (maxDepth : Nat) (way : List Segment) : Prop :=
  Unquoted way ∧ way.length ≤ maxDepth ∧ fieldText [] way ≠ []

theorem mem_proposals {env : TextEnv} {m : MessageOut} {text : String} {root : Json}
    (htext : valueText m = some text) (hroot : env.parse text = some root)
    {maxRows : Nat} (hrows : 0 < maxRows) (maxDepth : Nat) (path : String) :
    path ∈ extractFieldPaths env [m] maxRows maxDepth ↔
      ∃ way, Proposable maxDepth way ∧ LeadsTo way root ∧
        path = String.ofList (fieldText [] way) := by
  rw [mem_extractFieldPaths htext hroot hrows, mem_walkFields]
  constructor
  · rintro ⟨way, hway, hlength, hne, hpath⟩
    exact ⟨way, ⟨hway.unquoted, hlength, hne⟩, hway, hpath⟩
  · rintro ⟨way, ⟨_, hlength, hne⟩, hway, hpath⟩
    exact ⟨way, hway, hlength, hne, hpath⟩

section

variable {env : TextEnv} {way : List Segment}

theorem usable_iff (henv : StandardText env) (hunquoted : Unquoted way)
    (hne : fieldText [] way ≠ []) (root : Json) :
    Usable env root (String.ofList (fieldText [] way)) ↔
      NoComparison way ∧ ¬ EndsInBang way ∧ ReachesBeside root way := by
  rw [Usable, reads_iff henv hunquoted hne, ReachesScalar, pathCandidates,
    splitPath_fieldText hunquoted hne, ReachesBeside, and_assoc]

/-- A way without such names is the way its text shows. -/
theorem reachesBeside_of_leadsTo (hhead : way.head? ≠ some (.name "")) (hhides : ¬ HidesName way)
    {root : Json} (hroot : root.DistinctKeys) (hleads : LeadsTo way root) :
    ReachesBeside root way := by
  rw [ReachesBeside, withoutEmpty, List.dropWhile_beq_eq_self_of_head?_ne hhead, legible_eq hhides]
  exact walk_leadsTo hleads hroot

/-- A way that does not read back has a value in which its proposal cannot be used. -/
theorem typeable_of_usable (henv : StandardText env) (hunquoted : Unquoted way)
    (hne : fieldText [] way ≠ [])
    (h : ∀ root : Json, root.DistinctKeys → LeadsTo way root →
      Usable env root (String.ofList (fieldText [] way))) :
    Typeable way := by
  have halong := h _ (distinct_valueAlong way) (leadsTo_valueAlong hunquoted)
  rw [usable_iff henv hunquoted hne] at halong
  obtain ⟨hcmp, hbang, v, hv, _⟩ := halong
  have hhead : way.head? ≠ some (.name "") := by
    intro hhead
    obtain ⟨rest, rfl⟩ := List.head?_eq_some_iff.mp hhead
    have hbeside := h _ (distinct_valueBeside _) (leadsTo_valueBeside hunquoted)
    rw [usable_iff henv hunquoted hne] at hbeside
    obtain ⟨_, _, v, hv, hscalar⟩ := hbeside
    rw [walk_valueBeside _ hv] at hscalar
    cases hscalar
  refine ⟨hhead, ?_, hcmp, hbang⟩
  intro hhides
  rw [withoutEmpty, List.dropWhile_beq_eq_self_of_head?_ne hhead, walk_valueAlong hhides] at hv
  cases hv

end

/-- The proposals of a message are the texts of the ways to the scalars of its value.  The
    text of a way can be used in every value that the way leads to a scalar in exactly when
    no unquoted name of the way has a comparison in it, it does not end in an unquoted `!`,
    and no empty name stands in front or before a marker.  Without such empty names this is
    so in each value alone. -/
theorem proposals_usable_iff_typeable {env : TextEnv} (henv : StandardText env) :
    (∀ (m : MessageOut) (text : String) (root : Json), valueText m = some text →
      env.parse text = some root → root.DistinctKeys ∧
        ∀ path, path ∈ extractFieldPaths env [m] 200 6 ↔
          ∃ way, Proposable 6 way ∧ LeadsTo way root ∧
            path = String.ofList (fieldText [] way)) ∧
      ∀ way, Proposable 6 way →
        ((∀ root : Json, root.DistinctKeys → LeadsTo way root →
          Usable env root (String.ofList (fieldText [] way))) ↔ Typeable way) ∧
        (way.head? ≠ some (.name "") → ¬ HidesName way →
          ∀ root : Json, root.DistinctKeys → LeadsTo way root →
            (Usable env root (String.ofList (fieldText [] way)) ↔
              NoComparison way ∧ ¬ EndsInBang way)) := by
  constructor
  · intro m text root htext hroot
    exact ⟨henv.distinct text root hroot, mem_proposals htext hroot (by decide) 6⟩
  · rintro way ⟨hunquoted, _, hne⟩
    have hvalue : way.head? ≠ some (.name "") → ¬ HidesName way →
        ∀ root : Json, root.DistinctKeys → LeadsTo way root →
          (Usable env root (String.ofList (fieldText [] way)) ↔
            NoComparison way ∧ ¬ EndsInBang way) := by
      intro hhead hhides root hroot hleads
      rw [usable_iff henv hunquoted hne, ← and_assoc]
      exact and_iff_left (reachesBeside_of_leadsTo hhead hhides hroot hleads)
    refine ⟨⟨typeable_of_usable henv hunquoted hne, ?_⟩, hvalue⟩
    rintro ⟨hhead, hhides, hcmp, hbang⟩ root hroot hleads
    exact (hvalue hhead hhides root hroot hleads).mpr ⟨hcmp, hbang⟩

/-- The text of an object with the field `a<b`. -/
def lessText : String := "\x7b\"a<b\":true\x7d"

def lessEnv : TextEnv where
  parse text := if text = lessText then some (.object [("a<b", .bool true)]) else none
  toLowercase text := String.ofList (text.toList.map Char.toLower)

def lessMessage : MessageOut := ⟨0, 0, none, none, some ⟨.json, lessText, none, none⟩, []⟩

theorem standardText_lessEnv : StandardText lessEnv where
  distinct := by
    intro text root h
    simp only [lessEnv] at h
    split at h
    · cases h
      exact ⟨List.nodup_singleton _, trivial, trivial⟩
    · cases h
  keeps := by
    intro front rest hfront
    have hsame : front.map Char.toLower = front := by
      rw [List.map_congr_left (g := id), List.map_id]
      intro c hc
      have hupper : ¬ (c.val ≥ 'A'.val ∧ c.val ≤ 'Z'.val) := fun h =>
        (hfront c hc).2 (decide_eq_true h)
      exact dif_neg hupper
    refine ⟨rest.map Char.toLower, ?_, ?_⟩
    · simp [lessEnv, hsame]
    · rintro rfl
      rfl

/-- A name with a dot in it is quoted, and so its proposal can be used. -/
theorem dotted_proposal_usable :
    Usable lessEnv (.object [("a.b", .bool true)]) "\"a.b\"" :=
  have hway : Proposable 6 [.name "a.b"] := by
    refine ⟨?_, by decide, by decide⟩
    intro n hn
    obtain rfl : n = "a.b" := by simpa using hn
    decide
  have htypeable : Typeable [.name "a.b"] := by
    refine ⟨by decide, by decide, ?_, ?_⟩
    · intro n hn
      obtain rfl : n = "a.b" := by simpa using hn
      decide
    · rintro ⟨n, hn, hgrammar, _⟩
      obtain rfl : "a.b" = n := by simpa using hn
      revert hgrammar
      decide
  ((proposals_usable_iff_typeable standardText_lessEnv).2 _ hway).1.mpr htypeable _
    ⟨List.nodup_singleton _, trivial, trivial⟩
    (.member List.mem_cons_self (by decide) (.scalar rfl))

/-- The field `a<b` is proposed unquoted, and with `=` behind it the text is read as a
    comparison of the field `a`. -/
theorem less_than_proposal_cut :
    "a<b" ∈ extractFieldPaths lessEnv [lessMessage] 200 6 ∧
      ¬ ReadsAs lessEnv "a<b" .eq "true" := by
  have hread : (parseFilterQuery lessEnv ("value." ++ "a<b" ++ FieldOp.text .eq ++ "true")).api =
      some ⟨.jsonCmp, "b=true", some "a", some .lt⟩ := by decide
  refine ⟨by decide, ?_⟩
  rintro ⟨api, hapi, hfilter, _⟩
  rw [hread, Option.some.injEq] at hapi
  subst hapi
  cases hfilter

end Arne.Client
