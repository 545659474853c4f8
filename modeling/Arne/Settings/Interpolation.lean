import Mathlib.Data.List.Basic
import Mathlib.Data.List.Forall2
import Mathlib.Data.List.Infix

/-!
# Environment references in a configuration (`config.rs`)

`${VAR}` stands for the value of an environment variable.  The text of a configuration is
interpolated line by line before it is parsed, and of each line only what stands before its
comment.  Where a comment starts is told by a scanner that follows the quotes of the line.

Texts are lists of characters, and a position is a number of characters.  The variables that
were looked up are recorded.
-/

namespace Arne.Settings

inductive ConfigError where
  | io (path error : String)
  | parse (error : String)
  | missingEnvVar (var : String)
  | unclosedInterpolation
  | invalid (message : String)
deriving DecidableEq, Repr

def ConfigError.message : ConfigError → String
  | .io path error => s!"cannot read config file {path}: {error}"
  | .parse error => s!"config parse error: {error}"
  | .missingEnvVar var => s!"environment variable '{var}' referenced in config is not set"
  | .unclosedInterpolation => "unclosed $\x7b...\x7d in config"
  | .invalid message => s!"invalid config: {message}"

/-- `char::is_whitespace`. -/
def isWhitespace (c : Char) : Bool :=
  let n := c.toNat
  (9 ≤ n && n ≤ 13) || n == 0x20 || n == 0x85 || n == 0xa0 || n == 0x1680 ||
    (0x2000 ≤ n && n ≤ 0x200a) || n == 0x2028 || n == 0x2029 || n == 0x202f || n == 0x205f ||
    n == 0x3000

/-! ### Where a comment starts -/

def canOpenQuote (prevWasSpace : Bool) (lastNonWs : Option Char) : Bool :=
  match lastNonWs with
  | none => true
  | some c =>
    if prevWasSpace then [':', '-', ',', '[', '{'].contains c
    else ['[', '{', ','].contains c

/-- The loop of `find_comment_start`: how many more characters stand before the comment. -/
def findCommentStartFrom (inSingle inDouble prevWasSpace : Bool) (lastNonWs : Option Char) :
    List Char → Nat
  | [] => 0
  | ch :: rest =>
    let space := isWhitespace ch
    let last := if space then lastNonWs else some ch
    if inSingle then
      if ch = '\'' then
        match rest with
        -- a doubled quote stays inside the string
        | '\'' :: rest => findCommentStartFrom true inDouble space last rest + 2
        | rest => findCommentStartFrom false inDouble space last rest + 1
      else findCommentStartFrom true inDouble space last rest + 1
    else if inDouble then
      if ch = '\\' then
        match rest with
        | _ :: rest => findCommentStartFrom false true space last rest + 2
        | [] => 1
      else if ch = '"' then findCommentStartFrom false false space last rest + 1
      else findCommentStartFrom false true space last rest + 1
    else if ch = '\'' ∧ canOpenQuote prevWasSpace lastNonWs then
      findCommentStartFrom true false space last rest + 1
    else if ch = '"' ∧ canOpenQuote prevWasSpace lastNonWs then
      findCommentStartFrom false true space last rest + 1
    else if ch = '#' ∧ prevWasSpace then 0
    else findCommentStartFrom false false space last rest + 1

/-- The start of a line counts as preceded by whitespace. -/
def findCommentStart (line : List Char) : Nat := findCommentStartFrom false false true none line

/-- The scanner stops at a `#`, or reads the whole line. -/
theorem findCommentStartFrom_spec (inSingle inDouble prevWasSpace : Bool) (last : Option Char)
    (cs : List Char) :
    findCommentStartFrom inSingle inDouble prevWasSpace last cs = cs.length ∨
      cs[findCommentStartFrom inSingle inDouble prevWasSpace last cs]? = some '#' := by
  fun_induction findCommentStartFrom inSingle inDouble prevWasSpace last cs
  all_goals simp_all

theorem findCommentStart_spec (cs : List Char) :
    findCommentStart cs = cs.length ∨ cs[findCommentStart cs]? = some '#' :=
  findCommentStartFrom_spec false false true none cs

theorem findCommentStart_of_noHash {line : List Char} (h : '#' ∉ line) :
    findCommentStart line = line.length := by
  rcases findCommentStart_spec line with hend | hhash
  · exact hend
  · exact absurd (List.mem_of_getElem? hhash) h

/-! ### References -/

/-- `find("${")`: the text before the first opening, and the text behind it. -/
def findOpening : List Char → Option (List Char × List Char)
  | [] => none
  | c :: rest =>
    if c = '$' ∧ rest.head? = some '{' then some ([], rest.tail)
    else (findOpening rest).map fun p => (c :: p.1, p.2)

/-- `find('}')`. -/
def findClosing : List Char → Option (List Char × List Char)
  | [] => none
  | c :: rest =>
    if c = '}' then some ([], rest)
    else (findClosing rest).map fun p => (c :: p.1, p.2)

theorem length_findOpening {raw before after : List Char}
    (h : findOpening raw = some (before, after)) : after.length + 2 ≤ raw.length := by
  induction raw generalizing before with
  | nil => cases h
  | cons c rest ih =>
    unfold findOpening at h
    split at h
    · rename_i hopen
      cases h
      cases rest with
      | nil => cases hopen.2
      | cons d rest => simp
    · obtain ⟨⟨before', after'⟩, hfind, heq⟩ := Option.map_eq_some_iff.mp h
      cases heq
      have := ih hfind
      rw [List.length_cons]
      omega

theorem length_findClosing {raw before after : List Char}
    (h : findClosing raw = some (before, after)) : after.length < raw.length := by
  induction raw generalizing before with
  | nil => cases h
  | cons c rest ih =>
    unfold findClosing at h
    split at h
    · cases h
      simp
    · obtain ⟨⟨before', after'⟩, hfind, heq⟩ := Option.map_eq_some_iff.mp h
      cases heq
      have := ih hfind
      rw [List.length_cons]
      omega

/-- A computation that looks up variables: its state are those it has looked up. -/
abbrev Asking (α : Type) := ExceptT ConfigError (StateM (List String)) α

def ask (lookup : String → Option String) (var : String) : Asking (Option String) := do
  modify (· ++ [var])
  return lookup var

def interpolate (lookup : String → Option String) (raw : List Char) : Asking (List Char) :=
  match _hopen : findOpening raw with
  | none => return raw
  | some (before, after) =>
    match _hclose : findClosing after with
    | none => throw .unclosedInterpolation
    | some (var, rest) => do
      match ← ask lookup (String.ofList var) with
      | none => throw (.missingEnvVar (String.ofList var))
      | some val =>
        let out ← interpolate lookup rest
        return before ++ val.toList ++ out
termination_by raw.length
decreasing_by
  have := length_findOpening ‹findOpening raw = _›
  have := length_findClosing ‹findClosing after = _›
  omega

def interpolateLines (lookup : String → Option String) : List (List Char) → Asking (List Char)
  | [] => return []
  | line :: lines => do
    let (code, comment) := line.splitAt (findCommentStart line)
    let out ← interpolate lookup code
    let rest ← interpolateLines lookup lines
    return out ++ comment ++ (if lines.isEmpty then [] else ['\n']) ++ rest

def interpolateOutsideComments (lookup : String → Option String) (raw : List Char) :
    Asking (List Char) :=
  interpolateLines lookup (raw.splitOn '\n')

/-! ### What a code part says -/

/-- No reference is opened in the text. -/
def NoReference (text : List Char) : Prop := ¬ ['$', '{'] <:+: text

theorem noReference_nil : NoReference [] := by
  intro h
  cases List.infix_nil.mp h

theorem noReference_cons_iff {c : Char} {text : List Char} :
    NoReference (c :: text) ↔ ¬ (c = '$' ∧ text.head? = some '{') ∧ NoReference text := by
  have hfront : ['$', '{'] <+: c :: text ↔ c = '$' ∧ text.head? = some '{' := by
    cases text with
    | nil => simp [List.cons_prefix_cons]
    | cons d text => simp [List.cons_prefix_cons, eq_comm]
  rw [NoReference, List.infix_cons_iff, hfront, not_or]
  rfl

theorem findOpening_eq_none_iff {raw : List Char} : findOpening raw = none ↔ NoReference raw := by
  induction raw with
  | nil => exact ⟨fun _ => noReference_nil, fun _ => rfl⟩
  | cons c rest ih =>
    rw [noReference_cons_iff, findOpening]
    split
    · rename_i hopen
      exact ⟨nofun, fun h => absurd hopen h.1⟩
    · rename_i hopen
      rw [Option.map_eq_none_iff, ih]
      exact ⟨fun h => ⟨hopen, h⟩, And.right⟩

theorem findOpening_append {before : List Char} (h : NoReference before) (after : List Char) :
    findOpening (before ++ '$' :: '{' :: after) = some (before, after) := by
  induction before with
  | nil => rfl
  | cons c before ih =>
    obtain ⟨hopen, hbefore⟩ := noReference_cons_iff.mp h
    have hhead : ¬ (c = '$' ∧ (before ++ '$' :: '{' :: after).head? = some '{') := by
      cases before with
      | nil => simp
      | cons d before => exact hopen
    rw [List.cons_append, findOpening, if_neg hhead, ih hbefore]
    rfl

theorem findOpening_eq_some {raw before after : List Char}
    (h : findOpening raw = some (before, after)) :
    raw = before ++ '$' :: '{' :: after ∧ NoReference before := by
  induction raw generalizing before with
  | nil => cases h
  | cons c rest ih =>
    rw [findOpening] at h
    split at h
    · rename_i hopen
      cases h
      obtain ⟨rfl, hhead⟩ := hopen
      rw [List.head?_eq_some_iff] at hhead
      obtain ⟨tail, rfl⟩ := hhead
      exact ⟨rfl, noReference_nil⟩
    · rename_i hopen
      obtain ⟨⟨before', after'⟩, hfind, heq⟩ := Option.map_eq_some_iff.mp h
      cases heq
      obtain ⟨rfl, hbefore⟩ := ih hfind
      refine ⟨rfl, noReference_cons_iff.mpr ⟨?_, hbefore⟩⟩
      rintro ⟨rfl, hhead⟩
      refine hopen ⟨rfl, ?_⟩
      cases before' with
      | nil => cases hhead
      | cons d before' => exact hhead

theorem findClosing_append {var : List Char} (h : '}' ∉ var) (rest : List Char) :
    findClosing (var ++ '}' :: rest) = some (var, rest) := by
  induction var with
  | nil => rfl
  | cons c var ih =>
    obtain ⟨hc, hvar⟩ : '}' ≠ c ∧ '}' ∉ var := by simpa using h
    rw [List.cons_append, findClosing, if_neg hc.symm, ih hvar]
    rfl

theorem findClosing_eq_none_iff {raw : List Char} : findClosing raw = none ↔ '}' ∉ raw := by
  induction raw with
  | nil => simp [findClosing]
  | cons c rest ih =>
    rw [findClosing]
    split
    · rename_i hc
      simp [hc]
    · rename_i hc
      rw [Option.map_eq_none_iff, ih, List.mem_cons, not_or]
      exact ⟨fun h => ⟨Ne.symm hc, h⟩, And.right⟩

theorem findClosing_eq_some {raw var rest : List Char} (h : findClosing raw = some (var, rest)) :
    raw = var ++ '}' :: rest ∧ '}' ∉ var := by
  induction raw generalizing var with
  | nil => cases h
  | cons c raw ih =>
    rw [findClosing] at h
    split at h
    · rename_i hc
      cases h
      exact ⟨by rw [hc]; rfl, by simp⟩
    · rename_i hc
      obtain ⟨⟨var', rest'⟩, hfind, heq⟩ := Option.map_eq_some_iff.mp h
      cases heq
      obtain ⟨rfl, hvar⟩ := ih hfind
      exact ⟨rfl, by simpa using ⟨Ne.symm hc, hvar⟩⟩

/-- A reference and the text before it. -/
structure Reference where
  before : List Char
  name : List Char
deriving DecidableEq, Repr

def Reference.var (r : Reference) : String := String.ofList r.name

def Reference.spell (r : Reference) : List Char := r.before ++ '$' :: '{' :: (r.name ++ ['}'])

/-- A code part: its references, the text behind the last one, and what stands behind an
    opening that is not closed. -/
structure Code where
  references : List Reference
  tail : List Char
  unclosed : Option (List Char)
deriving DecidableEq, Repr

/-- The text behind the references. -/
def Code.ending (c : Code) : List Char := c.tail ++ c.unclosed.elim [] fun u => '$' :: '{' :: u

def Code.spell (c : Code) : List Char := c.references.flatMap Reference.spell ++ c.ending

/-- Openings are where they are said to be, and so are the closing braces. -/
structure Code.WellFormed (c : Code) : Prop where
  before : ∀ r ∈ c.references, NoReference r.before
  names : ∀ r ∈ c.references, '}' ∉ r.name
  tail : NoReference c.tail
  unclosed : ∀ u ∈ c.unclosed, '}' ∉ u

def Code.behind (r : Reference) (c : Code) : Code := { c with references := r :: c.references }

/-- A code part is its ending with references before it. -/
theorem Code.induct {motive : Code → Prop} (closed : ∀ tail, motive ⟨[], tail, none⟩)
    (unclosed : ∀ tail u, motive ⟨[], tail, some u⟩)
    (behind : ∀ r c, motive c → motive (Code.behind r c)) (c : Code) : motive c := by
  obtain ⟨references, tail, u⟩ := c
  induction references with
  | nil =>
    cases u with
    | none => exact closed tail
    | some u => exact unclosed tail u
  | cons r references ih => exact behind r _ ih

theorem Code.spell_behind (r : Reference) (c : Code) :
    (c.behind r).spell = r.before ++ '$' :: '{' :: (r.name ++ '}' :: c.spell) := by
  simp [Code.spell, Code.behind, Code.ending, Reference.spell]

theorem Code.wellFormed_behind_iff {r : Reference} {c : Code} :
    (c.behind r).WellFormed ↔ NoReference r.before ∧ '}' ∉ r.name ∧ c.WellFormed := by
  constructor
  · intro h
    obtain ⟨hbefore, hbefores⟩ := List.forall_mem_cons.mp h.before
    obtain ⟨hname, hnames⟩ := List.forall_mem_cons.mp h.names
    exact ⟨hbefore, hname, hbefores, hnames, h.tail, h.unclosed⟩
  · rintro ⟨hbefore, hname, h⟩
    exact ⟨List.forall_mem_cons.mpr ⟨hbefore, h.before⟩,
      List.forall_mem_cons.mpr ⟨hname, h.names⟩, h.tail, h.unclosed⟩

/-- Every text is a code part. -/
theorem exists_code (raw : List Char) : ∃ c : Code, c.WellFormed ∧ c.spell = raw := by
  induction hlength : raw.length using Nat.strongRecOn generalizing raw with
  | ind n ih =>
    cases hopen : findOpening raw with
    | none =>
      refine ⟨⟨[], raw, none⟩, ⟨by simp, by simp, findOpening_eq_none_iff.mp hopen, by simp⟩, ?_⟩
      simp [Code.spell, Code.ending]
    | some p =>
      obtain ⟨before, after⟩ := p
      obtain ⟨rfl, hbefore⟩ := findOpening_eq_some hopen
      cases hclose : findClosing after with
      | none =>
        have hafter := findClosing_eq_none_iff.mp hclose
        exact ⟨⟨[], before, some after⟩, ⟨by simp, by simp, hbefore, by simpa using hafter⟩, rfl⟩
      | some q =>
        obtain ⟨name, rest⟩ := q
        obtain ⟨rfl, hname⟩ := findClosing_eq_some hclose
        obtain ⟨c, hc, rfl⟩ := ih rest.length (by simp at hlength; omega) rest rfl
        exact ⟨c.behind ⟨before, name⟩, Code.wellFormed_behind_iff.mpr ⟨hbefore, hname, hc⟩,
          c.spell_behind ⟨before, name⟩⟩

/-- How the search for a reference goes in each kind of code part. -/
theorem findOpening_closed {tail : List Char} (h : Code.WellFormed ⟨[], tail, none⟩) :
    findOpening (Code.spell ⟨[], tail, none⟩) = none := by
  have hspell : Code.spell ⟨[], tail, none⟩ = tail := by simp [Code.spell, Code.ending]
  rw [hspell, findOpening_eq_none_iff]
  exact h.tail

theorem findOpening_unclosed {tail u : List Char} (h : Code.WellFormed ⟨[], tail, some u⟩) :
    findOpening (Code.spell ⟨[], tail, some u⟩) = some (tail, u) ∧ findClosing u = none :=
  ⟨findOpening_append h.tail u, findClosing_eq_none_iff.mpr (h.unclosed u rfl)⟩

theorem findOpening_behind {r : Reference} {c : Code} (h : (c.behind r).WellFormed) :
    findOpening (c.behind r).spell = some (r.before, r.name ++ '}' :: c.spell) ∧
      findClosing (r.name ++ '}' :: c.spell) = some (r.name, c.spell) := by
  obtain ⟨hbefore, hname, -⟩ := Code.wellFormed_behind_iff.mp h
  rw [Code.spell_behind]
  exact ⟨findOpening_append hbefore _, findClosing_append hname _⟩

/-- It is one code part only. -/
theorem Code.WellFormed.eq_of_spell {c c' : Code} (h : c.WellFormed) (h' : c'.WellFormed)
    (hspell : c.spell = c'.spell) : c = c' := by
  induction c using Code.induct generalizing c' with
  | closed tail =>
    have hfind := findOpening_closed h
    induction c' using Code.induct with
    | closed tail' => simpa [Code.spell, Code.ending] using hspell
    | unclosed tail' u' => simp [hspell, findOpening_unclosed h'] at hfind
    | behind r c' _ => simp [hspell, findOpening_behind h'] at hfind
  | unclosed tail u =>
    obtain ⟨hfind, hclose⟩ := findOpening_unclosed h
    induction c' using Code.induct with
    | closed tail' => simp [hspell, findOpening_closed h'] at hfind
    | unclosed tail' u' =>
      rw [hspell, (findOpening_unclosed h').1] at hfind
      cases hfind
      rfl
    | behind r c' _ =>
      rw [hspell, (findOpening_behind h').1] at hfind
      cases hfind
      rw [(findOpening_behind h').2] at hclose
      cases hclose
  | behind r c ih =>
    obtain ⟨hfind, hclose⟩ := findOpening_behind h
    induction c' using Code.induct with
    | closed tail' => simp [hspell, findOpening_closed h'] at hfind
    | unclosed tail' u' =>
      rw [hspell, (findOpening_unclosed h').1] at hfind
      cases hfind
      rw [(findOpening_unclosed h').2] at hclose
      cases hclose
    | behind r' c' _ =>
      rw [hspell, (findOpening_behind h').1, Option.some.injEq, Prod.mk.injEq] at hfind
      obtain ⟨hbefore, htext⟩ := hfind
      rw [← htext, (findOpening_behind h').2, Option.some.injEq, Prod.mk.injEq] at hclose
      obtain ⟨hname, hrest⟩ := hclose
      have hr : r = r' := by
        cases r
        cases r'
        simp_all
      rw [hr, ih (Code.wellFormed_behind_iff.mp h).2.2 (Code.wellFormed_behind_iff.mp h').2.2
        hrest.symm]

/-! ### What interpolation makes of it -/

/-- Each reference replaced by its value. -/
def Code.substitute (lookup : String → Option String) (c : Code) : List Char :=
  c.references.flatMap (fun r => r.before ++ ((lookup r.var).getD "").toList) ++ c.tail

/-- What is wrong in a code part, from left to right. -/
def Code.offences (lookup : String → Option String) (c : Code) : List ConfigError :=
  c.references.filterMap
      (fun r => if lookup r.var = none then some (.missingEnvVar r.var) else none) ++
    c.unclosed.toList.map fun _ => .unclosedInterpolation

def Code.variables (c : Code) : List String := c.references.map Reference.var

/-- The first offence, or the result. -/
def outcome {α : Type} (offences : List ConfigError) (result : α) : Except ConfigError α :=
  match offences.head? with
  | none => .ok result
  | some e => .error e

/-- What a computation that has looked up `asked` makes of it. -/
def Asking.from {α : Type} (asked : List String) (x : Asking α) :
    Except ConfigError α × List String := x.run.run asked

theorem interpolate_closed {lookup : String → Option String} {raw : List Char}
    (h : findOpening raw = none) : interpolate lookup raw = pure raw := by
  rw [interpolate]
  split
  · rfl
  · rename_i hopen
    rw [h] at hopen
    cases hopen

theorem interpolate_unclosed {lookup : String → Option String} {raw before after : List Char}
    (hopen : findOpening raw = some (before, after)) (hclose : findClosing after = none) :
    interpolate lookup raw = throw .unclosedInterpolation := by
  rw [interpolate]
  split
  · rename_i hnone
    rw [hopen] at hnone
    cases hnone
  · rename_i before' after' hsome
    rw [hopen] at hsome
    cases hsome
    split
    · rfl
    · rename_i hfound
      rw [hclose] at hfound
      cases hfound

theorem interpolate_behind {lookup : String → Option String}
    {raw before after name rest : List Char} (hopen : findOpening raw = some (before, after))
    (hclose : findClosing after = some (name, rest)) :
    interpolate lookup raw = do
      match ← ask lookup (String.ofList name) with
      | none => throw (.missingEnvVar (String.ofList name))
      | some val =>
        let out ← interpolate lookup rest
        return before ++ val.toList ++ out := by
  conv_lhs => rw [interpolate]
  split
  · rename_i hnone
    rw [hopen] at hnone
    cases hnone
  · rename_i before' after' hsome
    rw [hopen] at hsome
    cases hsome
    split
    · rename_i hnone
      rw [hclose] at hnone
      cases hnone
    · rename_i hfound
      rw [hclose] at hfound
      cases hfound
      rfl

theorem from_pure {α : Type} (asked : List String) (a : α) :
    (pure a : Asking α).from asked = (.ok a, asked) := rfl

theorem from_bind {α β : Type} (asked : List String) (x : Asking α) (f : α → Asking β) :
    (x >>= f).from asked =
      match x.from asked with
      | (.ok a, asked) => (f a).from asked
      | (.error e, asked) => (.error e, asked) := by
  unfold Asking.from
  rw [ExceptT.run_bind, StateT.run_bind]
  rcases x.run.run asked with ⟨r | r, s⟩
  · rfl
  · rfl

theorem offences_behind_none {lookup : String → Option String} {r : Reference} (c : Code)
    (h : lookup r.var = none) :
    (c.behind r).offences lookup = .missingEnvVar r.var :: c.offences lookup := by
  simp [Code.offences, Code.behind, h]

theorem offences_behind_some {lookup : String → Option String} {r : Reference} (c : Code)
    {val : String} (h : lookup r.var = some val) :
    (c.behind r).offences lookup = c.offences lookup := by
  simp [Code.offences, Code.behind, h]

theorem substitute_behind {lookup : String → Option String} {r : Reference} (c : Code)
    {val : String} (h : lookup r.var = some val) :
    (c.behind r).substitute lookup = r.before ++ val.toList ++ c.substitute lookup := by
  simp [Code.substitute, Code.behind, h]

/-- A code part is interpolated as it says, and no other variable is looked up. -/
theorem interpolate_run (lookup : String → Option String) {c : Code} (h : c.WellFormed)
    (asked : List String) :
    ∃ vars, vars <+: c.variables ∧ (interpolate lookup c.spell).from asked =
      (outcome (c.offences lookup) (c.substitute lookup), asked ++ vars) := by
  induction c using Code.induct generalizing asked with
  | closed tail =>
    refine ⟨[], List.nil_prefix, ?_⟩
    rw [interpolate_closed (findOpening_closed h), from_pure, List.append_nil]
    simp [Code.spell, Code.ending, Code.substitute, Code.offences, outcome]
  | unclosed tail u =>
    refine ⟨[], List.nil_prefix, ?_⟩
    rw [interpolate_unclosed (findOpening_unclosed h).1 (findOpening_unclosed h).2,
      List.append_nil]
    rfl
  | behind r c ih =>
    rw [interpolate_behind (findOpening_behind h).1 (findOpening_behind h).2, from_bind]
    change ∃ vars, _ ∧ (match lookup r.var with | none => _ | some val => _ : Asking _).from
      (asked ++ [r.var]) = _
    cases hval : lookup r.var with
    | none =>
      refine ⟨[r.var], List.cons_prefix_cons.mpr ⟨rfl, List.nil_prefix⟩, ?_⟩
      rw [offences_behind_none c hval]
      rfl
    | some val =>
      obtain ⟨vars, hvars, hrun⟩ := ih (Code.wellFormed_behind_iff.mp h).2.2 (asked ++ [r.var])
      refine ⟨r.var :: vars, List.cons_prefix_cons.mpr ⟨rfl, hvars⟩, ?_⟩
      dsimp only
      rw [from_bind, hrun, offences_behind_some c hval, substitute_behind c hval, outcome, outcome,
        List.append_assoc, List.singleton_append]
      cases (c.offences lookup).head? with
      | none => rfl
      | some e => rfl

/-! ### Line by line -/

/-- A line: its code part, and its comment as it stands. -/
structure Line where
  code : Code
  comment : List Char
deriving DecidableEq, Repr

def Line.spell (l : Line) : List Char := l.code.spell ++ l.comment

def Line.substitute (lookup : String → Option String) (l : Line) : List Char :=
  l.code.substitute lookup ++ l.comment

/-- The line as `find_comment_start` splits it. -/
def Line.Of (line : List Char) (l : Line) : Prop :=
  l.code.WellFormed ∧ line.splitAt (findCommentStart line) = (l.code.spell, l.comment)

/-- The lines of a text. -/
def LinesOf (raw : List Char) (doc : List Line) : Prop :=
  List.Forall₂ Line.Of (raw.splitOn '\n') doc

def joinLines (lines : List (List Char)) : List Char := ['\n'].intercalate lines

theorem joinLines_cons {α : Type} (f : α → List Char) (l : α) (doc : List α) :
    joinLines ((l :: doc).map f) =
      f l ++ (if doc.isEmpty then [] else ['\n']) ++ joinLines (doc.map f) := by
  cases doc with
  | nil => simp [joinLines]
  | cons l' doc => simp [joinLines]

theorem exists_line (line : List Char) : ∃ l, Line.Of line l := by
  obtain ⟨c, hc, hspell⟩ := exists_code (line.splitAt (findCommentStart line)).1
  exact ⟨⟨c, (line.splitAt (findCommentStart line)).2⟩, hc, by rw [hspell]⟩

theorem Line.Of.unique {line : List Char} {l l' : Line} (h : Line.Of line l)
    (h' : Line.Of line l') : l = l' := by
  have hsplit := h.2.symm.trans h'.2
  rw [Prod.mk.injEq] at hsplit
  have hcode := h.1.eq_of_spell h'.1 hsplit.1
  cases l
  cases l'
  simp_all

theorem Line.Of.spell_eq {line : List Char} {l : Line} (h : Line.Of line l) : l.spell = line := by
  have hsplit := h.2
  rw [List.splitAt_eq, Prod.mk.injEq] at hsplit
  rw [Line.spell, ← hsplit.1, ← hsplit.2, List.take_append_drop]

theorem exists_lines (lines : List (List Char)) : ∃ doc, List.Forall₂ Line.Of lines doc := by
  induction lines with
  | nil => exact ⟨[], .nil⟩
  | cons line lines ih =>
    obtain ⟨l, hl⟩ := exists_line line
    obtain ⟨doc, hdoc⟩ := ih
    exact ⟨l :: doc, .cons hl hdoc⟩

theorem lines_unique {lines : List (List Char)} {doc doc' : List Line}
    (h : List.Forall₂ Line.Of lines doc) (h' : List.Forall₂ Line.Of lines doc') : doc = doc' := by
  induction h generalizing doc' with
  | nil =>
    cases h'
    rfl
  | cons hl _ ih =>
    cases h' with
    | cons hl' hdoc' => rw [hl.unique hl', ih hdoc']

theorem map_spell_lines {lines : List (List Char)} {doc : List Line}
    (h : List.Forall₂ Line.Of lines doc) : doc.map Line.spell = lines := by
  induction h with
  | nil => rfl
  | cons hl _ ih => rw [List.map_cons, hl.spell_eq, ih]

theorem exists_line_of_mem {lines : List (List Char)} {doc : List Line}
    (h : List.Forall₂ Line.Of lines doc) {l : Line} (hl : l ∈ doc) : ∃ line, Line.Of line l := by
  induction h with
  | nil => cases hl
  | cons hof _ ih =>
    rcases List.mem_cons.mp hl with rfl | hl
    · exact ⟨_, hof⟩
    · exact ih hl

/-- Nothing is lost between a text and its lines. -/
theorem LinesOf.spell_eq {raw : List Char} {doc : List Line} (h : LinesOf raw doc) :
    joinLines (doc.map Line.spell) = raw := by
  rw [map_spell_lines h]
  exact List.intercalate_splitOn '\n'

def offencesOf (lookup : String → Option String) (doc : List Line) : List ConfigError :=
  doc.flatMap fun l => l.code.offences lookup

theorem interpolateLines_run (lookup : String → Option String) {lines : List (List Char)}
    {doc : List Line} (h : List.Forall₂ Line.Of lines doc) (asked : List String) :
    ∃ vars, (∀ v ∈ vars, ∃ l ∈ doc, v ∈ l.code.variables) ∧
      (interpolateLines lookup lines).from asked =
        (outcome (offencesOf lookup doc) (joinLines (doc.map (Line.substitute lookup))),
          asked ++ vars) := by
  induction h generalizing asked with
  | nil => exact ⟨[], nofun, by rw [List.append_nil]; rfl⟩
  | @cons line l lines doc hl hdoc ih =>
    obtain ⟨vars, hvars, hrun⟩ := interpolate_run lookup hl.1 asked
    have hmem : ∀ v ∈ vars, ∃ l' ∈ l :: doc, v ∈ l'.code.variables :=
      fun v hv => ⟨l, List.mem_cons_self, hvars.subset hv⟩
    rw [interpolateLines, hl.2]
    dsimp only
    rw [from_bind, hrun]
    have hoffences : offencesOf lookup (l :: doc) =
        l.code.offences lookup ++ offencesOf lookup doc := List.flatMap_cons
    cases hhead : l.code.offences lookup with
    | cons e offences =>
      refine ⟨vars, hmem, ?_⟩
      rw [hoffences, hhead]
      rfl
    | nil =>
      obtain ⟨vars', hvars', hrun'⟩ := ih (asked ++ vars)
      refine ⟨vars ++ vars', fun v hv => ?_, ?_⟩
      · rcases List.mem_append.mp hv with hv | hv
        · exact hmem v hv
        · obtain ⟨l', hl', hv⟩ := hvars' v hv
          exact ⟨l', List.mem_cons_of_mem l hl', hv⟩
      · rw [hoffences, hhead, List.nil_append]
        change (interpolateLines lookup lines >>= _ : Asking _).from (asked ++ vars) = _
        have hempty : lines.isEmpty = doc.isEmpty := by cases hdoc <;> rfl
        rw [from_bind, hrun', joinLines_cons, hempty, outcome, outcome, List.append_assoc]
        cases (offencesOf lookup doc).head? with
        | none => rfl
        | some e => rfl

/-- Every opening in the line is closed, and its variable is defined. -/
def Line.Complete (lookup : String → Option String) (l : Line) : Prop :=
  l.code.unclosed = none ∧ ∀ r ∈ l.code.references, (lookup r.var).isSome

theorem offencesOf_eq_nil_iff {lookup : String → Option String} {doc : List Line} :
    offencesOf lookup doc = [] ↔ ∀ l ∈ doc, l.Complete lookup := by
  rw [offencesOf, List.flatMap_eq_nil_iff]
  refine forall₂_congr fun l _ => ?_
  rw [Code.offences, List.append_eq_nil_iff, List.map_eq_nil_iff, List.filterMap_eq_nil_iff,
    Option.toList_eq_nil_iff, and_comm, Line.Complete]
  refine and_congr_right' (forall₂_congr fun r _ => ?_)
  cases lookup r.var <;> simp

/-- A line without an opening stays as it is. -/
theorem Line.Of.plain {line : List Char} {l : Line} (h : Line.Of line l)
    (hplain : NoReference l.code.spell) (lookup : String → Option String) :
    l.Complete lookup ∧ l.substitute lookup = l.spell := by
  have hfind := findOpening_eq_none_iff.mpr hplain
  obtain ⟨c, comment⟩ := l
  induction c using Code.induct with
  | closed tail => exact ⟨⟨rfl, nofun⟩, by simp [Line.substitute, Line.spell, Code.spell,
      Code.ending, Code.substitute]⟩
  | unclosed tail u => simp [findOpening_unclosed h.1] at hfind
  | behind r c _ => simp [findOpening_behind h.1] at hfind

/-- **Interpolation touches only references.**  A text is lines, each a code part and a
    comment, in one way.  It is interpolated if and only if every opening in a code part is
    closed and names a defined variable; then each reference is replaced by its value and
    nothing else is touched.  Otherwise the error is the leftmost one.  Only variables that a
    code part names are looked up. -/
theorem interpolation_touches_only_references (lookup : String → Option String)
    (raw : List Char) :
    ∃ doc, LinesOf raw doc ∧ (∀ doc', LinesOf raw doc' → doc' = doc) ∧
      joinLines (doc.map Line.spell) = raw ∧
      let run := (interpolateOutsideComments lookup raw).from []
      ((∃ out, run.1 = .ok out) ↔ ∀ l ∈ doc, l.Complete lookup) ∧
      ((∀ l ∈ doc, l.Complete lookup) →
        run.1 = .ok (joinLines (doc.map (Line.substitute lookup)))) ∧
      (∀ e, (offencesOf lookup doc).head? = some e → run.1 = .error e) ∧
      (∀ v ∈ run.2, ∃ l ∈ doc, v ∈ l.code.variables) ∧
      ((∀ l ∈ doc, NoReference l.code.spell) → run.1 = .ok raw) := by
  obtain ⟨doc, hdoc⟩ := exists_lines (raw.splitOn '\n')
  obtain ⟨vars, hvars, hrun⟩ := interpolateLines_run lookup hdoc []
  refine ⟨doc, hdoc, fun doc' h' => lines_unique h' hdoc, LinesOf.spell_eq hdoc, ?_⟩
  intro run
  have hresult : run.1 =
      outcome (offencesOf lookup doc) (joinLines (doc.map (Line.substitute lookup))) :=
    congrArg Prod.fst hrun
  have hcomplete (h : ∀ l ∈ doc, l.Complete lookup) :
      run.1 = .ok (joinLines (doc.map (Line.substitute lookup))) := by
    rw [hresult, offencesOf_eq_nil_iff.mpr h]
    rfl
  refine ⟨⟨fun ⟨out, hout⟩ => ?_, fun h => ⟨_, hcomplete h⟩⟩, hcomplete, fun e he => ?_,
    fun v hv => ?_, fun hplain => ?_⟩
  · rw [← offencesOf_eq_nil_iff, ← List.head?_eq_none_iff]
    rw [hresult, outcome] at hout
    split at hout
    · assumption
    · cases hout
  · rw [hresult, outcome, he]
  · have hasked : run.2 = [] ++ vars := congrArg Prod.snd hrun
    rw [hasked] at hv
    exact hvars v hv
  · have hline (l : Line) (hl : l ∈ doc) :
        l.Complete lookup ∧ l.substitute lookup = l.spell := by
      obtain ⟨line, hof⟩ := exists_line_of_mem hdoc hl
      exact hof.plain (hplain l hl) lookup
    rw [hcomplete fun l hl => (hline l hl).1, List.map_congr_left fun l hl => (hline l hl).2,
      LinesOf.spell_eq hdoc]

end Arne.Settings
