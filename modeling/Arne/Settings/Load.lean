import Arne.Lib.DoubleQuoted
import Arne.Message.Types
import Arne.Settings.Interpolation
import Mathlib.Logic.Function.Basic

/-!
# Loading a configuration (`config.rs`)

The text of the file is interpolated, parsed as YAML and validated.  A value takes the place of
its reference before the text is parsed, so inside a double-quoted scalar YAML reads the value
as part of its own syntax.
-/

namespace Arne.Settings

open Arne.Yaml Arne.Message

/-! ### The configuration -/

inductive SaslMechanism where
  | plain
  | scramSha256
  | scramSha512
deriving DecidableEq, Repr

structure SaslConfig where
  mechanism : SaslMechanism
  username : String
  password : String
  tls : Bool
deriving DecidableEq, Repr

structure SchemaRegistryConfig where
  url : String
deriving DecidableEq, Repr

structure ClusterConfig where
  name : String
  bootstrap : String
  brokerCallStatsMs : Nat
  sasl : Option SaslConfig
  schemaRegistry : Option SchemaRegistryConfig
deriving DecidableEq, Repr

structure ServerConfig where
  port : Nat
deriving DecidableEq, Repr

structure Limits where
  samplerIntervalSecs : Nat
  timelineScanBudget : Nat
deriving DecidableEq, Repr

structure Config where
  clusters : List ClusterConfig
  server : ServerConfig
  limits : Limits
deriving DecidableEq, Repr

/-- `str::trim` and then `is_empty`. -/
def isBlank (s : String) : Bool := s.toList.all isWhitespace

def nameOk (name : String) : Bool :=
  !name.toList.isEmpty && name.toList.all fun ch => ch.isAlphanum || "._-".toList.contains ch

/-- The loop of `validate`, from the `i`-th cluster on, with the names seen before it. -/
def validateFrom (i : Nat) (seen : List String) : List ClusterConfig → Except ConfigError Unit
  | [] => .ok ()
  | c :: clusters =>
    if nameOk c.name = false then
      .error (.invalid (s!"clusters[{i}].name: must be non-empty and contain only " ++
        s!"[a-zA-Z0-9._-], got '{c.name}'"))
    else if seen.contains c.name then
      .error (.invalid s!"clusters[{i}].name: duplicate name '{c.name}'")
    else if isBlank c.bootstrap then
      .error (.invalid s!"clusters[{i}].bootstrap: must not be empty")
    else validateFrom (i + 1) (c.name :: seen) clusters

def Config.validate (cfg : Config) : Except ConfigError Unit :=
  if cfg.clusters.isEmpty then
    .error (.invalid "clusters: at least one cluster is required")
  else validateFrom 0 [] cfg.clusters

/-- `Config::load`.  `file` is what reading the file gives, `env` the environment, and
    `fromStr` is `serde_yaml::from_str`. -/
def Config.load (path : String) (file : Except String (List Char))
    (env : String → Option String) (fromStr : List Char → Except String Config) :
    Except ConfigError Config := do
  let raw ← file.mapError (ConfigError.io path)
  let interpolated ← ((interpolateOutsideComments env raw).from []).1
  let cfg ← (fromStr interpolated).mapError ConfigError.parse
  cfg.validate
  return cfg

/-! ### The fields that hold a string -/

inductive StringField where
  | name (cluster : Nat)
  | bootstrap (cluster : Nat)
  | username (cluster : Nat)
  | password (cluster : Nat)
  | url (cluster : Nat)
deriving DecidableEq, Repr

def StringField.cluster : StringField → Nat
  | .name i | .bootstrap i | .username i | .password i | .url i => i

def ClusterConfig.get? (c : ClusterConfig) : StringField → Option String
  | .name _ => some c.name
  | .bootstrap _ => some c.bootstrap
  | .username _ => c.sasl.map SaslConfig.username
  | .password _ => c.sasl.map SaslConfig.password
  | .url _ => c.schemaRegistry.map SchemaRegistryConfig.url

def ClusterConfig.set (c : ClusterConfig) (v : String) : StringField → ClusterConfig
  | .name _ => { c with name := v }
  | .bootstrap _ => { c with bootstrap := v }
  | .username _ => { c with sasl := c.sasl.map fun s => { s with username := v } }
  | .password _ => { c with sasl := c.sasl.map fun s => { s with password := v } }
  | .url _ => { c with schemaRegistry := c.schemaRegistry.map fun s => { s with url := v } }

def Config.get? (cfg : Config) (f : StringField) : Option String :=
  cfg.clusters[f.cluster]?.bind fun c => c.get? f

/-- The configuration with another value in a field, and the same in all others. -/
def Config.set (cfg : Config) (f : StringField) (v : String) : Config :=
  { cfg with clusters := cfg.clusters.modify f.cluster fun c => c.set v f }

theorem StringField.cluster_get?_set {c : ClusterConfig} {f : StringField} (h : (c.get? f).isSome)
    (v : String) : (c.set v f).get? f = some v := by
  cases f with
  | name i => rfl
  | bootstrap i => rfl
  | username i =>
    obtain ⟨_, hsasl⟩ := Option.isSome_iff_exists.mp h
    obtain ⟨s, hs, -⟩ := Option.map_eq_some_iff.mp hsasl
    simp [ClusterConfig.set, ClusterConfig.get?, hs]
  | password i =>
    obtain ⟨_, hsasl⟩ := Option.isSome_iff_exists.mp h
    obtain ⟨s, hs, -⟩ := Option.map_eq_some_iff.mp hsasl
    simp [ClusterConfig.set, ClusterConfig.get?, hs]
  | url i =>
    obtain ⟨_, hregistry⟩ := Option.isSome_iff_exists.mp h
    obtain ⟨s, hs, -⟩ := Option.map_eq_some_iff.mp hregistry
    simp [ClusterConfig.set, ClusterConfig.get?, hs]

theorem Config.get?_set {cfg : Config} {f : StringField} (h : (cfg.get? f).isSome) (v : String) :
    (cfg.set f v).get? f = some v := by
  unfold Config.get? at h ⊢
  cases hcluster : cfg.clusters[f.cluster]? with
  | none =>
    rw [hcluster] at h
    cases h
  | some c =>
    rw [hcluster] at h
    rw [Config.set, List.getElem?_modify_eq, hcluster]
    exact StringField.cluster_get?_set h v

/-! ### A field that is one reference -/

/-- The text of a file with a scalar behind its opening quote, where `front` and `back` are
    what stands around: `f` is the field whose value the scalar is.  Where the scalar closes
    before `back`, the file is valid, and where the file is valid, the field is what YAML
    reads there. -/
structure QuotedField (fromStr : List Char → Except String Config) (base : Config)
    (f : StringField) (front back : List Char) : Prop where
  present : (base.get? f).isSome
  reads : ∀ text value, scan text = some (.closed value back) →
    fromStr (front ++ '"' :: text) = .ok (base.set f (String.ofList value))
  opens : ∀ text cfg, fromStr (front ++ '"' :: text) = .ok cfg →
    ∃ r v, scan text = some r ∧ cfg.get? f = some v ∧ r.Reads v.toList

/-- A file with a line in which a double-quoted scalar is the reference to a variable. -/
structure ReferenceFile where
  before : List (List Char)
  a : List Char
  name : List Char
  b : List Char
  after : List (List Char)

namespace ReferenceFile

variable (file : ReferenceFile)

def reference : List Char := '$' :: '{' :: (file.name ++ ['}'])

def var : String := String.ofList file.name

def line : List Char := file.a ++ '"' :: (file.reference ++ '"' :: file.b)

def raw : List Char := joinLines (file.before ++ file.line :: file.after)

/-- How far into the line the scalar goes. -/
def scalarEnd : Nat := file.a.length + file.reference.length + 2

/-- Lines are lines, and the scalar is the reference as it stands. -/
structure WellFormed : Prop where
  lines : ∀ l ∈ file.before ++ file.line :: file.after, '\n' ∉ l
  name : Verbatim file.name
  closing : '}' ∉ file.name

/-- No comment is seen before the end of the scalar. -/
def InCode : Prop := file.scalarEnd ≤ findCommentStart file.line

/-- The scalar is taken for part of a comment. -/
def InComment : Prop := findCommentStart file.line ≤ file.a.length

instance : Decidable file.InCode := inferInstanceAs (Decidable (_ ≤ _))

instance : Decidable file.InComment := inferInstanceAs (Decidable (_ ≤ _))

end ReferenceFile

/-- What a code part becomes. -/
def interpolated (env : String → Option String) (code : List Char) :
    Except ConfigError (List Char) :=
  ((interpolate env code).from []).1

def interpolatedLine (env : String → Option String) (line : List Char) :
    Except ConfigError (List Char) :=
  (interpolated env (line.take (findCommentStart line))).map
    (· ++ line.drop (findCommentStart line))

/-- The rest of the file, without the variable of the reference: what it becomes before and
    behind the scalar. -/
structure Surroundings (env : String → Option String) (file : ReferenceFile)
    (front back : List Char) : Prop where
  undefined : env file.var = none
  around : ∃ before a b after,
    List.Forall₂ (fun line out => interpolatedLine env line = .ok out) file.before before ∧
    interpolated env (file.a.take (findCommentStart file.line)) = .ok a ∧
    interpolated env (file.b.take (findCommentStart file.line - file.scalarEnd)) = .ok b ∧
    List.Forall₂ (fun line out => interpolatedLine env line = .ok out) file.after after ∧
    front = before.flatMap (· ++ ['\n']) ++ a ++ file.a.drop (findCommentStart file.line) ∧
    back = b ++ file.b.drop (findCommentStart file.line - file.scalarEnd) ++
      after.flatMap ('\n' :: ·)

/-! ### Interpolating the file -/

theorem interpolated_spell (env : String → Option String) {c : Code} (h : c.WellFormed) :
    interpolated env c.spell = outcome (c.offences env) (c.substitute env) := by
  obtain ⟨vars, -, hrun⟩ := interpolate_run env h []
  exact congrArg Prod.fst hrun

/-- What was looked up before makes no difference. -/
theorem interpolate_fst (env : String → Option String) (raw : List Char) (asked : List String) :
    ((interpolate env raw).from asked).1 = interpolated env raw := by
  obtain ⟨c, hc, rfl⟩ := exists_code raw
  obtain ⟨vars, -, hrun⟩ := interpolate_run env hc asked
  rw [interpolated_spell env hc, hrun]

theorem outcome_eq_ok {α : Type} {offences : List ConfigError} {result out : α}
    (h : outcome offences result = .ok out) : offences = [] ∧ result = out := by
  cases offences with
  | nil =>
    cases h
    exact ⟨rfl, rfl⟩
  | cons e offences => cases h

theorem interpolated_eq_ok {env : String → Option String} {raw out : List Char}
    (h : interpolated env raw = .ok out) :
    ∃ c : Code, c.WellFormed ∧ c.spell = raw ∧ c.offences env = [] ∧ c.substitute env = out := by
  obtain ⟨c, hc, rfl⟩ := exists_code raw
  rw [interpolated_spell env hc] at h
  exact ⟨c, hc, rfl, outcome_eq_ok h⟩

theorem offences_eq_nil_iff {env : String → Option String} {c : Code} :
    c.offences env = [] ↔ c.unclosed = none ∧ ∀ r ∈ c.references, (env r.var).isSome := by
  have hdoc := @offencesOf_eq_nil_iff env [⟨c, []⟩]
  simpa [offencesOf, Line.Complete] using hdoc

section

variable {env : String → Option String} {var : String} (hundefined : env var = none)
  (v : Option String)

include hundefined

/-- A text that does without a variable is the same where it is defined. -/
theorem interpolated_update {raw out : List Char} (h : interpolated env raw = .ok out) :
    interpolated (Function.update env var v) raw = .ok out := by
  obtain ⟨c, hc, rfl, hoffences, rfl⟩ := interpolated_eq_ok h
  obtain ⟨hclosed, hdefined⟩ := offences_eq_nil_iff.mp hoffences
  have hsame : ∀ r ∈ c.references, Function.update env var v r.var = env r.var := by
    intro r hr
    refine Function.update_of_ne ?_ _ _
    rintro rfl
    have := hdefined r hr
    rw [hundefined] at this
    cases this
  have hnone : c.offences (Function.update env var v) = [] := by
    refine offences_eq_nil_iff.mpr ⟨hclosed, fun r hr => ?_⟩
    rw [hsame r hr]
    exact hdefined r hr
  have hout : c.substitute (Function.update env var v) = c.substitute env := by
    rw [Code.substitute, Code.substitute]
    congr 1
    exact List.flatMap_congr fun r hr => by rw [hsame r hr]
  rw [interpolated_spell _ hc, hnone, hout]
  rfl

theorem interpolatedLine_update {line out : List Char} (h : interpolatedLine env line = .ok out) :
    interpolatedLine (Function.update env var v) line = .ok out := by
  obtain ⟨code, hcode, rfl⟩ := except_map_ok h
  rw [interpolatedLine, interpolated_update hundefined v hcode]
  rfl

end

/-- What the lines become, one after the other. -/
def interpolatedLines (env : String → Option String) :
    List (List Char) → Except ConfigError (List Char)
  | [] => .ok []
  | line :: lines => do
    let out ← interpolatedLine env line
    let rest ← interpolatedLines env lines
    return out ++ (if lines.isEmpty then [] else ['\n']) ++ rest

theorem interpolateLines_fst (env : String → Option String) (lines : List (List Char))
    (asked : List String) :
    ((interpolateLines env lines).from asked).1 = interpolatedLines env lines := by
  induction lines generalizing asked with
  | nil => rfl
  | cons line lines ih =>
    rw [interpolateLines, interpolatedLines, interpolatedLine, List.splitAt_eq]
    dsimp only
    rw [from_bind, ← interpolate_fst env _ asked]
    rcases (interpolate env (line.take (findCommentStart line))).from asked with ⟨e | out, asked'⟩
    · rfl
    · change ((interpolateLines env lines >>= _ : Asking _).from asked').1 = _
      rw [from_bind, ← ih asked']
      rcases (interpolateLines env lines).from asked' with ⟨e | rest, asked''⟩
      · rfl
      · rfl

theorem interpolatedLines_after {env : String → Option String} {lines outs : List (List Char)}
    (h : List.Forall₂ (fun line out => interpolatedLine env line = .ok out) lines outs) :
    interpolatedLines env lines = .ok (joinLines outs) := by
  induction h with
  | nil => rfl
  | @cons line out lines outs hline hlines ih =>
    have hempty : lines.isEmpty = outs.isEmpty := by cases hlines <;> rfl
    have hjoin := joinLines_cons id out outs
    rw [List.map_id, List.map_id, id] at hjoin
    rw [interpolatedLines, hline, ih, hempty, hjoin]
    rfl

theorem joinLines_append (before : List (List Char)) (line : List Char)
    (after : List (List Char)) :
    joinLines (before ++ line :: after) =
      before.flatMap (· ++ ['\n']) ++ line ++ after.flatMap ('\n' :: ·) := by
  induction before with
  | nil =>
    induction after generalizing line with
    | nil => simp [joinLines]
    | cons l after ih =>
      have htail := ih l
      simp only [joinLines, List.nil_append, List.flatMap_nil] at htail ⊢
      rw [List.intercalate_cons_cons, htail]
      simp
  | cons l before ih =>
    have hne : before ++ line :: after ≠ [] := by simp
    rw [List.cons_append, joinLines, List.intercalate_cons_of_ne_nil hne]
    rw [joinLines] at ih
    rw [ih]
    simp

/-- The file becomes what its lines become, if they all become something. -/
theorem interpolatedLines_append {env : String → Option String}
    {before after befores afters : List (List Char)} {line : List Char}
    (hbefore : List.Forall₂ (fun line out => interpolatedLine env line = .ok out) before befores)
    (hafter : List.Forall₂ (fun line out => interpolatedLine env line = .ok out) after afters) :
    interpolatedLines env (before ++ line :: after) =
      (interpolatedLine env line).map fun out =>
        befores.flatMap (· ++ ['\n']) ++ out ++ afters.flatMap ('\n' :: ·) := by
  cases hline : interpolatedLine env line with
  | ok out =>
    have hall : List.Forall₂ (fun line out => interpolatedLine env line = .ok out)
        (before ++ line :: after) (befores ++ out :: afters) :=
      List.rel_append hbefore (.cons hline hafter)
    rw [interpolatedLines_after hall, joinLines_append]
    rfl
  | error e =>
    induction hbefore with
    | nil =>
      rw [List.nil_append, interpolatedLines, hline]
      rfl
    | @cons l out before befores hl hbefore ih =>
      rw [List.cons_append, interpolatedLines, hl, ih]
      rfl

/-! ### The line of the reference -/

theorem interpolated_closed (env : String → Option String) {raw : List Char}
    (h : NoReference raw) : interpolated env raw = .ok raw := by
  rw [interpolated, interpolate_closed (findOpening_eq_none_iff.mpr h), from_pure]

theorem interpolated_unclosed (env : String → Option String) {before u : List Char}
    (hbefore : NoReference before) (hu : '}' ∉ u) :
    interpolated env (before ++ '$' :: '{' :: u) = .error .unclosedInterpolation := by
  rw [interpolated, interpolate_unclosed (findOpening_append hbefore u)
    (findClosing_eq_none_iff.mpr hu)]
  rfl

theorem interpolated_reference (env : String → Option String) {before name : List Char}
    (rest : List Char) (hbefore : NoReference before) (hname : '}' ∉ name) :
    interpolated env (before ++ '$' :: '{' :: (name ++ '}' :: rest)) =
      match env (String.ofList name) with
      | none => .error (.missingEnvVar (String.ofList name))
      | some val => (interpolated env rest).map (before ++ val.toList ++ ·) := by
  rw [interpolated, interpolate_behind (findOpening_append hbefore _)
    (findClosing_append hname rest), from_bind]
  change ((match env (String.ofList name) with | none => _ | some val => _ : Asking _).from
    [String.ofList name]).1 = _
  cases env (String.ofList name) with
  | none => rfl
  | some val =>
    dsimp only
    rw [from_bind, ← interpolate_fst env rest [String.ofList name]]
    rcases (interpolate env rest).from [String.ofList name] with ⟨e | out, asked⟩
    · rfl
    · rfl

/-- A character that opens no reference is put before what the rest becomes. -/
theorem interpolated_cons (env : String → Option String) {c : Char} {raw : List Char}
    (h : ¬ (c = '$' ∧ raw.head? = some '{')) :
    interpolated env (c :: raw) = (interpolated env raw).map (c :: ·) := by
  obtain ⟨code, hcode, rfl⟩ := exists_code raw
  induction code using Code.induct with
  | closed tail =>
    have hspell : Code.spell ⟨[], tail, none⟩ = tail := by simp [Code.spell, Code.ending]
    rw [hspell] at h ⊢
    rw [interpolated_closed env hcode.tail,
      interpolated_closed env (noReference_cons_iff.mpr ⟨h, hcode.tail⟩)]
    rfl
  | unclosed tail u =>
    have hspell : Code.spell ⟨[], tail, some u⟩ = tail ++ '$' :: '{' :: u := rfl
    have hu := hcode.unclosed u rfl
    rw [hspell] at h ⊢
    have hhead : ¬ (c = '$' ∧ tail.head? = some '{') := by
      cases tail with
      | nil => simp
      | cons d tail => exact h
    have hctail := noReference_cons_iff.mpr ⟨hhead, hcode.tail⟩
    rw [interpolated_unclosed env hcode.tail hu, ← List.cons_append,
      interpolated_unclosed env hctail hu]
    rfl
  | behind r code _ =>
    obtain ⟨hbefore, hname, -⟩ := Code.wellFormed_behind_iff.mp hcode
    rw [Code.spell_behind] at h ⊢
    have hhead : ¬ (c = '$' ∧ r.before.head? = some '{') := by
      cases hr : r.before with
      | nil => simp
      | cons d before =>
        rw [hr] at h
        exact h
    have hcbefore := noReference_cons_iff.mpr ⟨hhead, hbefore⟩
    rw [interpolated_reference env code.spell hbefore hname, ← List.cons_append,
      interpolated_reference env code.spell hcbefore hname]
    cases env (String.ofList r.name) with
    | none => rfl
    | some val =>
      dsimp only
      cases interpolated env code.spell <;> rfl

/-- Texts are interpolated one after the other, if no opening stands across their border. -/
theorem interpolated_append {env : String → Option String} {a a' rest : List Char}
    (ha : interpolated env a = .ok a') (hrest : rest.head? ≠ some '{') :
    interpolated env (a ++ rest) = (interpolated env rest).map (a' ++ ·) := by
  obtain ⟨code, hcode, rfl, hoffences, rfl⟩ := interpolated_eq_ok ha
  clear ha
  induction code using Code.induct with
  | closed tail =>
    have htail := hcode.tail
    simp only [Code.spell, Code.ending, Code.substitute, List.flatMap_nil, List.nil_append,
      Option.elim_none, List.append_nil] at htail ⊢
    clear hcode hoffences
    induction tail with
    | nil =>
      rw [List.nil_append]
      cases interpolated env rest <;> rfl
    | cons c tail ih =>
      obtain ⟨hc, htail⟩ := noReference_cons_iff.mp htail
      have hhead : ¬ (c = '$' ∧ (tail ++ rest).head? = some '{') := by
        cases tail with
        | nil => exact fun h => hrest h.2
        | cons d tail => exact hc
      rw [List.cons_append, interpolated_cons env hhead, ih htail]
      cases interpolated env rest <;> rfl
  | unclosed tail u => cases hoffences
  | behind r code ih =>
    obtain ⟨hbefore, hname, hcode⟩ := Code.wellFormed_behind_iff.mp hcode
    cases hval : env r.var with
    | none =>
      rw [offences_behind_none code hval] at hoffences
      cases hoffences
    | some val =>
      rw [offences_behind_some code hval] at hoffences
      have hspell : (code.behind r).spell ++ rest =
          r.before ++ '$' :: '{' :: (r.name ++ '}' :: (code.spell ++ rest)) := by
        rw [Code.spell_behind]
        simp
      rw [hspell, interpolated_reference env _ hbefore hname, substitute_behind code hval,
        ih hcode hoffences]
      rw [Reference.var] at hval
      rw [hval]
      cases interpolated env rest with
      | error e => rfl
      | ok out => simp [Except.map]

namespace ReferenceFile

variable {file : ReferenceFile} {env : String → Option String}

theorem length_reference : file.reference.length = file.name.length + 3 := by
  simp [reference]

theorem line_eq : file.line = file.a ++ '"' :: (file.reference ++ ['"']) ++ file.b := by
  simp [line]

theorem length_scalar : (file.a ++ '"' :: (file.reference ++ ['"'])).length = file.scalarEnd := by
  simp [scalarEnd]
  omega

/-- The line becomes the value between its quotes, in what is around it. -/
theorem interpolatedLine_inCode (hfile : file.WellFormed) (hcode : file.InCode)
    {a b : List Char} {v : String}
    (ha : interpolated env (file.a.take (findCommentStart file.line)) = .ok a)
    (hb : interpolated env (file.b.take (findCommentStart file.line - file.scalarEnd)) = .ok b)
    (hv : env file.var = some v) :
    interpolatedLine env file.line =
      .ok (a ++ file.a.drop (findCommentStart file.line) ++ '"' :: (v.toList ++ '"' ::
        (b ++ file.b.drop (findCommentStart file.line - file.scalarEnd)))) := by
  unfold InCode at hcode
  generalize hs : findCommentStart file.line = s at ha hb hcode ⊢
  have hend : file.scalarEnd = file.a.length + (file.name.length + 3) + 2 := by
    rw [scalarEnd, length_reference]
  have htake : file.line.take s =
      file.a ++ '"' :: ([] ++ '$' :: '{' ::
        (file.name ++ '}' :: '"' :: file.b.take (s - file.scalarEnd))) := by
    rw [line_eq, List.take_append, List.take_of_length_le (length_scalar.trans_le hcode),
      length_scalar]
    simp [reference]
  have hdrop : file.line.drop s = file.b.drop (s - file.scalarEnd) := by
    rw [line_eq, List.drop_append, List.drop_of_length_le (length_scalar.trans_le hcode),
      length_scalar, List.nil_append]
  have hwhole : file.a.take s = file.a := List.take_of_length_le (by omega)
  have hnone : file.a.drop s = [] := List.drop_of_length_le (by omega)
  rw [hwhole] at ha
  rw [interpolatedLine, hs, htake, hdrop, hnone, interpolated_append ha (by simp),
    interpolated_cons env (by simp), interpolated_reference env _ noReference_nil hfile.closing]
  rw [var] at hv
  rw [hv, interpolated_cons env (by simp), hb]
  simp [Except.map]

theorem interpolatedLine_inComment (hcomment : file.InComment) {a : List Char}
    (ha : interpolated env (file.a.take (findCommentStart file.line)) = .ok a) :
    interpolatedLine env file.line =
      .ok (a ++ file.a.drop (findCommentStart file.line) ++ '"' :: (file.reference ++ '"' ::
        file.b)) := by
  unfold InComment at hcomment
  generalize hs : findCommentStart file.line = s at ha hcomment ⊢
  rw [interpolatedLine, hs, line, List.take_append_of_le_length hcomment,
    List.drop_append_of_le_length hcomment, ha]
  simp [Except.map]

/-- A comment that begins inside the reference leaves it unclosed. -/
theorem interpolatedLine_across (hfile : file.WellFormed) (hcode : ¬ file.InCode)
    (hcomment : ¬ file.InComment) {a : List Char}
    (ha : interpolated env (file.a.take (findCommentStart file.line)) = .ok a) :
    interpolatedLine env file.line = .error .unclosedInterpolation := by
  have hline : file.line =
      file.a ++ '"' :: '$' :: '{' :: (file.name ++ '}' :: '"' :: file.b) := by
    simp [line, reference]
  have hspec := findCommentStart_spec file.line
  unfold InCode at hcode
  unfold InComment at hcomment
  generalize hs : findCommentStart file.line = s at ha hcode hcomment hspec
  obtain ⟨i, rfl⟩ := Nat.exists_eq_add_of_lt (Nat.lt_of_not_le hcomment)
  have hend : file.scalarEnd = file.a.length + (file.name.length + 3) + 2 := by
    rw [scalarEnd, length_reference]
  have hlength : file.scalarEnd ≤ file.line.length := by
    rw [line_eq, List.length_append, length_scalar]
    omega
  have hhash : ('$' :: '{' :: (file.name ++ '}' :: '"' :: file.b))[i]? = some '#' := by
    rcases hspec with hspec | hspec
    · omega
    · rw [hline, List.getElem?_append_right (by omega), Nat.add_assoc, Nat.add_sub_cancel_left,
        List.getElem?_cons_succ] at hspec
      exact hspec
  -- the `#` is one of the name's characters
  obtain ⟨k, rfl⟩ : ∃ k, i = k + 2 := by
    match i, hhash with
    | 0, h => cases h
    | 1, h => cases h
    | k + 2, _ => exact ⟨k, rfl⟩
  have hk : k ≤ file.name.length := by
    by_contra hlt
    obtain rfl : k = file.name.length + 1 := by omega
    rw [List.getElem?_cons_succ, List.getElem?_cons_succ,
      List.getElem?_append_right (by omega), Nat.add_sub_cancel_left] at hhash
    cases hhash
  have htake : file.line.take (file.a.length + (k + 2) + 1) =
      file.a ++ '"' :: ([] ++ '$' :: '{' :: file.name.take k) := by
    rw [hline, List.take_append, List.take_of_length_le (by omega), Nat.add_assoc,
      Nat.add_sub_cancel_left, List.take_succ_cons, List.take_succ_cons, List.take_succ_cons,
      List.take_append_of_le_length hk]
    rfl
  have hclosing : '}' ∉ file.name.take k := fun h => hfile.closing (List.mem_of_mem_take h)
  rw [List.take_of_length_le (by omega)] at ha
  rw [interpolatedLine, hs, htake, interpolated_append ha (by simp),
    interpolated_cons env (by simp), interpolated_unclosed env noReference_nil hclosing]
  rfl

theorem splitOn_raw (hfile : file.WellFormed) :
    file.raw.splitOn '\n' = file.before ++ file.line :: file.after :=
  List.splitOn_intercalate '\n' hfile.lines (by simp)

end ReferenceFile

theorem load_eq_ok_iff {path : String} {raw : List Char} {env : String → Option String}
    {fromStr : List Char → Except String Config} {cfg : Config} :
    Config.load path (.ok raw) env fromStr = .ok cfg ↔
      ∃ text, interpolatedLines env (raw.splitOn '\n') = .ok text ∧ fromStr text = .ok cfg ∧
        cfg.validate = .ok () := by
  rw [← interpolateLines_fst env _ []]
  constructor
  · intro h
    obtain ⟨raw', hraw, h⟩ := except_bind_ok h
    cases hraw
    obtain ⟨text, htext, h⟩ := except_bind_ok h
    obtain ⟨cfg', hparse, h⟩ := except_bind_ok h
    obtain ⟨_, hvalid, h⟩ := except_bind_ok h
    cases h
    refine ⟨text, htext, ?_, hvalid⟩
    cases hcfg : fromStr text with
    | error e =>
      rw [hcfg] at hparse
      cases hparse
    | ok cfg' =>
      rw [hcfg] at hparse
      cases hparse
      rfl
  · rintro ⟨text, htext, hparse, hvalid⟩
    change (((interpolateLines env (raw.splitOn '\n')).from []).1 >>= fun text => _) = _
    rw [htext]
    change ((fromStr text).mapError ConfigError.parse >>= fun cfg => _) = _
    rw [hparse]
    change (cfg.validate >>= fun _ => _) = _
    rw [hvalid]
    rfl

/-- What the file becomes, from what its line becomes. -/
theorem Surroundings.interpolatedLines_raw {env : String → Option String} {file : ReferenceFile}
    {front back : List Char} (h : Surroundings env file front back) (hfile : file.WellFormed)
    (v : String) :
    interpolatedLines (Function.update env file.var (some v)) (file.raw.splitOn '\n') =
      if file.InCode then .ok (front ++ '"' :: (v.toList ++ '"' :: back))
      else if file.InComment then .ok (front ++ '"' :: (file.reference ++ '"' :: back))
      else .error .unclosedInterpolation := by
  obtain ⟨before, a, b, after, hbefore, ha, hb, hafter, rfl, rfl⟩ := h.around
  have hlines (line : List Char) := @interpolatedLines_append _ _ _ _ _ line
    (hbefore.imp fun _ _ => interpolatedLine_update h.undefined (some v))
    (hafter.imp fun _ _ => interpolatedLine_update h.undefined (some v))
  have ha' := interpolated_update h.undefined (some v) ha
  have hb' := interpolated_update h.undefined (some v) hb
  rw [ReferenceFile.splitOn_raw hfile, hlines]
  split
  · rename_i hcode
    rw [ReferenceFile.interpolatedLine_inCode hfile hcode ha' hb' (Function.update_self _ _ _)]
    simp [Except.map]
  · rename_i hcode
    split
    · rename_i hcomment
      rw [ReferenceFile.interpolatedLine_inComment hcomment ha']
      have hbehind : findCommentStart file.line - file.scalarEnd = 0 := by
        unfold ReferenceFile.InComment at hcomment
        unfold ReferenceFile.scalarEnd
        omega
      rw [hbehind] at hb ⊢
      obtain rfl : b = [] := by
        rw [List.take_zero, interpolated_closed env noReference_nil] at hb
        cases hb
        rfl
      simp [Except.map]
    · rename_i hcomment
      rw [ReferenceFile.interpolatedLine_across hfile hcode hcomment ha']
      rfl

theorem QuotedField.eq_of_set {fromStr : List Char → Except String Config} {base : Config}
    {f : StringField} {front back : List Char} (h : QuotedField fromStr base f front back)
    {v w : String} (heq : base.set f v = base.set f w) : v = w := by
  have hget := congrArg (·.get? f) heq
  simpa [Config.get?_set h.present] using hget

/-- The scalar's text is read back from its field exactly if it stands for itself. -/
theorem QuotedField.reads_iff {fromStr : List Char → Except String Config} {base : Config}
    {f : StringField} {front back : List Char} (h : QuotedField fromStr base f front back)
    {v : String} (hv : ∀ c ∈ v.toList, isBreak c = false) :
    fromStr (front ++ '"' :: (v.toList ++ '"' :: back)) = .ok (base.set f v) ↔
      Verbatim v.toList := by
  constructor
  · intro hparse
    obtain ⟨r, w, hscan, hget, hreads⟩ := h.opens _ _ hparse
    rw [Config.get?_set h.present] at hget
    cases hget
    exact verbatim_of_reads hv hscan hreads
  · intro hverbatim
    rw [h.reads _ _ (scan_verbatim hverbatim back), String.ofList_toList]

theorem ReferenceFile.verbatim_reference {file : ReferenceFile} (h : file.WellFormed) :
    Verbatim file.reference := by
  intro c hc
  have hcases : c = '$' ∨ c = '{' ∨ c ∈ file.name ∨ c = '}' := by
    simpa [ReferenceFile.reference] using hc
  rcases hcases with rfl | rfl | hname | rfl
  · decide
  · decide
  · exact h.name c hname
  · decide

/-- **A value reaches its field if and only if YAML reads it as it stands.**  In a file that is
    otherwise valid, where the value of a string field is a double-quoted scalar that is one
    reference to a variable, and for every value on one line: the file is loaded, with this
    value in the field and the others as they are, exactly if the scanner sees the reference
    and each character of the value stands for itself between double quotes, and the value is
    one that the field may have.  (A reference that is taken for a comment stays as it is.) -/
theorem value_reaches_field_iff {fromStr : List Char → Except String Config} {path : String}
    {file : ReferenceFile} {env : String → Option String} {base : Config} {f : StringField}
    {front back : List Char} {v : String} (hfile : file.WellFormed)
    (hrest : Surroundings env file front back) (hfield : QuotedField fromStr base f front back)
    (hv : ∀ c ∈ v.toList, isBreak c = false) :
    Config.load path (.ok file.raw) (Function.update env file.var (some v)) fromStr =
        .ok (base.set f v) ↔
      (file.InCode ∧ Verbatim v.toList ∨ file.InComment ∧ v.toList = file.reference) ∧
        (base.set f v).validate = .ok () := by
  have hapart : ¬ (file.InCode ∧ file.InComment) := by
    rintro ⟨hcode, hcomment⟩
    unfold ReferenceFile.InCode ReferenceFile.scalarEnd at hcode
    unfold ReferenceFile.InComment at hcomment
    omega
  rw [load_eq_ok_iff, hrest.interpolatedLines_raw hfile v]
  by_cases hcode : file.InCode
  · have hcomment : ¬ file.InComment := fun h => hapart ⟨hcode, h⟩
    simp [hcode, hcomment, hfield.reads_iff hv]
  · by_cases hcomment : file.InComment
    · have hreference : fromStr (front ++ '"' :: (file.reference ++ '"' :: back)) =
          .ok (base.set f (String.ofList file.reference)) :=
        hfield.reads _ _ (scan_verbatim (ReferenceFile.verbatim_reference hfile) back)
      rw [if_neg hcode, if_pos hcomment]
      constructor
      · rintro ⟨text, htext, hparse, hvalid⟩
        cases htext
        rw [hreference] at hparse
        have hsame := hfield.eq_of_set (Except.ok.inj hparse)
        exact ⟨Or.inr ⟨hcomment, by rw [← hsame, String.toList_ofList]⟩, hvalid⟩
      · rintro ⟨hcases, hvalid⟩
        rcases hcases with ⟨hcode', -⟩ | ⟨-, hv⟩
        · exact absurd hcode' hcode
        · refine ⟨_, rfl, ?_, hvalid⟩
          rw [hreference, ← hv, String.ofList_toList]
    · simp [hcode, hcomment]

/-! ### A small file -/

/-- A parser of the one file that has `front` and `back` around a scalar. -/
def parseAround (base : Config) (f : StringField) (front back text : List Char) :
    Except String Config :=
  if text.take (front.length + 1) = front ++ ['"'] then
    match scan (text.drop (front.length + 1)) with
    | some (.closed value after) =>
      if after = back then .ok (base.set f (String.ofList value))
      else .error "did not find expected node content"
    | _ => .error "found unexpected end of stream"
  else .error "invalid type"

theorem parseAround_quote (base : Config) (f : StringField) (front back text : List Char) :
    parseAround base f front back (front ++ '"' :: text) =
      match scan text with
      | some (.closed value after) =>
        if after = back then .ok (base.set f (String.ofList value))
        else .error "did not find expected node content"
      | _ => .error "found unexpected end of stream" := by
  have hsplit : front ++ '"' :: text = (front ++ ['"']) ++ text := by simp
  have hlength : (front ++ ['"']).length = front.length + 1 := by simp
  rw [parseAround, hsplit, ← hlength, List.take_left, List.drop_left, if_pos rfl]

theorem quotedField_parseAround {base : Config} {f : StringField} (h : (base.get? f).isSome)
    (front back : List Char) :
    QuotedField (parseAround base f front back) base f front back where
  present := h
  reads := by
    intro text value hscan
    rw [parseAround_quote, hscan]
    dsimp only
    rw [if_pos rfl]
  opens := by
    intro text cfg hparse
    rw [parseAround_quote] at hparse
    split at hparse
    · rename_i value after hscan
      split at hparse
      · cases hparse
        exact ⟨_, _, hscan, Config.get?_set h _, String.toList_ofList⟩
      · cases hparse
    · cases hparse

theorem interpolatedLine_plain (env : String → Option String) {line : List Char}
    (hhash : '#' ∉ line) (hplain : findOpening line = none) :
    interpolatedLine env line = .ok line := by
  rw [interpolatedLine, findCommentStart_of_noHash hhash, List.take_length, List.drop_length,
    interpolated_closed env (findOpening_eq_none_iff.mp hplain)]
  simp [Except.map]

theorem ReferenceFile.length_line (file : ReferenceFile) :
    file.line.length = file.scalarEnd + file.b.length := by
  unfold ReferenceFile.line ReferenceFile.scalarEnd
  simp only [List.length_append, List.length_cons]
  omega

/-- The rest of a file that has neither a comment nor another reference is read as it is. -/
theorem surroundings_plain {env : String → Option String} {file : ReferenceFile}
    (henv : env file.var = none) (hhash : '#' ∉ file.line)
    (hlines : ∀ l ∈ file.before ++ file.after, '#' ∉ l ∧ findOpening l = none)
    (ha : findOpening file.a = none) (hb : findOpening file.b = none) :
    Surroundings env file (file.before.flatMap (· ++ ['\n']) ++ file.a)
      (file.b ++ file.after.flatMap ('\n' :: ·)) := by
  have hplain (ls : List (List Char)) (h : ∀ l ∈ ls, '#' ∉ l ∧ findOpening l = none) :
      List.Forall₂ (fun line out => interpolatedLine env line = .ok out) ls ls :=
    List.forall₂_same.mpr fun l hl => interpolatedLine_plain env (h l hl).1 (h l hl).2
  have hlength := file.length_line
  have htakeA : file.a.length ≤ findCommentStart file.line := by
    rw [findCommentStart_of_noHash hhash, hlength, ReferenceFile.scalarEnd]
    omega
  have htakeB : file.b.length ≤ findCommentStart file.line - file.scalarEnd := by
    rw [findCommentStart_of_noHash hhash, hlength]
    omega
  refine ⟨henv, file.before, file.a, file.b, file.after, ?_, ?_, ?_, ?_, ?_, ?_⟩
  · exact hplain _ fun l hl => hlines l (List.mem_append_left _ hl)
  · rw [List.take_of_length_le htakeA]
    exact interpolated_closed env (findOpening_eq_none_iff.mp ha)
  · rw [List.take_of_length_le htakeB]
    exact interpolated_closed env (findOpening_eq_none_iff.mp hb)
  · exact hplain _ fun l hl => hlines l (List.mem_append_right _ hl)
  · rw [List.drop_of_length_le htakeA, List.append_nil]
  · rw [List.drop_of_length_le htakeB, List.append_nil]

def smallFile : ReferenceFile where
  before := ["clusters:".toList]
  a := "- \x7b name: a, bootstrap: x, sasl: \x7b mechanism: PLAIN, username: u, password: ".toList
  name := "PW".toList
  b := " \x7d \x7d".toList
  after := []

def smallBase : Config where
  clusters := [⟨"a", "x", 0, some ⟨.plain, "u", "", true⟩, none⟩]
  server := ⟨8080⟩
  limits := ⟨10, 250000⟩

def smallFront : List Char := smallFile.before.flatMap (· ++ ['\n']) ++ smallFile.a

def smallBack : List Char := smallFile.b ++ smallFile.after.flatMap ('\n' :: ·)

theorem smallFile_wellFormed : smallFile.WellFormed where
  lines := by decide
  name := by decide
  closing := by decide

theorem smallFile_inCode : smallFile.InCode := by
  rw [ReferenceFile.InCode, findCommentStart_of_noHash (by decide), ReferenceFile.length_line]
  exact Nat.le_add_right _ _

theorem smallFile_surroundings :
    Surroundings (fun _ => none) smallFile smallFront smallBack :=
  surroundings_plain rfl (by decide) (by decide) (by decide) (by decide)

theorem small_value_reaches_field :
    Config.load "arne.yaml" (.ok smallFile.raw)
        (Function.update (fun _ => none) smallFile.var (some "s3cret"))
        (parseAround smallBase (.password 0) smallFront smallBack) =
      .ok (smallBase.set (.password 0) "s3cret") :=
  (value_reaches_field_iff smallFile_wellFormed smallFile_surroundings
    (quotedField_parseAround rfl smallFront smallBack) (by simp [isBreak])).mpr
      ⟨Or.inl ⟨smallFile_inCode, by decide⟩, rfl⟩

/-- A password with a quote in it does not arrive, in the same file. -/
theorem quote_breaks_value :
    smallFile.WellFormed ∧ Surroundings (fun _ => none) smallFile smallFront smallBack ∧
      QuotedField (parseAround smallBase (.password 0) smallFront smallBack) smallBase
        (.password 0) smallFront smallBack ∧
      Config.load "arne.yaml" (.ok smallFile.raw)
          (Function.update (fun _ => none) smallFile.var (some "s3\"cret"))
          (parseAround smallBase (.password 0) smallFront smallBack) ≠
        .ok (smallBase.set (.password 0) "s3\"cret") := by
  have hfield : QuotedField (parseAround smallBase (.password 0) smallFront smallBack) smallBase
      (.password 0) smallFront smallBack := quotedField_parseAround rfl smallFront smallBack
  refine ⟨smallFile_wellFormed, smallFile_surroundings, hfield, fun hload => ?_⟩
  obtain ⟨text, htext, hparse, -⟩ := load_eq_ok_iff.mp hload
  rw [smallFile_surroundings.interpolatedLines_raw smallFile_wellFormed,
    if_pos smallFile_inCode] at htext
  cases htext
  have hverbatim := (hfield.reads_iff (by simp [isBreak])).mp hparse
  revert hverbatim
  decide

end Arne.Settings
