import Arne.Message.Types
import Arne.Message.Json

/-!
# The server-side filter (`message/filter.rs`)

`Filter.parse` turns the wire parameters of a timeline request into a filter, and
`Filter.matches` decides one decoded message.  Object members are kept in the
order of the JSON text; the map they are parsed into iterates by key, so `find`
over an object goes through `mapEntries`.
-/

namespace Arne.Message

/-- Numeric comparison operators; a non-numeric target or query matches nothing. -/
inductive CmpOp where
  | gt
  | gte
  | lt
  | lte
deriving DecidableEq, Repr

/-- The filter kinds, each holding what `Filter.parse` prepared once. -/
inductive Filter where
  | keyEquals (q : String)
  | keyContains (q : String)
  | valueContains (q : String)
  | valueEquals (text : String) (json : Option Json)
  | keyNotEquals (q : String)
  | valueNotEquals (text : String) (json : Option Json)
  | jsonPathEquals (path value : String)
  | jsonPathNotEquals (path value : String)
  | jsonPathContains (path value : String)
  | keyCompare (op : CmpOp) (value : Option Double)
  | valueCompare (op : CmpOp) (value : Option Double)
  | jsonPathCompare (path : String) (op : CmpOp) (value : Option Double)
  | contains (q : String)

def CmpOp.parse (op : Option String) (kind : String) : Except String CmpOp :=
  match op with
  | some "gt" => .ok .gt
  | some "gte" => .ok .gte
  | some "lt" => .ok .lt
  | some "lte" => .ok .lte
  | some other => .error ("filter " ++ kind ++ " does not support op '" ++ other ++ "'")
  | none => .error ("filter " ++ kind ++ " requires an op parameter")

def CmpOp.holds (op : CmpOp) (target expected : Double) : Bool :=
  match op with
  | .gt => Double.lt expected target
  | .gte => Double.le expected target
  | .lt => Double.lt target expected
  | .lte => Double.le target expected

/-- Substring search, as `str::contains` and `String.includes` do it. -/
def containsText (text needle : String) : Bool :=
  text.toList.tails.any fun suffix => needle.toList.isPrefixOf suffix

section Parsing

variable (env : TextEnv)

/-- `serde_json::from_str::<f64>`: the texts of the JSON number grammar. -/
def jsonNumber (text : String) : Option Double :=
  match env.parse text with
  | some (.number n) => some n
  | _ => none

/-- The numeric reading of a JSON scalar: a number itself, or a string that
    parses as one. -/
def scalarNumber : Json → Option Double
  | .number n => some n
  | .string s => jsonNumber env s
  | _ => none

def valueNumber (text : String) : Option Double :=
  (env.parse text).bind (scalarNumber env)

/-- A required `path` parameter, with the filter kind's own error text. -/
def requirePath (kind : String) (path : Option String) : Except String String :=
  match path with
  | some p => .ok p
  | none => .error ("filter " ++ kind ++ " requires a path parameter")

def Filter.parse (kind q : String) (path op : Option String) : Except String Filter :=
  match kind with
  | "key_eq" => .ok (.keyEquals (env.toLowercase q))
  | "key_contains" => .ok (.keyContains (env.toLowercase q))
  | "value_contains" => .ok (.valueContains (env.toLowercase q))
  | "value_eq" => .ok (.valueEquals (env.toLowercase q) (env.parse q))
  | "key_neq" => .ok (.keyNotEquals (env.toLowercase q))
  | "value_neq" => .ok (.valueNotEquals (env.toLowercase q) (env.parse q))
  | "json_neq" => do
      let p ← requirePath "json_neq" path
      pure (.jsonPathNotEquals p (env.toLowercase q))
  | "contains" => .ok (.contains (env.toLowercase q))
  | "json_eq" => do
      let p ← requirePath "json_eq" path
      pure (.jsonPathEquals p (env.toLowercase q))
  | "json_contains" => do
      let p ← requirePath "json_contains" path
      pure (.jsonPathContains p (env.toLowercase q))
  | "key_cmp" => do
      let o ← CmpOp.parse op kind
      pure (.keyCompare o (jsonNumber env q))
  | "value_cmp" => do
      let o ← CmpOp.parse op kind
      pure (.valueCompare o (jsonNumber env q))
  | "json_cmp" => do
      let p ← requirePath "json_cmp" path
      let o ← CmpOp.parse op kind
      pure (.jsonPathCompare p o (jsonNumber env q))
  | other => .error ("unknown filter kind '" ++ other ++ "'")

end Parsing

/-! ### Paths -/

inductive Segment where
  | name (n : String)
  -- Unquoted `[]`: any element of the array may satisfy the rest of the path.
  | anyElement
deriving DecidableEq, Repr

/-- The tokenizer loop: characters still to read, segments so far, the name being
    collected and the two flags.  `skip` is the extra `i += 1` after a marker: its
    `]` is passed over. -/
def splitPathLoop :
    List Char → Bool → List Segment → List Char → Bool → Bool → List Segment
  | [], _, segments, current, _, afterMarker =>
      if !(afterMarker && current.isEmpty) then segments ++ [.name (String.ofList current)]
      else segments
  | _ :: rest, true, segments, current, inQuotes, afterMarker =>
      splitPathLoop rest false segments current inQuotes afterMarker
  | c :: rest, false, segments, current, inQuotes, afterMarker =>
      if c == '"' then splitPathLoop rest false segments current (!inQuotes) afterMarker
      else if c == '.' && !inQuotes then
        -- the separator right after a marker mints no empty name
        if !(afterMarker && current.isEmpty) then
          splitPathLoop rest false (segments ++ [.name (String.ofList current)]) [] inQuotes false
        else splitPathLoop rest false segments current inQuotes false
      else if c == '[' && !inQuotes && rest.head? == some ']' then
        let named :=
          if !current.isEmpty then segments ++ [.name (String.ofList current)] else segments
        splitPathLoop rest true (named ++ [.anyElement]) [] inQuotes true
      else splitPathLoop rest false segments (current ++ [c]) inQuotes false

def splitPath (path : String) : List Segment := splitPathLoop path.toList false [] [] false false

def digitValue (c : Char) : Option Nat :=
  if '0' ≤ c ∧ c ≤ '9' then some (c.toNat - '0'.toNat) else none

def digitsValue : Nat → List Char → Option Nat
  | acc, [] => some acc
  | acc, c :: cs => (digitValue c).bind fun d => digitsValue (10 * acc + d) cs

/-- `str::parse::<usize>`: an optional plus sign and ASCII digits.  A value past
    `usize::MAX` is past the end of every array, which is what `get` makes of it. -/
def parseUsize (text : String) : Option Nat :=
  let body := match text.toList with
    | '+' :: cs => cs
    | cs => cs
  if body.isEmpty then none else digitsValue 0 body

/-- `Map::get`. -/
def mapGet (members : List (String × Json)) (key : String) : Option Json :=
  (members.find? fun m => m.1 == key).map Prod.snd

def walk : List Segment → Json → List Json
  | [], node => [node]
  | .name n :: rest, .object members =>
      match mapGet members n with
      | some v => walk rest v
      | none => []
  | .name n :: rest, .array items =>
      match (parseUsize n).bind fun i => items[i]? with
      | some v => walk rest v
      | none => []
  | .name _ :: _, _ => []
  | .anyElement :: rest, .array items => items.flatMap (walk rest)
  | .anyElement :: _, _ => []

def pathCandidates (root : Json) (path : String) : List Json := walk (splitPath path) root

/-! ### Equality and texts of JSON values -/

/-- `Map::iter`: the map is ordered by key. -/
def mapEntries (members : List (String × Json)) : List (String × Json) :=
  members.insertionSort fun a b => ¬ b.1 < a.1

section Comparing

variable (lower : String → String)

mutual

/-- Case-insensitive structural equality: string keys and values lower-cased,
    numbers as doubles, everything else exact. -/
def jsonEqCi : Json → Json → Bool
  | .string x, .string y => lower x == lower y
  | .number x, .number y => x.eqValue y
  | .array x, .array y => x.length == y.length && jsonEqCiItems x y
  | .object x, .object y => x.length == y.length && jsonEqCiMembers x (mapEntries y)
  | .null, .null => true
  | .bool a, .bool b => a == b
  | _, _ => false

/-- `x.iter().zip(y).all(..)`. -/
def jsonEqCiItems : List Json → List Json → Bool
  | xa :: xs, yb :: ys => jsonEqCi xa yb && jsonEqCiItems xs ys
  | _, _ => true

/-- Every member of `x` finds a member of `y` with its key up to case, and equals
    the first it finds. -/
def jsonEqCiMembers : List (String × Json) → List (String × Json) → Bool
  | [], _ => true
  | (k, xv) :: xs, ys =>
      (match ys.find? fun e => lower e.1 == lower k with
        | some (_, yv) => jsonEqCi xv yv
        | none => false) && jsonEqCiMembers xs ys

end

/-- The equality reading of a readable value text. -/
def valueEquals (env : TextEnv) (text : String) (json : Option Json) (valueText : String) : Bool :=
  match json, env.parse valueText with
  | some expected, some actual => jsonEqCi env.toLowercase actual expected
  | _, _ => env.toLowercase valueText == text

def scalarText : Json → Option String
  | .string s => some (lower s)
  | .number n => some n.rustDisplay
  | .bool b => some (if b then "true" else "false")
  | .null => some "null"
  | _ => none

end Comparing

/-! ### Matching -/

variable (env : TextEnv)

/-- The value of a message, unless its decoding failed: then `text` is the base64
    of raw bytes and holds no content to search. -/
def readableValue (msg : MessageOut) : Option DecodedPayload :=
  msg.value.filter fun v => v.encoding != .decodeError

def anyJsonPathMatch (msg : MessageOut) (path : String) (pred : Json → Bool) : Bool :=
  match readableValue msg with
  | some v =>
      match env.parse v.text with
      | some root => (pathCandidates root path).any pred
      | none => false
  | none => false

def Filter.matches (filter : Filter) (msg : MessageOut) : Bool :=
  let lower := env.toLowercase
  match filter with
  | .keyEquals q => msg.key.any fun k => lower k.text == q
  | .keyContains q => msg.key.any fun k => containsText (lower k.text) q
  | .valueContains q => (readableValue msg).any fun v => containsText (lower v.text) q
  | .valueEquals text json => (readableValue msg).any fun v => Message.valueEquals env text json v.text
  | .keyNotEquals q => msg.key.any fun k => lower k.text != q
  | .valueNotEquals text json =>
      (readableValue msg).any fun v => !Message.valueEquals env text json v.text
  | .jsonPathEquals path value =>
      anyJsonPathMatch env msg path fun c => (scalarText lower c).any (· == value)
  | .jsonPathNotEquals path value =>
      anyJsonPathMatch env msg path fun c => (scalarText lower c).any (· != value)
  | .jsonPathContains path value =>
      anyJsonPathMatch env msg path fun c => (scalarText lower c).any (containsText · value)
  | .keyCompare op value =>
      value.any fun expected =>
        (msg.key.bind fun k => jsonNumber env k.text).any (op.holds · expected)
  | .valueCompare op value =>
      value.any fun expected =>
        ((readableValue msg).bind fun v => valueNumber env v.text).any (op.holds · expected)
  | .jsonPathCompare path op value =>
      value.any fun expected =>
        anyJsonPathMatch env msg path fun c => (scalarNumber env c).any (op.holds · expected)
  | .contains q =>
      (msg.key.any fun k => containsText (lower k.text) q) ||
        (readableValue msg).any fun v => containsText (lower v.text) q

end Arne.Message
