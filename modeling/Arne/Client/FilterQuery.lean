import Arne.Message.Filter

/-!
# The client-side filter (`lib/filterQuery.ts`)

`parseFilterQuery` reads the text of the filter box and returns what a page request
sends to the server together with the predicate the live tail is filtered with.
The predicate works on parsed JavaScript values: objects have a prototype, and
their own properties come in JavaScript's order.
-/

namespace Arne.Client

open Arne.Message

inductive TimelineFilterKind where
  | contains
  | keyContains
  | valueContains
  | keyEq
  | valueEq
  | jsonEq
  | jsonContains
  | keyNeq
  | valueNeq
  | jsonNeq
  | keyCmp
  | valueCmp
  | jsonCmp
deriving DecidableEq, Repr

/-- The kind's wire text. -/
def TimelineFilterKind.wire : TimelineFilterKind → String
  | .contains => "contains"
  | .keyContains => "key_contains"
  | .valueContains => "value_contains"
  | .keyEq => "key_eq"
  | .valueEq => "value_eq"
  | .jsonEq => "json_eq"
  | .jsonContains => "json_contains"
  | .keyNeq => "key_neq"
  | .valueNeq => "value_neq"
  | .jsonNeq => "json_neq"
  | .keyCmp => "key_cmp"
  | .valueCmp => "value_cmp"
  | .jsonCmp => "json_cmp"

inductive CmpOpWire where
  | gt
  | gte
  | lt
  | lte
deriving DecidableEq, Repr

def CmpOpWire.wire : CmpOpWire → String
  | .gt => "gt"
  | .gte => "gte"
  | .lt => "lt"
  | .lte => "lte"

structure FilterQueryApi where
  filter : TimelineFilterKind
  q : String
  path : Option String
  op : Option CmpOpWire
deriving DecidableEq, Repr

structure ParsedFilterQuery where
  api : Option FilterQueryApi
  predicate : MessageOut → Bool

/-! ### Paths -/

/-- The tokenizer: characters still to read, segments so far, the name being
    collected and the two flags. -/
def splitPathFrom : List Char → List Segment → List Char → Bool → Bool → List Segment
  | [], segments, current, _, afterMarker =>
      if !(afterMarker && current == []) then segments ++ [.name (String.ofList current)]
      else segments
  | '[' :: ']' :: rest, segments, current, false, _ =>
      splitPathFrom rest
        ((if current != [] then segments ++ [.name (String.ofList current)] else segments) ++
          [.anyElement]) [] false true
  | c :: rest, segments, current, inQuotes, afterMarker =>
      if c == '"' then splitPathFrom rest segments current (!inQuotes) afterMarker
      else if c == '.' && !inQuotes then
        splitPathFrom rest
          (if !(afterMarker && current == []) then segments ++ [.name (String.ofList current)]
            else segments) [] inQuotes false
      else splitPathFrom rest segments (current ++ [c]) inQuotes false

def splitPath (path : String) : List Segment := splitPathFrom path.toList [] [] false false

/-- The nodes a path reaches: parsed values, and what a lookup finds on the
    prototype of every object: functions, and the prototype itself. -/
inductive Node where
  | json (v : Json)
  | function
  | objectPrototype

/-- The function-valued properties of `Object.prototype`. -/
def prototypeFunctions : List String :=
  ["constructor", "__defineGetter__", "__defineSetter__", "hasOwnProperty", "__lookupGetter__",
    "__lookupSetter__", "isPrototypeOf", "propertyIsEnumerable", "toString", "valueOf",
    "toLocaleString"]

/-- `obj[first]` when `first in obj`, for a parsed object. -/
def member (members : List (String × Json)) (first : String) : Option Node :=
  match members.find? fun e => e.1 == first with
  | some e => some (.json e.2)
  | none =>
      if first == "__proto__" then some .objectPrototype
      else if prototypeFunctions.contains first then some .function
      else none

/-- `obj[first]` when `first in obj`, for `Object.prototype`, whose own prototype is
    null. -/
def prototypeMember (first : String) : Option Node :=
  if first == "__proto__" then some (.json .null)
  else if prototypeFunctions.contains first then some .function
  else none

/-- `/^\+?\d+$/`. -/
def isIndexText (text : String) : Bool :=
  let digits := match text.toList with
    | '+' :: cs => cs
    | cs => cs
  digits != [] && digits.all fun c => '0' ≤ c && c ≤ '9'

/-- `Number` of an index text.  Where it rounds, it is past the end of any array. -/
def indexNumber (text : String) : Nat :=
  (text.toList.filter (· != '+')).foldl (fun n c => 10 * n + (c.toNat - '0'.toNat)) 0

def walk : List Segment → Node → List Node
  | [], node => [node]
  | .anyElement :: rest, .json (.array items) => items.flatMap fun v => walk rest (.json v)
  | .anyElement :: _, _ => []
  | .name first :: rest, .json (.array items) =>
      if !isIndexText first then []
      else match items[indexNumber first]? with
        | some v => walk rest (.json v)
        | none => []
  | .name first :: rest, .json (.object members) =>
      match member members first with
      | some v => walk rest v
      | none => []
  | .name first :: rest, .objectPrototype =>
      match prototypeMember first with
      | some v => walk rest v
      | none => []
  | .name _ :: _, _ => []

def pathCandidates (root : Json) (path : String) : List Node := walk (splitPath path) (.json root)

/-- The index of the first operator outside double quotes. -/
def unquotedOperatorIndexFrom : Nat → Bool → List Char → Option Nat
  | _, _, [] => none
  | i, inQuotes, c :: rest =>
      if c == '"' then unquotedOperatorIndexFrom (i + 1) (!inQuotes) rest
      else if inQuotes then unquotedOperatorIndexFrom (i + 1) inQuotes rest
      else if c == ':' || c == '=' || c == '>' || c == '<' then some i
      else if c == '!' && rest.head? == some '=' then some i
      else unquotedOperatorIndexFrom (i + 1) inQuotes rest

def unquotedOperatorIndex (text : List Char) : Option Nat := unquotedOperatorIndexFrom 0 false text

/-! ### Predicates -/

section Predicates

variable (env : TextEnv)

def jsonNumber (text : String) : Option Double :=
  match env.parse text with
  | some (.number v) => some v
  | _ => none

def scalarNumber : Node → Option Double
  | .json (.number v) => some v
  | .json (.string v) => jsonNumber env v
  | _ => none

def cmpHolds (op : CmpOpWire) (target expected : Double) : Bool :=
  match op with
  | .gt => Double.lt expected target
  | .gte => Double.le expected target
  | .lt => Double.lt target expected
  | .lte => Double.le target expected

/-- `m.value.text` when `m.value` is there and not a decode error. -/
def valueText (m : MessageOut) : Option String :=
  match m.value with
  | some v => if v.encoding == .decodeError then none else some v.text
  | none => none

def keyCmpPredicate (op : CmpOpWire) (q : String) (m : MessageOut) : Bool :=
  match jsonNumber env q, m.key with
  | some expected, some key =>
      match jsonNumber env key.text with
      | some target => cmpHolds op target expected
      | none => false
  | _, _ => false

def valueCmpPredicate (op : CmpOpWire) (q : String) (m : MessageOut) : Bool :=
  match jsonNumber env q, valueText m with
  | some expected, some text =>
      match env.parse text with
      | some parsed =>
          match scalarNumber env (.json parsed) with
          | some target => cmpHolds op target expected
          | none => false
      | none => false
  | _, _ => false

def anyJsonPathMatch (m : MessageOut) (path : String) (pred : Node → Bool) : Bool :=
  match valueText m with
  | some text =>
      match env.parse text with
      | some root => (pathCandidates root path).any pred
      | none => false
  | none => false

def jsonCmpPredicate (path : String) (op : CmpOpWire) (q : String) (m : MessageOut) : Bool :=
  match jsonNumber env q with
  | some expected =>
      anyJsonPathMatch env m path fun c =>
        match scalarNumber env c with
        | some target => cmpHolds op target expected
        | none => false
  | none => false

def keyContainsPredicate (q : String) (m : MessageOut) : Bool :=
  match m.key with
  | some key => containsText (env.toLowercase key.text) (env.toLowercase q)
  | none => false

def keyEqPredicate (q : String) (m : MessageOut) : Bool :=
  match m.key with
  | some key => env.toLowercase key.text == env.toLowercase q
  | none => false

def keyNeqPredicate (q : String) (m : MessageOut) : Bool :=
  match m.key with
  | some key => env.toLowercase key.text != env.toLowercase q
  | none => false

def valueContainsPredicate (q : String) (m : MessageOut) : Bool :=
  match valueText m with
  | some text => containsText (env.toLowercase text) (env.toLowercase q)
  | none => false

def containsPredicate (q : String) (m : MessageOut) : Bool :=
  let keyHit := keyContainsPredicate env q m
  let valueHit := valueContainsPredicate env q m
  keyHit || valueHit

/-- A key that is an array index: the canonical text of a number below `2³² - 1`. -/
def isArrayIndex (key : String) : Bool :=
  isIndexText key && key == toString (indexNumber key) && indexNumber key < 2 ^ 32 - 1

/-- `Object.entries`: array indexes in ascending order, then the other keys in the
    order of the text. -/
def objectEntries (members : List (String × Json)) : List (String × Json) :=
  ((members.filter fun e => isArrayIndex e.1).insertionSort
      fun a b => indexNumber a.1 ≤ indexNumber b.1) ++
    members.filter fun e => !isArrayIndex e.1

mutual

def jsonEqCi : Json → Json → Bool
  | .string a, .string b => env.toLowercase a == env.toLowercase b
  | .array a, .array b => a.length == b.length && jsonEqCiItems a b
  | .object a, .object b => a.length == b.length && jsonEqCiMembers a (objectEntries b)
  -- `a === b`
  | .number a, .number b => a.eqValue b
  | .bool a, .bool b => a == b
  | .null, .null => true
  | _, _ => false

/-- `a.every((x, i) => jsonEqCi(x, b[i]))`. -/
def jsonEqCiItems : List Json → List Json → Bool
  | x :: a, y :: b => jsonEqCi x y && jsonEqCiItems a b
  | _, _ => true

/-- `ea.every(..)`: each entry finds one of `eb` with its key up to case.  The order
    of `ea` does not matter. -/
def jsonEqCiMembers : List (String × Json) → List (String × Json) → Bool
  | [], _ => true
  | (k, va) :: ea, eb =>
      (match eb.find? fun e => env.toLowercase e.1 == env.toLowercase k with
        | some (_, vb) => jsonEqCi va vb
        | none => false) && jsonEqCiMembers ea eb

end

/-- The equality reading of a value; `none` when it is unreadable. -/
def valueEqualsCheck (q : String) (m : MessageOut) : Option Bool :=
  match valueText m with
  | none => none
  | some text =>
      match env.parse q, env.parse text with
      | some expected, some actual => some (jsonEqCi env actual expected)
      | _, _ => some (env.toLowercase text == env.toLowercase q)

def valueEqPredicate (q : String) (m : MessageOut) : Bool := valueEqualsCheck env q m == some true

def valueNeqPredicate (q : String) (m : MessageOut) : Bool := valueEqualsCheck env q m == some false

def scalarText : Node → Option String
  | .json (.string v) => some (env.toLowercase v)
  | .json (.number v) => some v.jsString
  | .json (.bool v) => some (if v then "true" else "false")
  | .json .null => some "null"
  | _ => none

def jsonEqPredicate (path q : String) (m : MessageOut) : Bool :=
  anyJsonPathMatch env m path fun c => scalarText env c == some (env.toLowercase q)

def jsonNeqPredicate (path q : String) (m : MessageOut) : Bool :=
  anyJsonPathMatch env m path fun c =>
    match scalarText env c with
    | some s => s != env.toLowercase q
    | none => false

def jsonContainsPredicate (path q : String) (m : MessageOut) : Bool :=
  anyJsonPathMatch env m path fun c =>
    match scalarText env c with
    | some s => containsText s (env.toLowercase q)
    | none => false

/-! ### Parsing the filter text -/

/-- `text.slice(n)`; the characters dropped are never parts of a surrogate pair. -/
def sliceFrom (text : List Char) (n : Nat) : String := String.ofList (text.drop n)

def prefixIs (text : List Char) (operator : String) : Bool :=
  env.toLowercase (String.ofList (text.take operator.length)) == operator

/-- The comparison operator at index `i`, with its length. -/
def cmpAt (text : List Char) (i : Nat) : Option (CmpOpWire × Nat) :=
  match text.drop i with
  | '>' :: '=' :: _ => some (.gte, 2)
  | '>' :: _ => some (.gt, 1)
  | '<' :: '=' :: _ => some (.lte, 2)
  | '<' :: _ => some (.lt, 1)
  | _ => none

/-- The text between two double quotes, for a text of at least both. -/
def quoted (text : List Char) : Option (List Char) :=
  match text with
  | '"' :: rest => if rest.getLast? = some '"' then some rest.dropLast else none
  | _ => none

def applyContains (q : String) : ParsedFilterQuery :=
  ⟨some ⟨.contains, q, none, none⟩, containsPredicate env q⟩

def applyAll : ParsedFilterQuery := ⟨none, fun _ => true⟩

/-- The `value.` branch: a path up to the first operator; none when there is no
    operator or no path. -/
def parseFieldQuery (rest : List Char) : Option ParsedFilterQuery :=
  match unquotedOperatorIndex rest with
  | none => none
  | some 0 => none
  | some opIdx =>
      let path := String.ofList (rest.take opIdx)
      match rest.drop opIdx with
      | ':' :: _ =>
          let q := sliceFrom rest (opIdx + 1)
          some ⟨some ⟨.jsonContains, q, some path, none⟩, jsonContainsPredicate env path q⟩
      | '=' :: _ =>
          let q := sliceFrom rest (opIdx + 1)
          some ⟨some ⟨.jsonEq, q, some path, none⟩, jsonEqPredicate env path q⟩
      | '!' :: _ =>
          let q := sliceFrom rest (opIdx + 2)
          some ⟨some ⟨.jsonNeq, q, some path, none⟩, jsonNeqPredicate env path q⟩
      | _ =>
          (cmpAt rest opIdx).map fun c =>
            let q := sliceFrom rest (opIdx + c.2)
            ⟨some ⟨.jsonCmp, q, some path, some c.1⟩, jsonCmpPredicate env path c.1 q⟩

/-- The comparison of a keyword of length `n`, with its query text, if the text
    starts with the keyword and `>` or `<`. -/
def keywordCmp (text : List Char) (gt lt : String) (n : Nat) : Option (CmpOpWire × String) :=
  if prefixIs env text gt || prefixIs env text lt then
    (cmpAt text n).map fun c => (c.1, sliceFrom text (n + c.2))
  else none

def parseUnquoted (text : List Char) : ParsedFilterQuery :=
  if prefixIs env text "key:" then
    let q := sliceFrom text 4
    ⟨some ⟨.keyContains, q, none, none⟩, keyContainsPredicate env q⟩
  else if prefixIs env text "key=" then
    let q := sliceFrom text 4
    ⟨some ⟨.keyEq, q, none, none⟩, keyEqPredicate env q⟩
  else if prefixIs env text "key!=" then
    let q := sliceFrom text 5
    ⟨some ⟨.keyNeq, q, none, none⟩, keyNeqPredicate env q⟩
  else match keywordCmp env text "key>" "key<" 3 with
    | some (op, q) => ⟨some ⟨.keyCmp, q, none, some op⟩, keyCmpPredicate env op q⟩
    | none =>
      if prefixIs env text "value:" then
        let q := sliceFrom text 6
        ⟨some ⟨.valueContains, q, none, none⟩, valueContainsPredicate env q⟩
      else if prefixIs env text "value=" then
        let q := sliceFrom text 6
        ⟨some ⟨.valueEq, q, none, none⟩, valueEqPredicate env q⟩
      else if prefixIs env text "value!=" then
        let q := sliceFrom text 7
        ⟨some ⟨.valueNeq, q, none, none⟩, valueNeqPredicate env q⟩
      else match keywordCmp env text "value>" "value<" 5 with
        | some (op, q) => ⟨some ⟨.valueCmp, q, none, some op⟩, valueCmpPredicate env op q⟩
        | none =>
          if prefixIs env text "value." then
            (parseFieldQuery env (text.drop 6)).getD (applyContains env (String.ofList text))
          else applyContains env (String.ofList text)

def parseFilterQuery (text : String) : ParsedFilterQuery :=
  if text.toList = [] then applyAll
  else match quoted text.toList with
    | some [] => applyAll
    | some q => applyContains env (String.ofList q)
    | none => parseUnquoted env text.toList

end Predicates

end Arne.Client
