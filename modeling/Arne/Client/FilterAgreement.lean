import Arne.Client.LookupOrder
import Arne.Message.PathText

/-!
# The two filters decide alike

The client filters its live tail with a predicate of its own, the server filters a
page; both start from the same text.  They take the same path apart alike and find
the same nodes, with two exceptions: a lookup of `__proto__` on a JavaScript object
without such a key, and numbers that the two languages print differently.  Two
whole values are compared alike unless they part at a lookup of a key that the query
has in several cases.
-/

namespace Arne.Client

open Arne.Message

/-! ### Paths and indexes -/

theorem splitPathFrom_eq (l : List Char) (segments : List Segment) (current : List Char)
    (inQuotes afterMarker : Bool) :
    splitPathFrom l segments current inQuotes afterMarker =
      splitPathLoop l false segments current inQuotes afterMarker := by
  fun_induction splitPathFrom l segments current inQuotes afterMarker with
  | case1 segments current inQuotes afterMarker hnamed =>
    rw [splitPathLoop, if_pos (by simpa [List.isEmpty_iff] using hnamed)]
  | case2 segments current inQuotes afterMarker hnamed =>
    rw [splitPathLoop, if_neg (by simpa [List.isEmpty_iff] using hnamed)]
  | case3 rest segments current afterMarker ih =>
    -- the marker's `]` is the one character the server's loop passes over
    rw [ih]
    cases current <;> simp [splitPathLoop]
  | case4 c rest segments current inQuotes afterMarker _ hquote ih =>
    rw [ih, splitPathLoop, if_pos hquote]
  | case5 c rest segments current inQuotes afterMarker _ hquote hdot ih =>
    rw [ih, splitPathLoop, if_neg hquote, if_pos hdot]
    by_cases hnamed : (afterMarker && current == []) = true
    · obtain ⟨rfl, rfl⟩ : afterMarker = true ∧ current = [] := by simpa using hnamed
      rfl
    · have hnamed : (afterMarker && current == []) = false := by simpa using hnamed
      have hempty : current.isEmpty = (current == []) := by cases current <;> rfl
      rw [hempty, hnamed, Bool.not_false, if_pos rfl, if_pos rfl]
  | case6 c rest segments current inQuotes afterMarker hmarker hquote hdot ih =>
    have hno : ¬ (c == '[' && !inQuotes && rest.head? == some ']') = true := by
      intro h
      obtain ⟨⟨rfl, hq⟩, hhead⟩ : (c = '[' ∧ inQuotes = false) ∧ rest.head? = some ']' := by
        simpa using h
      obtain ⟨rest', rfl⟩ := List.head?_eq_some_iff.mp hhead
      exact hmarker rest' hq rfl rfl
    rw [ih, splitPathLoop, if_neg hquote, if_neg hdot, if_neg hno]

/-- Both sides split a path into the same segments. -/
theorem splitPath_eq (path : String) : splitPath path = Message.splitPath path :=
  splitPathFrom_eq _ _ _ _ _

/-- A path of quoted names and markers is read back on both sides as it was written, and
    any other text alike. -/
theorem quoted_path_read_back {segments : List Segment} (hne : segments ≠ [])
    (hquotable : Quotable segments) :
    (Message.splitPath (String.ofList (pathText quotedName segments)) = segments ∧
      splitPath (String.ofList (pathText quotedName segments)) = segments) ∧
      ∀ path : String, splitPath path = Message.splitPath path := by
  have hserver := splitPath_quoted hquotable hne
  have hagree : ∀ path : String, splitPath path = Message.splitPath path :=
    fun path => splitPathFrom_eq _ _ _ _ _
  exact ⟨⟨hserver, (hagree _).trans hserver⟩, hagree⟩

/-- Two names with a dot and a marker in them, and a marker between. -/
theorem dotted_names_read_back :
    Message.splitPath "\"a.b\"[].\"[]\"" = [.name "a.b", .anyElement, .name "[]"] ∧
      splitPath "\"a.b\"[].\"[]\"" = [.name "a.b", .anyElement, .name "[]"] :=
  have hquotable : Quotable [.name "a.b", .anyElement, .name "[]"] := by
    intro n hn
    have : n = "a.b" ∨ n = "[]" := by simpa using hn
    rcases this with rfl | rfl <;> decide
  (quoted_path_read_back (by decide) hquotable).1

theorem digitsValue_eq (acc : Nat) (cs : List Char) :
    digitsValue acc cs =
      if cs.all (fun c => '0' ≤ c && c ≤ '9') then
        some (cs.foldl (fun n c => 10 * n + (c.toNat - '0'.toNat)) acc)
      else none := by
  induction cs generalizing acc with
  | nil => rfl
  | cons c cs ih =>
    simp only [digitsValue, digitValue, List.all_cons, List.foldl_cons]
    by_cases hc : '0' ≤ c ∧ c ≤ '9'
    · rw [if_pos hc, Option.bind_some, ih]
      simp [hc.1, hc.2]
    · rw [if_neg hc, Option.bind_none]
      have : ('0' ≤ c && c ≤ '9') = false := by simpa using hc
      simp [this]

/-- The digits of an index text. -/
def withoutPlus : List Char → List Char
  | '+' :: cs => cs
  | cs => cs

theorem withoutPlus_cases (text : List Char) :
    text = withoutPlus text ∨ text = '+' :: withoutPlus text := by
  unfold withoutPlus
  split
  · exact Or.inr rfl
  · exact Or.inl rfl

theorem parseUsize_def (n : String) : parseUsize n =
    if (withoutPlus n.toList).isEmpty then none else digitsValue 0 (withoutPlus n.toList) := rfl

theorem isIndexText_def (n : String) : isIndexText n =
    (withoutPlus n.toList != [] && (withoutPlus n.toList).all fun c => '0' ≤ c && c ≤ '9') := rfl

/-- Both sides read the same index from a segment. -/
theorem parseUsize_eq (n : String) :
    parseUsize n = if isIndexText n then some (indexNumber n) else none := by
  have hplus : ∀ cs : List Char, cs.all (fun c => '0' ≤ c && c ≤ '9') = true →
      cs.filter (· != '+') = cs := by
    intro cs hcs
    apply List.filter_eq_self.mpr
    intro c hc
    have := List.all_eq_true.mp hcs c hc
    by_contra hne
    obtain rfl : c = '+' := by simpa using hne
    exact absurd this (by decide)
  have hbody : ∀ cs text : List Char, text = cs ∨ text = '+' :: cs →
      (if cs.isEmpty then none else digitsValue 0 cs) =
        if (cs != [] && cs.all fun c => '0' ≤ c && c ≤ '9') = true then
          some ((text.filter (· != '+')).foldl (fun n c => 10 * n + (c.toNat - '0'.toNat)) 0)
        else none := by
    intro cs text htext
    cases cs with
    | nil => rfl
    | cons c cs =>
      have hne : (c :: cs != []) = true := rfl
      rw [List.isEmpty_cons, if_neg Bool.false_ne_true, digitsValue_eq, hne, Bool.true_and]
      by_cases hall : (c :: cs).all (fun c => '0' ≤ c && c ≤ '9') = true
      · have hfilter : text.filter (· != '+') = c :: cs := by
          rcases htext with rfl | rfl
          · exact hplus _ hall
          · exact hplus _ hall
        rw [hfilter, if_pos hall]
      · rw [if_neg hall, if_neg hall]
  rw [parseUsize_def, isIndexText_def, indexNumber]
  exact hbody _ _ (withoutPlus_cases _)

/-- The walk ends on the null behind the prototype of an object: the last two
    segments are `__proto__`, and the object has no such key. -/
def nullBehindPrototype : List Segment → Json → Bool
  | .anyElement :: rest, .array items => items.any (nullBehindPrototype rest)
  | .name first :: rest, .array items =>
      match (parseUsize first).bind fun i => items[i]? with
      | some v => nullBehindPrototype rest v
      | none => false
  | .name first :: rest, .object members =>
      match mapGet members first with
      | some v => nullBehindPrototype rest v
      | none => first == "__proto__" && rest == [.name "__proto__"]
  | _, _ => false

theorem walk_function (segments : List Segment) :
    walk segments .function = [] ∨ walk segments .function = [.function] := by
  cases segments with
  | nil => exact Or.inr rfl
  | cons s rest =>
    cases s with
    | name first => exact Or.inl rfl
    | anyElement => exact Or.inl rfl

theorem walk_null (segments : List Segment) :
    walk segments (.json .null) = if segments = [] then [.json .null] else [] := by
  cases segments with
  | nil => rfl
  | cons s rest =>
    cases s with
    | name first => rfl
    | anyElement => rfl

theorem walk_prototypeFunctions (first : String) (rest : List Segment) {test : Node → Bool}
    (hfunction : test .function = false) :
    (match if prototypeFunctions.contains first then some Node.function else none with
      | some v => walk rest v
      | none => []).any test = false := by
  cases prototypeFunctions.contains first with
  | false => rfl
  | true => rcases walk_function rest with h | h <;> simp [h, hfunction]

/-- From the prototype, only `__proto__` as the last segment reaches a scalar. -/
theorem walk_objectPrototype_any (segments : List Segment) {test : Node → Bool}
    (hfunction : test .function = false) (hprototype : test .objectPrototype = false) :
    (walk segments .objectPrototype).any test =
      (segments == [.name "__proto__"] && test (.json .null)) := by
  cases segments with
  | nil => simp [walk, hprototype]
  | cons s rest =>
    cases s with
    | anyElement => simp [walk]
    | name first =>
      simp only [walk, prototypeMember]
      by_cases hproto : first = "__proto__"
      · subst hproto
        cases rest with
        | nil => simp [walk]
        | cons s rest => simp [walk_null]
      · have hname : (first == "__proto__") = false := beq_eq_false_iff_ne.mpr hproto
        have hsegment : (Segment.name first == .name "__proto__") = false :=
          beq_eq_false_iff_ne.mpr fun h => hproto (Segment.name.inj h)
        simp only [hname, Bool.false_eq_true, if_false, List.cons_beq_cons, hsegment,
          Bool.false_and]
        exact walk_prototypeFunctions first rest hfunction

/-- The client reaches the nodes the server reaches, and possibly the null behind a
    prototype; nothing else it reaches is a scalar. -/
theorem walk_any (segments : List Segment) (root : Json) (test : Node → Bool)
    (hfunction : test .function = false) (hprototype : test .objectPrototype = false) :
    (walk segments (.json root)).any test =
      ((Message.walk segments root).any (fun c => test (.json c)) ||
        (nullBehindPrototype segments root && test (.json .null))) := by
  induction segments generalizing root with
  | nil => simp [walk, Message.walk, nullBehindPrototype]
  | cons s rest ih =>
    cases s with
    | anyElement =>
      cases root with
      | array items =>
        simp only [walk, Message.walk, nullBehindPrototype, List.any_flatMap, ih]
        induction items with
        | nil => rfl
        | cons v items ihitems =>
          simp only [List.any_cons, ihitems]
          cases (Message.walk rest v).any fun c => test (.json c) <;>
            cases nullBehindPrototype rest v <;> cases test (.json .null) <;> simp
      | _ => simp [walk, Message.walk, nullBehindPrototype]
    | name first =>
      cases root with
      | array items =>
        simp only [walk, Message.walk, nullBehindPrototype, parseUsize_eq]
        cases hindex : isIndexText first with
        | false => simp
        | true =>
          simp only [Bool.not_true, Bool.false_eq_true, if_false, if_true, Option.bind_some]
          cases items[indexNumber first]? with
          | none => simp
          | some v => exact ih v
      | object members =>
        simp only [walk, Message.walk, nullBehindPrototype, member, mapGet]
        cases members.find? fun e => e.1 == first with
        | some e => exact ih e.2
        | none =>
          by_cases hproto : first = "__proto__"
          · subst hproto
            simp [walk_objectPrototype_any rest hfunction hprototype]
          · have hname : (first == "__proto__") = false := beq_eq_false_iff_ne.mpr hproto
            simp only [hname, Bool.false_eq_true, if_false, Option.map_none, List.any_nil,
              Bool.false_or, Bool.false_and]
            exact walk_prototypeFunctions first rest hfunction
      | _ => simp [walk, Message.walk, nullBehindPrototype]

/-! ### What both sides see of a message -/

section Messages

variable (env : TextEnv) (m : MessageOut)

theorem readableValue_text : (readableValue m).map DecodedPayload.text = valueText m := by
  unfold readableValue valueText
  cases m.value with
  | none => rfl
  | some v => cases h : v.encoding <;> simp [h]

theorem readableValue_any (f : String → Bool) :
    ((readableValue m).any fun v => f v.text) = (valueText m).any f := by
  rw [← readableValue_text, Option.any_map]

/-- The parsed value of a message, when it is readable and JSON. -/
def parsedValue : Option Json := (valueText m).bind env.parse

theorem message_anyJsonPathMatch (path : String) (pred : Json → Bool) :
    Message.anyJsonPathMatch env m path pred =
      (parsedValue env m).any fun root => (Message.pathCandidates root path).any pred := by
  unfold Message.anyJsonPathMatch parsedValue
  rw [← readableValue_text]
  cases readableValue m with
  | none => rfl
  | some v => cases h : env.parse v.text <;> simp [h]

theorem client_anyJsonPathMatch (path : String) (pred : Node → Bool) :
    anyJsonPathMatch env m path pred =
      (parsedValue env m).any fun root => (pathCandidates root path).any pred := by
  unfold anyJsonPathMatch parsedValue
  cases valueText m with
  | none => rfl
  | some text => cases h : env.parse text <;> simp [h]

/-! ### Texts of scalars -/

/-- Some reached scalar that both sides print alike passes the test. -/
def PassesAlike (reached : List Json) (test : String → Bool) : Prop :=
  ∃ c ∈ reached, (∀ n, c = .number n → n.printsAlike = true) ∧
    (Message.scalarText env.toLowercase c).any test = true

/-- Some reached number that the two sides print differently passes the test in the
    given print. -/
def PassesPrinted (print : Double → String) (reached : List Json) (test : String → Bool) : Prop :=
  ∃ n, Json.number n ∈ reached ∧ n.printsAlike = false ∧ test (print n) = true

/-- Among the scalars a path reaches, one that both sides print alike passes the
    test; or, of what they see differently, one passes for the server exactly when
    one passes for the client. -/
def TextsAgree (path : String) (test : String → Bool) : Prop :=
  ∀ root, parsedValue env m = some root →
    PassesAlike env (Message.pathCandidates root path) test ∨
      (PassesPrinted Double.rustDisplay (Message.pathCandidates root path) test ↔
        PassesPrinted Double.jsString (Message.pathCandidates root path) test ∨
          (nullBehindPrototype (Message.splitPath path) root = true ∧ test "null" = true))

theorem any_passes (text : Json → Option String) {print : Double → String}
    (hnumber : ∀ n, text (.number n) = some (print n))
    (halike : ∀ n, n.printsAlike = true → print n = n.rustDisplay)
    (hother : ∀ c, (∀ n, c ≠ .number n) → text c = Message.scalarText env.toLowercase c)
    (reached : List Json) (test : String → Bool) :
    (reached.any fun c => (text c).any test) = true ↔
      PassesAlike env reached test ∨ PassesPrinted print reached test := by
  rw [List.any_eq_true]
  constructor
  · rintro ⟨c, hc, htest⟩
    by_cases hnum : ∃ n, c = .number n
    · obtain ⟨n, rfl⟩ := hnum
      rw [hnumber] at htest
      cases hn : n.printsAlike with
      | false => exact Or.inr ⟨n, hc, hn, htest⟩
      | true =>
        rw [halike n hn] at htest
        exact Or.inl ⟨_, hc, fun n' h => Json.number.inj h ▸ hn, htest⟩
    · rw [hother c fun n h => hnum ⟨n, h⟩] at htest
      exact Or.inl ⟨c, hc, fun n h => absurd ⟨n, h⟩ hnum, htest⟩
  · rintro (⟨c, hc, hprint, htest⟩ | ⟨n, hn, -, htest⟩)
    · refine ⟨c, hc, ?_⟩
      by_cases hnum : ∃ n, c = .number n
      · obtain ⟨n, rfl⟩ := hnum
        rw [hnumber, halike n (hprint n rfl)]
        exact htest
      · rw [hother c fun n h => hnum ⟨n, h⟩]
        exact htest
    · exact ⟨_, hn, by rw [hnumber]; exact htest⟩

/-- What both sides share decides, or else the rest has to agree. -/
theorem agree_iff_or {shared server client null : Prop} :
    ((shared ∨ client) ∨ null ↔ shared ∨ server) ↔
      shared ∨ (server ↔ client ∨ null) := by
  by_cases h : shared
  · simp [h]
  · simp only [h, false_or]
    exact ⟨Iff.symm, Iff.symm⟩

/-- The two path matches agree exactly when the texts they see do. -/
theorem jsonPathMatch_iff (path : String) (test : String → Bool) :
    (anyJsonPathMatch env m path (fun c => (scalarText env c).any test) = true ↔
      Message.anyJsonPathMatch env m path
        (fun c => (Message.scalarText env.toLowercase c).any test) = true) ↔
      TextsAgree env m path test := by
  rw [client_anyJsonPathMatch, message_anyJsonPathMatch, TextsAgree]
  cases parsedValue env m with
  | none => simp
  | some root =>
    have hserver := any_passes env (Message.scalarText env.toLowercase)
      (fun _ => rfl) (fun _ _ => rfl) (fun _ _ => rfl) (Message.pathCandidates root path) test
    have hclient := any_passes env (fun c => scalarText env (.json c))
      (fun _ => rfl) (fun n hn => (Double.rustDisplay_eq_jsString hn).symm)
      (fun c hc => by cases c <;> first | rfl | exact absurd rfl (hc _))
      (Message.pathCandidates root path) test
    have hwalk := walk_any (Message.splitPath path) root
      (fun c => (scalarText env c).any test) rfl rfl
    simp only [Option.any_some, pathCandidates, splitPath_eq, hwalk, Bool.or_eq_true,
      Bool.and_eq_true, Option.some.injEq, forall_eq']
    rw [Message.pathCandidates] at hserver hclient ⊢
    rw [hserver, hclient]
    exact agree_iff_or

/-! ### Agreement -/

/-- The server takes the request's filter and it matches. -/
def ServerMatches (api : FilterQueryApi) : Prop :=
  ∃ f, Filter.parse env api.filter.wire api.q api.path (api.op.map CmpOpWire.wire) = .ok f ∧
    f.matches env m = true

/-- The predicate says yes exactly when there is no filter or the server's matches. -/
def Agrees (parsed : ParsedFilterQuery) : Prop :=
  parsed.predicate m = true ↔
    parsed.api = none ∨ ∃ api, parsed.api = some api ∧ ServerMatches env m api

/-- The comparison of the value with the query is not decided by lookups that the two
    sides answer differently. -/
def LookupsAgree (q : String) : Prop :=
  ∀ expected actual, env.parse q = some expected → parsedValue env m = some actual →
    LookupsAlike env actual expected

/-- Nothing the filter looks at is seen differently by the two sides. -/
def SameVerdict : FilterQueryApi → Prop
  | ⟨.jsonEq, q, some path, _⟩ => TextsAgree env m path (· == env.toLowercase q)
  | ⟨.jsonNeq, q, some path, _⟩ => TextsAgree env m path (· != env.toLowercase q)
  | ⟨.jsonContains, q, some path, _⟩ => TextsAgree env m path (containsText · (env.toLowercase q))
  | ⟨.valueEq, q, _, _⟩ => LookupsAgree env m q
  | ⟨.valueNeq, q, _, _⟩ => LookupsAgree env m q
  | _ => True

/-- Agreement comes with the same verdict and only with it. -/
def Faithful (parsed : ParsedFilterQuery) : Prop :=
  Agrees env m parsed ↔ ∀ api, parsed.api = some api → SameVerdict env m api

variable {env m}

theorem agrees_iff {api : FilterQueryApi} {predicate : MessageOut → Bool} {f : Filter}
    (hparse : Filter.parse env api.filter.wire api.q api.path (api.op.map CmpOpWire.wire) = .ok f) :
    Agrees env m ⟨some api, predicate⟩ ↔ (predicate m = true ↔ f.matches env m = true) := by
  simp [Agrees, ServerMatches, hparse]

theorem Faithful.of_iff {api : FilterQueryApi} {predicate : MessageOut → Bool} {f : Filter}
    (hparse : Filter.parse env api.filter.wire api.q api.path (api.op.map CmpOpWire.wire) = .ok f)
    (h : (predicate m = true ↔ f.matches env m = true) ↔ SameVerdict env m api) :
    Faithful env m ⟨some api, predicate⟩ := by
  rw [Faithful, agrees_iff hparse, h]
  constructor
  · rintro hverdict api' ⟨⟩
    exact hverdict
  · exact fun hall => hall api rfl

theorem Faithful.of_eq {api : FilterQueryApi} {predicate : MessageOut → Bool} {f : Filter}
    (hparse : Filter.parse env api.filter.wire api.q api.path (api.op.map CmpOpWire.wire) = .ok f)
    (hverdict : SameVerdict env m api) (heq : predicate m = f.matches env m) :
    Faithful env m ⟨some api, predicate⟩ := by
  apply Faithful.of_iff hparse
  rw [heq]
  exact ⟨fun _ => hverdict, fun _ => Iff.rfl⟩

theorem faithful_all : Faithful env m applyAll := by
  constructor
  · rintro _ api ⟨⟩
  · exact fun _ => by simp [Agrees, applyAll]

theorem keyContains_eq (q : String) :
    keyContainsPredicate env q m = (Filter.keyContains (env.toLowercase q)).matches env m := by
  unfold keyContainsPredicate Filter.matches
  cases m.key <;> rfl

theorem valueContains_eq (q : String) :
    valueContainsPredicate env q m = (Filter.valueContains (env.toLowercase q)).matches env m := by
  have h := readableValue_any m fun text =>
    containsText (env.toLowercase text) (env.toLowercase q)
  simp only [Filter.matches, h, valueContainsPredicate]
  cases valueText m <;> rfl

theorem faithful_contains (q : String) : Faithful env m (applyContains env q) := by
  refine .of_eq (f := .contains (env.toLowercase q)) rfl trivial ?_
  simp only [containsPredicate, keyContains_eq, valueContains_eq]
  rfl

theorem faithful_keyContains (q : String) :
    Faithful env m ⟨some ⟨.keyContains, q, none, none⟩, keyContainsPredicate env q⟩ :=
  .of_eq (f := .keyContains (env.toLowercase q)) rfl trivial (keyContains_eq q)

theorem faithful_valueContains (q : String) :
    Faithful env m ⟨some ⟨.valueContains, q, none, none⟩, valueContainsPredicate env q⟩ :=
  .of_eq (f := .valueContains (env.toLowercase q)) rfl trivial (valueContains_eq q)

theorem faithful_keyEq (q : String) :
    Faithful env m ⟨some ⟨.keyEq, q, none, none⟩, keyEqPredicate env q⟩ := by
  refine .of_eq (f := .keyEquals (env.toLowercase q)) rfl trivial ?_
  unfold keyEqPredicate Filter.matches
  cases m.key <;> rfl

theorem faithful_keyNeq (q : String) :
    Faithful env m ⟨some ⟨.keyNeq, q, none, none⟩, keyNeqPredicate env q⟩ := by
  refine .of_eq (f := .keyNotEquals (env.toLowercase q)) rfl trivial ?_
  unfold keyNeqPredicate Filter.matches
  cases m.key <;> rfl

/-- Both sides read the equality of the value and the query alike exactly when their
    lookups agree. -/
theorem valueEqualsCheck_iff (q : String) (answer : Bool) :
    ((valueEqualsCheck env q m == some answer) = true ↔
        ((readableValue m).any fun v =>
          Message.valueEquals env (env.toLowercase q) (env.parse q) v.text == answer) = true) ↔
      LookupsAgree env m q := by
  rw [readableValue_any m fun text =>
    Message.valueEquals env (env.toLowercase q) (env.parse q) text == answer]
  unfold valueEqualsCheck LookupsAgree parsedValue
  cases valueText m with
  | none => simp
  | some text =>
    cases hq : env.parse q with
    | none => simp [Message.valueEquals]
    | some expected =>
      cases hv : env.parse text with
      | none => simp [Message.valueEquals, hv]
      | some actual =>
        have hone : (∀ expected' actual', some expected = some expected' →
            some actual = some actual' → LookupsAlike env actual' expected') ↔
            LookupsAlike env actual expected := by
          constructor
          · exact fun hall => hall _ _ rfl rfl
          · rintro halike _ _ ⟨⟩ ⟨⟩
            exact halike
        simp only [Option.any_some, Message.valueEquals, hv, Option.bind_some]
        rw [hone, ← jsonEqCi_alike_iff]
        -- one answer is shared exactly when the other is
        cases answer <;> cases jsonEqCi env actual expected <;>
          cases Message.jsonEqCi env.toLowercase actual expected <;> simp

theorem faithful_valueEq (q : String) :
    Faithful env m ⟨some ⟨.valueEq, q, none, none⟩, valueEqPredicate env q⟩ := by
  refine .of_iff (f := .valueEquals (env.toLowercase q) (env.parse q)) rfl ?_
  have h := @valueEqualsCheck_iff env m q true
  simp only [beq_true] at h
  exact h

theorem faithful_valueNeq (q : String) :
    Faithful env m ⟨some ⟨.valueNeq, q, none, none⟩, valueNeqPredicate env q⟩ := by
  refine .of_iff (f := .valueNotEquals (env.toLowercase q) (env.parse q)) rfl ?_
  have h := @valueEqualsCheck_iff env m q false
  simp only [beq_false] at h
  exact h

theorem faithful_jsonEq (path q : String) :
    Faithful env m ⟨some ⟨.jsonEq, q, some path, none⟩, jsonEqPredicate env path q⟩ := by
  have hpredicate : jsonEqPredicate env path q m = anyJsonPathMatch env m path fun c =>
      (scalarText env c).any (· == env.toLowercase q) := by
    unfold jsonEqPredicate
    congr 1
    funext c
    cases scalarText env c <;> rfl
  refine .of_iff (f := .jsonPathEquals path (env.toLowercase q)) rfl ?_
  rw [hpredicate]
  exact jsonPathMatch_iff env m path (· == env.toLowercase q)

theorem faithful_jsonNeq (path q : String) :
    Faithful env m ⟨some ⟨.jsonNeq, q, some path, none⟩, jsonNeqPredicate env path q⟩ := by
  have hpredicate : jsonNeqPredicate env path q m = anyJsonPathMatch env m path fun c =>
      (scalarText env c).any (· != env.toLowercase q) := by
    unfold jsonNeqPredicate
    congr 1
    funext c
    cases scalarText env c <;> rfl
  refine .of_iff (f := .jsonPathNotEquals path (env.toLowercase q)) rfl ?_
  rw [hpredicate]
  exact jsonPathMatch_iff env m path (· != env.toLowercase q)

theorem faithful_jsonContains (path q : String) :
    Faithful env m
      ⟨some ⟨.jsonContains, q, some path, none⟩, jsonContainsPredicate env path q⟩ := by
  have hpredicate : jsonContainsPredicate env path q m = anyJsonPathMatch env m path fun c =>
      (scalarText env c).any (containsText · (env.toLowercase q)) := by
    unfold jsonContainsPredicate
    congr 1
    funext c
    cases scalarText env c <;> rfl
  refine .of_iff (f := .jsonPathContains path (env.toLowercase q)) rfl ?_
  rw [hpredicate]
  exact jsonPathMatch_iff env m path (containsText · (env.toLowercase q))

/-- The server's operator behind a wire operator. -/
def CmpOpWire.server : CmpOpWire → CmpOp
  | .gt => .gt
  | .gte => .gte
  | .lt => .lt
  | .lte => .lte

theorem cmpHolds_eq (op : CmpOpWire) (target expected : Double) :
    cmpHolds op target expected = op.server.holds target expected := by
  cases op <;> rfl

theorem jsonNumber_eq (text : String) : jsonNumber env text = Message.jsonNumber env text := rfl

theorem scalarNumber_json (c : Json) : scalarNumber env (.json c) = Message.scalarNumber env c := by
  cases c <;> rfl

theorem faithful_keyCmp (op : CmpOpWire) (q : String) :
    Faithful env m ⟨some ⟨.keyCmp, q, none, some op⟩, keyCmpPredicate env op q⟩ := by
  refine .of_eq (f := .keyCompare op.server (Message.jsonNumber env q)) ?_ trivial ?_
  · cases op <;> rfl
  · simp only [keyCmpPredicate, Filter.matches, cmpHolds_eq, jsonNumber_eq]
    cases Message.jsonNumber env q with
    | none => rfl
    | some expected =>
      cases m.key with
      | none => rfl
      | some key => cases h : Message.jsonNumber env key.text <;> simp [h]

theorem faithful_valueCmp (op : CmpOpWire) (q : String) :
    Faithful env m ⟨some ⟨.valueCmp, q, none, some op⟩, valueCmpPredicate env op q⟩ := by
  refine .of_eq (f := .valueCompare op.server (Message.jsonNumber env q)) ?_ trivial ?_
  · cases op <;> rfl
  · have hvalue : ((readableValue m).bind fun v => valueNumber env v.text) =
        (valueText m).bind (valueNumber env) := by
      rw [← readableValue_text]
      cases readableValue m <;> rfl
    simp only [valueCmpPredicate, Filter.matches, cmpHolds_eq, jsonNumber_eq, scalarNumber_json,
      hvalue]
    cases Message.jsonNumber env q with
    | none => rfl
    | some expected =>
      cases valueText m with
      | none => rfl
      | some text =>
        cases hp : env.parse text with
        | none => simp [valueNumber, hp]
        | some parsed => cases hn : Message.scalarNumber env parsed <;> simp [valueNumber, hp, hn]

theorem faithful_jsonCmp (path : String) (op : CmpOpWire) (q : String) :
    Faithful env m ⟨some ⟨.jsonCmp, q, some path, some op⟩, jsonCmpPredicate env path op q⟩ := by
  have hpredicate : jsonCmpPredicate env path op q m =
    (Message.jsonNumber env q).any fun expected =>
      anyJsonPathMatch env m path fun c =>
        (scalarNumber env c).any (op.server.holds · expected) := by
    unfold jsonCmpPredicate
    rw [jsonNumber_eq]
    cases Message.jsonNumber env q with
    | none => rfl
    | some expected =>
      refine congrArg (anyJsonPathMatch env m path) (funext fun c => ?_)
      cases scalarNumber env c with
      | none => rfl
      | some target => exact cmpHolds_eq op target expected
  refine .of_eq (f := .jsonPathCompare path op.server (Message.jsonNumber env q)) ?_ trivial ?_
  · cases op <;> rfl
  · rw [hpredicate]
    cases Message.jsonNumber env q with
    | none => rfl
    | some expected =>
      simp only [Option.any_some, Filter.matches, client_anyJsonPathMatch, message_anyJsonPathMatch]
      cases parsedValue env m with
      | none => rfl
      | some root =>
        -- the null behind a prototype is no number
        have hwalk := walk_any (Message.splitPath path) root
          (fun c => (scalarNumber env c).any (op.server.holds · expected)) rfl rfl
        simp only [Option.any_some, pathCandidates, splitPath_eq, hwalk, scalarNumber_json]
        simp [Message.pathCandidates, Message.scalarNumber]

/-! ### Every filter text -/

theorem faithful_field {rest : List Char} {parsed : ParsedFilterQuery}
    (h : parseFieldQuery env rest = some parsed) : Faithful env m parsed := by
  unfold parseFieldQuery at h
  split at h
  · cases h
  · cases h
  · split at h
    · cases h
      exact faithful_jsonContains _ _
    · cases h
      exact faithful_jsonEq _ _
    · cases h
      exact faithful_jsonNeq _ _
    · obtain ⟨c, -, rfl⟩ := Option.map_eq_some_iff.mp h
      exact faithful_jsonCmp _ _ _

theorem faithful_unquoted (text : List Char) : Faithful env m (parseUnquoted env text) := by
  unfold parseUnquoted
  split
  · exact faithful_keyContains _
  split
  · exact faithful_keyEq _
  split
  · exact faithful_keyNeq _
  split
  · exact faithful_keyCmp _ _
  split
  · exact faithful_valueContains _
  split
  · exact faithful_valueEq _
  split
  · exact faithful_valueNeq _
  split
  · exact faithful_valueCmp _ _
  split
  · cases hfield : parseFieldQuery env (text.drop 6) with
    | none => exact faithful_contains _
    | some parsed => exact faithful_field hfield
  · exact faithful_contains _

/-- For every filter text and message the client's predicate agrees with the server's
    filter exactly when nothing that decides is seen differently. -/
theorem filters_agree_iff_same_verdict (env : TextEnv) (text : String) (m : MessageOut) :
    Agrees env m (parseFilterQuery env text) ↔
      ∀ api, (parseFilterQuery env text).api = some api → SameVerdict env m api := by
  rw [← Faithful]
  unfold parseFilterQuery
  split
  · exact faithful_all
  · split
    · exact faithful_all
    · exact faithful_contains _
    · exact faithful_unquoted _

end Messages

/-- `1e-7`. -/
def tinyDouble : Double :=
  ⟨false, [1], -6, by decide, by decide, by decide, by decide⟩

/-- The text of an object with the field `a` at `1e-7`. -/
def tinyText : String := "\x7b\"a\":0.0000001\x7d"

def tinyEnv : TextEnv where
  parse text := if text = tinyText then some (.object [("a", .number tinyDouble)]) else none
  toLowercase text := String.ofList (text.toList.map Char.toLower)

def tinyMessage : MessageOut := ⟨0, 0, none, none, some ⟨.json, tinyText, none, none⟩, []⟩

/-- The number as it stands in the value, typed into the filter box: the server prints
    it so and matches, the client prints `1e-7` and does not. -/
theorem tiny_number_matched_by_server_only :
    (parseFilterQuery tinyEnv "value.a=0.0000001").predicate tinyMessage = false ∧
      (parseFilterQuery tinyEnv "value.a=0.0000001").api =
        some ⟨.jsonEq, "0.0000001", some "a", none⟩ ∧
      ServerMatches tinyEnv tinyMessage ⟨.jsonEq, "0.0000001", some "a", none⟩ ∧
      ¬ Agrees tinyEnv tinyMessage (parseFilterQuery tinyEnv "value.a=0.0000001") := by
  have hclient : (parseFilterQuery tinyEnv "value.a=0.0000001").predicate tinyMessage = false := by
    decide
  have hapi : (parseFilterQuery tinyEnv "value.a=0.0000001").api =
      some ⟨.jsonEq, "0.0000001", some "a", none⟩ := by decide
  have hserver : ServerMatches tinyEnv tinyMessage ⟨.jsonEq, "0.0000001", some "a", none⟩ :=
    ⟨.jsonPathEquals "a" (tinyEnv.toLowercase "0.0000001"), rfl, by decide⟩
  refine ⟨hclient, hapi, hserver, ?_⟩
  intro h
  rw [h.mpr (Or.inr ⟨_, hapi, hserver⟩)] at hclient
  cases hclient

end Arne.Client
