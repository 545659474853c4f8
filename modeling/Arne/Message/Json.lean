import Mathlib.Data.List.Sort

/-!
# JSON values and their numbers

A JSON number is a double on both sides of the wire.  Neither side does arithmetic
on it: it is compared, and printed.  Both printers start from the same shortest
decimal digits that read back as the double, so a `Double` is exactly those digits
and the place of the decimal point, and the two printers are two layouts of them.
-/

namespace Arne.Message

/-- A finite double, as its shortest round-trip decimal `±0.d₁…dₖ × 10^point`.
    Zero has no digits, and keeps its sign. -/
structure Double where
  negative : Bool
  digits : List Nat
  point : Int
  digits_lt : ∀ d ∈ digits, d < 10
  no_leading_zero : digits.head? ≠ some 0
  no_trailing_zero : digits.getLast? ≠ some 0
  zero_point : digits = [] → point = 0

namespace Double

def isZero (d : Double) : Bool := d.digits.isEmpty

/-- Equality of doubles: the two zeros are equal, everything else digit by digit. -/
def eqValue (a b : Double) : Bool :=
  (a.isZero && b.isZero) ||
    (a.negative == b.negative && a.digits == b.digits && a.point == b.point)

/-- Lexicographic comparison of digit strings, a proper prefix being smaller. -/
def digitsLt : List Nat → List Nat → Bool
  | _, [] => false
  | [], _ :: _ => true
  | a :: as, b :: bs => decide (a < b) || (a == b && digitsLt as bs)

/-- Comparison of absolute values: the digits have no leading zero, so the larger
    point wins, and at the same point the digits decide. -/
def magnitudeLt (a b : Double) : Bool :=
  if b.isZero then false
  else if a.isZero then true
  else decide (a.point < b.point) || (a.point == b.point && digitsLt a.digits b.digits)

def lt (a b : Double) : Bool :=
  if a.isZero && b.isZero then false
  else if a.isZero then !b.negative
  else if b.isZero then a.negative
  else match a.negative, b.negative with
    | true, false => true
    | false, true => false
    | false, false => magnitudeLt a b
    | true, true => magnitudeLt b a

def le (a b : Double) : Bool := lt a b || eqValue a b

def digitChars (digits : List Nat) : List Char := digits.map Nat.digitChar

def zeros (n : Nat) : List Char := List.replicate n '0'

/-- The layout without an exponent, for a decimal point anywhere. -/
def plainChars (digits : List Nat) (point : Int) : List Char :=
  if point ≤ 0 then '0' :: '.' :: (zeros (-point).toNat ++ digitChars digits)
  else if digits.length ≤ point.toNat then
    digitChars digits ++ zeros (point.toNat - digits.length)
  else digitChars (digits.take point.toNat) ++ '.' :: digitChars (digits.drop point.toNat)

def signChars (negative : Bool) : List Char := if negative then ['-'] else []

/-- `f64`'s `Display`: never an exponent, and the sign of a zero is printed. -/
def rustDisplay (d : Double) : String :=
  String.ofList (signChars d.negative ++
    if d.isZero then ['0'] else plainChars d.digits d.point)

/-- The exponent layout of `Number::toString`: one digit before the point, then
    `e`, the exponent's sign and its digits. -/
def exponentChars (digits : List Nat) (point : Int) : List Char :=
  let e := point - 1
  let mantissa := match digitChars digits with
    | [] => []
    | [d] => [d]
    | d :: rest => d :: '.' :: rest
  mantissa ++ 'e' :: (if e < 0 then '-' else '+') :: (Nat.repr e.natAbs).toList

/-- ECMAScript's `Number::toString`: `String(x)` for a finite number. -/
def jsString (d : Double) : String :=
  if d.isZero then "0"
  else String.ofList (signChars d.negative ++
    if -6 < d.point ∧ d.point ≤ 21 then plainChars d.digits d.point
    else exponentChars d.digits d.point)

/-- The doubles both languages print alike: not the negative zero, and not one
    that ECMAScript prints with an exponent. -/
def printsAlike (d : Double) : Bool :=
  if d.isZero then !d.negative else decide (-6 < d.point ∧ d.point ≤ 21)

theorem rustDisplay_eq_jsString {d : Double} (h : d.printsAlike = true) :
    d.rustDisplay = d.jsString := by
  unfold printsAlike at h
  unfold rustDisplay jsString
  cases hz : d.isZero with
  | true =>
    have hneg : d.negative = false := by simpa [hz] using h
    simp only [hneg, signChars, Bool.false_eq_true, if_false, if_true, List.nil_append]
  | false =>
    have hrange : -6 < d.point ∧ d.point ≤ 21 := by simpa [hz] using h
    simp only [Bool.false_eq_true, if_false, if_pos hrange]

end Double

/-- A parsed JSON text, object members in the order of the text. -/
inductive Json where
  | null
  | bool (b : Bool)
  | number (n : Double)
  | string (s : String)
  | array (items : List Json)
  | object (members : List (String × Json))

/-- Arrays and objects. -/
def Json.isContainer : Json → Bool
  | .array _ => true
  | .object _ => true
  | _ => false

/-- Induction over the items and the members of a value. -/
theorem Json.induct {motive : Json → Prop} (leaf : ∀ v : Json, v.isContainer = false → motive v)
    (array : ∀ items : List Json, (∀ v ∈ items, motive v) → motive (.array items))
    (object : ∀ members : List (String × Json), (∀ e ∈ members, motive e.2) →
      motive (.object members)) (v : Json) : motive v := by
  apply @Json.rec motive (fun items => ∀ v ∈ items, motive v)
    (fun members => ∀ e ∈ members, motive e.2) (fun e => motive e.2)
  case null => exact leaf _ rfl
  case bool => exact fun _ => leaf _ rfl
  case number => exact fun _ => leaf _ rfl
  case string => exact fun _ => leaf _ rfl
  case array => exact fun items ih => array items ih
  case object => exact fun members ih => object members ih
  case nil => exact fun _ h => absurd h List.not_mem_nil
  case cons => exact fun item items hitem hitems => List.forall_mem_cons.mpr ⟨hitem, hitems⟩
  case nil => exact fun _ h => absurd h List.not_mem_nil
  case cons => exact fun e members he hmembers => List.forall_mem_cons.mpr ⟨he, hmembers⟩
  case mk => exact fun _ _ h => h

section

variable (P : List String → Prop)

mutual

/-- The keys of every object in a value, at any depth, are as `P` says. -/
def Json.EveryObject : Json → Prop
  | .array items => Json.EveryObjectItems items
  | .object members => P (members.map Prod.fst) ∧ Json.EveryObjectMembers members
  | _ => True

def Json.EveryObjectItems : List Json → Prop
  | [] => True
  | item :: items => Json.EveryObject item ∧ Json.EveryObjectItems items

def Json.EveryObjectMembers : List (String × Json) → Prop
  | [] => True
  | (_, v) :: members => Json.EveryObject v ∧ Json.EveryObjectMembers members

end

variable {P}

theorem Json.everyObjectItems_iff {items : List Json} :
    Json.EveryObjectItems P items ↔ ∀ v ∈ items, v.EveryObject P := by
  induction items with
  | nil => simp [Json.EveryObjectItems]
  | cons item items ih => simp [Json.EveryObjectItems, ih]

theorem Json.everyObjectMembers_iff {members : List (String × Json)} :
    Json.EveryObjectMembers P members ↔ ∀ e ∈ members, e.2.EveryObject P := by
  induction members with
  | nil => simp [Json.EveryObjectMembers]
  | cons e members ih => simp [Json.EveryObjectMembers, ih]

end

/-- No object has a key twice: what a JSON parser builds, keeping the last of them. -/
def Json.DistinctKeys : Json → Prop := Json.EveryObject List.Nodup

/-- A member is found by its key where keys are distinct. -/
theorem find?_of_distinct {members : List (String × Json)} {n : String} {v : Json}
    (hnodup : (members.map Prod.fst).Nodup) (hmem : (n, v) ∈ members) :
    members.find? (fun e => e.1 == n) = some (n, v) := by
  induction members with
  | nil => cases hmem
  | cons e members ih =>
    obtain ⟨hfresh, hrest⟩ := List.nodup_cons.mp hnodup
    rcases List.mem_cons.mp hmem with rfl | hmem'
    · rw [List.find?_cons_of_pos (by simp)]
    · have hne : e.1 ≠ n := by
        rintro rfl
        exact hfresh (List.mem_map.mpr ⟨_, hmem', rfl⟩)
      rw [List.find?_cons_of_neg (by simpa using hne), ih hrest hmem']

/-- What a filter needs of its language's text library: the JSON parser and
    lower-casing. -/
structure TextEnv where
  parse : String → Option Json
  toLowercase : String → String

end Arne.Message
