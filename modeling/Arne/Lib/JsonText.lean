import Arne.Lib.Bytes
import Arne.Lib.Decimal

/-!
# JSON texts

A value is written without blanks and read with them allowed.  What is written is read back,
as long as its numbers are integers, and a written text has no control character in it.  A
text is read as the characters it is made of or, one character for each, as its bytes.
-/

namespace Arne.JsonText

/-- A JSON value.  A number that is not an integer is kept as it is written. -/
inductive Value where
  | null
  | bool (b : Bool)
  | int (n : Int)
  | real (literal : List Char)
  | string (s : String)
  | array (items : List Value)
  | object (members : List (String × Value))

/-! ### Writing -/

def hexDigit (n : Nat) : Char := "0123456789abcdef".toList.getD n '0'

/-- A character of a string: quotes, backslashes and control characters are escaped. -/
def escape (c : Char) : List Char :=
  if c = '"' then ['\\', '"']
  else if c = '\\' then ['\\', '\\']
  else if c.toNat = 8 then ['\\', 'b']
  else if c.toNat = 9 then ['\\', 't']
  else if c.toNat = 10 then ['\\', 'n']
  else if c.toNat = 12 then ['\\', 'f']
  else if c.toNat = 13 then ['\\', 'r']
  else if c.toNat < 32 then ['\\', 'u', '0', '0', hexDigit (c.toNat / 16), hexDigit (c.toNat % 16)]
  else [c]

def quoted (s : List Char) : List Char := '"' :: (s.flatMap escape ++ ['"'])

mutual

def write : Value → List Char
  | .null => ['n', 'u', 'l', 'l']
  | .bool true => ['t', 'r', 'u', 'e']
  | .bool false => ['f', 'a', 'l', 's', 'e']
  | .int n => Decimal.ofInt n
  | .real literal => literal
  | .string s => quoted s.toList
  | .array items => '[' :: writeItems items
  | .object members => '{' :: writeMembers members

/-- The items, and the bracket that closes them. -/
def writeItems : List Value → List Char
  | [] => [']']
  | [v] => write v ++ [']']
  | v :: items => write v ++ ',' :: writeItems items

def writeMembers : List (String × Value) → List Char
  | [] => ['}']
  | [(key, v)] => quoted key.toList ++ ':' :: (write v ++ ['}'])
  | (key, v) :: members => quoted key.toList ++ ':' :: (write v ++ ',' :: writeMembers members)

end

/-! ### Reading -/

def isBlank (c : Char) : Bool := c = ' ' || c = '\t' || c = '\n' || c = '\r'

def skipBlanks (text : List Char) : List Char := text.dropWhile isBlank

def hexValue (c : Char) : Option Nat :=
  if '0' ≤ c ∧ c ≤ '9' then some (c.toNat - '0'.toNat)
  else if 'a' ≤ c ∧ c ≤ 'f' then some (c.toNat - 'a'.toNat + 10)
  else if 'A' ≤ c ∧ c ≤ 'F' then some (c.toNat - 'A'.toNat + 10)
  else none

/-- The code unit that four hexadecimal digits stand for. -/
def codeUnit (a b c d : Char) : Option Nat := do
  let a ← hexValue a
  let b ← hexValue b
  let c ← hexValue c
  let d ← hexValue d
  return ((a * 16 + b) * 16 + c) * 16 + d

def unescape (c : Char) : Option Char :=
  if c = '"' ∨ c = '\\' ∨ c = '/' then some c
  else if c = 'b' then some (Char.ofNat 8)
  else if c = 'f' then some (Char.ofNat 12)
  else if c = 'n' then some '\n'
  else if c = 'r' then some '\r'
  else if c = 't' then some '\t'
  else none

/-- What a reader makes of the escapes `\u`: of a character, and of a surrogate that has not
    its other half behind it. -/
structure Escapes where
  escaped : Char → List Char
  lone : List Char
  /-- An ASCII character stands for itself. -/
  plain : ∀ c : Char, c.toNat < 128 → escaped c = [c]

/-- Of a text: a character is itself, and a lone surrogate is none. -/
def Escapes.chars : Escapes where
  escaped c := [c]
  lone := [Char.ofNat 0xFFFD]
  plain _ _ := rfl

/-- Of bytes: a character is its bytes, and a lone surrogate is no UTF-8. -/
def Escapes.bytes : Escapes where
  escaped c := Bytes.asChars (Bytes.asBytes [c])
  lone := [Char.ofNat 0xFF]
  plain c hc := Bytes.asChars_asBytes (by simpa using hc)

/-- A piece of a string: a character as it stands or behind a backslash, a character that is
    escaped as its code, or half of one. -/
inductive Piece where
  | char (c : Char)
  | escaped (c : Char)
  | surrogate (unit : Nat)

def Piece.text (how : Escapes) : Piece → List Char
  | .char c => [c]
  | .escaped c => how.escaped c
  | .surrogate _ => how.lone

/-- A code unit in front of the pieces: two surrogates that belong together are one
    character. -/
def joinUnit (unit : Nat) (pieces : List Piece) : List Piece :=
  if unit < 0xD800 ∨ 0xDFFF < unit then .escaped (Char.ofNat unit) :: pieces
  else
    match pieces with
    | .surrogate low :: rest =>
        if unit < 0xDC00 ∧ 0xDC00 ≤ low then
          .escaped (Char.ofNat (0x10000 + (unit - 0xD800) * 0x400 + (low - 0xDC00))) :: rest
        else .surrogate unit :: pieces
    | _ => .surrogate unit :: pieces

/-- The pieces of a string behind its opening quote, and the text behind its closing one. -/
def readPieces : List Char → Option (List Piece × List Char)
  | [] => none
  | '"' :: rest => some ([], rest)
  | '\\' :: 'u' :: a :: b :: c :: d :: rest =>
      match codeUnit a b c d with
      | none => none
      | some unit => (readPieces rest).map fun r => (joinUnit unit r.1, r.2)
  | '\\' :: c :: rest =>
      match unescape c with
      | none => none
      | some x => (readPieces rest).map fun r => (.char x :: r.1, r.2)
  | c :: rest =>
      if c.toNat < 32 ∨ c = '\\' then none
      else (readPieces rest).map fun r => (.char c :: r.1, r.2)

def readString (how : Escapes) (text : List Char) : Option (List Char × List Char) :=
  (readPieces text).map fun r => (r.1.flatMap (Piece.text how), r.2)

/-- One digit or more, and the text behind them. -/
def readDigits (text : List Char) : Option (List Char × List Char) :=
  if (text.takeWhile Char.isDigit).isEmpty then none
  else some (text.takeWhile Char.isDigit, text.dropWhile Char.isDigit)

/-- A fraction, if there is one. -/
def readFraction : List Char → Option (List Char × List Char)
  | '.' :: text => (readDigits text).map fun r => ('.' :: r.1, r.2)
  | text => some ([], text)

def readExponent : List Char → Option (List Char × List Char)
  | 'e' :: text | 'E' :: text =>
      match text with
      | '+' :: text => (readDigits text).map fun r => ('e' :: '+' :: r.1, r.2)
      | '-' :: text => (readDigits text).map fun r => ('e' :: '-' :: r.1, r.2)
      | text => (readDigits text).map fun r => ('e' :: r.1, r.2)
  | text => some ([], text)

/-- A number without its sign: an integer has neither a fraction nor an exponent, and minus
    zero is none. -/
def readNumber (negative : Bool) (text : List Char) : Option (Value × List Char) := do
  let (whole, rest) ← readDigits text
  if whole.head? = some '0' ∧ 1 < whole.length then none
  else
    let (fraction, rest) ← readFraction rest
    let (exponent, rest) ← readExponent rest
    if fraction.isEmpty ∧ exponent.isEmpty then
      if negative then
        if Decimal.toNat whole = 0 then some (.real ('-' :: whole), rest)
        else some (.int (-(Decimal.toNat whole : Int)), rest)
      else some (.int (Decimal.toNat whole), rest)
    else
      let sign : List Char := if negative then ['-'] else []
      some (.real (sign ++ (whole ++ (fraction ++ exponent))), rest)

section

variable (how : Escapes)

mutual

/-- A value at the front of a text, and the text behind it. -/
def readValue : Nat → List Char → Option (Value × List Char)
  | 0, _ => none
  | fuel + 1, text =>
      match skipBlanks text with
      | 'n' :: 'u' :: 'l' :: 'l' :: rest => some (.null, rest)
      | 't' :: 'r' :: 'u' :: 'e' :: rest => some (.bool true, rest)
      | 'f' :: 'a' :: 'l' :: 's' :: 'e' :: rest => some (.bool false, rest)
      | '"' :: rest => (readString how rest).map fun r => (.string (String.ofList r.1), r.2)
      | '[' :: rest =>
          match skipBlanks rest with
          | ']' :: rest => some (.array [], rest)
          | rest => (readItems fuel rest).map fun r => (.array r.1, r.2)
      | '{' :: rest =>
          match skipBlanks rest with
          | '}' :: rest => some (.object [], rest)
          | rest => (readMembers fuel rest).map fun r => (.object r.1, r.2)
      | '-' :: rest => readNumber true rest
      | rest => readNumber false rest

/-- One item or more, and the text behind the bracket that closes them. -/
def readItems : Nat → List Char → Option (List Value × List Char)
  | 0, _ => none
  | fuel + 1, text =>
      match readValue fuel text with
      | none => none
      | some (v, rest) =>
          match skipBlanks rest with
          | ']' :: rest => some ([v], rest)
          | ',' :: rest => (readItems fuel rest).map fun r => (v :: r.1, r.2)
          | _ => none

def readMembers : Nat → List Char → Option (List (String × Value) × List Char)
  | 0, _ => none
  | fuel + 1, text =>
      match skipBlanks text with
      | '"' :: rest =>
          match readString how rest with
          | none => none
          | some (key, rest) =>
              match skipBlanks rest with
              | ':' :: rest =>
                  match readValue fuel rest with
                  | none => none
                  | some (v, rest) =>
                      match skipBlanks rest with
                      | '}' :: rest => some ([(String.ofList key, v)], rest)
                      | ',' :: rest =>
                          (readMembers fuel rest).map fun r => ((String.ofList key, v) :: r.1, r.2)
                      | _ => none
              | _ => none
      | _ => none

end

/-- A text that is one value, with blanks around it. -/
def read (text : List Char) : Option Value :=
  match readValue how (2 * text.length) text with
  | none => none
  | some (v, rest) => if (skipBlanks rest).isEmpty then some v else none

end

/-! ### What is written is read back -/

variable {how : Escapes}

/-- A value without numbers other than integers. -/
inductive Whole : Value → Prop where
  | null : Whole .null
  | bool (b : Bool) : Whole (.bool b)
  | int (n : Int) : Whole (.int n)
  | string (s : String) : Whole (.string s)
  | array {items : List Value} (h : ∀ v ∈ items, Whole v) : Whole (.array items)
  | object {members : List (String × Value)} (h : ∀ e ∈ members, Whole e.2) :
      Whole (.object members)

theorem hexValue_hexDigit : ∀ n : Fin 16, hexValue (hexDigit n) = some n.val := by decide

theorem codeUnit_control {n : Nat} (h : n < 32) :
    codeUnit '0' '0' (hexDigit (n / 16)) (hexDigit (n % 16)) = some n := by
  have hzero : hexValue '0' = some 0 := by decide
  have hhigh := hexValue_hexDigit ⟨n / 16, by omega⟩
  have hlow := hexValue_hexDigit ⟨n % 16, by omega⟩
  simp only [codeUnit, hzero, hhigh, hlow, Option.bind_eq_bind, Option.bind_some, Option.pure_def,
    Option.some.injEq]
  omega

theorem eq_ofNat_of_toNat {c : Char} {n : Nat} (h : c.toNat = n) : c = Char.ofNat n := by
  rw [← h, Char.ofNat_toNat]

theorem readString_simple {x c : Char} (hx : unescape x = some c) (hu : x ≠ 'u')
    (rest : List Char) :
    readString how ('\\' :: x :: rest) = (readString how rest).map fun r => (c :: r.1, r.2) := by
  rw [readString, readPieces]
  · simp only [hx, readString, Option.map_map]
    rfl
  · exact fun _ _ _ _ _ h => absurd h hu

theorem readString_escape (c : Char) (rest : List Char) :
    readString how (escape c ++ rest) = (readString how rest).map fun r => (c :: r.1, r.2) := by
  unfold escape
  split
  · rename_i h
    rw [h]
    exact readString_simple (by decide) (by decide) rest
  split
  · rename_i h
    rw [h]
    exact readString_simple (by decide) (by decide) rest
  split
  · rename_i h
    rw [eq_ofNat_of_toNat h]
    exact readString_simple (by decide) (by decide) rest
  split
  · rename_i h
    rw [eq_ofNat_of_toNat h]
    exact readString_simple (by decide) (by decide) rest
  split
  · rename_i h
    rw [eq_ofNat_of_toNat h]
    exact readString_simple (by decide) (by decide) rest
  split
  · rename_i h
    rw [eq_ofNat_of_toNat h]
    exact readString_simple (by decide) (by decide) rest
  split
  · rename_i h
    rw [eq_ofNat_of_toNat h]
    exact readString_simple (by decide) (by decide) rest
  split
  · rename_i h
    simp only [List.cons_append, List.nil_append]
    rw [readString, readPieces]
    simp only [codeUnit_control h, readString, Option.map_map, joinUnit,
      if_pos (Or.inl (show c.toNat < 0xD800 by omega)), Char.ofNat_toNat]
    apply congrArg fun f => (readPieces rest).map f
    funext r
    simp only [Function.comp_apply, List.flatMap_cons, Piece.text, how.plain c (by omega)]
    rfl
  · rename_i hquote hbackslash _ _ _ _ _ hlarge
    simp only [List.cons_append, List.nil_append]
    rw [readString, readPieces, if_neg (by simp [hlarge, hbackslash])]
    · simp only [readString, Option.map_map]
      rfl
    · exact fun h => absurd h hquote
    · exact fun _ _ _ _ _ h => absurd h hbackslash
    · exact fun _ _ h => absurd h hbackslash

theorem readString_quoted (s rest : List Char) :
    readString how (s.flatMap escape ++ '"' :: rest) = some (s, rest) := by
  induction s with
  | nil => simp [readString, readPieces]
  | cons c s ih =>
    rw [List.flatMap_cons, List.append_assoc, readString_escape, ih, Option.map_some]


/-- What may stand behind a value: it must not continue a number. -/
def Ends (rest : List Char) : Prop :=
  ∀ c, rest.head? = some c → c.isDigit = false ∧ c ≠ '.' ∧ c ≠ 'e' ∧ c ≠ 'E'

theorem ends_nil : Ends [] := by
  intro c h
  cases h

theorem ends_cons {c : Char} (rest : List Char)
    (h : c.isDigit = false ∧ c ≠ '.' ∧ c ≠ 'e' ∧ c ≠ 'E') : Ends (c :: rest) := by
  intro c' hc
  cases hc
  exact h

theorem readDigits_ofNat (n : Nat) {rest : List Char} (h : Ends rest) :
    readDigits (Decimal.ofNat n ++ rest) = some (Decimal.ofNat n, rest) := by
  have hall : ∀ c ∈ Decimal.ofNat n, c.isDigit = true := fun c hc => Decimal.isDigit_of_mem hc
  have htake : (Decimal.ofNat n ++ rest).takeWhile Char.isDigit = Decimal.ofNat n := by
    rw [List.takeWhile_append_of_pos hall]
    rcases rest with _ | ⟨c, rest⟩
    · simp
    · simp [(h c rfl).1]
  have hdrop : (Decimal.ofNat n ++ rest).dropWhile Char.isDigit = rest := by
    rw [List.dropWhile_append_of_pos hall]
    rcases rest with _ | ⟨c, rest⟩
    · rfl
    · simp [(h c rfl).1]
  unfold readDigits
  rw [htake, hdrop, if_neg (by simp [Decimal.ofNat_ne_nil])]

theorem readFraction_ends {rest : List Char} (h : Ends rest) : readFraction rest = some ([], rest) := by
  unfold readFraction
  split
  · exact absurd rfl (h '.' rfl).2.1
  · rfl

theorem readExponent_ends {rest : List Char} (h : Ends rest) : readExponent rest = some ([], rest) := by
  unfold readExponent
  split
  · exact absurd rfl (h 'e' rfl).2.2.1
  · exact absurd rfl (h 'E' rfl).2.2.2
  · rfl

/-- The digits of a number have no zero in front of them. -/
theorem not_leading_zero (n : Nat) :
    ¬((Decimal.ofNat n).head? = some '0' ∧ 1 < (Decimal.ofNat n).length) := by
  rintro ⟨hhead, hlength⟩
  rw [Decimal.head_ofNat n hhead, Decimal.ofNat_zero] at hlength
  exact absurd hlength (by decide)

theorem readNumber_ofNat (n : Nat) {rest : List Char} (h : Ends rest) :
    readNumber false (Decimal.ofNat n ++ rest) = some (.int n, rest) := by
  simp [readNumber, readDigits_ofNat n h, not_leading_zero n, readFraction_ends h,
    readExponent_ends h]

theorem readNumber_negative (n : Nat) {rest : List Char} (h : Ends rest) :
    readNumber true (Decimal.ofNat (n + 1) ++ rest) = some (.int (.negSucc n), rest) := by
  simp [readNumber, readDigits_ofNat (n + 1) h, not_leading_zero (n + 1), readFraction_ends h,
    readExponent_ends h]
  omega

theorem digit_cases {c : Char} (h : c.isDigit = true) :
    c = '0' ∨ c = '1' ∨ c = '2' ∨ c = '3' ∨ c = '4' ∨ c = '5' ∨ c = '6' ∨ c = '7' ∨ c = '8' ∨
      c = '9' := by
  have hdigit : ∀ n : Fin 10, Char.ofNat (48 + n) ∈
      ['0', '1', '2', '3', '4', '5', '6', '7', '8', '9'] := by decide
  have hrange := Char.isDigit_iff_toNat.mp h
  have hlow : 48 ≤ c.toNat := hrange.1
  have hhigh : c.toNat ≤ 57 := hrange.2
  have hmem := hdigit ⟨c.toNat - 48, by omega⟩
  rw [show 48 + (c.toNat - 48) = c.toNat by omega, Char.ofNat_toNat] at hmem
  simpa using hmem

/-- Where a digit stands, a number is read. -/
theorem readValue_digit {c : Char} (h : c.isDigit = true) (fuel : Nat) (rest : List Char) :
    readValue how (fuel + 1) (c :: rest) = readNumber false (c :: rest) := by
  rcases digit_cases h with h | h | h | h | h | h | h | h | h | h <;> subst h <;>
    simp [readValue, skipBlanks, isBlank]

theorem readValue_int (n : Int) {rest : List Char} (h : Ends rest) (fuel : Nat) :
    readValue how (fuel + 1) (Decimal.ofInt n ++ rest) = some (.int n, rest) := by
  cases n with
  | ofNat n =>
    rcases hdigits : Decimal.ofNat n with _ | ⟨c, digits⟩
    · exact absurd hdigits (Decimal.ofNat_ne_nil n)
    · have hc : c.isDigit = true := by
        apply Decimal.isDigit_of_mem (n := n)
        rw [hdigits]
        exact List.mem_cons_self
      have hread := readNumber_ofNat n h
      rw [hdigits] at hread
      rw [Decimal.ofInt, hdigits, List.cons_append, readValue_digit hc]
      exact hread
  | negSucc n =>
    have hread := readNumber_negative n h
    simp [Decimal.ofInt, readValue, skipBlanks, isBlank, hread]

theorem skipBlanks_cons {c : Char} (h : isBlank c = false) (rest : List Char) :
    skipBlanks (c :: rest) = c :: rest := by
  rw [skipBlanks, List.dropWhile_cons_of_neg (by simp [h])]

/-- What a written value begins with. -/
def Begins (text : List Char) : Prop :=
  ∃ c rest, text = c :: rest ∧ isBlank c = false ∧ c ≠ ']'

theorem begins_digit {c : Char} (h : c.isDigit = true) (rest : List Char) : Begins (c :: rest) := by
  refine ⟨c, rest, rfl, ?_⟩
  rcases digit_cases h with h | h | h | h | h | h | h | h | h | h <;> subst h <;> decide

theorem write_begins {v : Value} (h : Whole v) (rest : List Char) : Begins (write v ++ rest) := by
  cases h with
  | null => exact ⟨'n', _, rfl, by decide⟩
  | bool b =>
    cases b
    · exact ⟨'f', _, rfl, by decide⟩
    · exact ⟨'t', _, rfl, by decide⟩
  | int n =>
    cases n with
    | ofNat n =>
      rw [write, Decimal.ofInt]
      rcases hdigits : Decimal.ofNat n with _ | ⟨c, digits⟩
      · exact absurd hdigits (Decimal.ofNat_ne_nil n)
      · apply begins_digit
        apply Decimal.isDigit_of_mem (n := n)
        rw [hdigits]
        exact List.mem_cons_self
    | negSucc n => exact ⟨'-', _, rfl, by decide⟩
  | string s => exact ⟨'"', _, rfl, by decide⟩
  | array => exact ⟨'[', _, rfl, by decide⟩
  | object => exact ⟨'\x7b', _, rfl, by decide⟩

theorem skipBlanks_begins {text : List Char} (h : Begins text) : skipBlanks text = text := by
  rcases h with ⟨c, rest, rfl, hblank, -⟩
  exact skipBlanks_cons hblank rest

/-- A value is read wherever it is written, given as many steps as its text is long. -/
def Reads (how : Escapes) (v : Value) : Prop :=
  ∀ rest fuel, Ends rest → 2 * (write v).length ≤ fuel →
    readValue how fuel (write v ++ rest) = some (v, rest)

theorem writeItems_cons (v w : Value) (items : List Value) :
    writeItems (v :: w :: items) = write v ++ ',' :: writeItems (w :: items) := by
  rw [writeItems]
  exact List.cons_ne_nil w items

theorem writeMembers_cons (e e' : String × Value) (members : List (String × Value)) :
    writeMembers (e :: e' :: members) =
      quoted e.1.toList ++ ':' :: (write e.2 ++ ',' :: writeMembers (e' :: members)) := by
  rw [writeMembers]
  exact List.cons_ne_nil e' members

theorem readItems_write {items : List Value} (hne : items ≠ [])
    (hreads : ∀ v ∈ items, Reads how v) (rest : List Char) (fuel : Nat)
    (hfuel : 2 * (writeItems items).length ≤ fuel) :
    readItems how fuel (writeItems items ++ rest) = some (items, rest) := by
  induction items generalizing fuel with
  | nil => exact absurd rfl hne
  | cons v items ih =>
    rcases List.forall_mem_cons.mp hreads with ⟨hv, hreads⟩
    rcases items with _ | ⟨w, items⟩
    · simp only [writeItems, List.length_append, List.length_cons, List.length_nil] at hfuel
      rcases fuel with _ | fuel
      · omega
      have hread := hv (']' :: rest) fuel (ends_cons _ (by decide)) (by omega)
      simp [writeItems, readItems, hread, skipBlanks_cons (show isBlank ']' = false by decide)]
    · simp only [writeItems_cons, List.length_append, List.length_cons] at hfuel
      rcases fuel with _ | fuel
      · omega
      have hread := hv (',' :: (writeItems (w :: items) ++ rest)) fuel (ends_cons _ (by decide))
        (by omega)
      have hrest := ih (List.cons_ne_nil w items) hreads fuel
        (by omega)
      rw [writeItems_cons, readItems, List.append_assoc, List.cons_append, hread]
      simp [skipBlanks_cons (show isBlank ',' = false by decide), hrest]

theorem readMembers_write {members : List (String × Value)} (hne : members ≠ [])
    (hreads : ∀ e ∈ members, Reads how e.2) (rest : List Char) (fuel : Nat)
    (hfuel : 2 * (writeMembers members).length ≤ fuel) :
    readMembers how fuel (writeMembers members ++ rest) = some (members, rest) := by
  induction members generalizing fuel with
  | nil => exact absurd rfl hne
  | cons e members ih =>
    rcases List.forall_mem_cons.mp hreads with ⟨hv, hreads⟩
    have hquote : isBlank '"' = false := by decide
    have hcolon : isBlank ':' = false := by decide
    rcases members with _ | ⟨e', members⟩
    · rcases e with ⟨key, v⟩
      simp only [writeMembers, quoted, List.length_append, List.length_cons, List.length_nil]
        at hfuel
      rcases fuel with _ | fuel
      · omega
      have hread := hv ('\x7d' :: rest) fuel (ends_cons _ (by decide)) (by simp only; omega)
      have hkey := @readString_quoted how key.toList (':' :: (write v ++ '\x7d' :: rest))
      have hclose : isBlank '\x7d' = false := by decide
      simp only [writeMembers, quoted, List.cons_append, List.append_assoc, List.nil_append]
      rw [readMembers, skipBlanks_cons hquote]
      simp only [hkey, skipBlanks_cons hcolon, hread, skipBlanks_cons hclose, String.ofList_toList]
    · simp only [writeMembers_cons, quoted, List.length_append, List.length_cons,
        List.length_nil] at hfuel
      rcases fuel with _ | fuel
      · omega
      have hread := hv (',' :: (writeMembers (e' :: members) ++ rest)) fuel
        (ends_cons _ (by decide)) (by omega)
      have hrest := ih (List.cons_ne_nil e' members) hreads fuel (by omega)
      have hkey := @readString_quoted how e.1.toList
        (':' :: (write e.2 ++ ',' :: (writeMembers (e' :: members) ++ rest)))
      have hcomma : isBlank ',' = false := by decide
      simp only [writeMembers_cons, quoted, List.cons_append, List.append_assoc, List.nil_append]
      rw [readMembers, skipBlanks_cons hquote]
      simp only [hkey, skipBlanks_cons hcolon, hread, skipBlanks_cons hcomma, hrest,
        Option.map_some, String.ofList_toList]

/-- The items and the members of a value begin with something that is read as one. -/
theorem writeItems_begins {items : List Value} (hne : items ≠ []) (h : ∀ v ∈ items, Whole v)
    (rest : List Char) : Begins (writeItems items ++ rest) := by
  rcases items with _ | ⟨v, _ | ⟨w, items⟩⟩
  · exact absurd rfl hne
  · rw [writeItems, List.append_assoc]
    exact write_begins (h v List.mem_cons_self) _
  · rw [writeItems_cons, List.append_assoc]
    exact write_begins (h v List.mem_cons_self) _

theorem writeMembers_quote {members : List (String × Value)} (hne : members ≠ [])
    (rest : List Char) : ∃ text, writeMembers members ++ rest = '"' :: text := by
  rcases members with _ | ⟨e, _ | ⟨e', members⟩⟩
  · exact absurd rfl hne
  · exact ⟨_, rfl⟩
  · rw [writeMembers_cons]
    exact ⟨_, rfl⟩

theorem whole_reads {v : Value} (h : Whole v) : Reads how v := by
  induction h with
  | null =>
    intro rest fuel _ hfuel
    rcases fuel with _ | fuel
    · exact absurd hfuel (by decide)
    · simp [write, readValue, skipBlanks, isBlank]
  | bool b =>
    intro rest fuel _ hfuel
    rcases fuel with _ | fuel
    · cases b <;> exact absurd hfuel (by decide)
    · cases b <;> simp [write, readValue, skipBlanks, isBlank]
  | int n =>
    intro rest fuel hends hfuel
    rcases fuel with _ | fuel
    · rcases write_begins (Whole.int n) [] with ⟨c, text, htext, -⟩
      rw [List.append_nil] at htext
      rw [htext, List.length_cons] at hfuel
      omega
    · exact readValue_int n hends fuel
  | string s =>
    intro rest fuel _ hfuel
    rcases fuel with _ | fuel
    · simp [write, quoted] at hfuel
    · simp [write, quoted, readValue, skipBlanks, isBlank, readString_quoted]
  | @array items h ih =>
    intro rest fuel _ hfuel
    rcases fuel with _ | fuel
    · simp [write] at hfuel
    have hblank : isBlank '[' = false := by decide
    rw [write, List.cons_append, readValue, skipBlanks_cons hblank]
    by_cases hne : items = []
    · subst hne
      simp [writeItems, skipBlanks, isBlank]
    · have hread := readItems_write hne ih rest fuel (by simp [write] at hfuel; omega)
      have hbegins := writeItems_begins hne h rest
      simp only [skipBlanks_begins hbegins]
      rcases hbegins with ⟨c, text, htext, -, hc⟩
      split
      · rename_i rest' heq
        rw [htext] at heq
        exact absurd (List.head_eq_of_cons_eq heq) hc
      · rw [hread, Option.map_some]
  | @object members h ih =>
    intro rest fuel _ hfuel
    rcases fuel with _ | fuel
    · simp [write] at hfuel
    have hblank : isBlank '\x7b' = false := by decide
    rw [write, List.cons_append, readValue, skipBlanks_cons hblank]
    by_cases hne : members = []
    · subst hne
      simp [writeMembers, skipBlanks, isBlank]
    · have hread := readMembers_write hne ih rest fuel (by simp [write] at hfuel; omega)
      rcases writeMembers_quote hne rest with ⟨text, htext⟩
      have hquote : isBlank '"' = false := by decide
      rw [htext] at hread
      simp only [htext, skipBlanks_cons hquote]
      exact congrArg (Option.map fun r => (Value.object r.1, r.2)) hread

theorem read_write {v : Value} (h : Whole v) : read how (write v) = some v := by
  have hread := @whole_reads how v h [] (2 * (write v).length) ends_nil (Nat.le_refl _)
  rw [List.append_nil] at hread
  rw [read, hread]
  rfl

/-! ### What characters are written -/

/-- Without numbers other than integers, and of the characters in its strings all that are
    written as they stand are such characters. -/
inductive StringsOf (P : Char → Prop) : Value → Prop where
  | null : StringsOf P .null
  | bool (b : Bool) : StringsOf P (.bool b)
  | int (n : Int) : StringsOf P (.int n)
  | string {s : String} (h : ∀ c ∈ s.toList, 32 ≤ c.toNat → P c) : StringsOf P (.string s)
  | array {items : List Value} (h : ∀ v ∈ items, StringsOf P v) : StringsOf P (.array items)
  | object {members : List (String × Value)}
      (hkeys : ∀ e ∈ members, ∀ c ∈ e.1.toList, 32 ≤ c.toNat → P c)
      (h : ∀ e ∈ members, StringsOf P e.2) : StringsOf P (.object members)

theorem StringsOf.whole {P : Char → Prop} {v : Value} (h : StringsOf P v) : Whole v := by
  induction h with
  | null => exact .null
  | bool b => exact .bool b
  | int n => exact .int n
  | string _ => exact .string _
  | array _ ih => exact .array ih
  | object _ _ ih => exact .object ih

theorem hexDigit_printed : ∀ n : Fin 16, 32 ≤ (hexDigit n).toNat ∧ (hexDigit n).toNat < 128 := by
  decide

section

/- The printed characters of ASCII are among them. -/
variable {P : Char → Prop} (hP : ∀ c : Char, 32 ≤ c.toNat → c.toNat < 128 → P c)
include hP

theorem escape_all {c : Char} (hc : 32 ≤ c.toNat → P c) : ∀ x ∈ escape c, P x := by
  have hback : P '\\' := hP _ (by decide) (by decide)
  have hpair : ∀ d : Char, 32 ≤ d.toNat → d.toNat < 128 → ∀ x ∈ ['\\', d], P x := by
    intro d hlow hhigh
    simpa using ⟨hback, hP d hlow hhigh⟩
  unfold escape
  split
  · exact hpair _ (by decide) (by decide)
  split
  · exact hpair _ (by decide) (by decide)
  split
  · exact hpair _ (by decide) (by decide)
  split
  · exact hpair _ (by decide) (by decide)
  split
  · exact hpair _ (by decide) (by decide)
  split
  · exact hpair _ (by decide) (by decide)
  split
  · exact hpair _ (by decide) (by decide)
  split
  · rename_i h
    have hhigh := hexDigit_printed ⟨c.toNat / 16, by omega⟩
    have hlow := hexDigit_printed ⟨c.toNat % 16, by omega⟩
    have hu : P 'u' := hP _ (by decide) (by decide)
    have hzero : P '0' := hP _ (by decide) (by decide)
    simpa using ⟨hback, hu, hzero, hP _ hhigh.1 hhigh.2, hP _ hlow.1 hlow.2⟩
  · rename_i h
    simpa using hc (not_lt.mp h)

theorem quoted_all {s : List Char} (h : ∀ c ∈ s, 32 ≤ c.toNat → P c) : ∀ x ∈ quoted s, P x := by
  have hquote : P '"' := hP _ (by decide) (by decide)
  intro x hx
  rcases List.mem_cons.mp hx with rfl | hx
  · exact hquote
  rcases List.mem_append.mp hx with hx | hx
  · rcases List.mem_flatMap.mp hx with ⟨c, hc, hx⟩
    exact escape_all hP (h c hc) x hx
  · rwa [List.mem_singleton.mp hx]

theorem ofInt_all (n : Int) : ∀ x ∈ Decimal.ofInt n, P x := by
  have hdigits : ∀ k : Nat, ∀ x ∈ Decimal.ofNat k, P x := by
    intro k x hx
    have hrange := Char.isDigit_iff_toNat.mp (Decimal.isDigit_of_mem hx)
    have hlow : 48 ≤ x.toNat := hrange.1
    have hhigh : x.toNat ≤ 57 := hrange.2
    exact hP x (by omega) (by omega)
  cases n with
  | ofNat n => exact hdigits n
  | negSucc n => exact List.forall_mem_cons.mpr ⟨hP _ (by decide) (by decide), hdigits (n + 1)⟩

theorem writeItems_all {items : List Value} (h : ∀ v ∈ items, ∀ x ∈ write v, P x) :
    ∀ x ∈ writeItems items, P x := by
  have hclose : P ']' := hP _ (by decide) (by decide)
  have hcomma : P ',' := hP _ (by decide) (by decide)
  induction items with
  | nil => exact List.forall_mem_singleton.mpr hclose
  | cons v items ih =>
    rcases List.forall_mem_cons.mp h with ⟨hv, hitems⟩
    rcases items with _ | ⟨w, items⟩
    · rw [writeItems]
      exact List.forall_mem_append.mpr ⟨hv, List.forall_mem_singleton.mpr hclose⟩
    · rw [writeItems_cons]
      exact List.forall_mem_append.mpr ⟨hv, List.forall_mem_cons.mpr ⟨hcomma, ih hitems⟩⟩

theorem writeMembers_all {members : List (String × Value)}
    (hkeys : ∀ e ∈ members, ∀ c ∈ e.1.toList, 32 ≤ c.toNat → P c)
    (h : ∀ e ∈ members, ∀ x ∈ write e.2, P x) : ∀ x ∈ writeMembers members, P x := by
  have hclose : P '\x7d' := hP _ (by decide) (by decide)
  have hcolon : P ':' := hP _ (by decide) (by decide)
  have hcomma : P ',' := hP _ (by decide) (by decide)
  induction members with
  | nil => exact List.forall_mem_singleton.mpr hclose
  | cons e members ih =>
    rcases List.forall_mem_cons.mp h with ⟨hv, hmembers⟩
    rcases List.forall_mem_cons.mp hkeys with ⟨hkey, hkeys⟩
    have hquoted := quoted_all hP hkey
    rcases members with _ | ⟨e', members⟩
    · rw [writeMembers]
      exact List.forall_mem_append.mpr ⟨hquoted, List.forall_mem_cons.mpr ⟨hcolon,
        List.forall_mem_append.mpr ⟨hv, List.forall_mem_singleton.mpr hclose⟩⟩⟩
    · rw [writeMembers_cons]
      exact List.forall_mem_append.mpr ⟨hquoted, List.forall_mem_cons.mpr ⟨hcolon,
        List.forall_mem_append.mpr ⟨hv, List.forall_mem_cons.mpr ⟨hcomma, ih hkeys hmembers⟩⟩⟩⟩

theorem write_all {v : Value} (h : StringsOf P v) : ∀ x ∈ write v, P x := by
  induction h with
  | null => simpa [write] using ⟨hP _ (by decide) (by decide), hP _ (by decide) (by decide),
      hP 'l' (by decide) (by decide)⟩
  | bool b =>
    intro x hx
    have hletters : 32 ≤ x.toNat ∧ x.toNat < 128 := by
      cases b
      · have hall : ∀ x ∈ write (.bool false), 32 ≤ x.toNat ∧ x.toNat < 128 := by simp [write]
        exact hall x hx
      · have hall : ∀ x ∈ write (.bool true), 32 ≤ x.toNat ∧ x.toNat < 128 := by simp [write]
        exact hall x hx
    exact hP x hletters.1 hletters.2
  | int n => exact ofInt_all hP n
  | string h => exact quoted_all hP h
  | array _ ih =>
    rw [write]
    exact List.forall_mem_cons.mpr ⟨hP _ (by decide) (by decide), writeItems_all hP ih⟩
  | object hkeys _ ih =>
    rw [write]
    exact List.forall_mem_cons.mpr ⟨hP _ (by decide) (by decide), writeMembers_all hP hkeys ih⟩

end

/-- Without control characters. -/
def Printed (text : List Char) : Prop := ∀ c ∈ text, 32 ≤ c.toNat

/-- No control character is written. -/
theorem write_printed {v : Value} (h : Whole v) : Printed (write v) := by
  apply write_all fun _ hlow _ => hlow
  induction h with
  | null => exact .null
  | bool b => exact .bool b
  | int n => exact .int n
  | string s => exact .string fun _ _ hlow => hlow
  | array _ ih => exact .array ih
  | object _ ih => exact .object (fun _ _ _ _ hlow => hlow) ih

/-- Strings of ASCII characters. -/
def Ascii (v : Value) : Prop := StringsOf (fun c => c.toNat < 128) v

/-- Such a value is read from the bytes of its text. -/
theorem read_bytes {v : Value} (h : Ascii v) :
    read how (Bytes.asChars (Bytes.asBytes (write v))) = some v := by
  rw [Bytes.asChars_asBytes (write_all (fun _ _ hhigh => hhigh) h), read_write h.whole]

end Arne.JsonText
