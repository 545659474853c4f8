import Mathlib.Data.List.Infix

/-!
# Double-quoted scalars of YAML

What a YAML text says between double quotes: the characters themselves, escapes behind a
backslash, and the end at the first quote that is not escaped.  A scalar may go on over further
lines; how its lines are folded is left out, and of such a scalar only the beginning is told.

A text is the value of its own scalar exactly if none of its characters means anything there.
-/

namespace Arne.Yaml

def isBreak (c : Char) : Bool :=
  c.toNat == 0x0a || c.toNat == 0x0d || c.toNat == 0x85 || c.toNat == 0x2028 || c.toNat == 0x2029

/-- The characters that may stand in a text. -/
def isPrintable (c : Char) : Bool :=
  let n := c.toNat
  n == 0x09 || n == 0x0a || n == 0x0d || (0x20 ≤ n && n ≤ 0x7e) || n == 0x85 ||
    (0xa0 ≤ n && n ≤ 0xd7ff) || (0xe000 ≤ n && n ≤ 0xfffd && n != 0xfeff) || 0x10000 ≤ n

/-- The escapes of one letter. -/
def escapeLetter? : Char → Option Char
  | '0' => some (Char.ofNat 0x00)
  | 'a' => some (Char.ofNat 0x07)
  | 'b' => some (Char.ofNat 0x08)
  | 't' => some '\t'
  | '\t' => some '\t'
  | 'n' => some '\n'
  | 'v' => some (Char.ofNat 0x0b)
  | 'f' => some (Char.ofNat 0x0c)
  | 'r' => some '\r'
  | 'e' => some (Char.ofNat 0x1b)
  | ' ' => some ' '
  | '"' => some '"'
  | '/' => some '/'
  | '\\' => some '\\'
  | 'N' => some (Char.ofNat 0x85)
  | '_' => some (Char.ofNat 0xa0)
  | 'L' => some (Char.ofNat 0x2028)
  | 'P' => some (Char.ofNat 0x2029)
  | _ => none

/-- How many hexadecimal digits follow the letter. -/
def hexWidth? : Char → Option Nat
  | 'x' => some 2
  | 'u' => some 4
  | 'U' => some 8
  | _ => none

def hexDigit? (c : Char) : Option Nat :=
  let n := c.toNat
  if 0x30 ≤ n ∧ n ≤ 0x39 then some (n - 0x30)
  else if 0x61 ≤ n ∧ n ≤ 0x66 then some (n - 0x61 + 10)
  else if 0x41 ≤ n ∧ n ≤ 0x46 then some (n - 0x41 + 10)
  else none

def readHex : Nat → Nat → List Char → Option (Nat × List Char)
  | 0, acc, rest => some (acc, rest)
  | _ + 1, _, [] => none
  | width + 1, acc, c :: rest => (hexDigit? c).bind fun d => readHex width (acc * 16 + d) rest

/-- What a backslash before the text stands for, and the text behind the escape. -/
def escape? : List Char → Option (Char × List Char)
  | [] => none
  | e :: rest =>
    match escapeLetter? e with
    | some c => some (c, rest)
    | none => do
      let width ← hexWidth? e
      let (n, rest) ← readHex width 0 rest
      if n.isValidChar then some (Char.ofNat n, rest) else none

theorem readHex_suffix {width acc n : Nat} {text rest : List Char}
    (h : readHex width acc text = some (n, rest)) : rest <:+ text := by
  induction width generalizing acc text with
  | zero =>
    cases h
    exact List.suffix_refl _
  | succ width ih =>
    cases text with
    | nil => cases h
    | cons c text =>
      obtain ⟨d, -, h⟩ := Option.bind_eq_some_iff.mp h
      exact (ih h).trans (List.suffix_cons c text)

/-- A quote is no digit. -/
theorem readHex_quote {width acc n : Nat} {u tail rest : List Char}
    (h : readHex width acc (u ++ '"' :: tail) = some (n, rest)) :
    ∃ u', rest = u' ++ '"' :: tail ∧ u' <:+ u := by
  induction width generalizing acc u with
  | zero =>
    cases h
    exact ⟨u, rfl, List.suffix_refl u⟩
  | succ width ih =>
    cases u with
    | nil => cases h
    | cons c u =>
      obtain ⟨d, -, h⟩ := Option.bind_eq_some_iff.mp h
      obtain ⟨u', hrest, hsuffix⟩ := ih h
      exact ⟨u', hrest, hsuffix.trans (List.suffix_cons c u)⟩

theorem length_escape {text rest : List Char} {c : Char} (h : escape? text = some (c, rest)) :
    rest.length < text.length := by
  cases text with
  | nil => cases h
  | cons e text =>
    rw [escape?] at h
    split at h
    · cases h
      simp
    · obtain ⟨width, -, h⟩ := Option.bind_eq_some_iff.mp h
      obtain ⟨⟨n, rest'⟩, hhex, h⟩ := Option.bind_eq_some_iff.mp h
      dsimp only at h
      split at h
      · cases h
        have := (readHex_suffix hhex).length_le
        rw [List.length_cons]
        omega
      · cases h

/-- What is read of a scalar on the line it opens on. -/
inductive Scalar where
  | closed (value after : List Char)
  | continued (value : List Char)
deriving DecidableEq, Repr

def Scalar.value : Scalar → List Char
  | .closed value _ => value
  | .continued value => value

def Scalar.behind (c : Char) : Scalar → Scalar
  | .closed value after => .closed (c :: value) after
  | .continued value => .continued (c :: value)

@[simp] theorem Scalar.value_behind (c : Char) (r : Scalar) :
    (r.behind c).value = c :: r.value := by
  cases r with
  | closed => rfl
  | continued => rfl

/-- Reads a scalar behind its opening quote. -/
def scan (text : List Char) : Option Scalar :=
  match text with
  | [] => none
  | c :: rest =>
    if c = '"' then some (.closed [] rest)
    else if isBreak c then some (.continued [])
    else if c = '\\' then
      match _h : escape? rest with
      | some (x, rest) => (scan rest).map (Scalar.behind x)
      | none => if rest.head?.any isBreak then some (.continued []) else none
    else if isPrintable c then (scan rest).map (Scalar.behind c)
    else none
termination_by text.length
decreasing_by
  · have := length_escape ‹escape? _ = _›
    simp
    omega
  · simp

/-- `v` is a value that begins as the scalar does.  Blanks at the end of a line are not kept
    where the scalar goes on behind it. -/
def Scalar.Reads (r : Scalar) (v : List Char) : Prop :=
  match r with
  | .closed value _ => v = value
  | .continued value =>
      ∀ front c, c ≠ ' ' → c ≠ '\t' → front ++ [c] <+: value → front ++ [c] <+: v

/-- The characters that stand for themselves between double quotes. -/
def IsVerbatim (c : Char) : Prop :=
  c ≠ '"' ∧ c ≠ '\\' ∧ isBreak c = false ∧ isPrintable c = true

instance : DecidablePred IsVerbatim := fun c =>
  inferInstanceAs (Decidable (c ≠ '"' ∧ c ≠ '\\' ∧ isBreak c = false ∧ isPrintable c = true))

def Verbatim (text : List Char) : Prop := ∀ c ∈ text, IsVerbatim c

instance : DecidablePred Verbatim := fun text => List.decidableBAll IsVerbatim text

theorem scan_cons {c : Char} (h : IsVerbatim c) (rest : List Char) :
    scan (c :: rest) = (scan rest).map (Scalar.behind c) := by
  rw [scan, if_neg h.1, if_neg (by simp [h.2.2.1]), if_neg h.2.1, if_pos h.2.2.2]

theorem scan_quote (after : List Char) : scan ('"' :: after) = some (.closed [] after) := by
  rw [scan, if_pos rfl]

theorem scan_verbatim {text : List Char} (h : Verbatim text) (after : List Char) :
    scan (text ++ '"' :: after) = some (.closed text after) := by
  induction text with
  | nil => exact scan_quote after
  | cons c text ih =>
    obtain ⟨hc, htext⟩ := List.forall_mem_cons.mp h
    rw [List.cons_append, scan_cons hc, ih htext]
    rfl

theorem scan_escape {rest rest' : List Char} {x : Char} (h : escape? rest = some (x, rest')) :
    scan ('\\' :: rest) = (scan rest').map (Scalar.behind x) := by
  rw [scan, if_neg (by decide), if_neg (by decide), if_pos rfl]
  split
  · rename_i heq
    rw [h] at heq
    cases heq
    rfl
  · rename_i heq
    rw [h] at heq
    cases heq

theorem scan_escape_none {rest : List Char} (h : escape? rest = none)
    (hbreak : ∀ c ∈ rest.head?, isBreak c = false) : scan ('\\' :: rest) = none := by
  rw [scan, if_neg (by decide), if_neg (by decide), if_pos rfl]
  split
  · rename_i heq
    rw [h] at heq
    cases heq
  · rw [if_neg]
    cases rest with
    | nil => simp
    | cons c rest => simpa using hbreak c rfl

/-- An escape before a quote is made of what stands before it, or is the quote's own. -/
theorem escape_quote {u tail rest : List Char} {x : Char} (hu : '"' ∉ u)
    (h : escape? (u ++ '"' :: tail) = some (x, rest)) :
    (u = [] ∧ x = '"' ∧ rest = tail) ∨
      ∃ u', rest = u' ++ '"' :: tail ∧ u' <:+ u ∧ u'.length < u.length := by
  cases u with
  | nil =>
    cases h
    exact Or.inl ⟨rfl, rfl, rfl⟩
  | cons e u =>
    right
    rw [List.cons_append, escape?] at h
    split at h
    · cases h
      exact ⟨u, rfl, List.suffix_cons e u, by simp⟩
    · obtain ⟨width, -, h⟩ := Option.bind_eq_some_iff.mp h
      obtain ⟨⟨n, rest'⟩, hhex, h⟩ := Option.bind_eq_some_iff.mp h
      dsimp only at h
      split at h
      · cases h
        obtain ⟨u', hrest, hsuffix⟩ := readHex_quote hhex
        refine ⟨u', hrest, hsuffix.trans (List.suffix_cons e u), ?_⟩
        have := hsuffix.length_le
        rw [List.length_cons]
        omega
      · cases h

/-- A scalar read up to its first quote, with the text `u` before it.  Either it ends there, with
    at most as many characters as were read, and as many only if they stand for themselves; or
    the quote is escaped, and fewer characters stand before it than were read. -/
def ReadsFront (u tail : List Char) (r : Scalar) : Prop :=
  (∃ w, r = .closed w tail ∧ w.length ≤ u.length ∧ (w.length = u.length → w = u ∧ Verbatim u)) ∨
    ∃ d, d.length < u.length ∧ d ++ ['"'] <+: r.value

/-- An escape stands for one character and takes at least two. -/
theorem ReadsFront.escape {u u' tail : List Char} {r : Scalar} (h : ReadsFront u' tail r)
    (hshort : u'.length + 1 < u.length) (x : Char) : ReadsFront u tail (r.behind x) := by
  rcases h with ⟨w, rfl, hle, -⟩ | ⟨d, hlt, hfront⟩
  · left
    have hless : (x :: w).length < u.length := by
      rw [List.length_cons]
      omega
    exact ⟨x :: w, rfl, hless.le, fun heq => absurd heq hless.ne⟩
  · right
    refine ⟨x :: d, ?_, ?_⟩
    · rw [List.length_cons]
      omega
    · rw [Scalar.value_behind]
      exact List.cons_prefix_cons.mpr ⟨rfl, hfront⟩

theorem ReadsFront.verbatim {u tail : List Char} {r : Scalar} (h : ReadsFront u tail r) {c : Char}
    (hc : IsVerbatim c) : ReadsFront (c :: u) tail (r.behind c) := by
  rcases h with ⟨w, rfl, hle, hsame⟩ | ⟨d, hlt, hfront⟩
  · left
    refine ⟨c :: w, rfl, Nat.succ_le_succ hle, fun heq => ?_⟩
    obtain ⟨rfl, hu⟩ := hsame (Nat.succ.inj heq)
    exact ⟨rfl, List.forall_mem_cons.mpr ⟨hc, hu⟩⟩
  · right
    refine ⟨c :: d, Nat.succ_lt_succ hlt, ?_⟩
    rw [Scalar.value_behind]
    exact List.cons_prefix_cons.mpr ⟨rfl, hfront⟩

theorem scan_front {u tail : List Char} {r : Scalar} (hquote : '"' ∉ u)
    (hbreak : ∀ c ∈ u, isBreak c = false) (h : scan (u ++ '"' :: tail) = some r) :
    ReadsFront u tail r := by
  induction hlength : u.length using Nat.strongRecOn generalizing u r with
  | ind n ih =>
    cases u with
    | nil =>
      rw [List.nil_append, scan_quote] at h
      cases h
      exact Or.inl ⟨[], rfl, Nat.zero_le _, fun _ => ⟨rfl, nofun⟩⟩
    | cons c u =>
      rw [List.length_cons] at hlength
      obtain ⟨hc, hqu⟩ : '"' ≠ c ∧ '"' ∉ u := by simpa using hquote
      obtain ⟨hcb, hbu⟩ := List.forall_mem_cons.mp hbreak
      by_cases hslash : c = '\\'
      · subst hslash
        rw [List.cons_append] at h
        cases hescape : escape? (u ++ '"' :: tail) with
        | none =>
          rw [scan_escape_none hescape] at h
          · cases h
          · cases u with
            | nil =>
              rintro c ⟨⟩
              rfl
            | cons d u =>
              rintro c ⟨⟩
              exact hbu d List.mem_cons_self
        | some p =>
          obtain ⟨x, rest⟩ := p
          rw [scan_escape hescape] at h
          obtain ⟨r', hr', rfl⟩ := Option.map_eq_some_iff.mp h
          rcases escape_quote hqu hescape with ⟨rfl, rfl, rfl⟩ | ⟨u', rfl, hsuffix, hshort⟩
          · right
            refine ⟨[], Nat.succ_pos _, ?_⟩
            rw [Scalar.value_behind]
            exact List.cons_prefix_cons.mpr ⟨rfl, List.nil_prefix⟩
          · have hquote' : '"' ∉ u' := fun hmem => hqu (hsuffix.subset hmem)
            have hbreak' : ∀ c ∈ u', isBreak c = false :=
              fun c hmem => hbu c (hsuffix.subset hmem)
            have hread : ReadsFront u' tail r' := ih u'.length (by omega) hquote' hbreak' hr' rfl
            refine hread.escape ?_ x
            exact Nat.succ_lt_succ hshort
      · by_cases hprintable : isPrintable c = true
        · have hverbatim : IsVerbatim c := ⟨hc.symm, hslash, hcb, hprintable⟩
          rw [List.cons_append, scan_cons hverbatim] at h
          obtain ⟨r', hr', rfl⟩ := Option.map_eq_some_iff.mp h
          exact (ih u.length (by omega) hqu hbu hr' rfl).verbatim hverbatim
        · rw [List.cons_append, scan, if_neg hc.symm, if_neg (by simp [hcb]), if_neg hslash,
            if_neg hprintable] at h
          cases h

/-- A text without a break that is read back from between two quotes stands for itself. -/
theorem verbatim_of_reads {v after : List Char} {r : Scalar}
    (hbreak : ∀ c ∈ v, isBreak c = false) (h : scan (v ++ '"' :: after) = some r)
    (hreads : r.Reads v) : Verbatim v := by
  obtain ⟨u, tail, hu, hsplit, hfront⟩ :
      ∃ u tail, '"' ∉ u ∧ v ++ '"' :: after = u ++ '"' :: tail ∧ u <+: v := by
    by_cases hmem : '"' ∈ v
    · obtain ⟨u, v', rfl, hu⟩ := List.eq_append_cons_of_mem hmem
      exact ⟨u, v' ++ '"' :: after, hu, by simp, List.prefix_append u _⟩
    · exact ⟨v, after, hmem, rfl, List.prefix_refl v⟩
  rw [hsplit] at h
  rcases scan_front hu (fun c hc => hbreak c (hfront.subset hc)) h with
    ⟨w, rfl, hle, hsame⟩ | ⟨d, hlt, hd⟩
  · obtain rfl : v = w := hreads
    have hlength := hfront.length_le
    obtain ⟨rfl, hverbatim⟩ := hsame (by omega)
    exact hverbatim
  · have hv : d ++ ['"'] <+: v := by
      cases r with
      | closed w after => exact hreads ▸ hd
      | continued w => exact hreads d '"' (by decide) (by decide) hd
    have hlength : (d ++ ['"']).length ≤ u.length := by
      rw [List.length_append, List.length_singleton]
      omega
    have hdu := List.prefix_of_prefix_length_le hv hfront hlength
    exact absurd (hdu.subset (by simp)) hu

end Arne.Yaml
