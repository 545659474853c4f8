import Arne.Cluster.Roster

/-!
# The grammar of the assignment blob (`cluster/assignment.rs`)

A `MemberAssignment` is followed by user data of any kind, and it says itself where it
ends: no assignment is the beginning of another one.  The decoder therefore accepts a
buffer exactly when it begins with an assignment, and it fails on every shorter piece of
one.  It reads through a cursor whose arithmetic is that of the machine; no buffer that
fits the machine takes the cursor out of it.
-/

namespace Arne.Cluster

open Arne.Bytes

/-! ### Assignments with nothing behind them -/

/-- The topics of an assignment, one after the other. -/
inductive TopicsBytes : List UInt8 → List String → Prop where
  | nil : TopicsBytes [] []
  | cons {nameLen name partitionCount partitions rest : List UInt8} {topic : String}
      {topics : List String} {count : Nat} (hname : IsLength 2 name.length nameLen)
      (htopic : fromUtf8 name = some topic) (hcount : IsLength 4 count partitionCount)
      (hpartitions : partitions.length = count * 4) (hrest : TopicsBytes rest topics) :
      TopicsBytes (nameLen ++ (name ++ (partitionCount ++ (partitions ++ rest)))) (topic :: topics)

/-- The structural part of an assignment: a version, the count of the topics, the topics. -/
def IsMemberAssignment (bytes : List UInt8) (topics : List String) : Prop :=
  ∃ version n count body, IsLength 2 n version ∧ IsLength 4 topics.length count ∧
    TopicsBytes body topics ∧ bytes = version ++ (count ++ body)

theorem laysOut_iff {buf : List UInt8} {topics : List String} :
    LaysOut buf topics ↔ ∃ body userdata, TopicsBytes body topics ∧ buf = body ++ userdata := by
  constructor
  · intro h
    induction h with
    | nil userdata => exact ⟨[], userdata, .nil, rfl⟩
    | cons hname htopic hcount hpartitions _ ih =>
      obtain ⟨body, userdata, hbody, rfl⟩ := ih
      refine ⟨_, userdata, .cons hname htopic hcount hpartitions hbody, ?_⟩
      simp only [List.append_assoc]
  · rintro ⟨body, userdata, hbody, rfl⟩
    induction hbody with
    | nil => exact .nil userdata
    | cons hname htopic hcount hpartitions _ ih =>
      simp only [List.append_assoc]
      exact .cons hname htopic hcount hpartitions ih

/-- A buffer decodes exactly when it begins with an assignment. -/
theorem assignedTopics_iff_begins {buf : List UInt8} {topics : List String} :
    assignedTopics buf = some topics ↔
      ∃ bytes userdata, IsMemberAssignment bytes topics ∧ buf = bytes ++ userdata := by
  rw [assignedTopics_eq_some_iff]
  constructor
  · rintro ⟨version, n, count, lays, hversion, hcount, hlays, rfl⟩
    obtain ⟨body, userdata, hbody, rfl⟩ := laysOut_iff.mp hlays
    refine ⟨_, userdata, ⟨version, n, count, body, hversion, hcount, hbody, rfl⟩, ?_⟩
    simp only [List.append_assoc]
  · rintro ⟨bytes, userdata, ⟨version, n, count, body, hversion, hcount, hbody, rfl⟩, rfl⟩
    refine ⟨version, n, count, body ++ userdata, hversion, hcount, ?_, ?_⟩
    · exact laysOut_iff.mpr ⟨body, userdata, hbody, rfl⟩
    · simp only [List.append_assoc]

/-! ### No assignment is the beginning of another -/

/-- As many topics at the front of one buffer take the same bytes of it. -/
theorem TopicsBytes.append_inj {bytes : List UInt8} {topics : List String}
    (h : TopicsBytes bytes topics) {bytes' : List UInt8} {topics' : List String}
    (h' : TopicsBytes bytes' topics') (hcount : topics.length = topics'.length)
    {rest rest' : List UInt8} (heq : bytes ++ rest = bytes' ++ rest') : bytes = bytes' := by
  induction h generalizing bytes' topics' rest' with
  | nil =>
    cases h' with
    | nil => rfl
    | cons => cases hcount
  | cons hname htopic hparts hpartitions _ ih =>
    cases h' with
    | nil => cases hcount
    | cons hname' htopic' hparts' hpartitions' hrest' =>
      simp only [List.append_assoc] at heq
      obtain ⟨rfl, hlength, hbehind⟩ := IsLength.append_inj hname hname' heq
      obtain ⟨rfl, hcounts⟩ := List.append_inj hbehind hlength
      obtain ⟨rfl, rfl, hparted⟩ := IsLength.append_inj hparts hparts' hcounts
      obtain ⟨rfl, hnext⟩ := List.append_inj hparted (hpartitions.trans hpartitions'.symm)
      rw [ih hrest' (Nat.succ.inj hcount) hnext]

theorem IsMemberAssignment.append_inj {bytes bytes' : List UInt8} {topics topics' : List String}
    (h : IsMemberAssignment bytes topics) (h' : IsMemberAssignment bytes' topics')
    {rest rest' : List UInt8} (heq : bytes ++ rest = bytes' ++ rest') : bytes = bytes' := by
  obtain ⟨version, n, count, body, hversion, hcount, hbody, rfl⟩ := h
  obtain ⟨version', n', count', body', hversion', hcount', hbody', rfl⟩ := h'
  simp only [List.append_assoc] at heq
  obtain ⟨rfl, _, hbehind⟩ := IsLength.append_inj hversion hversion' heq
  obtain ⟨rfl, hlength, hbodies⟩ := IsLength.append_inj hcount hcount' hbehind
  rw [hbody.append_inj hbody' hlength hbodies]

/-- What is cut short of an assignment is undecodable. -/
theorem assignedTopics_take {bytes : List UInt8} {topics : List String}
    (h : IsMemberAssignment bytes topics) {k : Nat} (hk : k < bytes.length) :
    assignedTopics (bytes.take k) = none := by
  rw [Option.eq_none_iff_forall_ne_some]
  intro topics' hdecode
  obtain ⟨bytes', userdata, h', htake⟩ := assignedTopics_iff_begins.mp hdecode
  have hwhole : bytes ++ [] = bytes' ++ (userdata ++ bytes.drop k) := by
    rw [List.append_nil, ← List.append_assoc, ← htake, List.take_append_drop]
  have hsame : bytes = bytes' := h.append_inj h' hwhole
  have hshort : (bytes.take k).length = k := List.length_take_of_le hk.le
  rw [htake, List.length_append, ← hsame] at hshort
  omega

/-! ### What consumers write -/

/-- An assignment with a wire form. -/
structure Assignment where
  version : Nat
  topics : List AssignedTopic
  version_fits : 2 * version < 256 ^ 2
  topics_fit : 2 * topics.length < 256 ^ 4

def Assignment.encode (a : Assignment) : List UInt8 := blob a.version a.topics []

def Assignment.names (a : Assignment) : List String := a.topics.map (·.name)

theorem topicsBytes_blobTopics (topics : List AssignedTopic) :
    TopicsBytes (blobTopics [] topics) (topics.map (·.name)) := by
  induction topics with
  | nil => exact .nil
  | cons t topics ih =>
    apply TopicsBytes.cons (isLength_toBE t.name_fits) (fromUtf8_toUTF8 t.name)
      (isLength_toBE t.partitions_fit) _ ih
    exact length_flatMap_toBE 4 t.partitions

theorem Assignment.encode_wellFormed (a : Assignment) : IsMemberAssignment a.encode a.names := by
  refine ⟨_, a.version, _, _, isLength_toBE a.version_fits, ?_, topicsBytes_blobTopics a.topics,
    rfl⟩
  rw [Assignment.names, List.length_map]
  exact isLength_toBE a.topics_fit

/-! ### The cursor -/

/-- `usize::checked_add`, for words of `bits` bits. -/
def checkedAdd (bits a b : Nat) : Option Nat := if a + b < 2 ^ bits then some (a + b) else none

/-- `usize::checked_mul`. -/
def checkedMul (bits a b : Nat) : Option Nat := if a * b < 2 ^ bits then some (a * b) else none

/-- `as usize`. -/
def asUsize (bits : Nat) (value : Int) : Nat := (value % (2 ^ bits : Nat)).toNat

/-- `Reader`: a cursor that stands in its buffer. -/
structure Reader (bits : Nat) where
  buf : List UInt8
  pos : Nat
  fits : buf.length < 2 ^ bits
  pos_le : pos ≤ buf.length

namespace Reader

variable {bits : Nat}

/-- `Reader::bytes`. -/
def bytes (r : Reader bits) (n : Nat) : Option (List UInt8 × Reader bits) := do
  let stop ← checkedAdd bits r.pos n
  if h : r.pos ≤ stop ∧ stop ≤ r.buf.length then
    some ((r.buf.take stop).drop r.pos, ⟨r.buf, stop, r.fits, h.2⟩)
  else none

/-- `i16::from_be_bytes` and `i32::from_be_bytes` of the next bytes. -/
def int (width : Nat) (r : Reader bits) : Option (Int × Reader bits) := do
  let (bytes, r) ← r.bytes width
  some (signed width (ofBE bytes), r)

def i16 (r : Reader bits) : Option (Int × Reader bits) := r.int 2

def i32 (r : Reader bits) : Option (Int × Reader bits) := r.int 4

/-- The `for` loop of `assigned_topics`. -/
def topics : Nat → Reader bits → List String → Option (List String)
  | 0, _, topics => some topics
  | count + 1, r, topics => do
      let (nameLen, r) ← r.i16
      if nameLen < 0 then none
      else do
        let (name, r) ← r.bytes (asUsize bits nameLen)
        let name ← fromUtf8 name
        let (partitionCount, r) ← r.i32
        if partitionCount < 0 then none
        else do
          let (_, r) ← r.bytes (← checkedMul bits (asUsize bits partitionCount) 4)
          r.topics count (topics ++ [name])

/-- `assigned_topics`, from the version on. -/
def assignedTopics (r : Reader bits) : Option (List String) := do
  let (version, r) ← r.i16
  if version < 0 then none
  else do
    let (topicCount, r) ← r.i32
    if topicCount < 0 then none else r.topics topicCount.toNat []

/-- What lies ahead. -/
def rest (r : Reader bits) : List UInt8 := r.buf.drop r.pos

theorem length_rest (r : Reader bits) : r.rest.length = r.buf.length - r.pos := List.length_drop

/-- The cursor moves by what it reads, and only as far as the buffer goes. -/
theorem bytes_eq_some_iff {r r' : Reader bits} {n : Nat} {out : List UInt8} :
    r.bytes n = some (out, r') ↔
      r'.buf = r.buf ∧ r'.pos = r.pos + n ∧ r.pos + n ≤ r.buf.length ∧ out = r.rest.take n := by
  have hslice : (r.buf.take (r.pos + n)).drop r.pos = r.rest.take n := by
    rw [rest, List.drop_take, Nat.add_sub_cancel_left]
  simp only [bytes, checkedAdd, Option.bind_eq_bind]
  constructor
  · intro h
    split at h
    · rw [Option.bind_some] at h
      split at h
      · rename_i _ hrange
        cases h
        exact ⟨rfl, rfl, hrange.2, hslice⟩
      · cases h
    · cases h
  · rintro ⟨hbuf, hpos, hle, rfl⟩
    rw [if_pos (hle.trans_lt r.fits), Option.bind_some, dif_pos ⟨Nat.le_add_right _ _, hle⟩, hslice]
    obtain ⟨buf, pos, _, _⟩ := r'
    subst hbuf hpos
    rfl

theorem bytes_eq_none_iff {r : Reader bits} {n : Nat} :
    r.bytes n = none ↔ r.buf.length < r.pos + n := by
  constructor
  · intro h
    by_contra hle
    push Not at hle
    have hsome : r.bytes n = some (r.rest.take n, ⟨r.buf, r.pos + n, r.fits, hle⟩) :=
      bytes_eq_some_iff.mpr ⟨rfl, rfl, hle, rfl⟩
    rw [h] at hsome
    cases hsome
  · intro h
    rw [Option.eq_none_iff_forall_ne_some]
    intro p hp
    obtain ⟨_, _, hle, _⟩ := bytes_eq_some_iff.mp hp
    omega

/-- The cursor reads what lies ahead. -/
theorem take?_rest (r : Reader bits) (n : Nat) :
    take? n r.rest = (r.bytes n).map fun p => (p.1, p.2.rest) := by
  have hle := r.pos_le
  cases h : r.bytes n with
  | none =>
    have hshort := bytes_eq_none_iff.mp h
    have hnot : ¬ n ≤ r.rest.length := by
      rw [length_rest]
      omega
    rw [take?, if_neg hnot, Option.map_none]
  | some p =>
    obtain ⟨hbuf, hpos, hend, hout⟩ := bytes_eq_some_iff.mp h
    have hlong : n ≤ r.rest.length := by
      rw [length_rest]
      omega
    rw [take?, if_pos hlong, Option.map_some, hout]
    congr 2
    rw [rest, rest, hbuf, hpos, List.drop_drop]

/-- A product that does not fit is more than the buffer holds. -/
theorem bytes_checkedMul (r : Reader bits) (a b : Nat) :
    ((checkedMul bits a b).bind fun n => r.bytes n) = r.bytes (a * b) := by
  unfold checkedMul
  split
  · rfl
  · rename_i hbig
    have hfits := r.fits
    rw [Option.bind_none, eq_comm, bytes_eq_none_iff]
    omega

/-- A length that is read is exact as a `usize`. -/
theorem asUsize_of_nonneg {value : Int} (h : ¬ value < 0) (hlt : value < 2 ^ bits) :
    asUsize bits value = value.toNat := by
  rw [asUsize, Int.emod_eq_of_lt (by omega) (by exact_mod_cast hlt)]

/-- What an integer is good for as a length. -/
theorem int_cases (hbits : 32 ≤ bits) {width : Nat} (hwidth : width ≤ 4) (r : Reader bits) :
    (r.int width = none ∧ length? width r.rest = none) ∨
    (∃ value r', r.int width = some (value, r') ∧ value < 0 ∧ length? width r.rest = none) ∨
    (∃ value r', r.int width = some (value, r') ∧ ¬ value < 0 ∧
      asUsize bits value = value.toNat ∧ length? width r.rest = some (value.toNat, r'.rest)) := by
  cases hbytes : r.bytes width with
  | none =>
    refine .inl ⟨?_, ?_⟩
    · simp [int, hbytes]
    · simp [length?, int?, take?_rest, hbytes]
  | some p =>
    obtain ⟨bytes, r'⟩ := p
    have hint : r.int width = some (signed width (ofBE bytes), r') := by simp [int, hbytes]
    have hlength : length? width r.rest = if signed width (ofBE bytes) < 0 then none
        else some ((signed width (ofBE bytes)).toNat, r'.rest) := by
      simp [length?, int?, take?_rest, hbytes]
    by_cases hneg : signed width (ofBE bytes) < 0
    · rw [if_pos hneg] at hlength
      exact .inr (.inl ⟨_, r', hint, hneg, hlength⟩)
    · rw [if_neg hneg] at hlength
      refine .inr (.inr ⟨_, r', hint, hneg, asUsize_of_nonneg hneg ?_, hlength⟩)
      obtain ⟨_, _, hend, hout⟩ := bytes_eq_some_iff.mp hbytes
      have hsize : bytes.length ≤ 4 := by
        rw [hout]
        exact (List.length_take_le _ _).trans hwidth
      have hvalue : signed width (ofBE bytes) ≤ (ofBE bytes : Int) := by
        unfold signed
        split <;> simp
      have hbound : ofBE bytes < 2 ^ bits := calc
        ofBE bytes < 256 ^ bytes.length := ofBE_lt bytes
        _ ≤ 256 ^ 4 := Nat.pow_le_pow_right (by decide) hsize
        _ = 2 ^ 32 := by norm_num
        _ ≤ 2 ^ bits := Nat.pow_le_pow_right (by decide) hbits
      exact hvalue.trans_lt (by exact_mod_cast hbound)

/-- The loop over the cursor reads the topics that lie ahead. -/
theorem topics_eq (hbits : 32 ≤ bits) (count : Nat) (r : Reader bits) (seen : List String) :
    r.topics count seen = (readTopics count r.rest).map (seen ++ ·) := by
  induction count generalizing r seen with
  | zero => simp [topics, readTopics]
  | succ count ih =>
    rw [topics, readTopics, i16]
    obtain ⟨hint, hlength⟩ | ⟨nameLen, r₁, hint, hneg, hlength⟩ |
      ⟨nameLen, r₁, hint, hneg, hexact, hlength⟩ := int_cases hbits (by decide : 2 ≤ 4) r
    · simp [hint, hlength]
    · simp [hint, hlength, hneg]
    simp only [hint, hlength, Option.bind_eq_bind, Option.bind_some, if_neg hneg, hexact,
      take?_rest, Option.bind_map]
    cases hname : r₁.bytes nameLen.toNat with
    | none => rfl
    | some p =>
      obtain ⟨name, r₂⟩ := p
      simp only [Option.bind_some, Function.comp_apply]
      cases htopic : fromUtf8 name with
      | none => rfl
      | some topic =>
        simp only [Option.bind_some, i32]
        obtain ⟨hint, hlength⟩ | ⟨parts, r₃, hint, hneg, hlength⟩ |
          ⟨parts, r₃, hint, hneg, hexact, hlength⟩ := int_cases hbits (by decide : 4 ≤ 4) r₂
        · simp [hint, hlength]
        · simp [hint, hlength, hneg]
        simp only [hint, hlength, Option.bind_some, if_neg hneg, hexact, take?_rest,
          Option.bind_map]
        rw [← Option.bind_assoc, bytes_checkedMul]
        cases r₃.bytes (parts.toNat * 4) with
        | none => rfl
        | some p =>
          simp only [Option.bind_some, Function.comp_apply, ih]
          cases readTopics count p.2.rest <;> simp

/-- The cursor decodes what the layout says. -/
theorem assignedTopics_eq (hbits : 32 ≤ bits) (r : Reader bits) :
    r.assignedTopics = Cluster.assignedTopics r.rest := by
  rw [assignedTopics, Cluster.assignedTopics, i16]
  obtain ⟨hint, hlength⟩ | ⟨version, r₁, hint, hneg, hlength⟩ |
    ⟨version, r₁, hint, hneg, _, hlength⟩ := int_cases hbits (by decide : 2 ≤ 4) r
  · simp [hint, hlength]
  · simp [hint, hlength, hneg]
  simp only [hint, hlength, Option.bind_eq_bind, Option.bind_some, if_neg hneg, i32]
  obtain ⟨hint, hlength⟩ | ⟨topicCount, r₂, hint, hneg, hlength⟩ |
    ⟨topicCount, r₂, hint, hneg, _, hlength⟩ := int_cases hbits (by decide : 4 ≤ 4) r₁
  · simp [hint, hlength]
  · simp [hint, hlength, hneg]
  simp only [hint, hlength, Option.bind_some, if_neg hneg, topics_eq hbits, List.nil_append,
    Option.map_id']

/-- `Reader { buf, pos: 0 }`. -/
def start (buf : List UInt8) (fits : buf.length < 2 ^ bits) : Reader bits :=
  ⟨buf, 0, fits, Nat.zero_le _⟩

end Reader

/-! ### The decoder accepts exactly its grammar -/

/-- What begins with an assignment decodes to its topics and nothing else decodes; so what
    a consumer writes comes back whatever user data follows, and what is cut short is
    undecodable.  On a machine of 32 bits or more the cursor decodes the same, each step
    reads the next bytes of the buffer and stays in it, and no length is more than its
    bytes say. -/
theorem decoder_accepts_grammar :
    (∀ buf topics, assignedTopics buf = some topics ↔
      ∃ bytes userdata, IsMemberAssignment bytes topics ∧ buf = bytes ++ userdata) ∧
    (∀ (a : Assignment) (userdata : List UInt8),
      assignedTopics (a.encode ++ userdata) = some a.names) ∧
    (∀ bytes topics k, IsMemberAssignment bytes topics → k < bytes.length →
      assignedTopics (bytes.take k) = none) ∧
    (∀ bits, 32 ≤ bits → ∀ (buf : List UInt8) (fits : buf.length < 2 ^ bits),
      (Reader.start buf fits).assignedTopics = assignedTopics buf) ∧
    (∀ bits (r r' : Reader bits) n out, r.bytes n = some (out, r') →
      r'.buf = r.buf ∧ r'.pos = r.pos + n ∧ r'.pos ≤ r.buf.length ∧
        out = (r.buf.drop r.pos).take n) := by
  refine ⟨fun _ _ => assignedTopics_iff_begins, ?_, ?_, ?_, ?_⟩
  · intro a userdata
    exact assignedTopics_iff_begins.mpr ⟨a.encode, userdata, a.encode_wellFormed, rfl⟩
  · intro bytes topics k h hk
    exact assignedTopics_take h hk
  · intro bits hbits buf fits
    exact (Reader.start buf fits).assignedTopics_eq hbits
  · intro bits r r' n out h
    obtain ⟨hbuf, hpos, hend, hout⟩ := Reader.bytes_eq_some_iff.mp h
    exact ⟨hbuf, hpos, hpos ▸ hend, hout⟩

end Arne.Cluster
