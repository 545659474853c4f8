import Mathlib.Data.List.DropRight
import Arne.Message.Types

/-!
# The poll loop of a tail (`message/tail.rs`)

`drive_tail_poll` polls until it is cancelled, the receiver is gone or the errors have gone
on for the stall timeout.  What it is given is a list of turns, each with all that the turn
finds: the flag, the outcome of the poll, the clock and the channel.  A list may end while
the loop still runs, so the lists are the beginnings of one run.
-/

namespace Arne.Message

inductive PollOutcome where
  | message (record : RawRecord)
  | error (e : String)
  | empty
deriving DecidableEq, Repr

/-- `seen` and `checked` are the clock after the poll, as `Instant::now` of
    `get_or_insert_with` and of `elapsed` read it; `gone`: the receiver is dropped. -/
structure Turn where
  cancel : Bool
  outcome : PollOutcome
  seen : Nat
  checked : Nat
  gone : Bool
deriving DecidableEq, Repr

/-- `returned` is the number of the turn that ended the loop, and the result. -/
structure PollRun where
  sent : List RawRecord
  returned : Option (Nat × Except String Unit)

/-- The loop from turn `i` on. -/
def driveTailPollFrom (stallTimeout i : Nat) (errorStreakSince : Option Nat) :
    List Turn → PollRun
  | [] => ⟨[], none⟩
  | t :: rest =>
      if t.cancel then ⟨[], some (i, .ok ())⟩
      else match t.outcome with
        | .message record =>
            if t.gone then ⟨[], some (i, .ok ())⟩
            else
              let run := driveTailPollFrom stallTimeout (i + 1) none rest
              ⟨record :: run.sent, run.returned⟩
        | .error e =>
            let since := errorStreakSince.getD t.seen
            if stallTimeout ≤ t.checked - since then ⟨[], some (i, .error ("tail stalled: " ++ e))⟩
            else driveTailPollFrom stallTimeout (i + 1) (some since) rest
        | .empty => driveTailPollFrom stallTimeout (i + 1) none rest

def driveTailPoll (stallTimeout : Nat) (turns : List Turn) : PollRun :=
  driveTailPollFrom stallTimeout 0 none turns

/-! ### Stalls -/

namespace Turn

def isError (t : Turn) : Bool :=
  match t.outcome with
  | .error _ => true
  | _ => false

def record? (t : Turn) : Option RawRecord :=
  match t.outcome with
  | .message record => some record
  | _ => none

/-- The loop ends in this turn, and not by an error. -/
def leaves (t : Turn) : Bool := t.cancel || (t.record?.isSome && t.gone)

end Turn

/-- The clock does not run backwards. -/
structure Clocked (turns : List Turn) : Prop where
  within : ∀ t ∈ turns, t.seen ≤ t.checked
  between : turns.Pairwise fun a b => a.checked ≤ b.seen

/-- The turns end in an unbroken run of errors, with the first and the last at least the
    timeout apart. -/
def Stalled (stallTimeout : Nat) (turns : List Turn) : Prop :=
  ∃ run first last, run <:+ turns ∧ (∀ t ∈ run, t.isError = true) ∧ run.head? = some first ∧
    run.getLast? = some last ∧ first.seen + stallTimeout ≤ last.checked

/-- `error_streak_since` after the turns. -/
def streakStart (turns : List Turn) : Option Nat :=
  (turns.rtakeWhile Turn.isError).head?.map Turn.seen

/-- Nothing in these turns ends the loop. -/
structure Lasts (stallTimeout : Nat) (turns : List Turn) : Prop where
  stays : ∀ t ∈ turns, t.leaves = false
  unstalled : ∀ begun, begun <+: turns → ¬ Stalled stallTimeout begun

variable {stallTimeout : Nat} {before : List Turn} {t : Turn}

theorem streakStart_error (before : List Turn) (ht : t.isError = true) :
    streakStart (before ++ [t]) = some ((streakStart before).getD t.seen) := by
  unfold streakStart
  rw [List.rtakeWhile_concat, if_pos ht]
  cases before.rtakeWhile Turn.isError with
  | nil => rfl
  | cons first rest => rfl

theorem streakStart_other (ht : t.isError = false) : streakStart (before ++ [t]) = none := by
  unfold streakStart
  rw [List.rtakeWhile_concat, if_neg (Bool.eq_false_iff.mp ht)]
  rfl

theorem not_stalled_nil : ¬ Stalled stallTimeout [] := by
  rintro ⟨run, first, last, hsuffix, -, hfirst, -⟩
  rw [List.suffix_nil.mp hsuffix] at hfirst
  cases hfirst

theorem last_of_suffix {run : List Turn} (h : run <:+ before ++ [t]) {last : Turn}
    (hlast : run.getLast? = some last) : last = t := by
  obtain ⟨pre, hsplit⟩ := h
  have hend : (pre ++ run).getLast? = some t := by rw [hsplit, List.getLast?_concat]
  rw [List.getLast?_append, hlast] at hend
  exact Option.some.inj hend

/-- A run of errors ends in an error. -/
theorem not_stalled_other (ht : t.isError = false) : ¬ Stalled stallTimeout (before ++ [t]) := by
  rintro ⟨run, first, last, hsuffix, herrors, -, hlast, -⟩
  have hmem : last ∈ run := List.mem_of_getLast? hlast
  rw [last_of_suffix hsuffix hlast] at hmem
  rw [herrors t hmem] at ht
  cases ht

/-- A suffix that satisfies `p` is part of the longest one. -/
theorem suffix_rtakeWhile {α : Type} {p : α → Bool} {run l : List α} (h : run <:+ l)
    (hp : ∀ x ∈ run, p x = true) : run <:+ l.rtakeWhile p := by
  obtain ⟨pre, rfl⟩ := h
  have hlongest : (pre ++ run).rtakeWhile p = pre.rtakeWhile p ++ run := by
    induction run using List.reverseRecOn with
    | nil => rw [List.append_nil, List.append_nil]
    | append_singleton run x ih =>
      have hx : p x = true := hp x (List.mem_append_right _ List.mem_cons_self)
      rw [← List.append_assoc, List.rtakeWhile_concat_pos p _ x hx,
        ih fun y hy => hp y (List.mem_append_left _ hy), List.append_assoc]
  rw [hlongest]
  exact List.suffix_append _ _

theorem Clocked.sorted {turns : List Turn} (h : Clocked turns) :
    turns.Pairwise fun a b => a.seen ≤ b.seen := by
  refine h.between.imp_of_mem ?_
  intro a b ha _ hab
  exact (h.within a ha).trans hab

/-- The longest run of errors began first. -/
theorem head_seen_le {run streak : List Turn} (h : run <:+ streak)
    (hsorted : streak.Pairwise fun a b => a.seen ≤ b.seen) {first start : Turn}
    (hfirst : run.head? = some first) (hstart : streak.head? = some start) :
    start.seen ≤ first.seen := by
  obtain ⟨pre, rfl⟩ := h
  cases pre with
  | nil =>
    rw [List.nil_append, hfirst] at hstart
    cases hstart
    rfl
  | cons x pre =>
    cases hstart
    rw [List.cons_append, List.pairwise_cons] at hsorted
    exact hsorted.1 first (List.mem_append_right _ (List.mem_of_head? hfirst))

/-- What the loop compares at an error is whether the turns so far are stalled. -/
theorem stalled_error_iff (hclock : Clocked (before ++ [t])) (ht : t.isError = true) :
    Stalled stallTimeout (before ++ [t]) ↔
      stallTimeout ≤ t.checked - (streakStart before).getD t.seen := by
  have hstreak :
      (before ++ [t]).rtakeWhile Turn.isError = before.rtakeWhile Turn.isError ++ [t] := by
    rw [List.rtakeWhile_concat, if_pos ht]
  obtain ⟨start, hstart, hseen⟩ : ∃ start, ((before ++ [t]).rtakeWhile Turn.isError).head? =
      some start ∧ (streakStart before).getD t.seen = start.seen := by
    have hsince := streakStart_error before ht
    unfold streakStart at hsince
    obtain ⟨start, hstart, hseen⟩ := Option.map_eq_some_iff.mp hsince
    exact ⟨start, hstart, hseen.symm⟩
  have hsuffix : (before ++ [t]).rtakeWhile Turn.isError <:+ before ++ [t] :=
    List.rtakeWhile_suffix _ _
  have hmem : start ∈ before ++ [t] := hsuffix.subset (List.mem_of_head? hstart)
  have hbegan : start.seen ≤ t.checked := by
    rcases List.mem_append.mp hmem with hold | hnew
    · have hpairs := List.pairwise_append.mp hclock.sorted
      have hle : start.seen ≤ t.seen := hpairs.2.2 start hold t List.mem_cons_self
      exact hle.trans (hclock.within t (List.mem_append_right _ List.mem_cons_self))
    · obtain rfl : start = t := List.mem_singleton.mp hnew
      exact hclock.within start hmem
  rw [hseen, Nat.le_sub_iff_add_le hbegan, Nat.add_comm]
  constructor
  · rintro ⟨run, first, last, hrun, herrors, hfirst, hlast, hapart⟩
    have hsame : last = t := last_of_suffix hrun hlast
    have hinside : run <:+ (before ++ [t]).rtakeWhile Turn.isError :=
      suffix_rtakeWhile hrun herrors
    have hle := head_seen_le hinside (hclock.sorted.sublist hsuffix.sublist) hfirst hstart
    rw [hsame] at hapart
    omega
  · intro hapart
    refine ⟨_, start, t, hsuffix, fun x hx => List.mem_rtakeWhile_imp hx, hstart, ?_, hapart⟩
    rw [hstreak, List.getLast?_concat]

/-! ### Runs -/

def records (turns : List Turn) : List RawRecord := turns.filterMap Turn.record?

theorem Lasts.concat (h : Lasts stallTimeout before) (ht : t.leaves = false)
    (hstalled : ¬ Stalled stallTimeout (before ++ [t])) : Lasts stallTimeout (before ++ [t]) where
  stays := by
    intro x hx
    rcases List.mem_append.mp hx with hold | hnew
    · exact h.stays x hold
    · rw [List.mem_singleton.mp hnew]
      exact ht
  unstalled := by
    intro begun hbegun
    rcases List.prefix_concat_iff.mp hbegun with rfl | hold
    · exact hstalled
    · exact h.unstalled begun hold

theorem lasts_nil : Lasts stallTimeout [] where
  stays := by
    intro x hx
    cases hx
  unstalled := by
    intro begun hbegun
    rw [List.prefix_nil.mp hbegun]
    exact not_stalled_nil

/-- The turn that ends the loop, and with what. -/
inductive Decides (stallTimeout : Nat) (before : List Turn) (t : Turn) :
    Except String Unit → Prop where
  | leaves (h : t.leaves = true) : Decides stallTimeout before t (.ok ())
  | stalls {e : String} (hcancel : t.cancel = false) (houtcome : t.outcome = .error e)
      (h : Stalled stallTimeout (before ++ [t])) :
      Decides stallTimeout before t (.error ("tail stalled: " ++ e))

/-- What the loop did from some turn on: it still runs, or a turn ended it. -/
inductive Polls (stallTimeout : Nat) (before rest : List Turn) : PollRun → Prop where
  | running (hlasts : Lasts stallTimeout (before ++ rest)) :
      Polls stallTimeout before rest ⟨records rest, none⟩
  | ended {polled after : List Turn} {t : Turn} {result : Except String Unit}
      (hsplit : rest = polled ++ t :: after) (hlasts : Lasts stallTimeout (before ++ polled))
      (hdecides : Decides stallTimeout (before ++ polled) t result) :
      Polls stallTimeout before rest ⟨records polled, some ((before ++ polled).length, result)⟩

/-- The first turn ends the loop. -/
theorem Polls.at_once {rest : List Turn} {result : Except String Unit}
    (hlasts : Lasts stallTimeout before) (hdecides : Decides stallTimeout before t result) :
    Polls stallTimeout before (t :: rest) ⟨[], some (before.length, result)⟩ := by
  have hended := @Polls.ended stallTimeout before (t :: rest) [] rest t result rfl
  rw [List.append_nil] at hended
  exact hended hlasts hdecides

/-- The first turn goes by. -/
theorem Polls.later {rest : List Turn} {run : PollRun}
    (h : Polls stallTimeout (before ++ [t]) rest run) :
    Polls stallTimeout before (t :: rest) ⟨records [t] ++ run.sent, run.returned⟩ := by
  have hrecords (turns : List Turn) : records [t] ++ records turns = records (t :: turns) := by
    rw [records, records, records, ← List.filterMap_append, List.singleton_append]
  cases h with
  | running hlasts =>
    rw [hrecords]
    rw [List.append_assoc, List.singleton_append] at hlasts
    exact .running hlasts
  | ended hsplit hlasts hdecides =>
    rename_i polled after last result
    rw [hrecords]
    rw [List.append_assoc, List.singleton_append] at hlasts hdecides ⊢
    exact .ended (by rw [hsplit, List.cons_append]) hlasts hdecides

/-- `error_streak_since` is the beginning of the errors that the turns so far end in, and
    with that the loop stops at the first turn that leaves or is stalled. -/
theorem driveTailPollFrom_polls {rest : List Turn} (hclock : Clocked (before ++ rest))
    (hlasts : Lasts stallTimeout before) :
    Polls stallTimeout before rest
      (driveTailPollFrom stallTimeout before.length (streakStart before) rest) := by
  induction rest generalizing before with
  | nil =>
    refine .running ?_
    rw [List.append_nil]
    exact hlasts
  | cons t rest ih =>
    have hclock' : Clocked ((before ++ [t]) ++ rest) := by
      rw [List.append_assoc, List.singleton_append]
      exact hclock
    have hnow : Clocked (before ++ [t]) :=
      ⟨fun x hx => hclock'.within x (List.mem_append_left _ hx),
        (List.pairwise_append.mp hclock'.between).1⟩
    have hlength : (before ++ [t]).length = before.length + 1 := by simp
    rw [driveTailPollFrom]
    cases hcancel : t.cancel with
    | true =>
      rw [if_pos rfl]
      exact .at_once hlasts (.leaves (by simp [Turn.leaves, hcancel]))
    | false =>
      rw [if_neg Bool.false_ne_true]
      cases houtcome : t.outcome with
      | message record =>
        dsimp only
        have hother : t.isError = false := by simp [Turn.isError, houtcome]
        have hrecord : t.record? = some record := by simp [Turn.record?, houtcome]
        split
        · rename_i hgone
          exact .at_once hlasts (.leaves (by simp [Turn.leaves, hrecord, hgone]))
        · rename_i hheld
          have hstays : t.leaves = false := by simp [Turn.leaves, hcancel, hheld]
          have hrest := ih hclock' (hlasts.concat hstays (not_stalled_other hother))
          rw [hlength, streakStart_other hother] at hrest
          have hlater := hrest.later
          rw [show records [t] = [record] by simp [records, hrecord]] at hlater
          exact hlater
      | error e =>
        dsimp only
        have herror : t.isError = true := by simp [Turn.isError, houtcome]
        have hstays : t.leaves = false := by simp [Turn.leaves, Turn.record?, hcancel, houtcome]
        split
        · rename_i hover
          exact .at_once hlasts
            (.stalls hcancel houtcome ((stalled_error_iff hnow herror).mpr hover))
        · rename_i hshort
          have hrest := ih hclock'
            (hlasts.concat hstays fun h => hshort ((stalled_error_iff hnow herror).mp h))
          rw [hlength, streakStart_error before herror] at hrest
          have hlater := hrest.later
          rw [show records [t] = [] by simp [records, Turn.record?, houtcome]] at hlater
          exact hlater
      | empty =>
        have hother : t.isError = false := by simp [Turn.isError, houtcome]
        have hstays : t.leaves = false := by simp [Turn.leaves, Turn.record?, hcancel, houtcome]
        have hrest := ih hclock' (hlasts.concat hstays (not_stalled_other hother))
        rw [hlength, streakStart_other hother] at hrest
        have hlater := hrest.later
        rw [show records [t] = [] by simp [records, Turn.record?, houtcome]] at hlater
        exact hlater

variable {turns after : List Turn} {result : Except String Unit}

theorem Lasts.of_prefix (h : Lasts stallTimeout turns) (hbegun : before <+: turns) :
    Lasts stallTimeout before where
  stays := fun x hx => h.stays x (hbegun.subset hx)
  unstalled := fun begun hb => h.unstalled begun (hb.trans hbegun)

theorem Decides.not_lasts (h : Decides stallTimeout before t result) :
    ¬ Lasts stallTimeout (before ++ [t]) := by
  intro hlasts
  cases h with
  | leaves hleaves =>
    have hstays := hlasts.stays t (List.mem_append_right _ List.mem_cons_self)
    rw [hleaves] at hstays
    cases hstays
  | stalls _ _ hstalled => exact hlasts.unstalled _ (List.prefix_refl _) hstalled

theorem Decides.unique {result' : Except String Unit} (h : Decides stallTimeout before t result)
    (h' : Decides stallTimeout before t result') : result = result' := by
  have hapart {e : String} (hcancel : t.cancel = false) (houtcome : t.outcome = .error e) :
      t.leaves = false := by
    simp [Turn.leaves, Turn.record?, hcancel, houtcome]
  cases h with
  | leaves hleaves =>
    cases h' with
    | leaves _ => rfl
    | stalls hcancel houtcome _ =>
      rw [hapart hcancel houtcome] at hleaves
      cases hleaves
  | stalls hcancel houtcome _ =>
    cases h' with
    | leaves hleaves =>
      rw [hapart hcancel houtcome] at hleaves
      cases hleaves
    | stalls _ houtcome' _ =>
      rw [houtcome] at houtcome'
      cases houtcome'
      rfl

/-- The turn that ends the loop is the first that can. -/
theorem Decides.le {before' after' : List Turn} {t' : Turn} {result' : Except String Unit}
    (hsplit : turns = before ++ t :: after) (hsplit' : turns = before' ++ t' :: after')
    (hlasts : Lasts stallTimeout before) (h' : Decides stallTimeout before' t' result') :
    before.length ≤ before'.length := by
  by_contra hlonger
  have hlength : (before' ++ [t']).length = before'.length + 1 := by simp
  have hone : before <+: turns := ⟨t :: after, hsplit.symm⟩
  have htwo : before' ++ [t'] <+: turns := ⟨after', by rw [hsplit']; simp⟩
  have hinside : before' ++ [t'] <+: before :=
    List.prefix_of_prefix_length_le htwo hone (by omega)
  exact h'.not_lasts (hlasts.of_prefix hinside)

theorem driveTailPoll_polls (hclock : Clocked turns) :
    Polls stallTimeout [] turns (driveTailPoll stallTimeout turns) :=
  driveTailPollFrom_polls hclock lasts_nil

/-- Whatever the turns, the loop has returned in a turn with a result if and only if nothing
    before ends it and this turn does, so. -/
theorem driveTailPoll_returned_iff (hclock : Clocked turns)
    (hsplit : turns = before ++ t :: after) :
    (driveTailPoll stallTimeout turns).returned = some (before.length, result) ↔
      Lasts stallTimeout before ∧ Decides stallTimeout before t result := by
  have hpolls : Polls stallTimeout [] turns _ := driveTailPoll_polls hclock
  generalize driveTailPoll stallTimeout turns = run at hpolls ⊢
  have hbegun : before ++ [t] <+: turns := ⟨after, by rw [hsplit]; simp⟩
  cases hpolls with
  | running hlasts =>
    constructor
    · intro hreturned
      cases hreturned
    · rintro ⟨-, hdecides⟩
      exact absurd (hlasts.of_prefix hbegun) hdecides.not_lasts
  | ended hsplit' hlasts hdecides =>
    rename_i polled after' t' result'
    rw [List.nil_append] at hlasts hdecides ⊢
    have hsame (hlength : polled.length = before.length) : polled = before ∧ t' = t := by
      obtain ⟨hbefore, htail⟩ := List.append_inj (hsplit'.symm.trans hsplit) hlength
      exact ⟨hbefore, (List.cons.inj htail).1⟩
    constructor
    · intro hreturned
      obtain ⟨hlength, rfl⟩ := Prod.mk.inj (Option.some.inj hreturned)
      obtain ⟨rfl, rfl⟩ := hsame hlength
      exact ⟨hlasts, hdecides⟩
    · rintro ⟨hlasts', hdecides'⟩
      have hle := Decides.le hsplit' hsplit hlasts hdecides'
      have hge := Decides.le hsplit hsplit' hlasts' hdecides
      obtain ⟨rfl, rfl⟩ := hsame (Nat.le_antisymm hle hge)
      rw [hdecides.unique hdecides']

/-- **A stall is declared exactly when it should be.**  For every sequence of turns, the clock
    not running backwards: an error is returned at a turn if and only if the loop still polls
    there, the outcome is an error, and the turns so far end in an unbroken run of errors whose
    first and last are at least the timeout apart, for the first time; and at no turn beyond.
    What was polled before the loop returned is sent, once and in order; a message that the
    loop returned at found the receiver gone. -/
theorem stall_declared_exactly (stallTimeout : Nat) (hclock : Clocked turns) :
    (∀ before t after msg, turns = before ++ t :: after →
      ((driveTailPoll stallTimeout turns).returned = some (before.length, .error msg) ↔
        (∀ x ∈ before, x.leaves = false) ∧ t.cancel = false ∧
          (∃ e, t.outcome = .error e ∧ msg = "tail stalled: " ++ e) ∧
          Stalled stallTimeout (before ++ [t]) ∧
          ∀ begun, begun <+: before → ¬ Stalled stallTimeout begun)) ∧
    (∀ i msg, (driveTailPoll stallTimeout turns).returned = some (i, .error msg) →
      i < turns.length) ∧
    ((driveTailPoll stallTimeout turns).returned = none →
      (driveTailPoll stallTimeout turns).sent = records turns) ∧
    (∀ i result, (driveTailPoll stallTimeout turns).returned = some (i, result) →
      (driveTailPoll stallTimeout turns).sent = records (turns.take i) ∧
        ∀ t record, turns[i]? = some t → t.cancel = false → t.outcome = .message record →
          t.gone = true) := by
  refine ⟨?_, ?_⟩
  · intro before t after msg hsplit
    rw [driveTailPoll_returned_iff hclock hsplit]
    constructor
    · rintro ⟨hlasts, hdecides⟩
      cases hdecides with
      | stalls hcancel houtcome hstalled =>
        exact ⟨hlasts.stays, hcancel, ⟨_, houtcome, rfl⟩, hstalled, hlasts.unstalled⟩
    · rintro ⟨hstays, hcancel, ⟨e, houtcome, rfl⟩, hstalled, hunstalled⟩
      exact ⟨⟨hstays, hunstalled⟩, .stalls hcancel houtcome hstalled⟩
  · have hpolls : Polls stallTimeout [] turns _ := driveTailPoll_polls hclock
    generalize driveTailPoll stallTimeout turns = run at hpolls ⊢
    cases hpolls with
    | running hlasts =>
      refine ⟨?_, fun _ => rfl, ?_⟩
      · intro i msg hreturned
        cases hreturned
      · intro i result hreturned
        cases hreturned
    | ended hsplit hlasts hdecides =>
      rename_i polled after t result
      rw [List.nil_append] at hdecides ⊢
      refine ⟨?_, ?_, ?_⟩
      · intro i msg hreturned
        cases hreturned
        rw [hsplit, List.length_append, List.length_cons]
        omega
      · intro hreturned
        cases hreturned
      · intro i result' hreturned
        cases hreturned
        refine ⟨by rw [hsplit, List.take_left], ?_⟩
        intro t' record ht hcancel houtcome
        have hlast : turns[polled.length]? = some t := by
          rw [hsplit, List.getElem?_append_right (Nat.le_refl _), Nat.sub_self]
          rfl
        obtain rfl : t = t' := Option.some.inj (hlast.symm.trans ht)
        cases hdecides with
        | leaves hleaves => simpa [Turn.leaves, Turn.record?, hcancel, houtcome] using hleaves
        | stalls _ herror _ =>
          rw [houtcome] at herror
          cases herror

/-- Two errors 20 apart with a quiet poll between them, then three in a row. -/
def quietBetween : List Turn :=
  [⟨false, .error "down", 0, 0, false⟩, ⟨false, .empty, 10, 10, false⟩,
    ⟨false, .error "down", 20, 20, false⟩,
    ⟨false, .message ⟨0, 7, none, none, none, []⟩, 25, 25, false⟩,
    ⟨false, .error "down", 30, 30, false⟩, ⟨false, .error "down", 35, 36, false⟩,
    ⟨false, .error "gone", 44, 45, false⟩, ⟨false, .empty, 50, 50, false⟩]

theorem quietBetween_clocked : Clocked quietBetween where
  within := by decide
  between := by decide

/-- With a timeout of 15 the last of the three is the stall. -/
theorem quietBetween_stalls :
    (driveTailPoll 15 quietBetween).returned = some (6, .error "tail stalled: gone") ∧
      Stalled 15 (quietBetween.take 7) ∧ (driveTailPoll 15 quietBetween).sent.length = 1 := by
  obtain ⟨hstalls, -, -, hsent⟩ := stall_declared_exactly 15 quietBetween_clocked
  have hreturned : (driveTailPoll 15 quietBetween).returned =
      some (6, .error "tail stalled: gone") := by rfl
  obtain ⟨-, -, -, hstalled, -⟩ :=
    (hstalls (quietBetween.take 6) ⟨false, .error "gone", 44, 45, false⟩ _ _ rfl).mp hreturned
  refine ⟨hreturned, hstalled, ?_⟩
  rw [(hsent 6 _ hreturned).1]
  rfl

end Arne.Message
