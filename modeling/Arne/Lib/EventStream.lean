import Mathlib.Data.List.Basic

/-!
# Event streams

A server writes events as fields on lines of their own, with an empty line behind each event
and comments in between; a client reads them character by character.  However the text is cut
into the pieces that arrive, the client sees the events that were written, in their order and
each of them whole.
-/

namespace Arne.EventStream

structure Event where
  name : List Char
  data : List Char
deriving DecidableEq, Repr

/-! ### The reader -/

/-- The line so far, whether the last one was ended by a carriage return, and the buffers of
    the event. -/
structure Parser where
  current : List Char
  afterReturn : Bool
  name : List Char
  data : List Char
deriving DecidableEq, Repr

namespace Parser

def start : Parser := ⟨[], false, [], []⟩

/-- Fields that are no part of an event are passed over. -/
def field (p : Parser) (name value : List Char) : Parser :=
  if name = ['e', 'v', 'e', 'n', 't'] then { p with name := value }
  else if name = ['d', 'a', 't', 'a'] then { p with data := p.data ++ (value ++ ['\n']) }
  else p

/-- An empty line: an event without data is none, one without a name is a message. -/
def dispatch (p : Parser) : Parser × List Event :=
  if p.data = [] then ({ p with name := [] }, [])
  else
    ({ p with name := [], data := [] },
      [⟨if p.name = [] then ['m', 'e', 's', 's', 'a', 'g', 'e'] else p.name, p.data.dropLast⟩])

/-- The value behind the colon of a field, without the blank in front of it. -/
def valueOf : List Char → List Char
  | ' ' :: value => value
  | value => value

def endLine (p : Parser) : Parser × List Event :=
  if p.current = [] then p.dispatch
  else if p.current.head? = some ':' then ({ p with current := [] }, [])
  else
    ({ p with current := [] }.field (p.current.takeWhile (· ≠ ':'))
      (valueOf (p.current.dropWhile (· ≠ ':')).tail), [])

/-- Lines end with a line feed, a carriage return or both. -/
def step (p : Parser) (c : Char) : Parser × List Event :=
  if c = '\n' then
    if p.afterReturn then ({ p with afterReturn := false }, []) else p.endLine
  else if c = '\r' then ({ p.endLine.1 with afterReturn := true }, p.endLine.2)
  else ({ p with current := p.current ++ [c], afterReturn := false }, [])

/-- A piece of the stream: what is kept, and the events that it completed. -/
def feed (p : Parser) : List Char → Parser × List Event
  | [] => (p, [])
  | c :: text =>
      let stepped := p.step c
      let fed := stepped.1.feed text
      (fed.1, stepped.2 ++ fed.2)

/-- The pieces of a stream in the order in which they arrive. -/
def receive (p : Parser) : List (List Char) → Parser × List Event
  | [] => (p, [])
  | piece :: pieces =>
      let fed := p.feed piece
      let received := fed.1.receive pieces
      (received.1, fed.2 ++ received.2)

theorem feed_append (p : Parser) (text rest : List Char) :
    p.feed (text ++ rest) =
      (((p.feed text).1.feed rest).1, (p.feed text).2 ++ ((p.feed text).1.feed rest).2) := by
  induction text generalizing p with
  | nil => rfl
  | cons c text ih => simp only [List.cons_append, feed, ih, List.append_assoc]

/-- Where a stream is cut makes no difference. -/
theorem receive_eq (p : Parser) (pieces : List (List Char)) :
    p.receive pieces = p.feed pieces.flatten := by
  induction pieces generalizing p with
  | nil => rfl
  | cons piece pieces ih => simp only [receive, List.flatten_cons, feed_append, ih]

end Parser

/-! ### The writer -/

def OneLine (text : List Char) : Prop := '\n' ∉ text ∧ '\r' ∉ text

instance (text : List Char) : Decidable (OneLine text) := inferInstanceAs (Decidable (_ ∧ _))

/-- A field as a line.  The blank behind the colon may be missing, unless the value begins with
    one of its own. -/
inductive FieldLine (name value : List Char) : List Char → Prop where
  | spaced : FieldLine name value (name ++ ':' :: ' ' :: value)
  | unspaced (h : value.head? ≠ some ' ') : FieldLine name value (name ++ ':' :: value)

/-- The texts of a stream of events: each with its name and its data, in this order, and with
    comments between them. -/
inductive StreamText : List Event → List Char → Prop where
  | nil : StreamText [] []
  | event {e : Event} {events : List Event} {name data text : List Char}
      (hname : FieldLine ['e', 'v', 'e', 'n', 't'] e.name name)
      (hdata : FieldLine ['d', 'a', 't', 'a'] e.data data) (h : StreamText events text) :
      StreamText (e :: events) (name ++ '\n' :: (data ++ '\n' :: '\n' :: text))
  | comment {events : List Event} {comment text : List Char} (hcomment : OneLine comment)
      (h : StreamText events text) : StreamText events (':' :: comment ++ '\n' :: '\n' :: text)

/-- The texts that end where their last event does. -/
inductive EndsWhole : List Event → List Char → Prop where
  | intro {events : List Event} {e : Event} {before name data : List Char}
      (h : StreamText events before) (hname : FieldLine ['e', 'v', 'e', 'n', 't'] e.name name)
      (hdata : FieldLine ['d', 'a', 't', 'a'] e.data data) :
      EndsWhole (events ++ [e]) (before ++ (name ++ '\n' :: (data ++ ['\n', '\n'])))

/-- Every event of a stream ends somewhere in its text. -/
theorem StreamText.endsWhole {events : List Event} {text : List Char} (h : StreamText events text) :
    ∀ n < events.length, ∃ front, front <+: text ∧ EndsWhole (events.take (n + 1)) front := by
  induction h with
  | nil =>
    intro n hn
    exact absurd hn (Nat.not_lt_zero n)
  | @event e events name data text hname hdata h ih =>
    intro n hn
    cases n with
    | zero =>
      refine ⟨name ++ '\n' :: (data ++ ['\n', '\n']), ⟨text, by simp⟩, ?_⟩
      exact EndsWhole.intro StreamText.nil hname hdata
    | succ n =>
      rcases ih n (Nat.lt_of_succ_lt_succ hn) with ⟨front, ⟨rest, rfl⟩, hfront⟩
      refine ⟨name ++ '\n' :: (data ++ '\n' :: '\n' :: front), ⟨rest, by simp⟩, ?_⟩
      rw [List.take_succ_cons]
      generalize events.take (n + 1) = events' at hfront ⊢
      cases hfront with
      | intro hbefore hlastName hlastData =>
        have htext := EndsWhole.intro (StreamText.event hname hdata hbefore) hlastName hlastData
        simpa using htext
  | @comment events comment text hcomment h ih =>
    intro n hn
    rcases ih n hn with ⟨front, ⟨rest, rfl⟩, hfront⟩
    refine ⟨':' :: comment ++ '\n' :: '\n' :: front, ⟨rest, by simp⟩, ?_⟩
    generalize events.take (n + 1) = events' at hfront ⊢
    cases hfront with
    | intro hbefore hlastName hlastData =>
      have htext := EndsWhole.intro (StreamText.comment hcomment hbefore) hlastName hlastData
      simpa using htext

/-- An event with both blanks. -/
def frame (e : Event) : List Char :=
  'e' :: 'v' :: 'e' :: 'n' :: 't' :: ':' :: ' ' :: e.name ++ '\n' ::
    ('d' :: 'a' :: 't' :: 'a' :: ':' :: ' ' :: e.data ++ ['\n', '\n'])

theorem StreamText.append {events rest : List Event} {text more : List Char}
    (h : StreamText events text) (hrest : StreamText rest more) :
    StreamText (events ++ rest) (text ++ more) := by
  induction h with
  | nil => exact hrest
  | event hname hdata h ih =>
    have htext := StreamText.event hname hdata ih
    simpa using htext
  | comment hcomment h ih =>
    have htext := StreamText.comment hcomment ih
    simpa using htext

theorem streamText_frames (events : List Event) : StreamText events (events.flatMap frame) := by
  induction events with
  | nil => exact StreamText.nil
  | cons e events ih =>
    have htext := StreamText.event FieldLine.spaced FieldLine.spaced ih (e := e)
    simpa [frame] using htext

/-- What can go over the wire: a name and data, each on one line. -/
def Event.Sendable (e : Event) : Prop := (OneLine e.name ∧ e.name ≠ []) ∧ OneLine e.data

/-! ### What is written is read -/

theorem oneLine_append {text rest : List Char} (h : OneLine text) (hrest : OneLine rest) :
    OneLine (text ++ rest) := by
  unfold OneLine at h hrest ⊢
  simp only [List.mem_append, not_or]
  exact ⟨⟨h.1, hrest.1⟩, h.2, hrest.2⟩

/-- A name that a line can begin with. -/
def IsField (name : List Char) : Prop := name ≠ [] ∧ OneLine name ∧ ':' ∉ name

instance (name : List Char) : Decidable (IsField name) := inferInstanceAs (Decidable (_ ∧ _))

namespace FieldLine

variable {name value text : List Char}

theorem ne_nil (h : FieldLine name value text) : text ≠ [] := by
  cases h <;> simp

theorem oneLine (h : FieldLine name value text) (hname : OneLine name) (hvalue : OneLine value) :
    OneLine text := by
  have hspaced : OneLine [':', ' '] := by decide
  have hunspaced : OneLine [':'] := by decide
  rcases h with _ | _
  · exact oneLine_append hname (oneLine_append hspaced hvalue)
  · exact oneLine_append hname (oneLine_append hunspaced hvalue)

theorem head_ne_colon (h : FieldLine name value text) (hname : IsField name) :
    text.head? ≠ some ':' := by
  rcases hname with ⟨hne, -, hcolon⟩
  rcases name with _ | ⟨c, name⟩
  · exact absurd rfl hne
  · have hc : c ≠ ':' := fun hc => hcolon (hc ▸ List.mem_cons_self)
    cases h <;> simpa using hc

/-- A field is taken apart at its colon. -/
theorem split (h : FieldLine name value text) (hname : IsField name) :
    text.takeWhile (· ≠ ':') = name ∧
      Parser.valueOf (text.dropWhile (· ≠ ':')).tail = value := by
  have hall : ∀ c ∈ name, decide (c ≠ ':') = true := by
    intro c hc
    rw [decide_eq_true_iff]
    rintro rfl
    exact hname.2.2 hc
  cases h with
  | spaced =>
    rw [List.takeWhile_append_of_pos hall, List.dropWhile_append_of_pos hall]
    simp [Parser.valueOf]
  | unspaced hhead =>
    rw [List.takeWhile_append_of_pos hall, List.dropWhile_append_of_pos hall]
    rcases value with _ | ⟨c, value⟩
    · simp [Parser.valueOf]
    · have hc : c ≠ ' ' := fun hc => hhead (congrArg some hc)
      simp [Parser.valueOf, hc]

end FieldLine

namespace Parser

theorem feed_oneLine (p : Parser) {text : List Char} (h : OneLine text) (hne : text ≠ []) :
    p.feed text = ({ p with current := p.current ++ text, afterReturn := false }, []) := by
  induction text generalizing p with
  | nil => exact absurd rfl hne
  | cons c text ih =>
    rcases h with ⟨hfeed, hreturn⟩
    rw [List.mem_cons, not_or] at hfeed hreturn
    have hc : p.step c = ({ p with current := p.current ++ [c], afterReturn := false }, []) := by
      rw [step, if_neg (Ne.symm hfeed.1), if_neg (Ne.symm hreturn.1)]
    rw [feed, hc]
    rcases text with _ | ⟨c', text⟩
    · rfl
    · rw [ih _ ⟨hfeed.2, hreturn.2⟩ (List.cons_ne_nil c' text)]
      simp

/-- Between two lines. -/
def AtLine (p : Parser) : Prop := p.current = [] ∧ p.afterReturn = false

variable {p : Parser}

/-- A line that is not empty, and the line feed behind it. -/
theorem feed_line (hp : p.AtLine) {text : List Char} (h : OneLine text) (hne : text ≠ [])
    (rest : List Char) :
    p.feed (text ++ '\n' :: rest) =
      ((({ p with current := text } : Parser).endLine.1.feed rest).1,
        ({ p with current := text } : Parser).endLine.2 ++
          (({ p with current := text } : Parser).endLine.1.feed rest).2) := by
  rcases p with ⟨current, afterReturn, name, data⟩
  obtain ⟨rfl, rfl⟩ : current = [] ∧ afterReturn = false := hp
  rw [feed_append, feed_oneLine _ h hne]
  simp [feed, step]

theorem AtLine.cleared (hp : p.AtLine) : ({ p with current := [] } : Parser) = p := by
  rcases p with ⟨current, afterReturn, name, data⟩
  obtain ⟨rfl, rfl⟩ : current = [] ∧ afterReturn = false := hp
  rfl

theorem AtLine.field (hp : p.AtLine) (name value : List Char) : (p.field name value).AtLine := by
  unfold Parser.field
  split
  · exact hp
  split
  · exact hp
  · exact hp

theorem feed_field (hp : p.AtLine) {name value text : List Char} (h : FieldLine name value text)
    (hname : IsField name) (hvalue : OneLine value) (rest : List Char) :
    p.feed (text ++ '\n' :: rest) = (p.field name value).feed rest := by
  have hsplit := h.split hname
  have hend : ({ p with current := text } : Parser).endLine = (p.field name value, []) := by
    simp only [endLine, if_neg h.ne_nil, if_neg (h.head_ne_colon hname), hsplit.1, hsplit.2]
    rw [hp.cleared]
  rw [feed_line hp (h.oneLine hname.2.1 hvalue) h.ne_nil, hend]
  rfl

theorem feed_comment (hp : p.AtLine) {comment : List Char} (h : OneLine comment)
    (rest : List Char) : p.feed (':' :: comment ++ '\n' :: rest) = p.feed rest := by
  have hcolon : OneLine [':'] := by decide
  have hline : OneLine (':' :: comment) := oneLine_append hcolon h
  have hend : ({ p with current := ':' :: comment } : Parser).endLine = (p, []) := by
    simp only [endLine, if_neg (List.cons_ne_nil ':' comment), List.head?_cons, if_true]
    rw [hp.cleared]
  rw [feed_line hp hline (List.cons_ne_nil ':' comment), hend]
  rfl

/-- The empty line. -/
theorem feed_blank (hp : p.AtLine) (rest : List Char) :
    p.feed ('\n' :: rest) =
      ((p.dispatch.1.feed rest).1, p.dispatch.2 ++ (p.dispatch.1.feed rest).2) := by
  rw [feed, step, if_pos rfl, hp.2, if_neg (by decide), endLine, if_pos hp.1]

end Parser

/-- The events that were written are seen, and nothing is left over. -/
theorem feed_streamText {events : List Event} {text : List Char} (h : StreamText events text)
    (hsendable : ∀ e ∈ events, e.Sendable) :
    Parser.start.feed text = (Parser.start, events) := by
  induction h with
  | nil => rfl
  | @event e events name data text hname hdata h ih =>
    rcases List.forall_mem_cons.mp hsendable with ⟨⟨⟨hnameLine, hnameNe⟩, hdataLine⟩, hrest⟩
    have hstart : Parser.start.AtLine := ⟨rfl, rfl⟩
    have hnamed := hstart.field ['e', 'v', 'e', 'n', 't'] e.name
    have hfilled := hnamed.field ['d', 'a', 't', 'a'] e.data
    rw [Parser.feed_field hstart hname (by decide) hnameLine,
      Parser.feed_field hnamed hdata (by decide) hdataLine, Parser.feed_blank hfilled]
    have hdispatch : ((Parser.start.field ['e', 'v', 'e', 'n', 't'] e.name).field
        ['d', 'a', 't', 'a'] e.data).dispatch = (Parser.start, [e]) := by
      simp [Parser.field, Parser.dispatch, Parser.start, hnameNe]
    rw [hdispatch, ih hrest]
    rfl
  | comment hcomment h ih =>
    have hstart : Parser.start.AtLine := ⟨rfl, rfl⟩
    rw [Parser.feed_comment hstart hcomment, Parser.feed_blank hstart]
    have hdispatch : Parser.start.dispatch = (Parser.start, []) := rfl
    rw [hdispatch, ih hsendable]
    rfl

/-- What has been seen is not taken back. -/
theorem seen_mono {text more : List Char} (h : text <+: more) :
    (Parser.start.feed text).2 <+: (Parser.start.feed more).2 := by
  rcases h with ⟨rest, rfl⟩
  rw [Parser.feed_append]
  exact List.prefix_append _ _

/-- All but the last line feed of an event: it is not seen yet. -/
theorem feed_unended {events : List Event} {before name data : List Char} {e : Event}
    (h : StreamText events before) (hname : FieldLine ['e', 'v', 'e', 'n', 't'] e.name name)
    (hdata : FieldLine ['d', 'a', 't', 'a'] e.data data) (hsendable : ∀ e ∈ events, e.Sendable)
    (he : e.Sendable) :
    (Parser.start.feed (before ++ (name ++ '\n' :: (data ++ ['\n'])))).2 = events := by
  rcases he with ⟨⟨hnameLine, -⟩, hdataLine⟩
  have hstart : Parser.start.AtLine := ⟨rfl, rfl⟩
  have hnamed := hstart.field ['e', 'v', 'e', 'n', 't'] e.name
  rw [Parser.feed_append, feed_streamText h hsendable]
  rw [Parser.feed_field hstart hname (by decide) hnameLine,
    Parser.feed_field hnamed hdata (by decide) hdataLine]
  exact List.append_nil events

/-- An event is seen when the last line feed of its text is there, and no sooner. -/
theorem seen_iff_whole {events : List Event} {front : List Char} (h : EndsWhole events front)
    (hsendable : ∀ e ∈ events, e.Sendable) {text arrived : List Char} (hfront : front <+: text)
    (harrived : arrived <+: text) :
    events.length ≤ (Parser.start.feed arrived).2.length ↔ front <+: arrived := by
  cases h with
  | @intro events e before name data hbefore hname hdata =>
    rw [List.forall_mem_append] at hsendable
    rcases hsendable with ⟨hevents, hlast⟩
    have he := hlast e List.mem_cons_self
    constructor
    · intro hseen
      rcases List.prefix_or_prefix_of_prefix hfront harrived with hwhole | hcut
      · exact hwhole
      have hends : before ++ (name ++ '\n' :: (data ++ ['\n', '\n'])) =
          before ++ (name ++ '\n' :: (data ++ ['\n'])) ++ ['\n'] := by simp
      rw [hends, List.prefix_concat_iff] at hcut
      rcases hcut with rfl | hcut
      · exact ⟨[], by rw [List.append_nil, hends]⟩
      · -- without its last line feed the event is not among those seen
        have hless := (seen_mono hcut).length_le
        rw [feed_unended hbefore hname hdata hevents he] at hless
        rw [List.length_append, List.length_singleton] at hseen
        omega
    · intro hwhole
      have htext : StreamText (events ++ [e])
          (before ++ (name ++ '\n' :: (data ++ ['\n', '\n']))) :=
        hbefore.append (StreamText.event hname hdata StreamText.nil)
      have hmore := (seen_mono hwhole).length_le
      rwa [feed_streamText htext (List.forall_mem_append.mpr ⟨hevents, hlast⟩)] at hmore

/-- A stream that is cut off somewhere, in whatever pieces it arrived: the events seen are the
    first ones, each is among them exactly if its text came whole, and all of them are if nothing
    is missing. -/
theorem receive_streamText {events : List Event} {text : List Char} (h : StreamText events text)
    (hsendable : ∀ e ∈ events, e.Sendable) {pieces : List (List Char)}
    (hpieces : pieces.flatten <+: text) :
    (Parser.start.receive pieces).2 <+: events ∧
      (pieces.flatten = text → (Parser.start.receive pieces).2 = events) ∧
      ∀ n < events.length, ∃ front, front <+: text ∧ EndsWhole (events.take (n + 1)) front ∧
        (n < (Parser.start.receive pieces).2.length ↔ front <+: pieces.flatten) := by
  have hall := feed_streamText h hsendable
  rw [Parser.receive_eq]
  refine ⟨?_, ?_, ?_⟩
  · have hseen := seen_mono hpieces
    rwa [hall] at hseen
  · rintro rfl
    rw [hall]
  · intro n hn
    rcases h.endsWhole n hn with ⟨front, hfront, hends⟩
    refine ⟨front, hfront, hends, ?_⟩
    have hseen := seen_iff_whole hends (fun e he => hsendable e (List.mem_of_mem_take he)) hfront
      hpieces
    rwa [List.length_take, Nat.min_eq_left hn] at hseen

end Arne.EventStream
