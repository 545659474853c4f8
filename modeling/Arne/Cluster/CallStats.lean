import Arne.Cluster.Groups
import Arne.Lib.Interleaving
import Arne.Lib.OrdMap
import Mathlib.Algebra.BigOperators.Group.List.Basic

/-!
# What the brokers were asked (`cluster/call_stats.rs`, `cluster/mod.rs`)

A client tallies its requests and hands the tally over when somebody polls it; the latest
tally of each role is kept.  Replacing the client takes three steps: a new generation, no
tallies, the new client.  A report sums the tallies under their lock and reads the
generation last.
-/

namespace Arne.Cluster

open Arne.Interleaving

/-! ### Tallies and reports -/

/-- Requests by API name. -/
abbrev Calls := OrdMap String Nat

structure Tally where
  sampledAt : Int
  perBroker : OrdMap String Calls

/-- What the report reads of librdkafka's statistics of a broker. -/
structure BrokerStatistics where
  nodeid : Int
  nodename : String
  req : List (String × Int)
deriving DecidableEq, Repr

structure Statistics where
  time : Int
  brokers : List BrokerStatistics
deriving DecidableEq, Repr

def callsOf (b : BrokerStatistics) : Calls :=
  OrdMap.empty.setAll ((b.req.filter fun r => decide (0 < r.2)).map fun r => (r.1, r.2.toNat))

/-- The tally of the brokers that are real ones: a logical broker has no node id. -/
def tallyOf (stats : Statistics) : Tally where
  sampledAt := stats.time * 1000
  perBroker := OrdMap.empty.setAll
    ((stats.brokers.filter fun b => decide (0 ≤ b.nodeid)).map fun b => (b.nodename, callsOf b))

def sentBy (calls : Calls) (api : String) : Nat := (calls.get? api).getD 0

/-- `*entry(api).or_insert(0) += sent`. -/
def addCall (calls : Calls) (sent : String × Nat) : Calls :=
  calls.set sent.1 (sentBy calls sent.1 + sent.2)

def addCalls (calls more : Calls) : Calls := more.entries.foldl addCall calls

def addBroker (brokers : OrdMap String Calls) (b : String × Calls) : OrdMap String Calls :=
  brokers.set b.1 (addCalls ((brokers.get? b.1).getD OrdMap.empty) b.2)

structure CallReport where
  sampledAt : Option Int
  recorded : Nat
  generation : Nat
  totals : Calls
  brokers : List (String × Calls)

def brokersOf (tallies : List Tally) : OrdMap String Calls :=
  tallies.foldl (fun brokers tally => tally.perBroker.entries.foldl addBroker brokers) OrdMap.empty

def totalsOf (brokers : OrdMap String Calls) : Calls :=
  brokers.entries.foldl (fun totals b => addCalls totals b.2) OrdMap.empty

def callReport (tallies : List Tally) (recorded generation : Nat) : CallReport where
  sampledAt := tallies.foldl (fun oldest tally => olderOf oldest tally.sampledAt) none
  recorded := recorded
  generation := generation
  totals := totalsOf (brokersOf tallies)
  brokers := (brokersOf tallies).entries.mergeSort fun a b => decide (a.1 ≤ b.1)

theorem sentBy_addCall (calls : Calls) (sent : String × Nat) (api : String) :
    sentBy (addCall calls sent) api = sentBy calls api + if sent.1 = api then sent.2 else 0 := by
  simp only [sentBy, addCall, OrdMap.get?_set]
  by_cases h : api = sent.1
  · simp [h]
  · simp [h, Ne.symm h]

theorem sentBy_eq_sum (calls : Calls) (api : String) :
    sentBy calls api = (calls.entries.map fun e => if e.1 = api then e.2 else 0).sum := by
  obtain ⟨entries, hnodup⟩ := calls
  simp only [sentBy, OrdMap.get?]
  induction entries with
  | nil => rfl
  | cons e rest ih =>
    simp only [List.map_cons, List.nodup_cons] at hnodup
    by_cases he : e.1 = api
    · have hrest : (rest.map fun e => if e.1 = api then e.2 else 0).sum = 0 := by
        apply List.sum_eq_zero
        intro n hn
        obtain ⟨e', he', rfl⟩ := List.mem_map.mp hn
        apply if_neg
        intro hapi
        exact hnodup.1 (he.trans hapi.symm ▸ List.mem_map_of_mem he')
      simp [he, hrest]
    · simp only [List.find?_cons, he, decide_false, List.map_cons, if_false, List.sum_cons,
        Nat.zero_add]
      exact ih hnodup.2

/-- Adding one map of calls to another adds up the counts of every API. -/
theorem sentBy_addCalls (calls more : Calls) (api : String) :
    sentBy (addCalls calls more) api = sentBy calls api + sentBy more api := by
  have hfold : ∀ (entries : List (String × Nat)) (acc : Calls),
      sentBy (entries.foldl addCall acc) api =
        sentBy acc api + (entries.map fun e => if e.1 = api then e.2 else 0).sum := by
    intro entries
    induction entries with
    | nil => simp
    | cons e rest ih =>
      intro acc
      rw [List.foldl_cons, ih, sentBy_addCall, List.map_cons, List.sum_cons, Nat.add_assoc]
  rw [addCalls, hfold, sentBy_eq_sum more]

/-- The requests of all brokers of a map. -/
def sentByAll (brokers : OrdMap String Calls) (api : String) : Nat :=
  (brokers.entries.map fun b => sentBy b.2 api).sum

theorem sentBy_totalsOf (brokers : OrdMap String Calls) (api : String) :
    sentBy (totalsOf brokers) api = sentByAll brokers api := by
  have hfold : ∀ (entries : List (String × Calls)) (acc : Calls),
      sentBy (entries.foldl (fun totals b => addCalls totals b.2) acc) api =
        sentBy acc api + (entries.map fun b => sentBy b.2 api).sum := by
    intro entries
    induction entries with
    | nil => simp
    | cons b rest ih =>
      intro acc
      rw [List.foldl_cons, ih, sentBy_addCalls, List.map_cons, List.sum_cons, Nat.add_assoc]
  rw [totalsOf, hfold]
  simp [sentBy, sentByAll]

theorem sentByAll_addBroker (brokers : OrdMap String Calls) (b : String × Calls) (api : String) :
    sentByAll (addBroker brokers b) api = sentByAll brokers api + sentBy b.2 api := by
  have hset := OrdMap.sum_set (fun calls => sentBy calls api) brokers b.1
    (addCalls ((brokers.get? b.1).getD OrdMap.empty) b.2)
  simp only [sentBy_addCalls] at hset
  have hold : ((brokers.get? b.1).elim 0 fun calls => sentBy calls api) =
      sentBy ((brokers.get? b.1).getD OrdMap.empty) api := by
    cases brokers.get? b.1 <;> rfl
  rw [hold] at hset
  simp only [sentByAll, addBroker]
  omega

theorem sentByAll_brokersOf (tallies : List Tally) (api : String) :
    sentByAll (brokersOf tallies) api =
      (tallies.map fun tally => sentByAll tally.perBroker api).sum := by
  have hone : ∀ (entries : List (String × Calls)) (acc : OrdMap String Calls),
      sentByAll (entries.foldl addBroker acc) api =
        sentByAll acc api + (entries.map fun b => sentBy b.2 api).sum := by
    intro entries
    induction entries with
    | nil => simp
    | cons b rest ih =>
      intro acc
      rw [List.foldl_cons, ih, sentByAll_addBroker, List.map_cons, List.sum_cons, Nat.add_assoc]
  have hall : ∀ (tallies : List Tally) (acc : OrdMap String Calls),
      sentByAll (tallies.foldl
        (fun brokers tally => tally.perBroker.entries.foldl addBroker brokers) acc) api =
      sentByAll acc api + (tallies.map fun tally => sentByAll tally.perBroker api).sum := by
    intro tallies
    induction tallies with
    | nil => simp
    | cons tally rest ih =>
      intro acc
      rw [List.foldl_cons, ih, hone, List.map_cons, List.sum_cons, Nat.add_assoc]
      rfl
  rw [brokersOf, hall]
  simp [sentByAll, OrdMap.empty]

/-- Every count of a report is the sum of what its tallies count, and nothing else. -/
theorem callReport_totals (tallies : List Tally) (recorded generation : Nat) (api : String) :
    sentBy (callReport tallies recorded generation).totals api =
      (tallies.map fun tally => sentByAll tally.perBroker api).sum := by
  rw [callReport, sentBy_totalsOf, sentByAll_brokersOf]

/-! ### The steps of swaps, polls and reports -/

/-- A tally in the store, with the client that counted it and the generation it was
    recorded in, which the code does not keep. -/
structure Delivered (C : Type) where
  tally : Tally
  client : C
  generation : Nat

/-- A report that was given, with the tallies it was computed from. -/
structure Reported (C : Type) where
  generation : Nat
  recorded : Nat
  tallies : List (Delivered C)

def Reported.report {C : Type} (r : Reported C) : CallReport :=
  callReport (r.tallies.map (·.tally)) r.recorded r.generation

/-- What the threads share.  `swaps`, `unswept` and `reports` record the run: the incoming
    clients in the order of their generations, the swaps that have a generation but have
    not cleared the tallies yet, and the reports given. -/
structure CallStats (τ C : Type) where
  generation : Nat
  tallies : OrdMap String (Delivered C)
  recorded : Nat
  /-- The report that holds the lock of the tallies; the other holders do one thing. -/
  lock : Option τ
  consumer : C
  swaps : List C
  unswept : List τ
  reports : List (Reported C)

inductive Job (C : Type) where
  | swapClients (incoming : C)
  | serveClientEvents
  | report
deriving DecidableEq, Repr

inductive StatsPhase (C : Type) where
  | entered
  | bumped
  | swept
  | holding (client : C)
  | delivered (client : C)
  | reading (tallies : List (Delivered C))
  | counted (tallies : List (Delivered C)) (recorded : Nat)
  | done

/-- What a poll delivers is up to the client. -/
inductive StatsMove where
  | go
  | deliver (stats : Statistics)
  | stop

variable {τ C : Type}

def CallStats.values (s : CallStats τ C) : List (Delivered C) := s.tallies.entries.map Prod.snd

/-- One step of thread `t`. -/
def statsAct [DecidableEq τ] (role : C → String) (job : τ → Job C) (t : τ) (m : StatsMove)
    (s : CallStats τ C) (l : StatsPhase C) : Option (CallStats τ C × StatsPhase C) :=
  match job t, l, m with
  -- the generation is an atomic of its own: no lock is taken to bump it
  | .swapClients incoming, .entered, .go =>
      some
        ({ s with
          generation := s.generation + 1
          swaps := s.swaps ++ [incoming]
          unswept := t :: s.unswept }, .bumped)
  | .swapClients _, .bumped, .go =>
      if s.lock.isNone then
        some ({ s with tallies := OrdMap.empty, unswept := s.unswept.erase t }, .swept)
      else none
  | .swapClients incoming, .swept, .go => some ({ s with consumer := incoming }, .done)
  | .serveClientEvents, .entered, .go => some (s, .holding s.consumer)
  | .serveClientEvents, .holding client, .deliver stats =>
      if s.lock.isNone then
        some ({ s with tallies := s.tallies.set (role client) ⟨tallyOf stats, client, s.generation⟩ },
          .delivered client)
      else none
  | .serveClientEvents, .delivered client, .go =>
      some ({ s with recorded := s.recorded + 1 }, .holding client)
  | .serveClientEvents, .holding _, .stop => some (s, .done)
  | .report, .entered, .go =>
      if s.lock.isNone then some ({ s with lock := some t }, .reading s.values) else none
  | .report, .reading tallies, .go => some (s, .counted tallies s.recorded)
  | .report, .counted tallies recorded, .go =>
      some
        ({ s with
          lock := none
          reports := s.reports ++ [⟨s.generation, recorded, tallies⟩] }, .done)
  | _, _, _ => none

/-- Swaps, polls and reports of one cluster's handle, in any order. -/
def callStats [DecidableEq τ] (role : C → String) (job : τ → Job C) :
    System τ StatsMove Empty (CallStats τ C) (StatsPhase C) where
  act := statsAct role job
  env := fun e _ => nomatch e

def connected (first : C) : Config τ (CallStats τ C) (StatsPhase C) where
  shared := ⟨0, OrdMap.empty, 0, none, first, [], [], []⟩
  locals := fun _ => .entered

/-- The client of the `g`-th swap, and the first client for `0`. -/
def clientOf (first : C) (swaps : List C) (g : Nat) : Option C := (first :: swaps)[g]?

/-- A tally is handed over by the client of the current generation only; a new generation
    does not fall into a report that holds tallies; and a report does not read tallies
    between a swap's new generation and its clearing them. -/
def unmixed [DecidableEq C] (first : C) (job : τ → Job C) (t : τ) (m : StatsMove)
    (s : CallStats τ C) (l : StatsPhase C) : Bool :=
  match job t, l, m with
  | .swapClients _, .entered, _ => s.lock.isNone || s.tallies.entries.isEmpty
  | .serveClientEvents, .holding client, .deliver _ =>
      decide (clientOf first s.swaps s.generation = some client)
  | .report, .entered, _ => s.unswept.isEmpty || s.tallies.entries.isEmpty
  | _, _, _ => true

/-- The report's counts were all counted by the client of its generation, since its swap. -/
def Reported.Unmixed (first : C) (swaps : List C) (r : Reported C) : Prop :=
  ∀ x ∈ r.tallies, x.generation = r.generation ∧ clientOf first swaps r.generation = some x.client

/-! ### Every order of the steps -/

/-- Every tally in the store is of the current generation and its client. -/
def Current (first : C) (s : CallStats τ C) : Prop :=
  ∀ x ∈ s.values, x.generation = s.generation ∧ clientOf first s.swaps s.generation = some x.client

/-- What holds of the store between any two steps. -/
structure Separate (first : C) (s : CallStats τ C) : Prop where
  generation : s.generation = s.swaps.length
  current : s.unswept = [] → Current first s
  reports : ∀ r ∈ s.reports, r.generation ≤ s.generation ∧ r.Unmixed first s.swaps

/-- What a report knows while it holds the lock. -/
def ReportKnows (first : C) (t : τ) (s : CallStats τ C) : StatsPhase C → Prop
  | .reading tallies => s.lock = some t ∧ tallies = s.values ∧ Current first s
  | .counted tallies _ => s.lock = some t ∧ tallies = s.values ∧ Current first s
  | _ => True

/-- Nobody touches the tallies of the report that holds their lock, or outdates them. -/
def Respects (first : C) (o : Option τ) (s s' : CallStats τ C) : Prop :=
  ∀ u, o ≠ some u → s.lock = some u →
    s'.lock = some u ∧ s'.values = s.values ∧ (Current first s → Current first s')

section

variable {first : C} {t : τ} {s : CallStats τ C} {o : Option τ}

theorem clientOf_append {swaps : List C} {g : Nat} (incoming : C) (hg : g ≤ swaps.length) :
    clientOf first (swaps ++ [incoming]) g = clientOf first swaps g := by
  have hlt : g < (first :: swaps).length := Nat.lt_succ_of_le hg
  exact List.getElem?_append_left hlt

theorem current_of_isEmpty (h : s.tallies.entries.isEmpty = true) : Current first s := by
  intro x hx
  simp [CallStats.values, List.isEmpty_iff.mp h] at hx

theorem Respects.refl (s : CallStats τ C) : Respects first o s s :=
  fun _ _ hlock => ⟨hlock, rfl, id⟩

/-- With the lock free there is no report to respect. -/
theorem Respects.of_free {s' : CallStats τ C} (hfree : s.lock.isNone = true) :
    Respects first o s s' := by
  intro u _ hlock
  simp [hlock] at hfree

/-- A new generation: the reports given keep their clients, and a report that reads holds
    no tallies. -/
theorem Separate.bump (h : Separate first s) (incoming : C)
    (hok : (s.lock.isNone || s.tallies.entries.isEmpty) = true) :
    Separate first
        { s with
          generation := s.generation + 1
          swaps := s.swaps ++ [incoming]
          unswept := t :: s.unswept } ∧
      Respects first o s
        { s with
          generation := s.generation + 1
          swaps := s.swaps ++ [incoming]
          unswept := t :: s.unswept } := by
  refine ⟨⟨?_, fun hun => (by cases hun), ?_⟩, ?_⟩
  · simp [h.generation]
  · intro r hr
    obtain ⟨hle, hunmixed⟩ := h.reports r hr
    refine ⟨Nat.le_succ_of_le hle, ?_⟩
    intro x hx
    obtain ⟨hgen, hclient⟩ := hunmixed x hx
    exact ⟨hgen, (clientOf_append incoming (h.generation ▸ hle)).trans hclient⟩
  · intro u _ hlock
    rcases Bool.or_eq_true _ _ ▸ hok with hfree | hempty
    · simp [hlock] at hfree
    · exact ⟨hlock, rfl, fun _ => current_of_isEmpty hempty⟩

theorem Separate.deliver (h : Separate first s) (role : String) (tally : Tally) {client : C}
    (hclient : clientOf first s.swaps s.generation = some client) :
    Separate first { s with tallies := s.tallies.set role ⟨tally, client, s.generation⟩ } := by
  refine ⟨h.generation, ?_, h.reports⟩
  intro hun x hx
  obtain ⟨e, he, rfl⟩ := List.mem_map.mp hx
  rcases (OrdMap.mem_set_entries _ _ _ e).mp he with rfl | ⟨hmem, _⟩
  · exact ⟨rfl, hclient⟩
  · exact h.current hun e.2 (List.mem_map_of_mem hmem)

theorem Separate.give (h : Separate first s) (hcurrent : Current first s) (recorded : Nat) :
    Separate first
      { s with
        lock := none
        reports := s.reports ++ [⟨s.generation, recorded, s.values⟩] } := by
  refine ⟨h.generation, h.current, ?_⟩
  intro r hr
  rcases List.mem_append.mp hr with hr | hr
  · exact h.reports r hr
  · rw [List.mem_singleton.mp hr]
    exact ⟨le_refl _, hcurrent⟩

end

/-! ### The steps of each job keep the clients apart -/

section

variable [DecidableEq τ] [DecidableEq C] {role : C → String} {job : τ → Job C} {first : C} {t : τ}
  {s s' : CallStats τ C} {l l' : StatsPhase C} {m : StatsMove}

/-- A swap: it takes a generation while no report holds tallies, clears them under their
    lock, and only then lets the incoming client in. -/
theorem swapClients_outline {incoming : C} (hjob : job t = .swapClients incoming)
    (h : Separate first s) (hok : unmixed first job t m s l = true)
    (hact : statsAct role job t m s l = some (s', l')) :
    Separate first s' ∧ ReportKnows first t s' l' ∧ Respects first (some t) s s' := by
  unfold statsAct at hact
  unfold unmixed at hok
  rw [hjob] at hact hok
  cases l with
  | entered =>
    cases m <;> cases hact
    obtain ⟨hseparate, hrespects⟩ := h.bump (t := t) (o := some t) incoming hok
    exact ⟨hseparate, trivial, hrespects⟩
  | bumped =>
    cases m with
    | go =>
      dsimp only at hact
      split at hact
      · rename_i hfree
        cases hact
        refine ⟨⟨h.generation, ?_, h.reports⟩, trivial, Respects.of_free hfree⟩
        intro _
        exact current_of_isEmpty rfl
      · cases hact
    | _ => cases hact
  | swept =>
    cases m <;> cases hact
    exact ⟨⟨h.generation, h.current, h.reports⟩, trivial, fun _ _ hlock => ⟨hlock, rfl, id⟩⟩
  | _ => cases m <;> cases hact

/-- A poll: it delivers under the lock, and what it delivers is the current client's. -/
theorem serveClientEvents_outline (hjob : job t = .serveClientEvents)
    (h : Separate first s) (hok : unmixed first job t m s l = true)
    (hact : statsAct role job t m s l = some (s', l')) :
    Separate first s' ∧ ReportKnows first t s' l' ∧ Respects first (some t) s s' := by
  unfold statsAct at hact
  unfold unmixed at hok
  rw [hjob] at hact hok
  cases l with
  | entered =>
    cases m <;> cases hact
    exact ⟨h, trivial, Respects.refl s⟩
  | holding client =>
    cases m with
    | go => cases hact
    | deliver stats =>
      dsimp only at hact
      split at hact
      · rename_i hfree
        cases hact
        exact ⟨h.deliver _ _ (of_decide_eq_true hok), trivial, Respects.of_free hfree⟩
      · cases hact
    | stop =>
      cases hact
      exact ⟨h, trivial, Respects.refl s⟩
  | delivered client =>
    cases m <;> cases hact
    exact ⟨⟨h.generation, h.current, h.reports⟩, trivial, fun _ _ hlock => ⟨hlock, rfl, id⟩⟩
  | _ => cases m <;> cases hact

/-- A report: from its reading the tallies to its giving the counts it holds their lock. -/
theorem report_outline (hjob : job t = .report)
    (h : Separate first s) (hknows : ReportKnows first t s l)
    (hok : unmixed first job t m s l = true)
    (hact : statsAct role job t m s l = some (s', l')) :
    Separate first s' ∧ ReportKnows first t s' l' ∧ Respects first (some t) s s' := by
  unfold statsAct at hact
  unfold unmixed at hok
  rw [hjob] at hact hok
  cases l with
  | entered =>
    cases m with
    | go =>
      dsimp only at hact
      split at hact
      · rename_i hfree
        cases hact
        have hcurrent : Current first s := by
          rcases Bool.or_eq_true _ _ ▸ hok with hun | hempty
          · exact h.current (List.isEmpty_iff.mp hun)
          · exact current_of_isEmpty hempty
        exact ⟨⟨h.generation, h.current, h.reports⟩, ⟨rfl, rfl, hcurrent⟩, Respects.of_free hfree⟩
      · cases hact
    | _ => cases hact
  | reading tallies =>
    cases m <;> cases hact
    exact ⟨h, hknows, Respects.refl s⟩
  | counted tallies recorded =>
    cases m <;> cases hact
    obtain ⟨hlock, rfl, hcurrent⟩ := hknows
    refine ⟨h.give hcurrent recorded, trivial, ?_⟩
    intro u hne hlock'
    exact absurd (hlock.symm.trans hlock') hne
  | _ => cases m <;> cases hact

/-- One step that keeps the clients apart, whatever the thread's job. -/
theorem statsAct_outline (h : Separate first s) (hknows : ReportKnows first t s l)
    (hok : unmixed first job t m s l = true)
    (hact : statsAct role job t m s l = some (s', l')) :
    Separate first s' ∧ ReportKnows first t s' l' ∧ Respects first (some t) s s' := by
  cases hjob : job t with
  | swapClients incoming => exact swapClients_outline hjob h hok hact
  | serveClientEvents => exact serveClientEvents_outline hjob h hok hact
  | report => exact report_outline hjob h hknows hok hact

end

theorem callStats_outline [DecidableEq τ] [DecidableEq C] (role : C → String) (job : τ → Job C)
    (first : C) :
    Outline (callStats role job) (fun t m s l => unmixed first job t m s l = true)
      (Separate first) (ReportKnows first) (Respects first) where
  act := fun h hknows hok hact => statsAct_outline h hknows hok hact
  env := fun {n} => nomatch n
  stable := by
    intro o u s s' l hne _ hknows hrespects
    cases l with
    | reading tallies =>
      obtain ⟨hlock, rfl, hcurrent⟩ := hknows
      obtain ⟨hlock', hvalues, hstays⟩ := hrespects u hne hlock
      exact ⟨hlock', hvalues.symm, hstays hcurrent⟩
    | counted tallies recorded =>
      obtain ⟨hlock, rfl, hcurrent⟩ := hknows
      obtain ⟨hlock', hvalues, hstays⟩ := hrespects u hne hlock
      exact ⟨hlock', hvalues.symm, hstays hcurrent⟩
    | _ => trivial

/-- In every run whose tallies are handed over by the client of the current generation,
    and whose reports and swaps keep clear of each other: every count of every report is
    the sum of tallies that the client of its generation counted, recorded since its
    swap. -/
theorem reports_unmixed [DecidableEq τ] [DecidableEq C] (role : C → String) (job : τ → Job C)
    (first : C) (c : Config τ (CallStats τ C) (StatsPhase C))
    (h : (callStats role job).Reached (fun t m s l => unmixed first job t m s l = true)
      (connected first) c) :
    ∀ r ∈ c.shared.reports, r.Unmixed first c.shared.swaps ∧
      ∀ api, sentBy r.report.totals api =
        (r.tallies.map fun x => sentByAll x.tally.perBroker api).sum := by
  have hstart : Separate first (connected (τ := τ) first).shared :=
    ⟨rfl, fun _ => current_of_isEmpty rfl, fun r hr => (by cases hr)⟩
  obtain ⟨hseparate, _⟩ := (callStats_outline role job first).reached hstart (fun _ => trivial) h
  intro r hr
  refine ⟨(hseparate.reports r hr).2, ?_⟩
  intro api
  rw [Reported.report, callReport_totals, List.map_map]
  rfl

/-- A handle with one swap, two polls and a report. -/
def oneSwap : Nat → Job Nat
  | 0 => .serveClientEvents
  | 1 => .swapClients 1
  | 2 => .serveClientEvents
  | _ => .report

def threeMetadata : Statistics := ⟨1, [⟨1, "b1", [("Metadata", 3)]⟩]⟩

/-- A poll of one client and what it delivers, a whole swap, a whole report. -/
def poll (t : Nat) : List (Event Nat StatsMove Empty) :=
  [.act t .go, .act t (.deliver threeMetadata), .act t .go, .act t .stop]

def swap : List (Event Nat StatsMove Empty) := [.act 1 .go, .act 1 .go, .act 1 .go]

def giveReport : List (Event Nat StatsMove Empty) := [.act 3 .go, .act 3 .go, .act 3 .go]

/-- Polled before the swap and after it, the report of the new generation counts the new
    client only. -/
theorem report_after_swap_unmixed :
    ∃ c, (callStats (fun _ => "consumer") oneSwap).replayWithin (unmixed 0 oneSwap) (connected 0)
        (poll 0 ++ swap ++ poll 2 ++ giveReport) = some c ∧
      ∃ r ∈ c.shared.reports, r.generation = 1 ∧ r.Unmixed 0 c.shared.swaps := by
  refine ⟨_, rfl, _, List.mem_singleton.mpr rfl, rfl, ?_⟩
  exact (reports_unmixed (fun _ => "consumer") oneSwap 0 _
    (System.replayWithin_reached (poll 0 ++ swap ++ poll 2 ++ giveReport)
      (fun _ _ _ _ h => h) .start rfl) _ (List.mem_singleton.mpr rfl)).1

/-- Two ways to mix.  The outgoing client, held since before the swap, delivers a tally
    after the swap has cleared them; and a swap bumps the generation while a report that
    has summed the tallies has yet to read it. -/
theorem reports_mix_clients :
    (∃ c, (callStats (fun _ => "consumer") oneSwap).replay (connected 0)
        ([.act 0 .go] ++ swap ++ [.act 0 (.deliver threeMetadata), .act 0 .go] ++ giveReport) =
          some c ∧
      ∃ r ∈ c.shared.reports, r.generation = 1 ∧ ¬ r.Unmixed 0 c.shared.swaps) ∧
    (∃ c, (callStats (fun _ => "consumer") oneSwap).replay (connected 0)
        (poll 0 ++ [.act 3 .go, .act 3 .go, .act 1 .go, .act 3 .go]) = some c ∧
      ∃ r ∈ c.shared.reports, r.generation = 1 ∧ ¬ r.Unmixed 0 c.shared.swaps) := by
  constructor
  · refine ⟨_, rfl, _, List.mem_singleton.mpr rfl, rfl, ?_⟩
    intro hunmixed
    obtain ⟨_, hclient⟩ := hunmixed _ (List.mem_singleton.mpr rfl)
    simp [clientOf, connected] at hclient
  · refine ⟨_, rfl, _, List.mem_singleton.mpr rfl, rfl, ?_⟩
    intro hunmixed
    obtain ⟨hgeneration, _⟩ := hunmixed _ (List.mem_singleton.mpr rfl)
    simp [connected] at hgeneration

end Arne.Cluster
