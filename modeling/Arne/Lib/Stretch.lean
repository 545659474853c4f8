import Mathlib.Order.Bounds.Basic
import Mathlib.Order.Interval.Set.Basic
import Mathlib.Algebra.Order.Ring.Int

/-!
# A stretch of a log

A cache of a log of offsets: the offsets it holds, a lower edge below which it would
read on, and an upper edge from which it would.  `pending` are the offsets a live feed
still owes, and `debt` is where its deliveries begin.  `Sound` says that nothing between
the edges is missing but what is pending; the lemmas say that reading on at either edge,
a live delivery and a trim keep it.
-/

namespace Arne

/-- The least element of a set, if it has one. -/
def LeastOf (S : Set Int) : Option Int → Prop
  | none => ∀ o, o ∉ S
  | some v => IsLeast S v

def GreatestOf (S : Set Int) : Option Int → Prop
  | none => ∀ o, o ∉ S
  | some v => IsGreatest S v

theorem LeastOf.insert {S T : Set Int} {least : Option Int} {x : Int} (h : LeastOf S least)
    (hT : ∀ o, o ∈ T ↔ o ∈ S ∨ o = x) : LeastOf T (some (least.elim x (min · x))) := by
  cases least with
  | none => exact ⟨(hT x).mpr (Or.inr rfl), fun o ho => by
      rcases (hT o).mp ho with hS | rfl
      · exact absurd hS (h o)
      · exact le_refl _⟩
  | some v =>
    refine ⟨(hT _).mpr ?_, fun o ho => ?_⟩
    · show min v x ∈ S ∨ min v x = x
      rcases min_choice v x with hmin | hmin
      · exact Or.inl (hmin.symm ▸ h.1)
      · exact Or.inr hmin
    · rcases (hT o).mp ho with hS | rfl
      · exact (min_le_left v x).trans (h.2 hS)
      · exact min_le_right v _

theorem GreatestOf.insert {S T : Set Int} {greatest : Option Int} {x : Int}
    (h : GreatestOf S greatest) (hT : ∀ o, o ∈ T ↔ o ∈ S ∨ o = x) :
    GreatestOf T (some (greatest.elim x (max · x))) := by
  cases greatest with
  | none => exact ⟨(hT x).mpr (Or.inr rfl), fun o ho => by
      rcases (hT o).mp ho with hS | rfl
      · exact absurd hS (h o)
      · exact le_refl _⟩
  | some v =>
    refine ⟨(hT _).mpr ?_, fun o ho => ?_⟩
    · show max v x ∈ S ∨ max v x = x
      rcases max_choice v x with hmax | hmax
      · exact Or.inl (hmax.symm ▸ h.1)
      · exact Or.inr hmax
    · rcases (hT o).mp ho with hS | rfl
      · exact (h.2 hS).trans (le_max_left v x)
      · exact le_max_right v _

/-- An edge lowered to `least`. -/
def lowered (old least : Option Int) : Option Int :=
  least.elim old fun v => some (old.elim v (min · v))

/-- An edge raised past `greatest`. -/
def raised (old greatest : Option Int) : Option Int :=
  greatest.elim old fun v => some (old.elim (v + 1) (max · (v + 1)))

theorem lowered_spec {S : Set Int} {least : Option Int} (h : LeastOf S least) (old : Int) :
    ∃ b, lowered (some old) least = some b ∧ b ≤ old ∧ (∀ o ∈ S, b ≤ o) ∧ (b = old ∨ b ∈ S) := by
  cases least with
  | none => exact ⟨old, rfl, le_refl _, fun o ho => absurd ho (h o), Or.inl rfl⟩
  | some v =>
    refine ⟨min old v, rfl, min_le_left _ _, fun o ho => (min_le_right _ _).trans (h.2 ho), ?_⟩
    rcases min_choice old v with hmin | hmin
    · exact Or.inl hmin
    · exact Or.inr (hmin.symm ▸ h.1)

theorem raised_spec {S : Set Int} {greatest : Option Int} (h : GreatestOf S greatest) (old : Int) :
    ∃ t, raised (some old) greatest = some t ∧ old ≤ t ∧ (∀ o ∈ S, o < t) ∧
      (t = old ∨ ∃ v ∈ S, t = v + 1) := by
  cases greatest with
  | none => exact ⟨old, rfl, le_refl _, fun o ho => absurd ho (h o), Or.inl rfl⟩
  | some v =>
    refine ⟨max old (v + 1), rfl, le_max_left _ _, ?_, ?_⟩
    · intro o ho
      exact (Int.lt_add_one_of_le (h.2 ho)).trans_le (le_max_right _ _)
    · rcases max_choice old (v + 1) with hmax | hmax
      · exact Or.inl hmax
      · exact Or.inr ⟨v, h.1, hmax⟩

structure Stretch where
  held : Set Int
  bottom : Option Int
  top : Option Int

namespace Stretch

variable {low high debt : Int} {real pending : Set Int} {attached : Bool} {c c' : Stretch}

/-- From `β` up to the upper edge, or to the end when attached, all is held or pending. -/
structure Floor (debt : Int) (real pending : Set Int) (attached : Bool) (c : Stretch) (β : Int) :
    Prop where
  eq_bottom : ∀ b, c.bottom = some b → b = β
  le_held : ∀ o ∈ c.held, β ≤ o
  le_top : ∀ t, c.top = some t → β ≤ t
  covers : ∀ o ∈ real, β ≤ o → (attached = false → ∀ t, c.top = some t → o < t) →
    o ∈ c.held ∨ o ∈ pending
  le_debt : c.bottom = none → β ≤ debt

structure Sound (low high debt : Int) (real pending : Set Int) (attached : Bool) (c : Stretch) :
    Prop where
  held_real : c.held ⊆ real
  held_lt_top : ∀ t, c.top = some t → ∀ o ∈ c.held, o < t
  bottom_mem : ∀ b, c.bottom = some b → low ≤ b ∧ b ≤ high
  top_mem : ∀ t, c.top = some t → low ≤ t ∧ t ≤ high
  floor : ∃ β, Floor debt real pending attached c β
  /-- What is held reaches down to the lower edge, also while there is no upper one. -/
  closed : ∀ b, c.top = none → c.bottom = some b → ∀ o ∈ real, b ≤ o →
    (∃ o' ∈ c.held, o ≤ o') → o ∈ c.held
  empty : c.top = none → c.bottom = none → ∀ o, o ∉ c.held

/-- Between two edges everything is held but what is pending. -/
theorem Sound.exact (h : c.Sound low high debt real pending attached) {b t : Int}
    (hb : c.bottom = some b) (ht : c.top = some t) :
    (∀ o ∈ c.held, o ∈ real ∧ b ≤ o ∧ o < t) ∧
      ∀ o ∈ real, b ≤ o → o < t → o ∈ c.held ∨ o ∈ pending := by
  obtain ⟨β, hf⟩ := h.floor
  obtain rfl := hf.eq_bottom b hb
  refine ⟨fun o ho => ⟨h.held_real ho, hf.le_held o ho, h.held_lt_top t ht o ho⟩,
    fun o ho hbo hot => hf.covers o ho hbo fun _ t' ht' => ?_⟩
  rw [ht] at ht'
  cases ht'
  exact hot

/-! ### The log grows -/

/-- New records appear at the end and are pending. -/
theorem Sound.grow (h : c.Sound low high debt real pending attached) {high' : Int}
    {real' : Set Int}
    (hhigh : high ≤ high') (hsub : real ⊆ real')
    (hnew : ∀ o ∈ real', o ∉ real → high ≤ o ∧ o ∈ pending) (hreal : ∀ o ∈ real, o < high) :
    c.Sound low high' debt real' pending attached where
  held_real := h.held_real.trans hsub
  held_lt_top := h.held_lt_top
  bottom_mem b hb := ⟨(h.bottom_mem b hb).1, (h.bottom_mem b hb).2.trans hhigh⟩
  top_mem t ht := ⟨(h.top_mem t ht).1, (h.top_mem t ht).2.trans hhigh⟩
  floor := by
    obtain ⟨β, hf⟩ := h.floor
    refine ⟨β, hf.eq_bottom, hf.le_held, hf.le_top, ?_, hf.le_debt⟩
    intro o ho hβ htop
    by_cases hold : o ∈ real
    · exact hf.covers o hold hβ htop
    · exact Or.inr (hnew o ho hold).2
  closed b ht hb o ho hbo := by
    rintro ⟨o', ho', hle⟩
    by_cases hold : o ∈ real
    · exact h.closed b ht hb o hold hbo ⟨o', ho', hle⟩
    · have h1 := (hnew o ho hold).1
      have h2 := hreal o' (h.held_real ho')
      omega
  empty := h.empty

/-- The feed's debt told another way: what was pending is held or pending still, or lies
    past the upper edge of a detached stretch. -/
theorem Sound.pending_congr (h : c.Sound low high debt real pending attached) {pending' : Set Int}
    (hstill : ∀ o ∈ real, o ∈ pending → (attached = false → ∀ t, c.top = some t → o < t) →
      o ∈ c.held ∨ o ∈ pending') : c.Sound low high debt real pending' attached where
  held_real := h.held_real
  held_lt_top := h.held_lt_top
  bottom_mem := h.bottom_mem
  top_mem := h.top_mem
  floor := by
    obtain ⟨β, hf⟩ := h.floor
    refine ⟨β, hf.eq_bottom, hf.le_held, hf.le_top, ?_, hf.le_debt⟩
    intro o ho hβ htop
    rcases hf.covers o ho hβ htop with hold | hpend
    · exact Or.inl hold
    · exact hstill o ho hpend htop
  closed := h.closed
  empty := h.empty

/-! ### Reading on -/

/-- Reading on below the lower edge. -/
theorem Sound.readBack (h : c.Sound low high debt real pending attached) {start stop : Int}
    (hstart : c.bottom = some start) (hlow : low ≤ stop) (hle : stop ≤ start)
    (hreal : ∀ o ∈ real, low ≤ o)
    (hheld : ∀ o, o ∈ c'.held ↔ o ∈ c.held ∨ o ∈ real ∧ stop ≤ o ∧ o < start)
    (htop : c'.top = c.top)
    (hbottom : c'.bottom = some stop ∨ stop = low ∧
      ∃ least, LeastOf {o | o ∈ c'.held ∧ o ∉ c.held} least ∧
        c'.bottom = lowered (some start) least) :
    c'.Sound low high debt real pending attached := by
  obtain ⟨β, hf⟩ := h.floor
  obtain rfl := hf.eq_bottom start hstart
  have hbounds := h.bottom_mem start hstart
  -- the new edge, and that everything real between it and the old one was read
  obtain ⟨b', hb', hb'start, hb'low, hb'held, hb'new⟩ : ∃ b', c'.bottom = some b' ∧ b' ≤ start ∧
      low ≤ b' ∧ (∀ o ∈ c'.held, b' ≤ o) ∧
        ∀ o ∈ real, b' ≤ o → o < start → o ∈ c'.held := by
    rcases hbottom with hb | ⟨hstop, least, hleast, hb⟩
    · refine ⟨stop, hb, hle, hlow, ?_, fun o ho h1 h2 => (hheld o).mpr (Or.inr ⟨ho, h1, h2⟩)⟩
      intro o ho
      rcases (hheld o).mp ho with ho | ⟨-, ho, -⟩
      · exact hle.trans (hf.le_held o ho)
      · exact ho
    · obtain ⟨b', hb', hb'start, hnew, hmem⟩ := lowered_spec hleast start
      refine ⟨b', hb.trans hb', hb'start, ?_, ?_, ?_⟩
      · rcases hmem with rfl | ⟨hv, hold⟩
        · exact hbounds.1
        · rcases (hheld b').mp hv with hv | ⟨hv, -⟩
          · exact absurd hv hold
          · exact hreal b' hv
      · intro o ho
        by_cases hold : o ∈ c.held
        · exact hb'start.trans (hf.le_held o hold)
        · exact hnew o ⟨ho, hold⟩
      · intro o ho _ h2
        exact (hheld o).mpr (Or.inr ⟨ho, hstop ▸ hreal o ho, h2⟩)
  refine ⟨fun o ho => ?_, fun t ht o ho => ?_, fun b hb => ?_, htop ▸ h.top_mem, ⟨b', ?_⟩, ?_, ?_⟩
  · rcases (hheld o).mp ho with ho | ⟨ho, -⟩
    · exact h.held_real ho
    · exact ho
  · rw [htop] at ht
    rcases (hheld o).mp ho with ho | ⟨-, -, ho⟩
    · exact h.held_lt_top t ht o ho
    · exact lt_of_lt_of_le ho (hf.le_top t ht)
  · rw [hb'] at hb
    cases hb
    exact ⟨hb'low, hb'start.trans hbounds.2⟩
  · refine ⟨?_, hb'held, ?_, ?_, ?_⟩
    · intro b hb
      rw [hb'] at hb
      exact (Option.some.inj hb).symm
    · intro t ht
      exact hb'start.trans (hf.le_top t (htop ▸ ht))
    · intro o ho hβ hlt
      rcases lt_or_ge o start with hos | hos
      · exact Or.inl (hb'new o ho hβ hos)
      · rw [htop] at hlt
        exact (hf.covers o ho hos hlt).imp_left fun hold => (hheld o).mpr (Or.inl hold)
    · intro hnone
      rw [hb'] at hnone
      cases hnone
  · rintro b ht hb o ho hbo ⟨o', ho', hoo'⟩
    rw [hb'] at hb
    cases hb
    rcases lt_or_ge o start with hos | hos
    · exact hb'new o ho hbo hos
    · -- above the old edge only old rows lie over it
      rcases (hheld o').mp ho' with hold | ⟨-, -, hlt⟩
      · exact (hheld o).mpr (Or.inl
          (h.closed start (htop ▸ ht) hstart o ho hos ⟨o', hold, hoo'⟩))
      · omega
  · intro _ hnone
    rw [hb'] at hnone
    cases hnone

/-- Reading on from the upper edge of a detached stretch; a page that reached the end
    `mark` attaches it. -/
theorem Sound.readForward (h : c.Sound low high debt real pending false) {start stop mark : Int}
    {exhausted : Bool} (hstart : c.top = some start) (hle : start ≤ stop) (hmark : stop ≤ mark)
    (hhigh : mark ≤ high)
    (hheld : ∀ o, o ∈ c'.held ↔ o ∈ c.held ∨ o ∈ real ∧ start ≤ o ∧ o < stop)
    (hbottom : c'.bottom = c.bottom)
    (htop : exhausted = false ∧ c'.top = some stop ∨ exhausted = true ∧ stop = mark ∧
      ∃ greatest, GreatestOf {o | o ∈ c'.held ∧ o ∉ c.held} greatest ∧
        c'.top = raised (some start) greatest)
    (hpending : exhausted = true → ∀ o ∈ real, mark ≤ o → o ∈ pending) :
    c'.Sound low high debt real pending exhausted := by
  obtain ⟨β, hf⟩ := h.floor
  have hbounds := h.top_mem start hstart
  have hnew : ∀ o, o ∈ c'.held → o ∉ c.held → start ≤ o ∧ o < stop := by
    intro o ho hold
    rcases (hheld o).mp ho with ho | ⟨-, ho⟩
    · exact absurd ho hold
    · exact ho
  obtain ⟨t', ht', ht'start, ht'high, ht'held⟩ : ∃ t', c'.top = some t' ∧ start ≤ t' ∧
      t' ≤ high ∧ ∀ o ∈ c'.held, o < t' := by
    rcases htop with ⟨-, ht⟩ | ⟨-, -, greatest, hgreatest, ht⟩
    · refine ⟨stop, ht, hle, hmark.trans hhigh, ?_⟩
      intro o ho
      rcases (hheld o).mp ho with ho | ⟨-, -, ho⟩
      · exact lt_of_lt_of_le (h.held_lt_top start hstart o ho) hle
      · exact ho
    · obtain ⟨t', ht', ht'start, habove, hmem⟩ := raised_spec hgreatest start
      refine ⟨t', ht.trans ht', ht'start, ?_, ?_⟩
      · rcases hmem with rfl | ⟨v, ⟨hv, hold⟩, rfl⟩
        · exact hbounds.2
        · have := hnew v hv hold
          omega
      · intro o ho
        by_cases hold : o ∈ c.held
        · exact (h.held_lt_top start hstart o hold).trans_le ht'start
        · exact habove o ⟨ho, hold⟩
  refine ⟨fun o ho => ?_, fun t ht o ho => ?_, hbottom ▸ h.bottom_mem, fun t ht => ?_, ⟨β, ?_⟩,
    ?_, ?_⟩
  · rcases (hheld o).mp ho with ho | ⟨ho, -⟩
    · exact h.held_real ho
    · exact ho
  · rw [ht'] at ht
    cases ht
    exact ht'held o ho
  · rw [ht'] at ht
    cases ht
    exact ⟨hbounds.1.trans ht'start, ht'high⟩
  · have hβ := hf.le_top start hstart
    refine ⟨hbottom ▸ hf.eq_bottom, ?_, ?_, ?_, hbottom ▸ hf.le_debt⟩
    · intro o ho
      rcases (hheld o).mp ho with ho | ⟨-, ho, -⟩
      · exact hf.le_held o ho
      · exact hβ.trans ho
    · intro t ht
      rw [ht'] at ht
      cases ht
      exact hβ.trans ht'start
    · intro o ho hβo hlt
      rcases lt_or_ge o start with hos | hos
      · refine (hf.covers o ho hβo fun _ t ht => ?_).imp_left fun hold =>
          (hheld o).mpr (Or.inl hold)
        rw [hstart] at ht
        cases ht
        exact hos
      · rcases htop with ⟨hex, ht⟩ | ⟨hex, hstop, -⟩
        · exact Or.inl ((hheld o).mpr (Or.inr ⟨ho, hos, hlt hex stop ht⟩))
        · rcases lt_or_ge o mark with hom | hom
          · exact Or.inl ((hheld o).mpr (Or.inr ⟨ho, hos, hstop ▸ hom⟩))
          · exact Or.inr (hpending hex o ho hom)
  · intro b ht
    rw [ht'] at ht
    cases ht
  · intro ht
    rw [ht'] at ht
    cases ht

/-- A stretch the page did not ask for: without an upper edge the attachment is no matter. -/
theorem Sound.attach (h : c.Sound low high debt real pending attached) (htop : c.top = none)
    (attached' : Bool) : c.Sound low high debt real pending attached' where
  held_real := h.held_real
  held_lt_top := h.held_lt_top
  bottom_mem := h.bottom_mem
  top_mem := h.top_mem
  floor := by
    obtain ⟨β, hf⟩ := h.floor
    refine ⟨β, hf.eq_bottom, hf.le_held, hf.le_top, ?_, hf.le_debt⟩
    intro o ho hβ _
    apply hf.covers o ho hβ
    intro _ t ht
    rw [htop] at ht
    cases ht
  closed := h.closed
  empty := h.empty

/-! ### The first page -/

/-- Nothing is held and no edge known: all there is from `debt` on is pending. -/
theorem sound_cleared (hheld : ∀ o, o ∉ c.held) (hbottom : c.bottom = none)
    (htop : c.top = none) (howed : ∀ o ∈ real, debt ≤ o → o ∈ pending) :
    c.Sound low high debt real pending attached where
  held_real o ho := absurd ho (hheld o)
  held_lt_top _ _ o ho := absurd ho (hheld o)
  bottom_mem b hb := by rw [hbottom] at hb; cases hb
  top_mem t ht := by rw [htop] at ht; cases ht
  floor := ⟨debt, fun b hb => (by rw [hbottom] at hb; cases hb), fun o ho => absurd ho (hheld o),
    fun t ht => (by rw [htop] at ht; cases ht), fun o ho hle _ => Or.inr (howed o ho hle),
    fun _ => le_refl _⟩
  closed b _ hb := by rw [hbottom] at hb; cases hb
  empty _ _ := hheld

/-- A first page read back from the end `mark`. -/
theorem sound_latest {stop mark : Int} (hlow : low ≤ stop) (hle : stop ≤ mark)
    (hhigh : mark ≤ high) (hreal : ∀ o ∈ real, low ≤ o)
    (hheld : ∀ o, o ∈ c.held ↔ o ∈ real ∧ stop ≤ o ∧ o < mark)
    (htop : ∃ greatest, GreatestOf c.held greatest ∧ c.top = greatest.map (· + 1))
    (hbottom : c.bottom = some stop ∨ stop = low ∧ LeastOf c.held c.bottom)
    (hpending : ∀ o ∈ real, mark ≤ o → o ∈ pending) :
    c.Sound low high debt real pending true := by
  have hsub : c.held ⊆ real := fun o ho => ((hheld o).mp ho).1
  have htopSome : ∀ t, c.top = some t → ∃ v ∈ c.held, t = v + 1 ∧ ∀ o ∈ c.held, o ≤ v := by
    obtain ⟨greatest, hgreatest, ht⟩ := htop
    intro t ht'
    rw [ht] at ht'
    obtain ⟨v, rfl, rfl⟩ := Option.map_eq_some_iff.mp ht'
    exact ⟨v, hgreatest.1, rfl, fun o ho => hgreatest.2 ho⟩
  have htopNone : c.top = none → ∀ o, o ∉ c.held := by
    obtain ⟨greatest, hgreatest, ht⟩ := htop
    intro ht'
    rw [ht, Option.map_eq_none_iff] at ht'
    subst ht'
    exact hgreatest
  refine ⟨hsub, ?_, ?_, ?_, ?_, ?_, ?_⟩
  · intro t ht o ho
    obtain ⟨v, -, rfl, hmax⟩ := htopSome t ht
    exact Int.lt_add_one_of_le (hmax o ho)
  · intro b hb
    rcases hbottom with hb' | ⟨-, hleast⟩
    · rw [hb'] at hb
      cases hb
      exact ⟨hlow, hle.trans hhigh⟩
    · rw [hb] at hleast
      have := (hheld b).mp hleast.1
      exact ⟨hreal b this.1, by omega⟩
  · intro t ht
    obtain ⟨v, hv, rfl, -⟩ := htopSome t ht
    have := (hheld v).mp hv
    exact ⟨by have := hreal v this.1; omega, by omega⟩
  · -- with no lower edge there is nothing below `mark` at all
    rcases hbottom with hb | ⟨hstop, hleast⟩
    · refine ⟨stop, ?_, fun o ho => ((hheld o).mp ho).2.1, ?_, ?_, ?_⟩
      · intro b hb'
        rw [hb] at hb'
        exact (Option.some.inj hb').symm
      · intro t ht
        obtain ⟨v, hv, rfl, -⟩ := htopSome t ht
        have := ((hheld v).mp hv).2.1
        omega
      · intro o ho hβ _
        rcases lt_or_ge o mark with hom | hom
        · exact Or.inl ((hheld o).mpr ⟨ho, hβ, hom⟩)
        · exact Or.inr (hpending o ho hom)
      · intro hnone
        rw [hb] at hnone
        cases hnone
    · have hcovers : ∀ o ∈ real, o ∈ c.held ∨ o ∈ pending := by
        intro o ho
        rcases lt_or_ge o mark with hom | hom
        · exact Or.inl ((hheld o).mpr ⟨ho, hstop ▸ hreal o ho, hom⟩)
        · exact Or.inr (hpending o ho hom)
      cases hb : c.bottom with
      | none =>
        rw [hb] at hleast
        refine ⟨debt, by simp [hb], fun o ho => absurd ho (hleast o), ?_,
          fun o ho _ _ => hcovers o ho, fun _ => le_refl _⟩
        intro t ht
        obtain ⟨v, hv, -⟩ := htopSome t ht
        exact absurd hv (hleast v)
      | some v =>
        rw [hb] at hleast
        refine ⟨v, ?_, fun o ho => hleast.2 ho, ?_, fun o ho _ _ => hcovers o ho, ?_⟩
        · intro b hb'
          rw [hb] at hb'
          exact (Option.some.inj hb').symm
        · intro t ht
          obtain ⟨w, -, rfl, hmax⟩ := htopSome t ht
          have := hmax v hleast.1
          omega
        · intro hnone
          rw [hb] at hnone
          cases hnone
  · rintro b ht - o - - ⟨o', ho', -⟩
    exact absurd ho' (htopNone ht o')
  · intro ht _
    exact htopNone ht

/-- A first page read forward from `start`. -/
theorem sound_forward {start stop mark : Int} {exhausted : Bool} (hlow : low ≤ start)
    (hle : start ≤ stop) (hmark : stop ≤ mark) (hhigh : mark ≤ high)
    (hheld : ∀ o, o ∈ c.held ↔ o ∈ real ∧ start ≤ o ∧ o < stop)
    (hbottom : LeastOf c.held c.bottom)
    (htop : exhausted = false ∧ c.top = some stop ∨ exhausted = true ∧ stop = mark ∧
      ∃ greatest, GreatestOf c.held greatest ∧ c.top = greatest.map (· + 1))
    (hpending : exhausted = true → ∀ o ∈ real, mark ≤ o → o ∈ pending)
    (howed : ∀ o ∈ real, debt ≤ o → o ∈ pending) :
    c.Sound low high debt real pending exhausted := by
  have hsub : c.held ⊆ real := fun o ho => ((hheld o).mp ho).1
  have htopSome : ∀ t, c.top = some t → start ≤ t ∧ t ≤ mark ∧ ∀ o ∈ c.held, o < t := by
    intro t ht
    rcases htop with ⟨-, ht'⟩ | ⟨-, -, greatest, hgreatest, ht'⟩
    · rw [ht'] at ht
      cases ht
      exact ⟨hle, hmark, fun o ho => ((hheld o).mp ho).2.2⟩
    · rw [ht'] at ht
      obtain ⟨v, rfl, rfl⟩ := Option.map_eq_some_iff.mp ht
      have hv := (hheld v).mp hgreatest.1
      exact ⟨by omega, by omega, fun o ho => Int.lt_add_one_of_le (hgreatest.2 ho)⟩
  have htopNone : c.top = none → ∀ o, o ∉ c.held := by
    intro ht
    rcases htop with ⟨-, ht'⟩ | ⟨-, -, greatest, hgreatest, ht'⟩
    · rw [ht'] at ht
      cases ht
    · rw [ht', Option.map_eq_none_iff] at ht
      subst ht
      exact hgreatest
  -- past the start all is read or pending, as far as the stretch says it reaches
  have hcovers : ∀ o ∈ real, start ≤ o →
      (exhausted = false → ∀ t, c.top = some t → o < t) → o ∈ c.held ∨ o ∈ pending := by
    intro o ho hso hlt
    rcases htop with ⟨hex, ht⟩ | ⟨hex, hstop, -⟩
    · exact Or.inl ((hheld o).mpr ⟨ho, hso, hlt hex stop ht⟩)
    · rcases lt_or_ge o mark with hom | hom
      · exact Or.inl ((hheld o).mpr ⟨ho, hso, hstop ▸ hom⟩)
      · exact Or.inr (hpending hex o ho hom)
  refine ⟨hsub, fun t ht => (htopSome t ht).2.2, ?_, ?_, ?_, ?_, ?_⟩
  · intro b hb
    rw [hb] at hbottom
    have := (hheld b).mp hbottom.1
    exact ⟨by omega, by omega⟩
  · intro t ht
    have := htopSome t ht
    exact ⟨by omega, by omega⟩
  · cases hb : c.bottom with
    | none =>
      rw [hb] at hbottom
      refine ⟨min start debt, by simp [hb], fun o ho => absurd ho (hbottom o), ?_, ?_,
        fun _ => min_le_right _ _⟩
      · intro t ht
        exact (min_le_left _ _).trans (htopSome t ht).1
      · intro o ho hβ hlt
        rcases lt_or_ge o start with hos | hos
        · exact Or.inr (howed o ho (by omega))
        · exact hcovers o ho hos hlt
    | some v =>
      rw [hb] at hbottom
      have hv := (hheld v).mp hbottom.1
      refine ⟨v, ?_, fun o ho => hbottom.2 ho, ?_, fun o ho hβ hlt => hcovers o ho (by omega) hlt,
        ?_⟩
      · intro b hb'
        rw [hb] at hb'
        exact (Option.some.inj hb').symm
      · intro t ht
        exact le_of_lt ((htopSome t ht).2.2 v hbottom.1)
      · intro hnone
        rw [hb] at hnone
        cases hnone
  · rintro b ht - o - - ⟨o', ho', -⟩
    exact absurd ho' (htopNone ht o')
  · intro ht _
    exact htopNone ht

/-! ### The live feed -/

/-- The feed hands over `batch`, of which nothing below the lower edge is taken. -/
theorem Sound.deliver (h : c.Sound low high debt real pending true) (batch : Set Int)
    {pending' : Set Int}
    (hreal : ∀ o ∈ real, low ≤ o ∧ o < high) (hbatch : batch ⊆ real)
    (howed : ∀ o ∈ batch, debt ≤ o) (hpending : ∀ o ∈ pending, o ∈ real → o ∈ batch ∨ o ∈ pending')
    (hheld : ∀ o, o ∈ c'.held ↔ o ∈ c.held ∨ o ∈ batch ∧ ∀ b, c.bottom = some b → b ≤ o)
    (hbottom : c'.bottom = c.bottom)
    (htop : ∃ greatest, GreatestOf {o | o ∈ c'.held ∧ o ∉ c.held} greatest ∧
      c'.top = raised c.top greatest) : c'.Sound low high debt real pending' true := by
  obtain ⟨β, hf⟩ := h.floor
  obtain ⟨greatest, hgreatest, htop⟩ := htop
  have hnew : ∀ o ∈ c'.held, o ∉ c.held → o ∈ batch ∧ ∀ b, c.bottom = some b → b ≤ o := by
    intro o ho hold
    exact ((hheld o).mp ho).resolve_left hold
  -- what comes in lies above the floor
  have hβnew : ∀ o ∈ c'.held, o ∉ c.held → β ≤ o := by
    intro o ho hold
    obtain ⟨hob, hbo⟩ := hnew o ho hold
    cases hb : c.bottom with
    | none => exact (hf.le_debt hb).trans (howed o hob)
    | some b => exact hf.eq_bottom b hb ▸ hbo b hb
  have hβheld : ∀ o ∈ c'.held, β ≤ o := by
    intro o ho
    by_cases hold : o ∈ c.held
    · exact hf.le_held o hold
    · exact hβnew o ho hold
  have htopHeld : ∀ t, c'.top = some t → (∀ o ∈ c'.held, o < t) ∧ β ≤ t ∧ low ≤ t ∧ t ≤ high := by
    intro t ht
    rw [htop] at ht
    cases htc : c.top with
    | some t₀ =>
      obtain ⟨t', ht', hle, habove, hmem⟩ := raised_spec hgreatest t₀
      rw [htc, ht'] at ht
      obtain rfl : t' = t := Option.some.inj ht
      have hbounds := h.top_mem t₀ htc
      refine ⟨?_, (hf.le_top t₀ htc).trans hle, hbounds.1.trans hle, ?_⟩
      · intro o ho
        by_cases hold : o ∈ c.held
        · exact (h.held_lt_top t₀ htc o hold).trans_le hle
        · exact habove o ⟨ho, hold⟩
      · rcases hmem with rfl | ⟨v, ⟨hv, hold⟩, rfl⟩
        · exact hbounds.2
        · exact Int.add_one_le_of_lt (hreal v (hbatch (hnew v hv hold).1)).2
    | none =>
      rw [htc] at ht
      cases hg : greatest with
      | none =>
        rw [hg] at ht
        cases ht
      | some v =>
        rw [hg] at ht hgreatest
        obtain rfl : v + 1 = t := Option.some.inj ht
        obtain ⟨⟨hv, hvold⟩, hmax⟩ := hgreatest
        obtain ⟨hvbatch, hvbottom⟩ := hnew v hv hvold
        have hvreal := hreal v (hbatch hvbatch)
        have hvβ := hβnew v hv hvold
        refine ⟨?_, by omega, by omega, by omega⟩
        intro o ho
        by_cases hold : o ∈ c.held
        · -- without an upper edge, everything new lies above everything held
          cases hb : c.bottom with
          | none => exact absurd hold (h.empty htc hb o)
          | some b =>
            by_contra hvo
            exact hvold (h.closed b htc hb v (hbatch hvbatch) (hvbottom b hb) ⟨o, hold, by omega⟩)
        · exact Int.lt_add_one_of_le (hmax ⟨ho, hold⟩)
  have htopNone : c'.top = none → c.top = none ∧ ∀ o ∈ c'.held, o ∈ c.held := by
    intro ht
    rw [htop] at ht
    cases hg : greatest with
    | none =>
      rw [hg] at ht hgreatest
      refine ⟨ht, ?_⟩
      intro o ho
      by_contra hold
      exact hgreatest o ⟨ho, hold⟩
    | some v =>
      rw [hg] at ht
      cases ht
  refine ⟨fun o ho => ?_, fun t ht => (htopHeld t ht).1, hbottom ▸ h.bottom_mem,
    fun t ht => (htopHeld t ht).2.2, ⟨β, hbottom ▸ hf.eq_bottom, hβheld,
      fun t ht => (htopHeld t ht).2.1, fun o ho hβ _ => ?_, hbottom ▸ hf.le_debt⟩, ?_, ?_⟩
  · rcases (hheld o).mp ho with ho | ⟨ho, -⟩
    · exact h.held_real ho
    · exact hbatch ho
  · rcases hf.covers o ho hβ (by simp) with hold | hpend
    · exact Or.inl ((hheld o).mpr (Or.inl hold))
    · rcases hpending o hpend ho with hob | hp
      · refine Or.inl ((hheld o).mpr (Or.inr ⟨hob, fun b hb => ?_⟩))
        exact hf.eq_bottom b hb ▸ hβ
      · exact Or.inr hp
  · rintro b ht hb o ho hbo ⟨o', ho', hle⟩
    obtain ⟨ht, hback⟩ := htopNone ht
    exact (hheld o).mpr (Or.inl (h.closed b ht (hbottom ▸ hb) o ho hbo ⟨o', hback o' ho', hle⟩))
  · intro ht hb o ho
    obtain ⟨ht, hback⟩ := htopNone ht
    exact h.empty ht (hbottom ▸ hb) o (hback o ho)

/-! ### Trims -/

/-- The greatest offsets are let go: the upper edge comes down to them, or to the end of
    what is held, and the stretch detaches. -/
theorem Sound.trimTop (h : c.Sound low high debt real pending attached)
    (lost : Set Int)
    (hreal : ∀ o ∈ real, low ≤ o ∧ o < high)
    (hheld : ∀ o, o ∈ c.held ↔ o ∈ c'.held ∨ o ∈ lost)
    (hlt : ∀ o ∈ c'.held, ∀ o' ∈ lost, o < o') (hbottom : c'.bottom = c.bottom)
    (htop : ∃ least greatest, LeastOf lost least ∧ GreatestOf c'.held greatest ∧
      c'.top = least.or ((greatest.map (· + 1)).or c.top)) :
    c'.Sound low high debt real pending false := by
  obtain ⟨β, hf⟩ := h.floor
  obtain ⟨least, greatest, hleast, hgreatest, htop⟩ := htop
  -- the edge after: the first offset let go, or one past the last one held, or as it was
  have hcases : (∃ v ∈ lost, c'.top = some v ∧ ∀ o ∈ lost, v ≤ o) ∨
      ((∀ o, o ∉ lost) ∧ ∃ v ∈ c'.held, c'.top = some (v + 1) ∧ ∀ o ∈ c'.held, o ≤ v) ∨
        (∀ o, o ∉ lost) ∧ (∀ o, o ∉ c'.held) ∧ c'.top = c.top := by
    cases least with
    | some v => exact Or.inl ⟨v, hleast.1, htop, fun o ho => hleast.2 ho⟩
    | none =>
      cases greatest with
      | some v => exact Or.inr (Or.inl ⟨hleast, v, hgreatest.1, htop, fun o ho => hgreatest.2 ho⟩)
      | none => exact Or.inr (Or.inr ⟨hleast, hgreatest, htop⟩)
  have hkept : ∀ o ∈ c'.held, o ∈ c.held := fun o ho => (hheld o).mpr (Or.inl ho)
  have hgone : ∀ o ∈ lost, o ∈ c.held := fun o ho => (hheld o).mpr (Or.inr ho)
  have htopSome : ∀ t, c'.top = some t → (∀ o ∈ c'.held, o < t) ∧ (∀ o ∈ lost, t ≤ o) ∧ β ≤ t ∧
      (low ≤ t ∧ t ≤ high) ∧ ∀ t₀, c.top = some t₀ → t ≤ t₀ := by
    intro t ht
    rcases hcases with ⟨v, hv, htv, hmin⟩ | ⟨hnone, v, hv, htv, hmax⟩ | ⟨hnone, hempty, htc⟩
    · rw [htv] at ht
      obtain rfl : v = t := Option.some.inj ht
      have hvreal := hreal v (h.held_real (hgone v hv))
      exact ⟨fun o ho => hlt o ho v hv, hmin, hf.le_held v (hgone v hv), ⟨hvreal.1, by omega⟩,
        fun t₀ ht₀ => le_of_lt (h.held_lt_top t₀ ht₀ v (hgone v hv))⟩
    · rw [htv] at ht
      cases ht
      have hvreal := hreal v (h.held_real (hkept v hv))
      have hvβ := hf.le_held v (hkept v hv)
      exact ⟨fun o ho => Int.lt_add_one_of_le (hmax o ho), fun o ho => absurd ho (hnone o),
        by omega, ⟨by omega, by omega⟩, fun t₀ ht₀ => h.held_lt_top t₀ ht₀ v (hkept v hv)⟩
    · rw [htc] at ht
      refine ⟨fun o ho => absurd ho (hempty o), fun o ho => absurd ho (hnone o), hf.le_top t ht,
        h.top_mem t ht, ?_⟩
      intro t₀ ht₀
      rw [ht] at ht₀
      cases ht₀
      exact le_refl _
  have htopNone : c'.top = none → c.top = none ∧ (∀ o, o ∉ c.held) := by
    intro ht
    rcases hcases with ⟨v, -, htv, -⟩ | ⟨-, v, -, htv, -⟩ | ⟨hnone, hempty, htc⟩
    · rw [htv] at ht; cases ht
    · rw [htv] at ht; cases ht
    · refine ⟨htc ▸ ht, ?_⟩
      intro o ho
      rcases (hheld o).mp ho with ho | ho
      · exact hempty o ho
      · exact hnone o ho
  refine ⟨fun o ho => h.held_real (hkept o ho), fun t ht => (htopSome t ht).1,
    hbottom ▸ h.bottom_mem, fun t ht => (htopSome t ht).2.2.2.1,
    ⟨β, hbottom ▸ hf.eq_bottom, fun o ho => hf.le_held o (hkept o ho),
      fun t ht => (htopSome t ht).2.2.1, fun o ho hβ hbelow => ?_, hbottom ▸ hf.le_debt⟩, ?_, ?_⟩
  · have hbelow := hbelow rfl
    have hold : attached = false → ∀ t, c.top = some t → o < t := by
      intro _ t ht
      cases ht' : c'.top with
      | none => rw [(htopNone ht').1] at ht; cases ht
      | some t' => exact lt_of_lt_of_le (hbelow t' ht') ((htopSome t' ht').2.2.2.2 t ht)
    rcases hf.covers o ho hβ hold with hoheld | hpend
    · rcases (hheld o).mp hoheld with hkeep | hlost
      · exact Or.inl hkeep
      · -- what was let go lies at or above the new edge
        cases ht' : c'.top with
        | none => exact absurd hoheld ((htopNone ht').2 o)
        | some t' =>
          have h1 := hbelow t' ht'
          have h2 := (htopSome t' ht').2.1 o hlost
          omega
    · exact Or.inr hpend
  · rintro b ht - o - - ⟨o', ho', -⟩
    exact absurd (hkept o' ho') ((htopNone ht).2 o')
  · exact fun ht _ o ho => (htopNone ht).2 o (hkept o ho)

/-- The least offsets are let go: the lower edge goes past the last of them. -/
theorem Sound.trimBottom (h : c.Sound low high debt real pending attached)
    (lost : Set Int)
    (hreal : ∀ o ∈ real, low ≤ o ∧ o < high)
    (hheld : ∀ o, o ∈ c.held ↔ o ∈ c'.held ∨ o ∈ lost)
    (hlt : ∀ o ∈ lost, ∀ o' ∈ c'.held, o < o') (htop : c'.top = c.top)
    (hbottom : ∃ greatest, GreatestOf lost greatest ∧
      c'.bottom = (greatest.map (· + 1)).or c.bottom) :
    c'.Sound low high debt real pending attached := by
  obtain ⟨β, hf⟩ := h.floor
  obtain ⟨greatest, hgreatest, hbottom⟩ := hbottom
  have hkept : ∀ o ∈ c'.held, o ∈ c.held := fun o ho => (hheld o).mpr (Or.inl ho)
  cases greatest with
  | none =>
    -- nothing was let go
    have hsame : c'.held = c.held :=
      Set.ext fun o => ⟨hkept o, fun ho => ((hheld o).mp ho).resolve_right (hgreatest o)⟩
    have hc : c' = c := by
      cases c'
      cases c
      simp only [Option.map_none, Option.none_or] at hbottom hsame htop
      rw [hsame, hbottom, htop]
    exact hc ▸ h
  | some v =>
    have hb' : c'.bottom = some (v + 1) := hbottom
    have hv : v ∈ c.held := (hheld v).mpr (Or.inr hgreatest.1)
    have hvreal := hreal v (h.held_real hv)
    have hvβ := hf.le_held v hv
    refine ⟨fun o ho => h.held_real (hkept o ho), fun t ht o ho =>
      h.held_lt_top t (htop ▸ ht) o (hkept o ho), fun b hb => ?_, htop ▸ h.top_mem,
      ⟨v + 1, fun b hb => ?_, fun o ho => hlt v hgreatest.1 o ho, fun t ht =>
        h.held_lt_top t (htop ▸ ht) v hv, fun o ho hβ hbelow => ?_, fun hb => ?_⟩, ?_, fun _ hb => ?_⟩
    · rw [hb'] at hb
      cases hb
      exact ⟨by omega, by omega⟩
    · rw [hb'] at hb
      exact (Option.some.inj hb).symm
    · rw [htop] at hbelow
      apply (hf.covers o ho (by omega) hbelow).imp_left
      intro hold
      rcases (hheld o).mp hold with hkeep | hlost
      · exact hkeep
      · have : o ≤ v := hgreatest.2 hlost
        omega
    · rw [hb'] at hb
      cases hb
    · rintro b ht hb o ho hbo ⟨o', ho', hle⟩
      rw [hb'] at hb
      cases hb
      cases hb : c.bottom with
      | none => exact absurd hv (h.empty (htop ▸ ht) hb v)
      | some b₀ =>
        have hb₀ := hf.eq_bottom b₀ hb
        have hold := h.closed b₀ (htop ▸ ht) hb o ho (by omega) ⟨o', hkept o' ho', hle⟩
        rcases (hheld o).mp hold with hkeep | hlost
        · exact hkeep
        · have : o ≤ v := hgreatest.2 hlost
          omega
    · rw [hb'] at hb
      cases hb

end Stretch

end Arne
