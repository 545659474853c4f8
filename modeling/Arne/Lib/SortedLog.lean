import Mathlib.Data.List.Basic
import Mathlib.Data.List.Perm.Basic
import Mathlib.Data.Finset.Card
import Mathlib.Data.Int.Interval

/-!
# Half-open windows of a log with holes

A log is a list whose keys strictly increase; keys that do not occur are holes.
`between key a b log` is what the log has in `[a, b)`.  The results say how such
a window splits, and that reading a window from either end up to some record
covers exactly the sub-window that record bounds.
-/

namespace Arne.SortedLog

variable {α : Type _} {key : α → Int}

def between (key : α → Int) (a b : Int) (log : List α) : List α :=
  log.filter fun x => decide (a ≤ key x) && decide (key x < b)

/-- Keys strictly increase along the log. -/
def Ascending (key : α → Int) (log : List α) : Prop := log.Pairwise fun x y => key x < key y

theorem mem_between {a b : Int} {log : List α} {x : α} :
    x ∈ between key a b log ↔ x ∈ log ∧ a ≤ key x ∧ key x < b := by
  simp [between]

theorem between_of_le {a b : Int} (h : b ≤ a) (log : List α) : between key a b log = [] := by
  apply List.eq_nil_iff_forall_not_mem.mpr
  intro x hx
  obtain ⟨-, h1, h2⟩ := mem_between.mp hx
  omega

theorem Ascending.filter {log : List α} (h : Ascending key log) (p : α → Bool) :
    Ascending key (log.filter p) :=
  List.Pairwise.filter p h

theorem Ascending.between {log : List α} (h : Ascending key log) (a b : Int) :
    Ascending key (between key a b log) :=
  h.filter _

theorem Ascending.nodup {log : List α} (h : Ascending key log) : log.Nodup :=
  h.imp fun hlt heq => by subst heq; omega

theorem Ascending.map_nodup {log : List α} (h : Ascending key log) : (log.map key).Nodup :=
  List.pairwise_map.mpr (h.imp fun hlt => ne_of_lt hlt)

/-- Entries of a log are told apart by their key. -/
theorem Ascending.eq_of_key {log : List α} (h : Ascending key log) {x y : α} (hx : x ∈ log)
    (hy : y ∈ log) (heq : key x = key y) : x = y :=
  List.inj_on_of_nodup_map h.map_nodup hx hy heq

/-- A window splits at any point inside it. -/
theorem between_append {a m b : Int} (ha : a ≤ m) (hb : m ≤ b) {log : List α}
    (hs : Ascending key log) :
    between key a b log = between key a m log ++ between key m b log := by
  induction log with
  | nil => rfl
  | cons x log ih =>
    obtain ⟨hx, hlog⟩ := List.pairwise_cons.mp hs
    have ih := ih hlog
    by_cases hxm : key x < m
    · -- `x` belongs to the left part if to any
      by_cases hax : a ≤ key x
      · have h1 : between key a b (x :: log) = x :: between key a b log :=
          List.filter_cons_of_pos (by simp; omega)
        have h2 : between key a m (x :: log) = x :: between key a m log :=
          List.filter_cons_of_pos (by simp; omega)
        have h3 : between key m b (x :: log) = between key m b log :=
          List.filter_cons_of_neg (by simp; omega)
        rw [h1, h2, h3, ih, List.cons_append]
      · have h1 : between key a b (x :: log) = between key a b log :=
          List.filter_cons_of_neg (by simp; omega)
        have h2 : between key a m (x :: log) = between key a m log :=
          List.filter_cons_of_neg (by simp; omega)
        have h3 : between key m b (x :: log) = between key m b log :=
          List.filter_cons_of_neg (by simp; omega)
        rw [h1, h2, h3, ih]
    · -- nothing of the rest is in the left part any more
      have hleft : between key a m (x :: log) = [] := by
        apply List.eq_nil_iff_forall_not_mem.mpr
        intro y hy
        obtain ⟨hmem, -, hy2⟩ := mem_between.mp hy
        rcases List.mem_cons.mp hmem with rfl | hmem
        · omega
        · have := hx y hmem
          omega
      rw [hleft, List.nil_append]
      apply List.filter_congr
      intro y hy
      have hmy : m ≤ key y := by
        rcases List.mem_cons.mp hy with rfl | hmem
        · omega
        · have := hx y hmem
          omega
      have hay : a ≤ key y := by omega
      simp [hmy, hay]

/-- Reading a window upwards: the records read so far are the sub-window that
    ends just after the highest of them. -/
theorem prefix_eq_between {a b m : Int} {log pre rest : List α} (hs : Ascending key log)
    (h : between key a b log = pre ++ rest) (hm : ∃ x ∈ pre, key x = m)
    (hmax : ∀ x ∈ pre, key x ≤ m) : pre = between key a (m + 1) log := by
  obtain ⟨x, hx, rfl⟩ := hm
  have hwin := hs.between a b
  rw [h] at hwin
  obtain ⟨-, -, hcross⟩ := List.pairwise_append.mp hwin
  have hxin := mem_between.mp (h ▸ List.mem_append_left rest hx)
  have hsplit := between_append (b := b) (show a ≤ key x + 1 by omega) (by omega) hs
  have hpre : (between key a b log).filter (fun y => decide (key y < key x + 1)) = pre := by
    rw [h, List.filter_append, List.filter_eq_self.mpr, List.filter_eq_nil_iff.mpr,
      List.append_nil]
    · intro y hy
      have := hcross x hx y hy
      simp only [decide_eq_true_eq]
      omega
    · intro y hy
      have := hmax y hy
      simp only [decide_eq_true_eq]
      omega
  rw [← hpre, hsplit, List.filter_append, List.filter_eq_self.mpr, List.filter_eq_nil_iff.mpr,
    List.append_nil]
  · intro y hy
    have := (mem_between.mp hy).2.1
    simp only [decide_eq_true_eq]
    omega
  · intro y hy
    have := (mem_between.mp hy).2.2
    simpa using this

/-- Reading a window downwards: the records read so far are the sub-window that
    starts at the lowest of them. -/
theorem suffix_eq_between {a b m : Int} {log rest suf : List α} (hs : Ascending key log)
    (h : between key a b log = rest ++ suf) (hm : ∃ x ∈ suf, key x = m)
    (hmin : ∀ x ∈ suf, m ≤ key x) : suf = between key m b log := by
  obtain ⟨x, hx, rfl⟩ := hm
  have hwin := hs.between a b
  rw [h] at hwin
  obtain ⟨-, -, hcross⟩ := List.pairwise_append.mp hwin
  have hxin := mem_between.mp (h ▸ List.mem_append_right rest hx)
  have hsplit := between_append (b := b) (show a ≤ key x by omega) (by omega) hs
  have hsuf : (between key a b log).filter (fun y => decide (key x ≤ key y)) = suf := by
    rw [h, List.filter_append, List.filter_eq_nil_iff.mpr, List.filter_eq_self.mpr,
      List.nil_append]
    · intro y hy
      have := hmin y hy
      simpa using this
    · intro y hy
      have := hcross y hy x hx
      simp only [decide_eq_true_eq]
      omega
  rw [← hsuf, hsplit, List.filter_append, List.filter_eq_nil_iff.mpr, List.filter_eq_self.mpr,
    List.nil_append]
  · intro y hy
    have := (mem_between.mp hy).2.1
    simpa using this
  · intro y hy
    have := (mem_between.mp hy).2.2
    simp only [decide_eq_true_eq]
    omega

/-- Records with distinct keys in a window are at most as many as its offsets. -/
theorem length_le_span {a b : Int} {l : List α} (hnodup : (l.map key).Nodup)
    (hin : ∀ x ∈ l, a ≤ key x ∧ key x < b) : l.length ≤ (b - a).toNat := by
  have hsub : (l.map key).toFinset ⊆ Finset.Ico a b := by
    intro k hk
    obtain ⟨x, hx, rfl⟩ := List.mem_map.mp (List.mem_toFinset.mp hk)
    exact Finset.mem_Ico.mpr (hin x hx)
  have hcard := Finset.card_le_card hsub
  rw [List.toFinset_card_of_nodup hnodup, List.length_map, Int.card_Ico] at hcard
  exact hcard

/-- Two sorted lists of the same records are the same list. -/
theorem eq_of_perm_of_ascending {l l' : List α} (h : l.Perm l') (hs : Ascending key l)
    (hs' : Ascending key l') : l = l' := by
  refine h.eq_of_pairwise (fun x y _ _ hxy hyx => ?_) hs hs'
  omega

/-! ### Grouping by a key -/

/-- Splitting a list by a key and putting the parts together loses nothing. -/
theorem flatMap_groups_perm (key : α → Int) (ks : List Int) (hnodup : ks.Nodup)
    (l : List α) (hkey : ∀ x ∈ l, key x ∈ ks) :
    (ks.flatMap fun k => l.filter (key · == k)).Perm l := by
  induction ks generalizing l with
  | nil =>
    have : l = [] := List.eq_nil_iff_forall_not_mem.mpr fun x hx => by simpa using hkey x hx
    subst this
    exact List.Perm.refl _
  | cons k ks ih =>
    obtain ⟨hk, hks⟩ := List.nodup_cons.mp hnodup
    have hrest : ∀ q ∈ ks, l.filter (key · == q) =
        (l.filter fun x => !(key x == k)).filter (key · == q) := by
      intro q hq
      rw [List.filter_filter]
      apply List.filter_congr
      intro x _
      by_cases hxq : key x = q
      · have : key x ≠ k := fun h => hk (h ▸ hxq ▸ hq)
        simp [hxq, hxq ▸ this]
      · simp [hxq]
    have hmap : (ks.flatMap fun q => l.filter (key · == q)) =
        ks.flatMap fun q => (l.filter fun x => !(key x == k)).filter (key · == q) :=
      List.flatMap_congr hrest
    rw [List.flatMap_cons, hmap]
    have hkey' : ∀ x ∈ l.filter (fun x => !(key x == k)), key x ∈ ks := by
      intro x hx
      obtain ⟨hxl, hxk⟩ := List.mem_filter.mp hx
      rcases List.mem_cons.mp (hkey x hxl) with h | h
      · simp [h] at hxk
      · exact h
    exact ((ih hks _ hkey').append_left _).trans (List.filter_append_perm (key · == k) l)

/-- A list is no longer than its groups together. -/
theorem length_le_groups (key : α → Int) (ks : List Int) {l : List α}
    (h : ∀ x ∈ l, key x ∈ ks) :
    l.length ≤ (ks.map fun k => (l.filter (key · == k)).length).sum := by
  induction l with
  | nil => simp
  | cons x l ih =>
    have hx := h x List.mem_cons_self
    have ih := ih fun y hy => h y (List.mem_cons_of_mem _ hy)
    obtain ⟨s, t, rfl⟩ := List.append_of_mem hx
    have hle : ∀ ks' : List Int, (ks'.map fun k => (l.filter (key · == k)).length).sum ≤
        (ks'.map fun k => ((x :: l).filter (key · == k)).length).sum := by
      intro ks'
      induction ks' with
      | nil => simp
      | cons k ks' ihk =>
        have := ((List.sublist_cons_self x l).filter (key · == k)).length_le
        simp only [List.map_cons, List.sum_cons]
        omega
    have hs := hle s
    have ht := hle t
    simp only [List.map_append, List.map_cons, List.sum_append, List.sum_cons, List.length_cons]
      at ih ⊢
    have hself : ((x :: l).filter (key · == key x)).length =
        (l.filter (key · == key x)).length + 1 := by
      simp
    omega

/-- Summing a weight group by group counts each weight once for every key that
    selects its group. -/
theorem sum_groups {β γ : Type _} (keyOf : β → Int) (groupOf : γ → Int) (weight : γ → Nat)
    (es : List β) (ws : List γ) :
    (es.map fun e => ((ws.filter (groupOf · == keyOf e)).map weight).sum).sum =
      (ws.map fun w => weight w * es.countP (keyOf · == groupOf w)).sum := by
  induction ws with
  | nil => simp
  | cons w ws ih =>
    rw [List.map_cons, List.sum_cons, ← ih]
    clear ih
    induction es with
    | nil => simp
    | cons e es ih =>
      have hhead : (((w :: ws).filter (groupOf · == keyOf e)).map weight).sum =
          (if keyOf e == groupOf w then weight w else 0) +
            ((ws.filter (groupOf · == keyOf e)).map weight).sum := by
        by_cases h : groupOf w = keyOf e
        · simp [h]
        · have h' : ¬ keyOf e = groupOf w := fun heq => h heq.symm
          simp [h, h']
      rw [List.map_cons, List.sum_cons, ih, hhead, List.countP_cons, List.map_cons, List.sum_cons,
        Nat.mul_add]
      split <;> omega

end Arne.SortedLog
