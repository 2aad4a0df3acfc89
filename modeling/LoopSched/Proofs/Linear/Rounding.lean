import LoopSched.Proofs.Linear.Phases
import Mathlib.Data.Rat.Floor

/-!
# Tableaux that stay whole

If every solution of the starting equations can be rounded to a whole one that keeps the columns
which are whole already, then every tableau reached from them is whole: a solution is fixed by its
values outside the basis, so one that is whole there equals its rounding.  Equations that fix the
difference of two columns have this property, because the floors of two numbers with a whole
difference have the same difference.
-/

namespace LoopSched.Linear

theorem den_sub {a b : ℚ} (ha : a.den = 1) (hb : b.den = 1) : (a - b).den = 1 := by
  rw [← Rat.coe_int_num_of_den_eq_one ha, ← Rat.coe_int_num_of_den_eq_one hb, ← Int.cast_sub]
  exact Rat.den_intCast _

theorem floor_sub_floor {a b : ℚ} (h : (a - b).den = 1) : (⌊a⌋ : ℚ) - ⌊b⌋ = a - b := by
  have hnum : ((a - b).num : ℚ) = a - b := Rat.coe_int_num_of_den_eq_one h
  have ha : a = b + (a - b).num := by rw [hnum, add_sub_cancel]
  have hfloor : ⌊a⌋ = ⌊b⌋ + (a - b).num := by
    conv_lhs => rw [ha]
    exact Int.floor_add_intCast b _
  rw [hfloor, Int.cast_add, hnum, add_sub_cancel_left]

/-- The cells and the right-hand side are whole. -/
structure Line.Whole (l : Line) : Prop where
  rhs : l.rhs.den = 1
  cell : ∀ j, (l.cell j).den = 1

namespace Tableau

/-- All lines are whole. -/
def Whole (t : Tableau) : Prop := ∀ l ∈ t.lines, l.Whole

/-- Every solution can be rounded to a whole one that keeps the columns which are whole already. -/
def Rounds (t : Tableau) : Prop :=
  ∀ y, t.Holds y → ∃ z, t.Holds z ∧ (∀ j, (z j).den = 1) ∧ ∀ j, (y j).den = 1 → z j = y j

section Reached

variable {t₀ t : Tableau} (h₀ : t₀.Rounds) (h : Reached t₀ t)
include h₀ h

/-- A solution that is whole outside the basis is whole. -/
theorem Reached.den_eq_one {y : ℕ → ℚ} (hy : t.Holds y) (hoff : ∀ j, j ∉ t.basis → (y j).den = 1)
    (j : ℕ) : (y j).den = 1 := by
  obtain ⟨z, hz, hwhole, hkeep⟩ := h₀ y ((h.holds_iff y).mp hy)
  have heq : z = y := h.canonical.eq_of_agree ((h.holds_iff z).mpr hz) hy
    fun j hj => hkeep j (hoff j hj)
  exact heq ▸ hwhole j

theorem Reached.den_point (j : ℕ) : (t.point j).den = 1 := by
  refine h.den_eq_one h₀ h.canonical.holds_point (fun j hj => ?_) j
  rw [point_of_not_mem hj]
  rfl

/-- The cells of a column are read off the solution in which it is one. -/
theorem Reached.whole : t.Whole := by
  intro l hl
  have hrhs : l.rhs.den = 1 := by
    rw [← h.canonical.point_basic hl]
    exact h.den_point h₀ _
  refine ⟨hrhs, fun j => ?_⟩
  by_cases hj : j ∈ t.basis
  · obtain ⟨m, hm, rfl⟩ := List.mem_map.mp hj
    by_cases heq : m.basic = l.basic
    · rw [heq, h.canonical.own l hl]
      rfl
    · rw [h.canonical.cell_eq_zero hl hm heq]
      rfl
  · have hne : l.basic ≠ j := fun heq => hj (List.mem_map.mpr ⟨l, hl, heq⟩)
    have hunit := h.den_eq_one h₀ (h.canonical.holds_complete fun i => if i = j then 1 else 0)
      (fun i hi => by rw [complete_of_not_mem _ hi]; split <;> rfl) l.basic
    rw [h.canonical.complete_basic _ hl, if_neg hne, zero_add, dot_indicator] at hunit
    have hcell := den_sub hrhs hunit
    rwa [sub_sub_cancel] at hcell

end Reached

end Tableau

/-! ### Differences -/

/-- The line says that its basic column and the difference of two columns add up to a whole
number. -/
def Line.Difference (l : Line) : Prop :=
  l.rhs.den = 1 ∧ ∃ i j, ∀ y, dot l.cells y = y i - y j + y l.basic

/-- The floors of the other columns are completed to a solution. -/
theorem Tableau.rounds_of_difference {t : Tableau} (ht : t.Canonical)
    (h : ∀ l ∈ t.lines, l.Difference) : t.Rounds := by
  intro y hy
  have hbasic : ∀ l ∈ t.lines, ∃ i j, l.rhs = y i - y j + y l.basic ∧
      t.complete (fun k => (⌊y k⌋ : ℚ)) l.basic = l.rhs - (⌊y i⌋ - ⌊y j⌋) := by
    intro l hl
    obtain ⟨-, i, j, hdot⟩ := h l hl
    refine ⟨i, j, ?_, ?_⟩
    · rw [← hdot]
      exact (hy l hl).symm
    · rw [ht.complete_basic _ hl, hdot]
      ring
  refine ⟨_, ht.holds_complete fun k => (⌊y k⌋ : ℚ), fun k => ?_, fun k hk => ?_⟩
  · by_cases hb : k ∈ t.basis
    · obtain ⟨l, hl, rfl⟩ := List.mem_map.mp hb
      obtain ⟨i, j, -, heq⟩ := hbasic l hl
      rw [heq]
      exact den_sub (h l hl).1 (den_sub (Rat.den_intCast _) (Rat.den_intCast _))
    · rw [complete_of_not_mem _ hb]
      exact Rat.den_intCast _
  · by_cases hb : k ∈ t.basis
    · obtain ⟨l, hl, rfl⟩ := List.mem_map.mp hb
      obtain ⟨i, j, hrhs, heq⟩ := hbasic l hl
      have hdiff : y i - y j = l.rhs - y l.basic := by rw [hrhs, add_sub_cancel_right]
      rw [heq, floor_sub_floor (hdiff ▸ den_sub (h l hl).1 hk), hdiff, sub_sub_cancel]
    · rw [complete_of_not_mem _ hb, ← Rat.coe_int_num_of_den_eq_one hk, Int.floor_intCast]

/-- The row fixes the difference of two columns at a whole number that is not the least word. -/
structure Row.Difference (r : Row) : Prop where
  relation_eq : r.relation = .eq
  rhs_eq : ∃ v : ℤ, r.rhs = v ∧ Word.lo < v
  dot_eq : ∃ i j, ∀ y, dot r.coeffs y = y i - y j

theorem Row.Difference.normalize {r r' : Row} (h : r.Difference) (hr : r.normalize = .ok r') :
    r'.Difference := by
  obtain ⟨hrel, ⟨v, hv, hlo⟩, i, j, hdot⟩ := h
  rcases Row.normalize_cases hr with ⟨-, rfl⟩ | ⟨hneg, rfl⟩
  · exact ⟨hrel, ⟨v, hv, hlo⟩, i, j, hdot⟩
  · have hv' : v < 0 := by
      rw [hv] at hneg
      exact_mod_cast hneg
    refine ⟨by rw [hrel]; rfl, ⟨-v, ?_, ?_⟩, j, i, fun y => ?_⟩
    · rw [hv, Int.cast_neg]
    · have hword : Word.lo < 0 := by decide
      omega
    · rw [dot_map_neg, hdot, neg_sub]

theorem Row.Difference.of_mapM_normalize {rows rows' : List Row} (h : ∀ r ∈ rows, r.Difference)
    (hrows : rows.mapM Row.normalize = .ok rows') : ∀ r ∈ rows', r.Difference := by
  intro r' hr'
  obtain ⟨r, hr, hnormal⟩ := Checked.exists_of_mem_mapM hrows hr'
  exact (h r hr).normalize hnormal

theorem Row.Difference.startLine {n s a i k : ℕ} {r : Row} (h : r.Difference)
    (hr : Simplex.Placed n s a i k r) : (Simplex.startLine n s a i k r).Difference := by
  obtain ⟨hrel, ⟨v, hv, -⟩, p, q, hdot⟩ := h
  obtain ⟨hlen, -, hart⟩ := hr
  unfold Row.artificialColumns at hart
  unfold Simplex.startLine
  simp only [hrel, reduceCtorEq, if_false] at hart ⊢
  refine ⟨by rw [hv]; exact Rat.den_intCast v, p, q, fun y => ?_⟩
  rw [Simplex.dot_parts hlen (length_zeros s), dot_zeros, dot_single (by omega), hdot, add_zero,
    one_mul]

/-- Rows of differences start with a tableau that rounds. -/
theorem Simplex.start_rounds {n : ℕ} {rows : List Row} (hlen : ∀ r ∈ rows, r.coeffs.length = n)
    (hrhs : ∀ r ∈ rows, 0 ≤ r.rhs) (h : ∀ r ∈ rows, r.Difference) : (start n rows).Rounds :=
  Tableau.rounds_of_difference (start_canonical hlen hrhs)
    (forall_mem_startLines rows 0 0 (fun _ _ r hr => (h r hr).startLine) (fits_start hlen))

/-- The minimum over rows of differences is found at a whole point. -/
theorem Simplex.minimize_den {cost values : List ℚ} {rows : List Row} {objective : ℚ}
    (hlen : ∀ r ∈ rows, r.coeffs.length = cost.length) (hdiff : ∀ r ∈ rows, r.Difference)
    (h : minimize cost rows = .ok (.optimal objective values)) : ∀ v ∈ values, v.den = 1 := by
  cases minimize_ends h with
  | @proceeds rows' _ _ hrows' hfound h =>
    have hm := slacks_le_width cost.length rows'
    obtain ⟨hrhs, hlen', -⟩ := normalize_rows hrows'
    replace hlen' := hlen' _ hlen
    have hrounds := start_rounds hlen' hrhs (Row.Difference.of_mapM_normalize hdiff hrows')
    obtain ⟨hreached, hidle⟩ := phaseOne_some (start_canonical hlen' hrhs) hm hfound
    cases phaseTwo_ends h with
    | optimal hopt _ =>
      obtain ⟨⟨hs, -⟩, -⟩ := phaseTwo_optimize hm hreached hidle hopt
      intro v hv
      obtain ⟨j, -, rfl⟩ := List.mem_map.mp hv
      exact hs.den_point hrounds j

end LoopSched.Linear
