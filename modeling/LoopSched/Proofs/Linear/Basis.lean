import LoopSched.Proofs.Linear.Pivot
import Mathlib.Algebra.Order.BigOperators.Group.Finset

/-!
# Basic solutions and reduced costs

In a canonical tableau the basic columns can be read off: each takes the right-hand side of its
line and all other columns are zero.  The cost of any solution is the cost of the basic one plus
what the reduced costs add, so a basic solution without negative reduced costs is optimal.
-/

open Finset

namespace LoopSched.Linear

/-! ### Sums over lines -/

/-- A sum against a row of a unit matrix picks one member. -/
theorem sum_map_unit {α : Type} {xs : List α} {e : α → α → ℚ} (hown : ∀ x ∈ xs, e x x = 1)
    (hapart : xs.Pairwise fun x y => e x y = 0 ∧ e y x = 0) {k : α} (hk : k ∈ xs) (g : α → ℚ) :
    (xs.map fun x => e k x * g x).sum = g k := by
  induction xs with
  | nil => simp at hk
  | cons a xs ih =>
    rw [List.pairwise_cons] at hapart
    rw [List.map_cons, List.sum_cons]
    rcases List.mem_cons.mp hk with rfl | hk
    · have hzero : (xs.map fun x => e k x * g x).sum = 0 :=
        List.sum_eq_zero (by
          simp only [List.forall_mem_map]
          exact fun x hx => by rw [(hapart.1 x hx).1, zero_mul])
      rw [hzero, hown k (by simp), one_mul, add_zero]
    · rw [(hapart.1 k hk).2, zero_mul, zero_add]
      exact ih (fun x hx => hown x (by simp [hx])) hapart.2 hk

theorem foldl_add_eq_sum {α : Type} (h : α → ℚ) (xs : List α) (s : ℚ) :
    xs.foldl (fun s x => s + h x) s = s + (xs.map h).sum := by
  induction xs generalizing s with
  | nil => simp
  | cons x xs ih => rw [List.foldl_cons, ih, List.map_cons, List.sum_cons, add_assoc]

theorem foldl_sub_eq_sum {α : Type} (h : α → ℚ) (xs : List α) (s : ℚ) :
    xs.foldl (fun s x => s - h x) s = s - (xs.map h).sum := by
  induction xs generalizing s with
  | nil => simp
  | cons x xs ih => rw [List.foldl_cons, ih, List.map_cons, List.sum_cons, sub_sub]

theorem sum_map_filter {α : Type} {p : α → Bool} {h : α → ℚ} {xs : List α}
    (hp : ∀ x ∈ xs, p x = false → h x = 0) : ((xs.filter p).map h).sum = (xs.map h).sum := by
  induction xs with
  | nil => rfl
  | cons x xs ih =>
    have ih := ih fun z hz => hp z (by simp [hz])
    cases hx : p x with
    | true => rw [List.filter_cons_of_pos hx, List.map_cons, List.map_cons, List.sum_cons,
        List.sum_cons, ih]
    | false => rw [List.filter_cons_of_neg (by simp [hx]), List.map_cons, List.sum_cons,
        hp x (by simp) hx, zero_add, ih]

/-- Exchange of a sum over lines and a sum over columns. -/
theorem sum_combination {ls : List Line} {w : ℕ} (hwide : ∀ l ∈ ls, l.cells.length = w)
    (g : Line → ℚ) (y : ℕ → ℚ) :
    ∑ j ∈ range w, (ls.map fun l => g l * l.cell j).sum * y j =
      (ls.map fun l => g l * dot l.cells y).sum := by
  induction ls with
  | nil => simp
  | cons a ls ih =>
    have ih := ih fun l hl => hwide l (by simp [hl])
    simp only [List.map_cons, List.sum_cons, add_mul, sum_add_distrib, ih]
    rw [dot_eq_sum a.cells y (hwide a (by simp)).le, mul_sum]
    simp only [Line.cell, mul_assoc]

namespace Tableau

variable {t : Tableau}

/-- Value of a column in the basic solution. -/
def point (t : Tableau) (j : ℕ) : ℚ := ((t.lines.find? (·.basic = j)).map (·.rhs)).getD 0

/-- Cost of the basic solution, without overflow. -/
def value (t : Tableau) (cost : List ℚ) : ℚ :=
  (t.lines.map fun l => cost.getD l.basic 0 * l.rhs).sum

/-- Reduced cost of a column, without overflow. -/
def reduced (t : Tableau) (cost : List ℚ) (j : ℕ) : ℚ :=
  cost.getD j 0 - (t.lines.map fun l => cost.getD l.basic 0 * l.cell j).sum

theorem objective_eq_ok {cost : List ℚ} {v : ℚ} (h : t.objective cost = .ok v) :
    v = t.value cost := by
  have := Checked.foldlM_eq_foldl (g := fun s l => s + cost.getD l.basic 0 * l.rhs)
    (fun l _ s s' hs => by
      obtain ⟨q, hq, hs⟩ := Checked.bind_eq_ok hs
      rw [Ratio.add_eq_ok hs, Ratio.mul_eq_ok hq]) h
  rw [this, foldl_add_eq_sum, zero_add, value]

theorem reducedCost_eq_ok {cost : List ℚ} {j : ℕ} {v : ℚ}
    (h : reducedCost (t.priced cost) cost j = .ok v) : v = t.reduced cost j := by
  have := Checked.foldlM_eq_foldl (g := fun s (x : ℚ × Line) => s - x.1 * x.2.cell j)
    (fun x _ s s' hs => by
      dsimp only at hs
      by_cases ha : x.2.cell j = 0
      · rw [if_pos ha] at hs
        cases hs
        rw [ha, mul_zero, sub_zero]
      · rw [if_neg ha] at hs
        obtain ⟨q, hq, hs⟩ := Checked.bind_eq_ok hs
        rw [Ratio.sub_eq_ok hs, Ratio.mul_eq_ok hq]) h
  have hprice : ((t.priced cost).map fun x => x.1 * x.2.cell j).sum =
      (t.lines.map fun l => cost.getD l.basic 0 * l.cell j).sum := by
    unfold priced
    rw [sum_map_filter (by simp +contextual), List.map_map]
    rfl
  rw [this, foldl_sub_eq_sum, hprice, reduced]

/-! ### The basic solution -/

section Canonical

variable (ht : t.Canonical)
include ht

theorem Canonical.basic_ne : t.lines.Pairwise fun l m => l.basic ≠ m.basic :=
  ht.apart.imp_of_mem fun {l m} hl _ h heq => by
    rw [← heq, ht.own l hl] at h
    exact one_ne_zero h.1

omit ht in
theorem point_eq_zero {j : ℕ} (h : ∀ l ∈ t.lines, l.basic = j → l.rhs = 0) : t.point j = 0 := by
  unfold point
  cases hf : t.lines.find? (·.basic = j) with
  | none => rfl
  | some l => exact h l (List.mem_of_find?_eq_some hf) (by simpa using List.find?_some hf)

theorem Canonical.point_nonneg (j : ℕ) : 0 ≤ t.point j := by
  unfold point
  cases hf : t.lines.find? (·.basic = j) with
  | none => exact le_rfl
  | some l => exact ht.rhs_nonneg l (List.mem_of_find?_eq_some hf)

theorem Canonical.nodup_basis : t.basis.Nodup := List.pairwise_map.mpr ht.basic_ne

/-- The line of a basic column is found by its column. -/
theorem Canonical.find?_basic {l : Line} (hl : l ∈ t.lines) :
    t.lines.find? (·.basic = l.basic) = some l := by
  cases hf : t.lines.find? (·.basic = l.basic) with
  | none => exact absurd (List.find?_eq_none.mp hf l hl) (by simp)
  | some m =>
    have hm : m ∈ t.lines := List.mem_of_find?_eq_some hf
    have heq : m.basic = l.basic := by simpa using List.find?_some hf
    rw [List.inj_on_of_nodup_map ht.nodup_basis hm hl heq]

theorem Canonical.point_basic {l : Line} (hl : l ∈ t.lines) : t.point l.basic = l.rhs := by
  rw [point, ht.find?_basic hl]
  rfl

omit ht in
theorem point_of_not_mem {j : ℕ} (hj : j ∉ t.basis) : t.point j = 0 :=
  point_eq_zero fun _ hl hb => absurd (List.mem_map.mpr ⟨_, hl, hb⟩) hj

/-- A sum over the columns that vanishes outside the basis runs over the lines. -/
theorem Canonical.sum_basis {g : ℕ → ℚ} (hg : ∀ j, j ∉ t.basis → g j = 0) :
    ∑ j ∈ range t.width, g j = (t.lines.map fun l => g l.basic).sum := by
  have hsub : t.basis.toFinset ⊆ range t.width := by
    intro j hj
    obtain ⟨l, hl, rfl⟩ := List.mem_map.mp (List.mem_toFinset.mp hj)
    exact mem_range.mpr (ht.basic_lt l hl)
  rw [← sum_subset hsub fun j _ hj => hg j (by simpa using hj), List.sum_toFinset _ ht.nodup_basis,
    basis, List.map_map]
  rfl

/-- A sum weighted with the basic solution runs over the lines only. -/
theorem Canonical.sum_mul_point (f : ℕ → ℚ) :
    ∑ j ∈ range t.width, f j * t.point j = (t.lines.map fun l => f l.basic * l.rhs).sum := by
  rw [ht.sum_basis fun j hj => by rw [point_of_not_mem hj, mul_zero]]
  exact congrArg List.sum (List.map_congr_left fun l hl => by rw [ht.point_basic hl])

theorem Canonical.holds_point : t.Holds t.point := by
  intro l hl
  unfold Line.Holds
  rw [dot_eq_sum l.cells t.point (ht.wide l hl).le, ht.sum_mul_point fun j => l.cells.getD j 0]
  exact sum_map_unit (e := fun l m : Line => l.cell m.basic) ht.own ht.apart hl (·.rhs)

theorem Canonical.dot_point {cost : List ℚ} (hcost : cost.length ≤ t.width) :
    dot cost t.point = t.value cost := by
  rw [dot_eq_sum cost t.point hcost, ht.sum_mul_point fun j => cost.getD j 0, value]

/-! ### Solutions and their values outside the basis -/

theorem Canonical.cell_eq_zero {l m : Line} (hl : l ∈ t.lines) (hm : m ∈ t.lines)
    (hne : m.basic ≠ l.basic) : l.cell m.basic = 0 := by
  have : Std.Symm fun l m : Line => l.cell m.basic = 0 ∧ m.cell l.basic = 0 :=
    ⟨fun _ _ h => ⟨h.2, h.1⟩⟩
  exact (ht.apart.forall hl hm fun h => hne (h ▸ rfl)).1

omit ht in
/-- The solution that has the values of `x` outside the basis. -/
def complete (t : Tableau) (x : ℕ → ℚ) (j : ℕ) : ℚ :=
  x j + ((t.lines.find? (·.basic = j)).map fun l => l.rhs - dot l.cells x).getD 0

omit ht in
theorem complete_of_not_mem (x : ℕ → ℚ) {j : ℕ} (hj : j ∉ t.basis) : t.complete x j = x j := by
  have hnone : t.lines.find? (·.basic = j) = none :=
    List.find?_eq_none.mpr fun l hl hb => hj (List.mem_map.mpr ⟨l, hl, by simpa using hb⟩)
  rw [complete, hnone]
  exact add_zero _

theorem Canonical.complete_basic (x : ℕ → ℚ) {l : Line} (hl : l ∈ t.lines) :
    t.complete x l.basic = x l.basic + (l.rhs - dot l.cells x) := by
  rw [complete, ht.find?_basic hl]
  rfl

theorem Canonical.holds_complete (x : ℕ → ℚ) : t.Holds (t.complete x) := by
  intro l hl
  -- the corrections of the basic columns add up to what `x` lacks in the line
  have hsum : ∑ j ∈ range t.width, l.cell j * (t.complete x j - x j) = l.rhs - dot l.cells x := by
    rw [ht.sum_basis fun j hj => by rw [complete_of_not_mem x hj, sub_self, mul_zero]]
    rw [← sum_map_unit (e := fun l m : Line => l.cell m.basic) ht.own ht.apart hl
      fun m => m.rhs - dot m.cells x]
    refine congrArg List.sum (List.map_congr_left fun m hm => ?_)
    rw [ht.complete_basic x hm, add_sub_cancel_left]
  have hwide := (ht.wide l hl).le
  simp only [mul_sub, sum_sub_distrib] at hsum
  unfold Line.Holds
  rw [dot_eq_sum l.cells _ hwide]
  rw [dot_eq_sum l.cells x hwide] at hsum
  exact sub_left_inj.mp hsum

/-- Solutions that agree outside the basis are equal. -/
theorem Canonical.eq_of_agree {y z : ℕ → ℚ} (hy : t.Holds y) (hz : t.Holds z)
    (hagree : ∀ j, j ∉ t.basis → y j = z j) : y = z := by
  funext j
  by_cases hj : j ∈ t.basis
  · obtain ⟨l, hl, rfl⟩ := List.mem_map.mp hj
    have hwide := (ht.wide l hl).le
    have hzero : ∑ j ∈ range t.width, l.cell j * (y j - z j) = 0 := by
      simp only [mul_sub, sum_sub_distrib]
      have hdot : dot l.cells y = dot l.cells z := (hy l hl).trans (hz l hl).symm
      rw [dot_eq_sum _ y hwide, dot_eq_sum _ z hwide] at hdot
      exact sub_eq_zero.mpr hdot
    rw [ht.sum_basis fun j hj => by rw [hagree j hj, sub_self, mul_zero],
      sum_map_unit (e := fun l m : Line => l.cell m.basic) ht.own ht.apart hl
        fun m => y m.basic - z m.basic] at hzero
    exact sub_eq_zero.mp hzero
  · exact hagree j hj

/-! ### Reduced costs -/

theorem Canonical.reduced_basic {l : Line} (hl : l ∈ t.lines) (cost : List ℚ) :
    t.reduced cost l.basic = 0 := by
  have := sum_map_unit (e := fun l m : Line => m.cell l.basic) ht.own
    (ht.apart.imp fun h => ⟨h.2, h.1⟩) hl fun m => cost.getD m.basic 0
  simp only [mul_comm] at this
  rw [reduced, this, sub_self]

/-- The cost of a solution exceeds the basic cost by what its columns pay in reduced costs. -/
theorem Canonical.dot_cost {cost : List ℚ} (hcost : cost.length ≤ t.width) {y : ℕ → ℚ}
    (hy : t.Holds y) :
    dot cost y = t.value cost + ∑ j ∈ range t.width, t.reduced cost j * y j := by
  have hlines : (t.lines.map fun l => cost.getD l.basic 0 * dot l.cells y).sum = t.value cost := by
    rw [value]
    exact congrArg List.sum (List.map_congr_left fun l hl => by
      rw [show dot l.cells y = l.rhs from hy l hl])
  simp only [reduced, sub_mul, sum_sub_distrib]
  rw [sum_combination ht.wide (fun l => cost.getD l.basic 0), hlines, ← dot_eq_sum cost y hcost]
  ring

/-- Two solutions differ in cost by what their difference pays in reduced costs. -/
theorem Canonical.dot_cost_sub {cost : List ℚ} (hcost : cost.length ≤ t.width) {y z : ℕ → ℚ}
    (hy : t.Holds y) (hz : t.Holds z) :
    dot cost y - dot cost z = ∑ j ∈ range t.width, t.reduced cost j * (y j - z j) := by
  rw [ht.dot_cost hcost hy, ht.dot_cost hcost hz, add_sub_add_left_eq_sub, ← sum_sub_distrib]
  exact sum_congr rfl fun j _ => (mul_sub _ _ _).symm

/-- Without negative reduced costs the basic solution is the cheapest. -/
theorem Canonical.value_le_dot {cost : List ℚ} (hcost : cost.length ≤ t.width) {y : ℕ → ℚ}
    (hy : t.Holds y) (hnonneg : ∀ j, 0 ≤ y j)
    (hreduced : ∀ j < t.width, j ∈ t.basis ∨ 0 ≤ t.reduced cost j ∨ y j = 0) :
    t.value cost ≤ dot cost y := by
  rw [ht.dot_cost hcost hy]
  refine le_add_of_nonneg_right (sum_nonneg fun j hj => ?_)
  rcases hreduced j (mem_range.mp hj) with hj | hj | hj
  · obtain ⟨l, hl, rfl⟩ := List.mem_map.mp hj
    rw [ht.reduced_basic hl, zero_mul]
  · exact mul_nonneg hj (hnonneg j)
  · rw [hj, mul_zero]

end Canonical

end Tableau

end LoopSched.Linear
