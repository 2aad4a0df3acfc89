import LoopSched.Linear.Simplex
import Mathlib.Algebra.BigOperators.Ring.Finset
import Mathlib.Algebra.Field.Rat
import Mathlib.Data.List.GetD
import Mathlib.Tactic.Ring

/-!
# Coefficient lists as linear functions

A list of coefficients is evaluated at a point by `dot`.  The row operations of the simplex method
act on lists; the lemmas here say what each of them does to the value.  `dot_eq_sum` is the bridge
to finite sums, where a list that is too short counts as filled up with zeros.
-/

open Finset

namespace LoopSched.Linear

/-! ### Zeros and single entries -/

@[simp] theorem length_zeros (n : ℕ) : (Simplex.zeros n).length = n := List.length_replicate

@[simp] theorem length_single (n i : ℕ) (a : ℚ) : (Simplex.single n i a).length = n := by
  simp [Simplex.single]

@[simp] theorem getD_zeros (n j : ℕ) : (Simplex.zeros n).getD j 0 = 0 := by
  unfold Simplex.zeros
  grind

theorem getD_single {n i : ℕ} (hi : i < n) (a : ℚ) (j : ℕ) :
    (Simplex.single n i a).getD j 0 = if j = i then a else 0 := by
  unfold Simplex.single Simplex.zeros
  grind

/-! ### The value of a list at a point -/

/-- `∑ v j * y j` -/
def dot : List ℚ → (ℕ → ℚ) → ℚ
  | [], _ => 0
  | a :: v, y => a * y 0 + dot v fun j => y (j + 1)

@[simp] theorem dot_nil (y : ℕ → ℚ) : dot [] y = 0 := rfl

@[simp] theorem dot_cons (a : ℚ) (v : List ℚ) (y : ℕ → ℚ) :
    dot (a :: v) y = a * y 0 + dot v fun j => y (j + 1) := rfl

theorem dot_eq_sum (v : List ℚ) (y : ℕ → ℚ) {w : ℕ} (h : v.length ≤ w) :
    dot v y = ∑ j ∈ range w, v.getD j 0 * y j := by
  induction v generalizing y w with
  | nil => simp
  | cons a v ih =>
    obtain ⟨w, rfl⟩ : ∃ k, w = k + 1 := ⟨w - 1, by simp at h; omega⟩
    rw [dot_cons, sum_range_succ', ih _ (by simpa using h), add_comm]
    simp

/-- Only the places below the length matter. -/
theorem dot_congr {v : List ℚ} {y z : ℕ → ℚ} (h : ∀ j < v.length, y j = z j) :
    dot v y = dot v z := by
  rw [dot_eq_sum v y le_rfl, dot_eq_sum v z le_rfl]
  exact sum_congr rfl fun j hj => by rw [h j (mem_range.mp hj)]

@[simp] theorem dot_zero (v : List ℚ) : dot v (fun _ => 0) = 0 := by
  rw [dot_eq_sum _ _ le_rfl]
  exact Finset.sum_eq_zero fun _ _ => mul_zero _

theorem dot_append (u v : List ℚ) (y : ℕ → ℚ) :
    dot (u ++ v) y = dot u y + dot v fun j => y (u.length + j) := by
  induction u generalizing y with
  | nil => simp
  | cons a u ih =>
    rw [List.cons_append, dot_cons, dot_cons, ih]
    simp only [List.length_cons, add_assoc, add_comm]

@[simp] theorem dot_zeros (n : ℕ) (y : ℕ → ℚ) : dot (Simplex.zeros n) y = 0 := by
  rw [dot_eq_sum _ y le_rfl]
  exact sum_eq_zero fun j _ => by rw [getD_zeros, zero_mul]

theorem dot_set {v : List ℚ} {i : ℕ} (hi : i < v.length) (a : ℚ) (y : ℕ → ℚ) :
    dot (v.set i a) y = dot v y + (a - v.getD i 0) * y i := by
  induction v generalizing i y with
  | nil => simp at hi
  | cons b v ih =>
    cases i with
    | zero => simp; ring
    | succ i =>
      rw [List.set_cons_succ, dot_cons, dot_cons, ih (by simpa using hi)]
      simp; ring

theorem dot_single {n i : ℕ} (hi : i < n) (a : ℚ) (y : ℕ → ℚ) :
    dot (Simplex.single n i a) y = a * y i := by
  rw [Simplex.single, dot_set (by simpa using hi), dot_zeros, getD_zeros]
  ring

theorem dot_indicator (v : List ℚ) (c : ℕ) :
    dot v (fun j => if j = c then 1 else 0) = v.getD c 0 := by
  rw [dot_eq_sum v _ (le_max_left v.length (c + 1)), sum_eq_single c]
  · rw [if_pos rfl, mul_one]
  · intro j _ hj
    rw [if_neg hj, mul_zero]
  · intro hc
    exact absurd (mem_range.mpr (lt_of_lt_of_le c.lt_succ_self (le_max_right _ _))) hc

theorem dot_map_div (v : List ℚ) (p : ℚ) (y : ℕ → ℚ) :
    dot (v.map (· / p)) y = dot v y / p := by
  induction v generalizing y with
  | nil => simp
  | cons a v ih => rw [List.map_cons, dot_cons, dot_cons, ih]; ring

theorem dot_map_neg (v : List ℚ) (y : ℕ → ℚ) : dot (v.map (- ·)) y = -dot v y := by
  induction v generalizing y with
  | nil => simp
  | cons a v ih => rw [List.map_cons, dot_cons, dot_cons, ih]; ring

theorem dot_zipWith_sub_mul (f : ℚ) : ∀ (u v : List ℚ) (y : ℕ → ℚ), u.length = v.length →
    dot (List.zipWith (fun a b => a - f * b) u v) y = dot u y - f * dot v y
  | [], [], y, _ => by simp
  | a :: u, b :: v, y, h => by
    rw [List.zipWith_cons_cons, dot_cons, dot_cons, dot_cons,
      dot_zipWith_sub_mul f u v _ (by simpa using h)]
    ring

end LoopSched.Linear
