import LoopSched.Proofs.Linear.Answers
import LoopSched.Proofs.Linear.Overflow

/-!
# Rows that ask for equal columns

Rows that ask two columns to be equal hold at the origin, and the simplex method never leaves it.
Cutting the values of a solution at a threshold, into ones above it and zeros below, gives another
solution.  In a reached tableau a solution is fixed by its values outside the basis, so every cell
is zero, one or minus one.  With such cells only the reduced costs can grow, and these are no
greater than the number of lines: the method comes to its end without an overflow.
-/

namespace LoopSched

open Checked

/-! ### Signs -/

namespace Ratio

/-- Zero, one or minus one. -/
def IsSign (a : ℚ) : Prop := a = 0 ∨ a = 1 ∨ a = -1

instance (a : ℚ) : Decidable (IsSign a) := inferInstanceAs (Decidable (_ ∨ _))

variable {a b : ℚ}

theorem isSign_neg (h : IsSign (-a)) : IsSign a := by
  unfold IsSign at h ⊢
  rcases h with h | h | h
  · exact .inl (neg_eq_zero.mp h)
  · exact .inr (.inr (neg_eq_iff_eq_neg.mp h))
  · exact .inr (.inl (neg_inj.mp h))

theorem mul_of_isSign (ha : IsSign a) (hb : IsSign b) :
    mul a b = .ok (a * b) ∧ IsSign (a * b) := by
  rcases ha with rfl | rfl | rfl <;> rcases hb with rfl | rfl | rfl <;> decide +kernel

theorem sub_of_isSign (ha : IsSign a) (hb : IsSign b) : sub a b = .ok (a - b) := by
  rcases ha with rfl | rfl | rfl <;> rcases hb with rfl | rfl | rfl <;> decide +kernel

theorem div_of_isSign (ha : IsSign a) (hb : IsSign b) (hne : b ≠ 0) :
    div a b = .ok (a / b) ∧ IsSign (a / b) := by
  rcases hb.resolve_left hne with rfl | rfl <;> rcases ha with rfl | rfl | rfl <;> decide +kernel

end Ratio

namespace Linear

open Ratio

/-! ### Cuts -/

/-- One from the threshold on, zero below it. -/
def cut (θ x : ℚ) : ℚ := if θ ≤ x then 1 else 0

theorem cut_sub_of_sub_eq_one (θ : ℚ) {a b : ℚ} (h : a - b = 1) :
    cut θ a - cut θ b = 0 ∨ cut θ a - cut θ b = 1 := by
  have hlt : b < a := by linarith
  unfold cut
  by_cases ha : θ ≤ a
  · by_cases hb : θ ≤ b
    · exact .inl (by rw [if_pos ha, if_pos hb, sub_self])
    · exact .inr (by rw [if_pos ha, if_neg hb, sub_zero])
  · have hb : ¬ θ ≤ b := fun hb => ha (hb.trans hlt.le)
    exact .inl (by rw [if_neg ha, if_neg hb, sub_self])

/-- The greater of two numbers is a threshold between them. -/
theorem cut_max_sub {a b : ℚ} (h : a ≠ b) :
    cut (max a b) a - cut (max a b) b = 1 ∨ cut (max a b) a - cut (max a b) b = -1 := by
  unfold cut
  rcases lt_or_gt_of_ne h with hlt | hlt
  · rw [max_eq_right hlt.le, if_neg (not_le.mpr hlt), if_pos le_rfl]
    exact .inr (zero_sub 1)
  · rw [max_eq_left hlt.le, if_pos le_rfl, if_neg (not_le.mpr hlt)]
    exact .inl (sub_zero 1)

namespace Tableau

/-- Every line says that its basic column makes up the difference of two columns. -/
def Balanced (t : Tableau) : Prop := ∀ l ∈ t.lines, l.Difference ∧ l.rhs = 0

section Balanced

variable {t : Tableau} (h : t.Balanced)
include h

theorem Balanced.holds_mul {y : ℕ → ℚ} (hy : t.Holds y) (a : ℚ) : t.Holds fun j => a * y j := by
  intro l hl
  obtain ⟨⟨-, i, j, hdot⟩, hrhs⟩ := h l hl
  have hline : dot l.cells y = l.rhs := hy l hl
  rw [hdot, hrhs] at hline
  show dot l.cells (fun j => a * y j) = l.rhs
  rw [hdot, hrhs]
  linear_combination a * hline

theorem Balanced.holds_zero : t.Holds fun _ => 0 := by
  intro l hl
  show dot l.cells (fun _ => 0) = l.rhs
  rw [dot_zero, (h l hl).2]

variable (ht : t.Canonical) {y : ℕ → ℚ} (hy : t.Holds y)
include ht hy

/-- Every column of a solution is a difference of two values, and the cut solution has the
difference of the two cut values there. -/
theorem Balanced.exists_difference (k : ℕ) : ∃ a b, y k = a - b ∧ ∀ θ,
    t.complete (fun i => cut θ (y i) - cut θ 0) k = cut θ a - cut θ b := by
  by_cases hk : k ∈ t.basis
  · obtain ⟨l, hl, rfl⟩ := List.mem_map.mp hk
    obtain ⟨⟨-, i, j, hdot⟩, hrhs⟩ := h l hl
    have hline : dot l.cells y = l.rhs := hy l hl
    rw [hdot, hrhs] at hline
    refine ⟨y j, y i, by linarith, fun θ => ?_⟩
    rw [ht.complete_basic _ hl, hdot, hrhs]
    ring
  · exact ⟨y k, 0, (sub_zero _).symm, fun θ => complete_of_not_mem _ hk⟩

/-- A solution can be cut so that a column which is not zero becomes a unit.  Zeros stay, and ones
become zero or one. -/
theorem Balanced.exists_cut {k : ℕ} (hk : y k ≠ 0) : ∃ z, t.Holds z ∧ (z k = 1 ∨ z k = -1) ∧
    (∀ j, y j = 0 → z j = 0) ∧ ∀ j, y j = 1 → z j = 0 ∨ z j = 1 := by
  obtain ⟨a, b, hab, hcut⟩ := h.exists_difference ht hy k
  have hne : a ≠ b := fun heq => hk (by rw [hab, heq, sub_self])
  refine ⟨_, ht.holds_complete fun i => cut (max a b) (y i) - cut (max a b) 0, ?_, ?_, ?_⟩
  · rw [hcut]
    exact cut_max_sub hne
  · intro j hj
    obtain ⟨c, d, hcd, hcut⟩ := h.exists_difference ht hy j
    rw [hcut, sub_eq_zero.mp (hcd.symm.trans hj), sub_self]
  · intro j hj
    obtain ⟨c, d, hcd, hcut⟩ := h.exists_difference ht hy j
    rw [hcut]
    exact cut_sub_of_sub_eq_one _ (hcd.symm.trans hj)

end Balanced

end Tableau

/-! ### Tableaux of signs -/

/-- The cells are signs and the right-hand side is zero. -/
structure Line.Signs (l : Line) : Prop where
  rhs : l.rhs = 0
  cell : ∀ j, IsSign (l.cell j)

namespace Tableau

/-- All lines are lines of signs. -/
def Signs (t : Tableau) : Prop := ∀ l ∈ t.lines, l.Signs

section Reached

variable {t₀ t : Tableau} (h₀ : t₀.Balanced) (hc₀ : t₀.Canonical) (h : Reached t₀ t)
include h₀ hc₀ h

/-- The solution in which one column outside the basis is one and the others are zero equals its
cut, up to a factor that is zero or one. -/
theorem Reached.isSign_complete {j : ℕ} (hj : j ∉ t.basis) (k : ℕ) :
    IsSign (t.complete (fun i => if i = j then 1 else 0) k) := by
  set y := t.complete fun i => if i = j then 1 else 0 with hy
  have hoff : ∀ i, i ∉ t.basis → y i = if i = j then 1 else 0 := fun i hi =>
    complete_of_not_mem _ hi
  have hholds : t₀.Holds y := (h.holds_iff y).mp (h.canonical.holds_complete _)
  by_cases hk : y k = 0
  · exact .inl hk
  obtain ⟨z, hz, hunit, hzero, hone⟩ := h₀.exists_cut hc₀ hholds hk
  have heq : z = fun i => z j * y i := by
    refine h.canonical.eq_of_agree ((h.holds_iff z).mpr hz)
      ((h.holds_iff _).mpr (h₀.holds_mul hholds (z j))) fun i hi => ?_
    by_cases hij : i = j
    · rw [hij, hoff j hj, if_pos rfl, mul_one]
    · have hyi : y i = 0 := by rw [hoff i hi, if_neg hij]
      rw [hzero i hyi, hyi, mul_zero]
  have hzk : z k = z j * y k := congrFun heq k
  have hzj : z j = 1 := by
    refine (hone j (by rw [hoff j hj, if_pos rfl])).resolve_left fun h0 => ?_
    rw [h0, zero_mul] at hzk
    rcases hunit with hunit | hunit <;> rw [hzk] at hunit <;> norm_num at hunit
  rw [hzj, one_mul] at hzk
  rw [← hzk]
  exact .inr hunit

theorem Reached.signs : t.Signs := by
  intro l hl
  have hrhs : l.rhs = 0 := by
    have hline : dot l.cells (fun _ => 0) = l.rhs :=
      (h.holds_iff _).mpr h₀.holds_zero l hl
    rw [← hline, dot_zero]
  refine ⟨hrhs, fun j => ?_⟩
  by_cases hj : j ∈ t.basis
  · obtain ⟨m, hm, rfl⟩ := List.mem_map.mp hj
    by_cases heq : m.basic = l.basic
    · rw [heq, h.canonical.own l hl]
      exact .inr (.inl rfl)
    · rw [h.canonical.cell_eq_zero hl hm heq]
      exact .inl rfl
  · -- the cell is read off the solution in which its column is one
    have hne : l.basic ≠ j := fun heq => hj (List.mem_map.mpr ⟨l, hl, heq⟩)
    have hsign := h.isSign_complete h₀ hc₀ hj l.basic
    rw [h.canonical.complete_basic _ hl, if_neg hne, hrhs, dot_indicator, zero_sub, zero_add]
      at hsign
    exact isSign_neg hsign

end Reached

end Tableau

/-! ### Steps without an overflow -/

variable {P : Halt → Prop}

namespace Line

theorem stopsOnly_reduce_of_isSign {f v p : ℚ} (hf : IsSign f) (hv : IsSign v) (hp : IsSign p) :
    StopsOnly P (reduce f v p) := by
  unfold reduce
  split
  · exact stopsOnly_ok _
  · obtain ⟨hmul, hsign⟩ := mul_of_isSign hf hp
    rw [hmul, bind_of_eq_ok rfl, sub_of_isSign hv hsign]
    exact stopsOnly_ok _

variable {l lead : Line}

theorem Signs.mem_cells (hl : l.Signs) {v : ℚ} (hv : v ∈ l.cells) : IsSign v := by
  obtain ⟨j, rfl⟩ := exists_cell hv
  exact hl.cell j

theorem Signs.divide (hl : l.Signs) {c : ℕ} (hc : l.cell c ≠ 0) :
    ∃ lead, l.divide (l.cell c) = .ok lead ∧ lead.Signs := by
  have hcells : l.cells.mapM (Ratio.div · (l.cell c)) = .ok (l.cells.map (· / l.cell c)) :=
    mapM_eq_ok_map fun v hv => (div_of_isSign (hl.mem_cells hv) (hl.cell c) hc).1
  have hrhs : Ratio.div l.rhs (l.cell c) = .ok (l.rhs / l.cell c) :=
    (div_of_isSign (.inl hl.rhs) (hl.cell c) hc).1
  refine ⟨⟨l.basic, l.cells.map (· / l.cell c), l.rhs / l.cell c⟩, ?_, ?_, fun j => ?_⟩
  · unfold Line.divide
    rw [hcells, bind_of_eq_ok rfl, hrhs]
    rfl
  · show l.rhs / l.cell c = 0
    rw [hl.rhs, zero_div]
  · show IsSign ((l.solvedFor c).cell j)
    rw [cell_solvedFor]
    exact (div_of_isSign (hl.cell j) (hl.cell c) hc).2

theorem Signs.stopsOnly_eliminate (hlead : lead.Signs) (hl : l.Signs) (c : ℕ) :
    StopsOnly P (lead.eliminate c l) := by
  unfold eliminate
  dsimp only
  split
  · exact stopsOnly_ok _
  · refine (stopsOnly_mapM fun x hx => ?_).bind fun cells _ => ?_
    · exact stopsOnly_reduce_of_isSign (hl.cell c) (hl.mem_cells (List.of_mem_zip hx).1)
        (hlead.mem_cells (List.of_mem_zip hx).2)
    · refine (stopsOnly_reduce_of_isSign (hl.cell c) (.inl hl.rhs) (.inl hlead.rhs)).bind
        fun _ _ => ?_
      exact stopsOnly_ok _

end Line

namespace Tableau

variable {t : Tableau}

theorem length_pivot {t' : Tableau} {r c : ℕ} (h : t.pivot r c = .ok t') :
    t'.lines.length = t.lines.length := by
  cases pivot_ends h with
  | missing => rfl
  | pivoted hr _ habove hbelow =>
    have hlt : r < t.lines.length := (List.getElem?_eq_some_iff.mp hr).1
    have habove := (mapM_forall₂ habove).length_eq
    have hbelow := (mapM_forall₂ hbelow).length_eq
    simp only [List.length_append, List.length_cons, List.length_take, List.length_drop] at *
    omega

section Signs

variable (ht : t.Signs)
include ht

theorem Signs.stopsOnly_pivot {r c : ℕ} {l : Line} (hl : t.lines[r]? = some l)
    (hc : l.cell c ≠ 0) : StopsOnly P (t.pivot r c) := by
  obtain ⟨lead, hdivide, hlead⟩ := (ht l (List.mem_of_getElem? hl)).divide hc
  unfold pivot
  simp only [hl]
  rw [hdivide, bind_of_eq_ok rfl]
  refine (stopsOnly_mapM fun k hk => ?_).bind fun above _ => ?_
  · exact hlead.stopsOnly_eliminate (ht k (List.mem_of_mem_take hk)) c
  refine (stopsOnly_mapM fun k hk => ?_).bind fun below _ => ?_
  · exact hlead.stopsOnly_eliminate (ht k (List.mem_of_mem_drop hk)) c
  exact stopsOnly_ok _

theorem Signs.stopsOnly_leaving? (c : ℕ) : StopsOnly P (t.leaving? c) := by
  refine stopsOnly_foldlM fun x hx best => ?_
  have hx := ht x.1 (List.fst_mem_of_mem_zipIdx hx)
  dsimp only
  split
  case isTrue => exact stopsOnly_ok _
  case isFalse hc =>
    have hne : x.1.cell c ≠ 0 := (not_le.mp hc).ne'
    rw [(div_of_isSign (.inl hx.rhs) (hx.cell c) hne).1, bind_of_eq_ok rfl]
    exact stopsOnly_ok _

end Signs

/-! ### Costs of zero and one -/

/-- Every column costs nothing or one. -/
def Flat (cost : List ℚ) : Prop := ∀ j, cost.getD j 0 = 0 ∨ cost.getD j 0 = 1

variable {cost : List ℚ} (hcost : Flat cost)

/-- Each priced line changes a reduced cost by one at most. -/
theorem exists_foldlM_reduced {j : ℕ} {priced : List (ℚ × Line)} {z : ℤ}
    (hpriced : ∀ x ∈ priced, x.1 = 1 ∧ IsSign (x.2.cell j))
    (hlo : -Word.hi ≤ z - priced.length) (hhi : z + priced.length ≤ Word.hi) :
    ∃ w, priced.foldlM (fun reduced (x : ℚ × Line) =>
      if x.2.cell j = 0 then .ok reduced else do Ratio.sub reduced (← Ratio.mul x.1 (x.2.cell j)))
      (z : ℚ) = (.ok w : Checked ℚ) := by
  induction priced generalizing z with
  | nil => exact ⟨z, rfl⟩
  | cons x priced ih =>
    obtain ⟨⟨hone, hsign⟩, hpriced⟩ := List.forall_mem_cons.mp hpriced
    rw [List.length_cons] at hlo hhi
    rw [List.foldlM_cons]
    by_cases hcell : x.2.cell j = 0
    · rw [if_pos hcell]
      exact ih hpriced (by omega) (by omega)
    · obtain ⟨n, hn, hunit⟩ : ∃ n : ℤ, x.2.cell j = n ∧ (n = 1 ∨ n = -1) := by
        rcases hsign.resolve_left hcell with h | h
        · exact ⟨1, by rw [h, Int.cast_one], .inl rfl⟩
        · exact ⟨-1, by rw [h, Int.cast_neg, Int.cast_one], .inr rfl⟩
      have hsub : Ratio.sub (z : ℚ) (n : ℚ) = .ok ((z - n : ℤ) : ℚ) := by
        refine Ratio.sub_intCast ?_ ?_ ?_ <;> unfold Word.Fits Word.lo Word.hi at * <;> omega
      obtain ⟨w, hw⟩ := ih (z := z - n) hpriced (by omega) (by omega)
      refine ⟨w, ?_⟩
      rw [if_neg hcell, hone, (mul_of_isSign (.inr (.inl rfl)) hsign).1, bind_of_eq_ok rfl, one_mul,
        hn, hsub]
      exact hw

section Signs

variable (ht : t.Signs)
include hcost ht

theorem Signs.objective : t.objective cost = .ok 0 := by
  have hzero := Ratio.add_zero_zero
  unfold Tableau.objective
  unfold Signs at ht
  generalize t.lines = lines at ht ⊢
  induction lines with
  | nil => rfl
  | cons l ls ih =>
    obtain ⟨hl, hls⟩ := List.forall_mem_cons.mp ht
    have hmul : Ratio.mul (cost.getD l.basic 0) l.rhs = .ok 0 := by
      have hsign : IsSign (cost.getD l.basic 0) := (hcost l.basic).imp_right .inl
      rw [(mul_of_isSign hsign (.inl hl.rhs)).1, hl.rhs, mul_zero]
    rw [List.foldlM_cons, hmul, bind_of_eq_ok rfl, hzero]
    exact ih hls

theorem Signs.stopsOnly_reducedCost (hlength : t.lines.length < Word.hi) (j : ℕ) :
    StopsOnly P (reducedCost (t.priced cost) cost j) := by
  have hpriced : ∀ x ∈ t.priced cost, x.1 = 1 ∧ IsSign (x.2.cell j) := by
    intro x hx
    obtain ⟨hmem, hne⟩ := List.mem_filter.mp hx
    obtain ⟨l, hl, rfl⟩ := List.mem_map.mp hmem
    exact ⟨(hcost l.basic).resolve_left (by simpa using hne), (ht l hl).cell j⟩
  have hle : (t.priced cost).length ≤ t.lines.length := by
    refine (List.length_filter_le _ _).trans_eq ?_
    rw [List.length_map]
  obtain ⟨z, hz, hz0, hz1⟩ : ∃ z : ℤ, cost.getD j 0 = z ∧ 0 ≤ z ∧ z ≤ 1 := by
    rcases hcost j with h | h
    · exact ⟨0, by rw [h, Int.cast_zero], le_rfl, zero_le_one⟩
    · exact ⟨1, by rw [h, Int.cast_one], zero_le_one, le_rfl⟩
  obtain ⟨w, hw⟩ := exists_foldlM_reduced hpriced (z := z) (by omega) (by omega)
  have hreduced : reducedCost (t.priced cost) cost j = .ok w := by
    unfold reducedCost
    rw [hz]
    exact hw
  rw [hreduced]
  exact stopsOnly_ok _

theorem Signs.stopsOnly_move (hlength : t.lines.length < Word.hi) (allowed : ℕ) :
    StopsOnly P (t.move cost allowed) := by
  unfold move
  refine StopsOnly.bind (stopsOnly_findM? fun j _ => ?_) fun column _ => ?_
  · split
    · exact stopsOnly_ok _
    · exact (ht.stopsOnly_reducedCost hcost hlength j).bind fun _ _ => stopsOnly_ok _
  · cases column with
    | none => exact stopsOnly_ok _
    | some c =>
      refine (ht.stopsOnly_leaving? c).bind fun best _ => ?_
      cases best <;> exact stopsOnly_ok _

end Signs

theorem steady_of_signs {t₀ : Tableau} (hsigns : ∀ s, Reached t₀ s → s.Signs) {n allowed : ℕ}
    (hn : n < Word.hi) (hcost : Flat cost) :
    Steady P t₀ (fun s => s.lines.length = n) cost allowed where
  move := by
    intro s hs hlength
    refine (hsigns s hs).stopsOnly_move hcost ?_ allowed
    rw [hlength]
    exact hn
  pivot := fun s _ _ _ hs _ hl hpos => (hsigns s hs).stopsOnly_pivot hl hpos.ne'

end Tableau

/-! ### Minimizations -/

/-- A sum of unit costs that is not positive has no part that is. -/
theorem eq_zeros_of_dot_le {cost values : List ℚ} (hones : ∀ j < cost.length, cost.getD j 0 = 1)
    (hlength : values.length = cost.length) (hnonneg : ∀ j, 0 ≤ values.getD j 0)
    (hle : dot cost (fun j => values.getD j 0) ≤ 0) : values = Simplex.zeros cost.length := by
  have hsum : dot cost (fun j => values.getD j 0) =
      ∑ j ∈ Finset.range cost.length, values.getD j 0 := by
    rw [dot_eq_sum cost _ le_rfl]
    refine Finset.sum_congr rfl fun j hj => ?_
    rw [hones j (Finset.mem_range.mp hj), one_mul]
  have hzero : ∑ j ∈ Finset.range cost.length, values.getD j 0 = 0 :=
    le_antisymm (hsum ▸ hle) (Finset.sum_nonneg fun j _ => hnonneg j)
  refine List.ext_getElem (by rw [hlength, length_zeros]) fun j hj hj' => ?_
  have hvalue := (Finset.sum_eq_zero_iff_of_nonneg fun j _ => hnonneg j).mp hzero j
    (Finset.mem_range.mpr (hlength ▸ hj))
  rw [← List.getD_eq_getElem _ 0 hj, ← List.getD_eq_getElem _ 0 hj', hvalue, getD_zeros]

namespace Simplex

open Tableau

theorem flat_phaseOneCost (m : ℕ) (t : Tableau) : Flat (phaseOneCost m t) := by
  intro j
  rw [getD_phaseOneCost]
  split
  · exact .inr rfl
  · exact .inl rfl

theorem flat_phaseTwoCost {cost : List ℚ} (h : Flat cost) (t : Tableau) :
    Flat (phaseTwoCost cost t) := by
  intro j
  unfold phaseTwoCost
  rcases lt_or_ge j cost.length with hj | hj
  · rw [List.getD_append _ _ _ _ hj]
    exact h j
  · rw [List.getD_append_right _ _ _ _ hj]
    exact .inl (getD_zeros _ _)

section Rows

variable {n : ℕ} {rows : List Row} (hlen : ∀ r ∈ rows, r.coeffs.length = n)
  (hdiff : ∀ r ∈ rows, r.Difference) (hzero : ∀ r ∈ rows, r.rhs = 0)

theorem length_startLines (s a i k : ℕ) (rows : List Row) :
    (startLines n s a i k rows).length = rows.length := by
  induction rows generalizing i k with
  | nil => rfl
  | cons r rows ih => rw [startLines_cons, List.length_cons, List.length_cons, ih]

include hlen hdiff hzero

theorem start_balanced : (start n rows).Balanced :=
  forall_mem_startLines rows 0 0 (fun _ _ r hr hplaced =>
    ⟨(hdiff r hr).startLine hplaced, startLine_rhs.trans (hzero r hr)⟩) (fits_start hlen)

end Rows

variable {cost : List ℚ} {rows : List Row} (hlen : ∀ r ∈ rows, r.coeffs.length = cost.length)
  (hdiff : ∀ r ∈ rows, r.Difference) (hzero : ∀ r ∈ rows, r.rhs = 0)
include hlen hdiff hzero

/-- Over rows that ask for equal columns the two phases do not overflow. -/
theorem stopsOnly_minimize_of_balanced (hcost : Flat cost) (hsize : rows.length < Word.hi) :
    StopsOnly P (minimize cost rows) := by
  have hnormal : rows.mapM Row.normalize = .ok rows := by
    refine (mapM_eq_ok_map (g := id) fun r hr => ?_).trans (by rw [List.map_id])
    rw [Row.normalize, if_neg (by rw [hzero r hr]; exact lt_irrefl 0)]
    rfl
  have hcanonical := start_canonical hlen fun r hr => (hzero r hr).ge
  have hsigns : ∀ s, Reached (start cost.length rows) s → s.Signs :=
    fun s hs => hs.signs (start_balanced hlen hdiff hzero) hcanonical
  have hlines : (start cost.length rows).lines.length = rows.length :=
    length_startLines _ _ 0 0 rows
  have hkeep : ∀ (s s' : Tableau) (r c : ℕ), s.lines.length = rows.length →
      s.pivot r c = .ok s' → s'.lines.length = rows.length :=
    fun _ _ _ _ hs hpivot => (length_pivot hpivot).trans hs
  have hobjective : ∀ (full : List ℚ), Flat full → ∀ s, Reached (start cost.length rows) s →
      StopsOnly P (s.objective full) := by
    intro full hfull s hs
    rw [(hsigns s hs).objective hfull]
    exact stopsOnly_ok _
  have hm := slacks_le_width cost.length rows
  unfold minimize
  rw [hnormal, bind_of_eq_ok rfl]
  refine (stopsOnly_phaseOne (fun s r c l hs hl hc => (hsigns s hs).stopsOnly_pivot hl hc) hkeep
    (steady_of_signs hsigns hsize (flat_phaseOneCost _ _)) (hobjective _ (flat_phaseOneCost _ _))
    hcanonical hlines hm).bind fun found hfound => ?_
  cases found with
  | none => exact stopsOnly_ok _
  | some t =>
    obtain ⟨hreached, -⟩ := phaseOne_some hcanonical hm hfound
    have hfull := flat_phaseTwoCost hcost t
    exact stopsOnly_phaseTwo hkeep (steady_of_signs hsigns hsize hfull) (hobjective _ hfull)
      hreached (keeps_phaseOne hkeep hlines hfound) (by omega) hm

/-- The least sum of columns that have to be equal is found at the origin. -/
theorem minimize_of_balanced (hones : ∀ j < cost.length, cost.getD j 0 = 1)
    (hsize : rows.length < Word.hi) :
    minimize cost rows = .ok (.optimal 0 (zeros cost.length)) := by
  have hflat : Flat cost := by
    intro j
    rcases lt_or_ge j cost.length with hj | hj
    · exact .inr (hones j hj)
    · exact .inl (List.getD_eq_default _ _ hj)
  have horigin : ∀ r ∈ rows, r.Holds fun _ => 0 := by
    intro r hr
    obtain ⟨hrel, -, -⟩ := hdiff r hr
    show r.relation.Holds _ _
    rw [hrel, dot_zero, hzero r hr]
    rfl
  cases hmin : minimize cost rows with
  | error e =>
    exact (stopsOnly_minimize_of_balanced (P := fun _ => False) hlen hdiff hzero hflat hsize e
      hmin).elim
  | ok optimum =>
    cases optimum with
    | infeasible => exact absurd horigin (minimize_infeasible hlen hmin fun _ => le_rfl)
    | unbounded =>
      have hnonneg : ∀ j, 0 ≤ cost.getD j 0 := fun j =>
        (hflat j).elim (fun h => h.ge) fun h => h ▸ zero_le_one
      exact absurd hmin (minimize_ne_unbounded hlen hnonneg)
    | optimal objective values =>
      obtain ⟨hlength, hnonneg, -, rfl, hleast⟩ := minimize_optimal hlen hmin
      have hle := hleast _ (fun _ => le_rfl) horigin
      rw [dot_zero] at hle
      have hvalues := eq_zeros_of_dot_le hones hlength hnonneg hle
      simp only [hvalues, getD_zeros, dot_zero]

end Simplex

end Linear

end LoopSched
