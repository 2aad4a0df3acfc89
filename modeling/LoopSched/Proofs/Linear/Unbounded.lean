import LoopSched.Proofs.Linear.Answers
import LoopSched.Proofs.Linear.Nodes
import Mathlib.Algebra.Order.Archimedean.Basic
import Mathlib.Algebra.Order.BigOperators.Ring.Finset

/-!
# Unbounded programs

The search calls a program unbounded when the cost of one of its relaxations falls without end along
a half-line.  The direction of the half-line leads out of no constraint and out of no range, and a
multiple of it is integral.  So from any feasible point the integral multiples lead to feasible
points of any cost.  Whether there is a feasible point at all is another question, which the search
does not ask.
-/

namespace LoopSched.Linear

/-! ### Conditions along a half-line -/

theorem nonpos_of_forall_le {u v r : ℚ} (h : ∀ a, 0 ≤ a → u + a * v ≤ r) : v ≤ 0 := by
  by_contra hv
  rw [not_le] at hv
  obtain ⟨n, hn⟩ := exists_nat_gt ((r - u) / v)
  rw [div_lt_iff₀ hv] at hn
  linarith [h n n.cast_nonneg]

theorem nonneg_of_forall_le {u v r : ℚ} (h : ∀ a, 0 ≤ a → r ≤ u + a * v) : 0 ≤ v := by
  refine neg_nonpos.mp (nonpos_of_forall_le (u := -u) (r := -r) fun a ha => ?_)
  linarith [h a ha]

namespace Relation

variable {rel : Relation} {u v r a : ℚ}

/-- What holds all along a half-line holds of its direction. -/
theorem holds_slope (h : ∀ a, 0 ≤ a → rel.Holds (u + a * v) r) : rel.Holds v 0 := by
  cases rel with
  | lessEq => exact nonpos_of_forall_le h
  | greaterEq => exact nonneg_of_forall_le h
  | eq =>
    exact le_antisymm (nonpos_of_forall_le fun a ha => (h a ha).le)
      (nonneg_of_forall_le fun a ha => (h a ha).ge)

theorem Holds.add_mul (h : rel.Holds u r) (hv : rel.Holds v 0) (ha : 0 ≤ a) :
    rel.Holds (u + a * v) r := by
  cases rel with
  | lessEq => exact (add_le_of_nonpos_right (mul_nonpos_of_nonneg_of_nonpos ha hv)).trans h
  | greaterEq => exact le_trans h (le_add_of_nonneg_right (mul_nonneg ha hv))
  | eq =>
    show u + a * v = r
    rw [show v = 0 from hv, mul_zero, add_zero]
    exact h

end Relation

/-! ### Relaxations -/

/-- What one unit of the direction adds to the variable that the column stands for. -/
def Column.slope (d : ℕ → ℚ) : Column → ℚ
  | above col _ => d col
  | below col _ => -d col
  | split pos neg => d pos - d neg

theorem Column.value_add_mul (column : Column) (y d : ℕ → ℚ) (a : ℚ) :
    column.value (fun j => y j + a * d j) = column.value y + a * column.slope d := by
  cases column <;> simp only [value, slope] <;> ring

namespace Relaxation

/-- The direction of the variables, read off a direction of the columns. -/
def decodeSlope (columns : List Column) (d : ℕ → ℚ) (i : ℕ) : ℚ :=
  (columns[i]?.map (·.slope d)).getD 0

theorem decode_add_mul (columns : List Column) (y d : ℕ → ℚ) (a : ℚ) (i : ℕ) :
    decode columns (fun j => y j + a * d j) i =
      decode columns y i + a * decodeSlope columns d i := by
  unfold decode decodeSlope
  cases columns[i]? with
  | none => simp
  | some column => exact column.value_add_mul y d a

/-- An unbounded relaxation has a half-line along which the cost falls. -/
theorem solve_fallsWithin {p : Program} {box : List Bounds} (h : solve p box = .ok .unbounded) :
    FallsWithin (p.Relaxes box) p.cost := by
  cases solve_ends h with
  | unbounded _ hposed hmin =>
    have hposes := poses_of_pose hposed
    obtain ⟨y, d, slope, hslope, hline⟩ := Simplex.minimize_fallsWithin hposes.length_row hmin
    refine ⟨decode (columnsFrom 0 box) y, decodeSlope (columnsFrom 0 box) d, slope, hslope,
      fun a ha => ?_⟩
    obtain ⟨⟨hy, hrows⟩, hcost⟩ := hline a ha
    rw [← funext fun i => decode_add_mul (columnsFrom 0 box) y d a i]
    refine ⟨(hposes.holds_iff _ hy).mp hrows, ?_⟩
    unfold Program.cost
    rw [← hposes.cost_eq, ← hposes.cost_eq, hcost]
    ring

end Relaxation

/-! ### Integral multiples of a direction -/

namespace Program

variable {p : Program} {x d : ℕ → ℚ}

/-- The direction leads out of no constraint and out of no range. -/
structure Recedes (p : Program) (d : ℕ → ℚ) : Prop where
  constraints : ∀ c ∈ p.constraints, c.relation.Holds (Form.evalTerms c.form.terms d) 0
  lower : ∀ i (v : Variable), p.vars[i]? = some v → ∀ l ∈ v.bounds.lower, 0 ≤ d i
  upper : ∀ i (v : Variable), p.vars[i]? = some v → ∀ u ∈ v.bounds.upper, d i ≤ 0

theorem recedes_of_relaxes (h : ∀ a, 0 ≤ a → p.Relaxes p.box fun i => x i + a * d i) :
    p.Recedes d := by
  have hrange : ∀ i (v : Variable), p.vars[i]? = some v → ∀ a, 0 ≤ a →
      v.bounds.Contains (x i + a * d i) := by
    intro i v hv a ha
    exact (h a ha).inBox i v.bounds (by rw [box, List.getElem?_map, hv, Option.map_some])
  refine ⟨fun c hc => ?_, fun i v hv l hl => ?_, fun i v hv u hu => ?_⟩
  · refine Relation.holds_slope (u := c.form.eval x) (r := c.rhs) fun a ha => ?_
    rw [← Form.eval_add_mul]
    exact (h a ha).constraints c hc
  · exact nonneg_of_forall_le fun a ha => (hrange i v hv a ha).1 l hl
  · exact nonpos_of_forall_le fun a ha => (hrange i v hv a ha).2 u hu

/-- A multiple that is integral at every variable leads from feasible points to feasible points. -/
theorem Recedes.feasible (h : p.Recedes d) (hx : p.Feasible x) {a : ℚ} (ha : 0 ≤ a)
    (hint : ∀ i < p.vars.length, (a * d i).den = 1) : p.Feasible fun i => x i + a * d i := by
  refine ⟨fun c hc => ?_, fun i v hv => ⟨fun l hl => ?_, fun u hu => ?_⟩, fun i v hv hinteger => ?_⟩
  · rw [Form.eval_add_mul]
    exact (hx.constraints c hc).add_mul (h.constraints c hc) ha
  · exact ((hx.bounds i v hv).1 l hl).trans
      (le_add_of_nonneg_right (mul_nonneg ha (h.lower i v hv l hl)))
  · exact (add_le_of_nonpos_right (mul_nonpos_of_nonneg_of_nonpos ha (h.upper i v hv u hu))).trans
      ((hx.bounds i v hv).2 u hu)
  · have hi : i < p.vars.length := (List.getElem?_eq_some_iff.mp hv).1
    rw [← Rat.coe_int_num_of_den_eq_one (hx.integral i v hv hinteger),
      ← Rat.coe_int_num_of_den_eq_one (hint i hi), ← Int.cast_add, Rat.den_intCast]

/-- Some multiple of finitely many numbers is integral. -/
theorem exists_integral_multiple (d : ℕ → ℚ) (n : ℕ) :
    ∃ m : ℕ, 0 < m ∧ ∀ i < n, ∀ k : ℕ, (((k * m : ℕ) : ℚ) * d i).den = 1 := by
  refine ⟨∏ i ∈ Finset.range n, (d i).den, Finset.prod_pos fun i _ => (d i).den_pos, ?_⟩
  intro i hi k
  have hdvd := Finset.dvd_prod_of_mem (fun i => (d i).den) (Finset.mem_range.mpr hi)
  obtain ⟨q, hq⟩ := hdvd.mul_left k
  have hnum : (((d i).den * q : ℕ) : ℚ) * d i = ((q * (d i).num : ℤ) : ℚ) := by
    push_cast
    linear_combination (q : ℚ) * (d i).den_mul_eq_num
  rw [hq, hnum, Rat.den_intCast]

/-- If the cost of the relaxation falls without end, so does that of the program from any of its
feasible points. -/
theorem exists_feasible_cost_lt (h : FallsWithin (p.Relaxes p.box) p.cost) (hx : p.Feasible x)
    (bound : ℚ) : ∃ z, p.Feasible z ∧ p.cost z < bound := by
  obtain ⟨y, d, slope, hslope, hline⟩ := h
  have hrecedes := recedes_of_relaxes fun a ha => (hline a ha).1
  have hcost : ∀ (z : ℕ → ℚ) a, p.cost (fun i => z i + a * d i) = p.cost z + a * slope := by
    have hone := (hline 1 zero_le_one).2
    unfold cost at hone ⊢
    rw [Form.eval_add_mul] at hone
    intro z a
    rw [Form.eval_add_mul]
    linear_combination a * hone
  obtain ⟨m, hm, hint⟩ := exists_integral_multiple d p.vars.length
  -- as many steps as it takes to make up for the distance to the bound
  obtain ⟨k, hk⟩ := exists_nat_gt ((p.cost x - bound) / (m * -slope))
  refine ⟨_, hrecedes.feasible hx (Nat.cast_nonneg (k * m)) fun i hi => hint i hi k, ?_⟩
  rw [hcost]
  rw [div_lt_iff₀ (mul_pos (Nat.cast_pos.mpr hm) (neg_pos.mpr hslope))] at hk
  push_cast
  linarith

end Program

/-! ### The answer -/

namespace BranchAndBound

variable {p : Program} {limit : ℕ} {s : Solution}

theorem search_of_unbounded (h : solve limit p = some s) (hs : s.status = .unbounded) :
    p.validate = none ∧ search p limit [p.box] none = .ok .unbounded := by
  rcases solve_eq_some h with ⟨-, rfl⟩ | ⟨hvalid, rfl | ⟨verdict, hsearch, hans⟩⟩
  · cases hs
  · cases hs
  · refine ⟨hvalid, ?_⟩
    rcases answer_eq_ok hans with ⟨rfl, -⟩ | ⟨exhausted, -, hst⟩ | ⟨exhausted, best, -, rfl⟩
    · exact hsearch
    · rw [hst] at hs
      cases exhausted <;> cases hs
    · cases exhausted <;> cases hs

/-- Where a part of the program falls without end, the program does. -/
theorem Part.fallsWithin {box : List Bounds} (hpart : Part p box)
    (h : Relaxation.solve p box = .ok .unbounded) : FallsWithin (p.Relaxes p.box) p.cost :=
  (Relaxation.solve_fallsWithin h).imp fun x hx => ⟨hx.constraints, hpart.inBox x hx.inBox⟩

theorem fallsWithin_of_unbounded (h : solve limit p = some s) (hs : s.status = .unbounded) :
    FallsWithin (p.Relaxes p.box) p.cost := by
  obtain ⟨hvalid, hsearch⟩ := search_of_unbounded h hs
  obtain ⟨box, hvisits, hsolve⟩ := exists_visits_unbounded hsearch
  refine (hvisits.part (Program.scoped_of_validate hvalid) fun b hb => ?_).fallsWithin hsolve
  rw [List.mem_singleton.mp hb]
  exact part_box p

/-- A program that is found unbounded is unbounded if it has a feasible point, and without
integrality in any case. -/
theorem unbounded_iff_feasible (h : solve limit p = some s) (hs : s.status = .unbounded) :
    ((∀ m : ℤ, ∃ x, p.Feasible x ∧ p.direction.Better (p.objective.eval x) m) ↔
      ∃ x, p.Feasible x) ∧
    ∀ m : ℤ, ∃ x, p.Relaxes p.box x ∧ p.direction.Better (p.objective.eval x) m := by
  have hfalls := fallsWithin_of_unbounded h hs
  refine ⟨⟨fun hall => ?_, ?_⟩, fun m => ?_⟩
  · obtain ⟨x, hx, -⟩ := hall 0
    exact ⟨x, hx⟩
  · rintro ⟨x, hx⟩ m
    obtain ⟨z, hz, hlt⟩ :=
      Program.exists_feasible_cost_lt hfalls hx (Relaxation.sign p.direction * m)
    exact ⟨z, hz, (p.better_iff z m).mpr hlt⟩
  · obtain ⟨z, hz, hlt⟩ := hfalls.exists_lt (Relaxation.sign p.direction * m)
    exact ⟨z, hz, (p.better_iff z m).mpr hlt⟩

/-- Of the points with `3 x - 5 y = 1` the one with `x = 2` and `y = 1` is feasible, so there are
feasible ones with any value of `x`. -/
theorem unbounded_iff_feasible_line :
    let p : Program :=
      { direction := .maximize
        vars := [⟨"x", ⟨some 0, none⟩, true⟩, ⟨"y", ⟨some 0, none⟩, true⟩]
        constraints := [⟨⟨[(0, 3), (1, -5)], 0⟩, .eq, 1⟩]
        objective := ⟨[(0, 1)], 0⟩ }
    solve 100 p = some { status := .unbounded } ∧
      ∀ m : ℤ, ∃ x, p.Feasible x ∧ m < p.objective.eval x := by
  intro p
  have h : solve 100 p = some { status := .unbounded } := by decide +kernel
  have hpoint : p.Feasible fun i => [2, 1].getD i 0 := by
    refine ⟨fun c hc => ?_, fun i v hv => ?_, fun i v hv _ => ?_⟩
    · rw [List.mem_singleton.mp hc]
      show (_ : ℚ) = _
      decide +kernel
    · match i with
      | 0 | 1 => cases hv; simp [Bounds.Contains]
      | i + 2 => cases hv
    · match i with
      | 0 | 1 => rfl
      | i + 2 => cases hv
  exact ⟨h, (unbounded_iff_feasible h rfl).1.mpr ⟨_, hpoint⟩⟩

/-- No integers have `2 x - 2 y = 1`, yet the program is found unbounded: its relaxation is. -/
theorem unbounded_of_parity :
    let p : Program :=
      { direction := .maximize
        vars := [⟨"x", ⟨some 0, none⟩, true⟩, ⟨"y", ⟨some 0, none⟩, true⟩]
        constraints := [⟨⟨[(0, 2), (1, -2)], 0⟩, .eq, 1⟩]
        objective := ⟨[(0, 1)], 0⟩ }
    solve defaultNodeLimit p = some { status := .unbounded } ∧ ∀ x, ¬ p.Feasible x := by
  intro p
  refine ⟨by decide +kernel, fun x hx => ?_⟩
  have hx0 := Rat.coe_int_num_of_den_eq_one (hx.integral 0 _ rfl rfl)
  have hx1 := Rat.coe_int_num_of_den_eq_one (hx.integral 1 _ rfl rfl)
  have heq : (2 : ℤ) * x 0 + ((-2 : ℤ) * x 1 + (0 : ℤ)) = ((1 : ℤ) : ℚ) :=
    hx.constraints _ List.mem_cons_self
  rw [← hx0, ← hx1] at heq
  have hint : 2 * (x 0).num + (-2 * (x 1).num + 0) = 1 := by exact_mod_cast heq
  omega

end BranchAndBound

end LoopSched.Linear
