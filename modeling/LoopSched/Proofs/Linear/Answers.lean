import LoopSched.Proofs.Linear.Bland

/-!
# What the simplex method answers

An entering column that no line limits can grow by any amount: the basic columns follow it along the
direction of the tableau, no column becomes negative, and the cost falls by a fixed amount for each
unit.  Lines solved for an artificial column say nothing about the others, so the artificial columns
stay at zero on the way.  Together with the two phases this makes each of the three answers exact.
-/

open Finset

namespace LoopSched.Linear

/-- The dot product along the line through two points. -/
theorem dot_add_mul_sub (v : List ℚ) (y z : ℕ → ℚ) (a : ℚ) :
    dot v (fun j => y j + a * (z j - y j)) = dot v y + a * (dot v z - dot v y) := by
  induction v generalizing y z with
  | nil => simp
  | cons b v ih =>
    rw [dot_cons, dot_cons, dot_cons, ih]
    ring

theorem dot_nonneg {v : List ℚ} {y : ℕ → ℚ} (hv : ∀ j, 0 ≤ v.getD j 0) (hy : ∀ j, 0 ≤ y j) :
    0 ≤ dot v y := by
  rw [dot_eq_sum v y le_rfl]
  exact sum_nonneg fun j _ => mul_nonneg (hv j) (hy j)

/-- Along some half-line of points that satisfy `P` the function falls at a constant rate. -/
def FallsWithin (P : (ℕ → ℚ) → Prop) (f : (ℕ → ℚ) → ℚ) : Prop :=
  ∃ (y d : ℕ → ℚ) (slope : ℚ), slope < 0 ∧
    ∀ a, 0 ≤ a → P (fun j => y j + a * d j) ∧ f (fun j => y j + a * d j) = f y + a * slope

namespace FallsWithin

variable {P Q : (ℕ → ℚ) → Prop} {f : (ℕ → ℚ) → ℚ}

theorem imp (h : FallsWithin P f) (hPQ : ∀ z, P z → Q z) : FallsWithin Q f := by
  obtain ⟨y, d, slope, hslope, hline⟩ := h
  exact ⟨y, d, slope, hslope, fun a ha => ⟨hPQ _ (hline a ha).1, (hline a ha).2⟩⟩

/-- Such a function has no lower bound. -/
theorem exists_lt (h : FallsWithin P f) (bound : ℚ) : ∃ z, P z ∧ f z < bound := by
  obtain ⟨y, d, slope, hslope, hline⟩ := h
  -- far enough to make up for the distance to the bound, and one unit more
  set a := |f y - bound| / -slope + 1 with ha
  have ha0 : 0 ≤ a := add_nonneg (div_nonneg (abs_nonneg _) (neg_nonneg.mpr hslope.le)) zero_le_one
  obtain ⟨hP, hf⟩ := hline a ha0
  refine ⟨_, hP, ?_⟩
  have hdrop : a * slope = -|f y - bound| + slope := by
    rw [ha, add_mul, one_mul, div_neg, neg_mul, div_mul_cancel₀ _ hslope.ne]
  calc f (fun j => y j + a * d j) = f y - |f y - bound| + slope := by rw [hf, hdrop]; ring
    _ < f y - |f y - bound| := add_lt_of_neg_right _ hslope
    _ ≤ bound := by linarith [le_abs_self (f y - bound)]

end FallsWithin

namespace Tableau

variable {cost : List ℚ} {allowed m c : ℕ} {t : Tableau}

/-- The basic solution after column `c` has grown by `a`. -/
def ray (t : Tableau) (c : ℕ) (a : ℚ) (j : ℕ) : ℚ := t.point j + a * t.direction c j

theorem Canonical.holds_ray (ht : t.Canonical) (c : ℕ) (a : ℚ) : t.Holds (t.ray c a) := by
  intro l hl
  have hpoint : dot l.cells t.point = l.rhs := ht.holds_point l hl
  have hcomplete := ht.holds_complete (fun j => if j = c then 1 else 0) l hl
  unfold Line.Holds at hcomplete ⊢
  show dot l.cells (fun j => t.point j + a * (t.complete _ j - t.point j)) = l.rhs
  rw [dot_add_mul_sub, hpoint, hcomplete, sub_self, mul_zero, add_zero]

/-- A column that nothing limits takes no other column below zero. -/
theorem Canonical.ray_nonneg (ht : t.Canonical) (hc : c ∉ t.basis)
    (hcells : ∀ l ∈ t.lines, l.cell c ≤ 0) {a : ℚ} (ha : 0 ≤ a) (j : ℕ) : 0 ≤ t.ray c a j := by
  refine add_nonneg (ht.point_nonneg j) (mul_nonneg ha ?_)
  by_cases hj : j ∈ t.basis
  · obtain ⟨l, hl, rfl⟩ := List.mem_map.mp hj
    rw [ht.direction_basic hc hl]
    exact neg_nonneg.mpr (hcells l hl)
  · by_cases hjc : j = c
    · rw [hjc, direction_self hc]
      exact zero_le_one
    · rw [direction_of_not_mem hj hjc]

/-- Artificial columns stay at zero while one of the others grows. -/
theorem Canonical.ray_eq_zero (ht : t.Canonical) (hidle : ∀ l ∈ t.lines, Idle m l)
    (hc : c ∉ t.basis) (hcm : c < m) (a : ℚ) {j : ℕ} (hj : m ≤ j) : t.ray c a j = 0 := by
  unfold ray
  by_cases hb : j ∈ t.basis
  · obtain ⟨l, hl, rfl⟩ := List.mem_map.mp hb
    obtain ⟨hrhs, hcells⟩ := hidle l hl hj
    rw [ht.point_basic hl, ht.direction_basic hc hl, hrhs, hcells c hcm, neg_zero, mul_zero,
      add_zero]
  · rw [point_of_not_mem hb, direction_of_not_mem hb (by omega), mul_zero, add_zero]

/-- Every unit of a column costs its reduced cost. -/
theorem Canonical.dot_ray (ht : t.Canonical) (hcost : cost.length ≤ t.width) (hc : c ∉ t.basis)
    (hcw : c < t.width) (a : ℚ) :
    dot cost (t.ray c a) = t.value cost + a * t.reduced cost c := by
  have hsub := ht.dot_cost_sub hcost (ht.holds_ray c a) ht.holds_point
  have hsum := (Reached.refl ht).sum_direction (Reached.refl ht) hcost hcw hc
  have hterm : ∀ j, t.reduced cost j * (t.ray c a j - t.point j) =
      a * (t.reduced cost j * t.direction c j) := by
    intro j
    unfold ray
    ring
  simp only [hterm] at hsub
  rw [← mul_sum, hsum, ht.dot_point hcost] at hsub
  exact sub_eq_iff_eq_add'.mp hsub

/-- The cost falls for as long as an entering column that nothing limits grows. -/
theorem Unlimited.fallsWithin (h : t.Unlimited cost allowed) (ht : t.Canonical)
    (hcost : cost.length ≤ t.width) (hallowed : allowed ≤ t.width)
    (hidle : ∀ l ∈ t.lines, Idle allowed l) :
    FallsWithin (fun z => (∀ j, 0 ≤ z j) ∧ (∀ j, allowed ≤ j → z j = 0) ∧ t.Holds z)
      (dot cost) := by
  obtain ⟨c, henters, hcells⟩ := h
  refine ⟨t.point, t.direction c, t.reduced cost c, henters.negative, fun a ha =>
    ⟨⟨ht.ray_nonneg henters.not_mem hcells ha, fun j => ?_, ht.holds_ray c a⟩, ?_⟩⟩
  · exact ht.ray_eq_zero hidle henters.not_mem henters.lt_allowed a
  · rw [ht.dot_point hcost]
    exact ht.dot_ray hcost henters.not_mem (henters.lt_allowed.trans_le hallowed) a

end Tableau

namespace Simplex

open Tableau

/-- The second phase only gives up where the cost falls without end. -/
theorem phaseTwo_unbounded {m : ℕ} {cost : List ℚ} {t₀ t : Tableau} (hm : m ≤ t₀.width)
    (hcost : cost.length ≤ m) (h : Reached t₀ t) (hidle : ∀ l ∈ t.lines, Idle m l)
    (hrun : phaseTwo cost m t = .ok .unbounded) :
    FallsWithin (fun z => (∀ j, 0 ≤ z j) ∧ (∀ j, m ≤ j → z j = 0) ∧ t₀.Holds z) (dot cost) := by
  cases phaseTwo_ends hrun with
  | @unbounded s hopt =>
    obtain ⟨⟨hs, hsidle⟩, hend⟩ := phaseTwo_optimize hm h hidle hopt
    have hlen : (phaseTwoCost cost t).length ≤ s.width := by
      rw [length_phaseTwoCost (by rw [h.width_eq]; omega), hs.width_eq, h.width_eq]
    have hunlimited : s.Unlimited (phaseTwoCost cost t) m := hend
    have hfalls := hunlimited.fallsWithin hs.canonical hlen (hs.width_eq ▸ hm) hsidle
    rw [show dot (phaseTwoCost cost t) = dot cost from funext (dot_phaseTwoCost cost t)] at hfalls
    exact hfalls.imp fun z hz => ⟨hz.1, hz.2.1, (hs.holds_iff z).mp hz.2.2⟩

/-- If the method says so, the cost falls without end over points that satisfy the rows. -/
theorem minimize_fallsWithin {cost : List ℚ} {rows : List Row}
    (hlen : ∀ r ∈ rows, r.coeffs.length = cost.length)
    (h : minimize cost rows = .ok .unbounded) :
    FallsWithin (fun y => (∀ j, 0 ≤ y j) ∧ ∀ r ∈ rows, r.Holds y) (dot cost) := by
  cases minimize_ends h with
  | @proceeds rows' _ _ hrows' hfound h =>
    have hm := slacks_le_width cost.length rows'
    obtain ⟨hrhs, hlen', hiff⟩ := normalize_rows hrows'
    replace hlen' := hlen' _ hlen
    obtain ⟨hreached, hidle⟩ := phaseOne_some (start_canonical hlen' hrhs) hm hfound
    refine (phaseTwo_unbounded hm (by omega) hreached hidle h).imp ?_
    rintro z ⟨hz, hart, hsol⟩
    exact ⟨hz, (hiff z).mp (rows_hold_of_start hlen' hz hart hsol)⟩

/-- If the method says so, points that satisfy the rows are as cheap as one likes. -/
theorem minimize_unbounded {cost : List ℚ} {rows : List Row}
    (hlen : ∀ r ∈ rows, r.coeffs.length = cost.length)
    (h : minimize cost rows = .ok .unbounded) (bound : ℚ) :
    ∃ y : ℕ → ℚ, (∀ j, 0 ≤ y j) ∧ (∀ r ∈ rows, r.Holds y) ∧ dot cost y < bound := by
  obtain ⟨y, ⟨hy, hrows⟩, hlt⟩ := (minimize_fallsWithin hlen h).exists_lt bound
  exact ⟨y, hy, hrows, hlt⟩

/-- A non-negative cost is not unbounded below. -/
theorem minimize_ne_unbounded {cost : List ℚ} {rows : List Row}
    (hlen : ∀ r ∈ rows, r.coeffs.length = cost.length) (hcost : ∀ j, 0 ≤ cost.getD j 0) :
    minimize cost rows ≠ .ok .unbounded := by
  intro h
  obtain ⟨y, hy, -, hlt⟩ := minimize_unbounded hlen h 0
  exact absurd hlt (not_lt.mpr (dot_nonneg hcost hy))

/-! ### The three answers -/

/-- A vector of `n` non-negative numbers that satisfies the rows. -/
structure Feasible (n : ℕ) (rows : List Row) (x : List ℚ) : Prop where
  length_eq : x.length = n
  nonneg : ∀ j, 0 ≤ x.getD j 0
  holds : ∀ r ∈ rows, r.Holds fun j => x.getD j 0

/-- What each answer says about the minimum of the cost over the rows. -/
def Answers (cost : List ℚ) (rows : List Row) : Optimum → Prop
  | .optimal objective values =>
    Feasible cost.length rows values ∧ objective = dot cost (fun j => values.getD j 0) ∧
      ∀ x, Feasible cost.length rows x → objective ≤ dot cost fun j => x.getD j 0
  | .infeasible => ∀ x, ¬ Feasible cost.length rows x
  | .unbounded =>
    ∀ bound : ℚ, ∃ x, Feasible cost.length rows x ∧ dot cost (fun j => x.getD j 0) < bound

/-- Only the first columns of a point matter. -/
theorem feasible_map_range {n : ℕ} {rows : List Row} (hlen : ∀ r ∈ rows, r.coeffs.length = n)
    {y : ℕ → ℚ} (hy : ∀ j, 0 ≤ y j) (hrows : ∀ r ∈ rows, r.Holds y) :
    Feasible n rows ((List.range n).map y) ∧
      ∀ j < n, ((List.range n).map y).getD j 0 = y j := by
  have hget : ∀ j < n, ((List.range n).map y).getD j 0 = y j := by
    intro j hj
    simp [hj]
  refine ⟨⟨by simp, fun j => ?_, fun r hr => ?_⟩, hget⟩
  · rcases lt_or_ge j n with hj | hj
    · rw [hget j hj]
      exact hy j
    · rw [List.getD_eq_default _ _ (by simpa using hj)]
  · have hr' := hrows r hr
    unfold Row.Holds at hr' ⊢
    rwa [dot_congr fun j hj => hget j (hlen r hr ▸ hj)]

/-- The simplex method is exact: whatever it answers is so. -/
theorem answers_of_minimize {cost : List ℚ} {rows : List Row} {out : Optimum}
    (hlen : ∀ r ∈ rows, r.coeffs.length = cost.length) (h : minimize cost rows = .ok out) :
    Answers cost rows out := by
  cases out with
  | optimal objective values =>
    obtain ⟨hlength, hvalues, hrows, hobjective, hleast⟩ := minimize_optimal hlen h
    refine ⟨⟨hlength, hvalues, hrows⟩, hobjective, fun x hx => ?_⟩
    exact hleast _ hx.nonneg hx.holds
  | infeasible => exact fun x hx => minimize_infeasible hlen h hx.nonneg hx.holds
  | unbounded =>
    intro bound
    obtain ⟨y, hy, hrows, hlt⟩ := minimize_unbounded hlen h bound
    obtain ⟨hfeasible, hget⟩ := feasible_map_range hlen hy hrows
    refine ⟨_, hfeasible, ?_⟩
    rwa [dot_congr hget]

/-- Three systems over two columns: equations one of which is redundant, rows that contradict each
other, and an equation along which the cost falls without end. -/
theorem answers_of_minimize_three :
    let twice : List Row := [⟨[1, 1], .eq, 2⟩, ⟨[2, 2], .eq, 4⟩]
    let apart : List Row := [⟨[1, 1], .lessEq, 1⟩, ⟨[1, 1], .greaterEq, 2⟩]
    let diagonal : List Row := [⟨[-1, 1], .eq, -3⟩]
    (minimize [1, 3] twice = .ok (.optimal 2 [2, 0]) ∧
        ∀ x, Feasible 2 twice x → 2 ≤ dot [1, 3] fun j => x.getD j 0) ∧
      (minimize [1, 0] apart = .ok .infeasible ∧ ∀ x, ¬ Feasible 2 apart x) ∧
      (minimize [0, -1] diagonal = .ok .unbounded ∧ ∀ bound : ℚ,
        ∃ x, Feasible 2 diagonal x ∧ dot [0, -1] (fun j => x.getD j 0) < bound) := by
  intro twice apart diagonal
  have htwice : minimize [1, 3] twice = .ok (.optimal 2 [2, 0]) := by decide +kernel
  have hapart : minimize [1, 0] apart = .ok .infeasible := by decide +kernel
  have hdiagonal : minimize [0, -1] diagonal = .ok .unbounded := by decide +kernel
  refine ⟨⟨htwice, ?_⟩, ⟨hapart, ?_⟩, hdiagonal, ?_⟩
  · exact (answers_of_minimize (by decide) htwice).2.2
  · exact answers_of_minimize (by decide) hapart
  · exact answers_of_minimize (by decide) hdiagonal

end Simplex

end LoopSched.Linear
