import LoopSched.Pipeline.Basic
import LoopSched.Proofs.AutoShift
import LoopSched.Proofs.Dependence
import LoopSched.Proofs.Linear.Answers
import LoopSched.Proofs.Linear.Overflow

/-!
# When shifts are found

The program for the shifts consists of differences, so its relaxation has a whole optimum and the
search needs a single node.  The cost is not negative, so the relaxation is not unbounded.  What
remains is an answer, a proof that the distances contradict each other, or an overflow.  The program
itself cannot be set up when there is a distance in a dimension that a nest does not have; chains
that are built have none, but a chain that was read from a file may.
-/

namespace LoopSched

/-! ### One node -/

namespace Linear.BranchAndBound

variable {p : Program}

theorem fractional?_eq_none {vars : List Variable} {values : List ℚ}
    (h : ∀ v ∈ values, v.den = 1) : fractional? vars values = none := by
  unfold fractional?
  rw [List.findIdx?_eq_none_iff]
  rintro ⟨x, v⟩ hx
  simp [h v (List.of_mem_zip hx).2]

/-- A program whose relaxation is bounded and has a whole optimum is decided by its first node. -/
theorem run_of_whole {limit : ℕ} (hlimit : 1 ≤ limit)
    (hbounded : Relaxation.solve p p.box ≠ .ok .unbounded)
    (hwhole : ∀ objective values, Relaxation.solve p p.box = .ok (.optimal objective values) →
      ∀ v ∈ values, v.den = 1) :
    (∃ e, Relaxation.solve p p.box = .error e ∧ run limit p = .error e) ∨
      (Relaxation.solve p p.box = .ok .infeasible ∧ run limit p = .ok { status := .infeasible }) ∨
      ∃ objective values, Relaxation.solve p p.box = .ok (.optimal objective values) ∧
        run limit p = answer p (.finished false (some ⟨objective, values⟩)) := by
  obtain ⟨n, rfl⟩ : ∃ n, limit = n + 1 := ⟨limit - 1, by omega⟩
  have hrun : run (n + 1) p = search p (n + 1) [p.box] none >>= answer p := rfl
  rw [hrun, search]
  cases hsolve : Relaxation.solve p p.box with
  | error e => exact .inl ⟨e, rfl, rfl⟩
  | ok outcome =>
    cases outcome with
    | infeasible =>
      refine .inr (.inl ⟨rfl, ?_⟩)
      show search p n [] none >>= answer p = _
      rw [search]
      rfl
    | unbounded => exact absurd hsolve hbounded
    | optimal objective values =>
      refine .inr (.inr ⟨objective, values, rfl, ?_⟩)
      have hfractional : fractional? p.vars values = none :=
        fractional?_eq_none (hwhole _ _ hsolve)
      rw [Checked.bind_of_eq_ok rfl]
      dsimp only
      rw [if_pos (show improves objective none = true from rfl), hfractional]
      dsimp only
      rw [search]
      rfl

end Linear.BranchAndBound

namespace AutoShift

open Dependence Linear

variable {c : Chain} {ds : Distances}

/-! ### The program exists and is valid -/

/-- Every chain that is built is uniform. -/
theorem uniform_buildChain {specs : List Pipeline.NestSpec} {c : Chain}
    (h : Pipeline.buildChain specs = .ok c) : Uniform c := by
  obtain ⟨nests, hnests, h⟩ := Checked.bind_eq_ok h
  cases h
  intro nest hnest d hd
  obtain ⟨spec, -, hspec⟩ := Checked.exists_of_mem_mapM hnests hnest
  obtain ⟨domain, -, hspec⟩ := Checked.bind_eq_ok hspec
  obtain ⟨dataspaces, hdataspaces, hspec⟩ := Checked.bind_eq_ok hspec
  cases hspec
  obtain ⟨spec, -, hspec⟩ := Checked.exists_of_mem_mapM hdataspaces hd
  unfold Pipeline.DataspaceSpec.build at hspec
  cases hwidth : spec.width? with
  | none =>
    rw [hwidth] at hspec
    cases hspec
  | some width =>
    rw [hwidth] at hspec
    obtain ⟨reads, hreads, hspec⟩ := Checked.bind_eq_ok (Checked.mapError_eq_ok_iff.mp hspec)
    obtain ⟨writes, hwrites, hmake⟩ := Checked.bind_eq_ok hspec
    exact Dataspace.uniform_of_make hreads hwrites hmake

theorem Entry.number? {k d : ℕ} (h : Entry c k d) :
    AutoShift.number? c k d = some (firstVariable c k + d) := by
  obtain ⟨nest, hk, hd⟩ := h
  unfold AutoShift.number?
  rw [hk]
  simp [hd, guard]

theorem length_shiftVars (c : Chain) : (shiftVars c).length = (spread c fun _ _ => 0).length := by
  rw [shiftVars_eq_spread]
  exact length_spread _ _

theorem Entry.lt_shiftVars {k d : ℕ} (h : Entry c k d) :
    firstVariable c k + d < (shiftVars c).length := by
  rw [length_shiftVars]
  exact (List.getElem?_eq_some_iff.mp (getElem?_spread _ h)).1

theorem exists_constraint {link : Link} (h : link.Inside c) (v : ℤ) :
    ∃ con, constraint? c (link, v) = some con ∧ con.form.within (shiftVars c).length = true ∧
      con.form.Units := by
  have hlater : Entry c link.later link.dimension := h.later
  have hearlier : Entry c link.earlier link.dimension := h.earlier
  obtain ⟨form, hform, hwithin, hunits⟩ :=
    Form.exists_ofTerms?_difference hlater.lt_shiftVars hearlier.lt_shiftVars
  refine ⟨⟨form, .eq, v⟩, ?_, hwithin, hunits⟩
  unfold constraint?
  simp only [hlater.number?, hearlier.number?, hform, Option.bind_eq_bind, Option.bind_some]
  rfl

theorem exists_program (h : Keyed (Link.Inside c) ds) :
    ∃ p, program? c ds = some p ∧ p.validate = none := by
  obtain ⟨constraints, hcs⟩ : ∃ constraints, ds.mapM (constraint? c) = some constraints := by
    refine Checked.exists_mapM_option fun e he => ?_
    obtain ⟨con, hcon, -⟩ := exists_constraint (h e he) e.2
    exact ⟨con, hcon⟩
  have hprogram : program? c ds = some
      { direction := .minimize, vars := shiftVars c, constraints,
        objective := ⟨(List.range (shiftVars c).length).map ((·, 1)), 0⟩ } := by
    unfold program?
    simp only [Form.ofTerms?_range, hcs, Option.bind_eq_bind, Option.bind_some]
    rfl
  refine ⟨_, hprogram, ?_⟩
  unfold Program.validate
  rw [Option.or_eq_none_iff]
  constructor
  · unfold Program.crossedVariable?
    rw [List.findSome?_eq_none_iff]
    intro v hv
    rw [(eq_of_mem_shiftVars hv).1]
  · have hobjective : Form.within ⟨(List.range (shiftVars c).length).map ((·, 1)), 0⟩
        (shiftVars c).length = true := by simp [Form.within]
    rw [if_pos hobjective, Option.map_eq_none_iff, List.findIdx?_eq_none_iff]
    intro con hcon
    obtain ⟨e, he, heq⟩ := (Checked.mapM_option_mem hcs).2 con hcon
    obtain ⟨con', hcon', hwithin, -⟩ := exists_constraint (h e he) e.2
    rw [heq] at hcon'
    cases hcon'
    simp [hwithin]

/-! ### Its relaxation -/

section Relaxation

variable {p : Program} (h : program? c ds = some p)
include h

theorem box_eq : p.box = List.replicate p.vars.length ⟨some 0, none⟩ := by
  refine List.eq_replicate_iff.mpr ⟨List.length_map _, ?_⟩
  unfold Program.box
  rw [List.forall_mem_map]
  exact fun v hv => (var_of_program? h hv).1

theorem box_not_crossed : p.box.any (·.crossed) = false := by
  rw [box_eq h, List.any_eq_false]
  intro b hb
  rw [List.eq_of_mem_replicate hb]
  decide

/-- No variable has an upper end. -/
theorem boundRow?_of_box {b : Bounds} (hb : b ∈ p.box) (n : ℕ) (column : Column) :
    Relaxation.boundRow? n b column = .ok none := by
  rw [box_eq h] at hb
  rw [List.eq_of_mem_replicate hb]
  cases column <;> rfl

omit h in
/-- A variable from zero on is its own column. -/
theorem columnsFrom_replicate (n : ℕ) : ∀ k,
    Relaxation.columnsFrom k (List.replicate n ⟨some 0, none⟩) =
      (List.range' k n).map (Column.above · 0) := by
  induction n with
  | zero => exact fun _ => rfl
  | succ n ih =>
    intro k
    rw [List.replicate_succ, Relaxation.columnsFrom_cons, List.range'_succ, List.map_cons]
    exact congrArg _ (ih (k + 1))

theorem columnsFrom_box :
    Relaxation.columnsFrom 0 p.box = (List.range p.vars.length).map (Column.above · 0) := by
  rw [box_eq h, columnsFrom_replicate, List.range_eq_range']

theorem decode_box {i : ℕ} (hi : i < p.vars.length) (y : ℕ → ℚ) :
    Relaxation.decode (Relaxation.columnsFrom 0 p.box) y i = y i := by
  rw [columnsFrom_box h, Relaxation.decode, List.getElem?_map, List.getElem?_range hi]
  exact (congrArg (· + y i) Int.cast_zero).trans (zero_add _)

/-- The row of a distance is the difference of two columns. -/
theorem row_of_constraint {link : Link} {v : ℤ} {con : Constraint} {r : Row}
    (hcon : constraint? c (link, v) = some con)
    (hrow : Relaxation.constraintRow (Relaxation.columnsFrom 0 p.box) (Relaxation.width p.box) con =
      .ok r) :
    r.relation = .eq ∧ r.rhs = v ∧ ∀ y, dot r.coeffs y =
      y (firstVariable c link.later + link.dimension) -
        y (firstVariable c link.earlier + link.dimension) := by
  obtain ⟨⟨hlater, hearlier⟩, hrel, hrhs, heval⟩ := constraint?_eval hcon
  obtain ⟨-, hrowrel, hdot⟩ :=
    Relaxation.constraintRow_dot (Relaxation.columnsFrom_zero_within p.box) hrow
  simp only [heval, decode_box h (hlater.lt_length h), decode_box h (hearlier.lt_length h), hrhs]
    at hdot
  -- at the origin only the right-hand sides are left
  have hright : r.rhs = v := by
    have hdot := hdot fun _ => 0
    rw [dot_zero] at hdot
    linarith
  refine ⟨hrowrel.trans hrel, hright, fun y => ?_⟩
  have := hdot y
  rw [hright] at this
  exact sub_left_inj.mp this

section Poses

variable {coeffs : List ℚ} {offset : ℚ} {rows : List Row}
  (hposes : Relaxation.Poses p p.box coeffs offset rows)
include hposes

/-- There are no rows but those of the constraints. -/
theorem rows_of_poses : p.constraints.mapM
    (Relaxation.constraintRow (Relaxation.columnsFrom 0 p.box) (Relaxation.width p.box)) =
      .ok rows := by
  obtain ⟨constraints, limits, hrows, hlimits, rfl⟩ := hposes.rows_eq
  have hnone := Checked.mapM_eq_map (g := fun _ => none) (fun x hx limit hlimit => by
    have hrow := boundRow?_of_box h (List.of_mem_zip hx).1 (Relaxation.width p.box) x.2
    exact (Except.ok.inj (hrow.symm.trans hlimit)).symm) hlimits
  have hnil : limits.filterMap id = [] := by
    rw [hnone]
    simp
  rw [hnil, List.append_nil]
  exact hrows

theorem exists_link_of_poses {r : Row} (hr : r ∈ rows) : ∃ link v, (link, v) ∈ ds ∧
    r.relation = .eq ∧ r.rhs = v ∧ ∀ y, dot r.coeffs y =
      y (firstVariable c link.later + link.dimension) -
        y (firstVariable c link.earlier + link.dimension) := by
  obtain ⟨-, -, -, hcs⟩ := program?_eq_some h
  obtain ⟨con, hcon, hrow⟩ := Checked.exists_of_mem_mapM (rows_of_poses h hposes) hr
  obtain ⟨⟨link, v⟩, hlink, heq⟩ := (Checked.mapM_option_mem hcs).2 con hcon
  exact ⟨link, v, hlink, row_of_constraint h heq hrow⟩

theorem difference_of_poses (hlo : ∀ link v, (link, v) ∈ ds → Word.lo < v) :
    ∀ r ∈ rows, r.Difference := by
  intro r hr
  obtain ⟨link, v, hlink, hrel, hright, hdot⟩ := exists_link_of_poses h hposes hr
  exact ⟨hrel, ⟨v, hright, hlo link v hlink⟩, _, _, hdot⟩

/-- Every variable costs one. -/
theorem cost_of_poses :
    offset = 0 ∧ ∀ j, coeffs.getD j 0 = if j < p.vars.length then 1 else 0 := by
  have hcost : ∀ y, dot coeffs y + offset = ((List.range p.vars.length).map y).sum := by
    intro y
    rw [hposes.cost_eq]
    show p.cost _ = _
    rw [program?_cost h]
    exact congrArg List.sum (List.map_congr_left fun i hi =>
      decode_box h (List.mem_range.mp hi) y)
  have hzero : offset = 0 := by
    have hcost := hcost fun _ => 0
    rw [dot_zero, zero_add, List.map_const', List.sum_replicate, nsmul_zero] at hcost
    exact hcost
  refine ⟨hzero, fun j => ?_⟩
  have hunit := hcost fun i => if i = j then 1 else 0
  rw [dot_indicator, hzero, add_zero] at hunit
  rw [hunit, List.sum_map_eq_nsmul_single j _ fun i hi _ => if_neg hi, if_pos rfl]
  by_cases hj : j < p.vars.length
  · rw [if_pos hj, List.count_eq_one_of_mem List.nodup_range (List.mem_range.mpr hj), one_nsmul]
  · rw [if_neg hj, List.count_eq_zero_of_not_mem (mt List.mem_range.mp hj), zero_nsmul]

theorem cost_nonneg_of_poses (j : ℕ) : 0 ≤ coeffs.getD j 0 := by
  rw [(cost_of_poses h hposes).2]
  split
  · exact zero_le_one
  · exact le_rfl

end Poses

theorem stopsOnly_relaxation (hlo : ∀ link v, (link, v) ∈ ds → Word.lo < v) :
    Checked.StopsOnly (· = .overflow) (Relaxation.solve p p.box) :=
  Relaxation.stopsOnly_solve (P := (· = .overflow)) rfl fun _ _ _ hposes =>
    .inr (difference_of_poses h hposes hlo)

theorem relaxation_ne_unbounded : Relaxation.solve p p.box ≠ .ok .unbounded := by
  intro hsolve
  cases Relaxation.solve_ends hsolve with
  | unbounded _ hposed hmin =>
    have hposes := Relaxation.poses_of_pose hposed
    exact Simplex.minimize_ne_unbounded hposes.length_row (cost_nonneg_of_poses h hposes) hmin

theorem den_relaxation (hlo : ∀ link v, (link, v) ∈ ds → Word.lo < v) {objective : ℚ}
    {values : List ℚ} (hsolve : Relaxation.solve p p.box = .ok (.optimal objective values)) :
    ∀ v ∈ values, v.den = 1 := by
  cases Relaxation.solve_ends hsolve with
  | @optimal _ _ _ y _ _ hposed hmin hvalues _ =>
    have hposes := Relaxation.poses_of_pose hposed
    have hden := Simplex.minimize_den hposes.length_row (difference_of_poses h hposes hlo) hmin
    rw [Relaxation.recover_columns hvalues, columnsFrom_box h, List.map_map, List.forall_mem_map]
    intro i _
    show (((0 : ℤ) : ℚ) + y.getD i 0).den = 1
    rw [Int.cast_zero, zero_add, List.getD_eq_getElem?_getD]
    cases hi : y[i]? with
    | none => rfl
    | some v => exact hden v (List.mem_of_getElem? hi)

end Relaxation

/-! ### The answer -/

/-- There are numbers, of any sign and whole or not, with the differences that the distances ask
for. -/
def Solvable (ds : Distances) : Prop :=
  ∃ x : ℕ → ℕ → ℚ, ∀ link v, (link, v) ∈ ds →
    x link.later link.dimension - x link.earlier link.dimension = v

/-- A solution can be moved up until no number is negative. -/
theorem Solvable.exists_relaxes {p : Program} (hsolvable : Solvable ds)
    (h : program? c ds = some p) : ∃ y, p.Relaxes p.box y := by
  obtain ⟨x, hx⟩ := hsolvable
  let up : ℚ := ((spread c x).map fun a => |a|).sum
  have hup : ∀ k d, Entry c k d → 0 ≤ x k d + up := by
    intro k d he
    have hmem : |x k d| ∈ (spread c x).map fun a => |a| :=
      List.mem_map_of_mem (mem_spread.mpr ⟨k, d, he, rfl⟩)
    have hle : |x k d| ≤ up := List.single_le_sum (by simp) _ hmem
    have := neg_abs_le (x k d)
    linarith
  have hentry : ∀ {k d}, Entry c k d →
      (spread c fun k d => x k d + up).getD (firstVariable c k + d) 0 = x k d + up := by
    intro k d he
    rw [List.getD_eq_getElem?_getD, getElem?_spread _ he, Option.getD_some]
  refine ⟨fun i => (spread c fun k d => x k d + up).getD i 0, (relaxes_iff h _).mpr ⟨?_, ?_⟩⟩
  · intro i hi
    rw [length_vars h fun k d => x k d + up] at hi
    obtain ⟨k, d, he, hkd⟩ := mem_spread.mp (List.getElem_mem hi)
    rw [List.getD_eq_getElem _ _ hi, ← hkd]
    exact hup k d he
  · intro link v hlink
    obtain ⟨hlater, hearlier⟩ := entry_of_program? h hlink
    rw [hentry hlater, hentry hearlier, add_sub_add_right_eq_sub]
    exact hx link v hlink

/-- A feasible solution of the program can be read as shifts. -/
theorem readTuples_of_feasible {p : Program} {s : Solution} (h : program? c ds = some p)
    (hlen : s.values.length = p.vars.length) (hfeasible : p.Feasible s.point) :
    readTuples c s = .ok (family c fun k d => (s.point (firstVariable c k + d)).num) := by
  have hden : ∀ i < p.vars.length, (s.point i).den = 1 := fun i hi =>
    (((feasible_iff h s.point).mp hfeasible).1 i hi).2
  have hvalue : ∀ {k d}, Entry c k d →
      s.intValue? (firstVariable c k + d) = some (s.point (firstVariable c k + d)).num := by
    intro k d he
    have hi : firstVariable c k + d < s.values.length := by
      rw [hlen]
      exact he.lt_length h
    have hpoint : s.point (firstVariable c k + d) = s.values[firstVariable c k + d] :=
      List.getD_eq_getElem _ _ hi
    unfold Solution.intValue? Solution.value? Ratio.toInt?
    rw [List.getElem?_eq_getElem hi, ← hpoint, Option.bind_some, if_pos (hden _ (he.lt_length h))]
  refine Checked.mapM_eq_ok_map ?_
  rintro ⟨nest, k⟩ hk
  have hk := List.mk_mem_zipIdx_iff_getElem?.mp hk
  refine (Checked.bind_of_eq_ok (Checked.mapM_eq_ok_map
    (g := fun d => (s.point (firstVariable c k + d)).num) fun d hd => ?_) _).trans rfl
  rw [hvalue ⟨nest, hk, List.mem_range.mp hd⟩]

/-- The search for the shifts ends at its first node. -/
theorem solve_program_cases {p : Program} (h : program? c ds = some p) (hvalid : p.validate = none)
    (hlo : ∀ link v, (link, v) ∈ ds → Word.lo < v) {limit : ℕ} (hlimit : 1 ≤ limit) :
    ∃ s, BranchAndBound.solve limit p = some s ∧
      (s.status = .optimal ∨ (s.status = .infeasible ∧ ¬ Solvable ds) ∨
        (s.status = .abnormal ∧ BranchAndBound.run limit p = .error .overflow)) := by
  have hstop : BranchAndBound.run limit p = .error .overflow →
      BranchAndBound.solve limit p = some { status := .abnormal } := by
    intro hrun
    simp [BranchAndBound.solve, hvalid, hrun]
  have hdone : ∀ s, BranchAndBound.run limit p = .ok s →
      BranchAndBound.solve limit p = some s := by
    intro s hrun
    simp [BranchAndBound.solve, hvalid, hrun]
  rcases BranchAndBound.run_of_whole hlimit (relaxation_ne_unbounded h)
    fun _ _ => den_relaxation h hlo with
    ⟨e, herror, hrun⟩ | ⟨hinfeasible, hrun⟩ | ⟨least, values, -, hrun⟩
  · rw [stopsOnly_relaxation h hlo e herror] at hrun
    exact ⟨_, hstop hrun, .inr (.inr ⟨rfl, hrun⟩)⟩
  · refine ⟨_, hdone _ hrun, .inr (.inl ⟨rfl, fun hsolvable => ?_⟩)⟩
    obtain ⟨y, hy⟩ := hsolvable.exists_relaxes h
    have hscoped : p.Scoped p.box.length := by
      rw [Program.box, List.length_map]
      exact Program.scoped_of_validate hvalid
    exact Relaxation.solve_infeasible hscoped hinfeasible y hy
  · -- only the sign of the objective is left to be computed
    have hrun : BranchAndBound.run limit p =
        Ratio.mul least (Relaxation.sign p.direction) >>= fun objective =>
          .ok ⟨.optimal, some objective, values⟩ := hrun
    cases hmul : Ratio.mul least (Relaxation.sign p.direction) with
    | ok objective =>
      rw [hmul] at hrun
      exact ⟨_, hdone _ hrun, .inl rfl⟩
    | error e =>
      rw [hmul, Ratio.stopsOnly_mul (P := (· = .overflow)) rfl _ _ e hmul] at hrun
      exact ⟨_, hstop hrun, .inr (.inr ⟨rfl, hrun⟩)⟩

theorem solvable_of_tuples {includeZero : Bool} {limit : ℕ} {ts : List (ℕ × Tuple)}
    (hds : distances c = .ok ds)
    (h : tuples c includeZero (BranchAndBound.solver limit) = .ok ts) : Solvable ds := by
  obtain ⟨ds', t, hds', -, hleast, -⟩ := tuples_eq_ok h
  rw [hds] at hds'
  cases hds'
  refine ⟨fun k d => t k d, fun link v hlink => ?_⟩
  have hdiff := hleast.difference link v hlink
  show (t link.later link.dimension : ℚ) - t link.earlier link.dimension = v
  exact_mod_cast hdiff

theorem tuples_of_isEmpty (hds : distances c = .ok ds) (hempty : ds.isEmpty = true)
    (includeZero : Bool) (solver : Solver) : ∃ ts, tuples c includeZero solver = .ok ts := by
  unfold tuples
  rw [hds]
  show ∃ ts, (if ds.isEmpty = true then _ else _) = Except.ok ts
  rw [if_pos hempty]
  exact ⟨_, rfl⟩

theorem tuples_of_not_isEmpty (hds : distances c = .ok ds) (hempty : ¬ ds.isEmpty = true)
    (includeZero : Bool) (solver : Solver) : tuples c includeZero solver =
      solveTuples c ds solver >>= fun all => .ok (all.filter (keep includeZero)) := by
  unfold tuples
  rw [hds]
  show (if ds.isEmpty = true then _ else _) = _
  rw [if_neg hempty]
  rfl

/-- A distance in a dimension that a nest does not have leaves no program to be solved. -/
theorem tuples_of_not_inside (hds : distances c = .ok ds) (houtside : ¬ ∀ e ∈ ds, e.1.Inside c)
    (includeZero : Bool) (solver : Solver) : tuples c includeZero solver = .error .aborted := by
  have hprogram : program? c ds = none := by
    rw [Option.eq_none_iff_forall_ne_some]
    intro p hp
    refine houtside fun e he => ?_
    obtain ⟨hlater, hearlier⟩ := entry_of_program? hp he
    exact ⟨hlater, hearlier⟩
  have hempty : ¬ ds.isEmpty = true := by
    intro hempty
    rw [List.isEmpty_iff.mp hempty] at houtside
    exact houtside fun e he => absurd he List.not_mem_nil
  rw [tuples_of_not_isEmpty hds hempty, solveTuples, hprogram]
  rfl

/-- With distances above the least word, and all of them in dimensions of the nests, the shifts are
found, or the distances contradict each other, or a number overflows on the way.  A distance in
another dimension stops the program.  There is none in a chain that is built, or of which all
accesses have the width that their dataspace declares. -/
theorem tuples_cases (hds : distances c = .ok ds) (hlo : ∀ link v, (link, v) ∈ ds → Word.lo < v)
    {limit : ℕ} (hlimit : 1 ≤ limit) (includeZero : Bool) :
    ((∀ e ∈ ds, e.1.Inside c) →
      (∃ ts, tuples c includeZero (BranchAndBound.solver limit) = .ok ts ∧ Solvable ds) ∨
        (tuples c includeZero (BranchAndBound.solver limit) =
            .error (.solver (.shiftsNotFound "branch-and-bound" .infeasible)) ∧ ¬ Solvable ds) ∨
        (tuples c includeZero (BranchAndBound.solver limit) =
            .error (.solver (.shiftsNotFound "branch-and-bound" .abnormal)) ∧
          ∃ p, program? c ds = some p ∧ BranchAndBound.run limit p = .error .overflow)) ∧
    ((¬ ∀ e ∈ ds, e.1.Inside c) →
      tuples c includeZero (BranchAndBound.solver limit) = .error .aborted) ∧
    ((Uniform c ∨ ∃ specs, Pipeline.buildChain specs = .ok c) → ∀ e ∈ ds, e.1.Inside c) := by
  refine ⟨fun hinside => ?_, fun houtside => tuples_of_not_inside hds houtside includeZero _, ?_⟩
  swap
  · rintro (hc | ⟨specs, hspecs⟩)
    · exact inside_distances hc hds
    · exact inside_distances (uniform_buildChain hspecs) hds
  by_cases hempty : ds.isEmpty = true
  · obtain ⟨ts, hts⟩ := tuples_of_isEmpty hds hempty includeZero (BranchAndBound.solver limit)
    exact .inl ⟨ts, hts, solvable_of_tuples hds hts⟩
  have htuples := tuples_of_not_isEmpty hds hempty includeZero (BranchAndBound.solver limit)
  obtain ⟨p, hp, hvalid⟩ := exists_program hinside
  obtain ⟨s, hs, hstatus⟩ := solve_program_cases hp hvalid hlo hlimit
  have hsolve : solveTuples c ds (BranchAndBound.solver limit) =
      if s.isOptimal then (readTuples c s).mapError .solver
      else .error (.solver (.shiftsNotFound "branch-and-bound" s.status)) := by
    have hbind : (program? c ds).bind (BranchAndBound.solver limit).solve = some s := by
      rw [hp]
      exact hs
    unfold solveTuples
    rw [hbind]
    rfl
  rcases hstatus with hoptimal | ⟨hinfeasible, hnone⟩ | ⟨habnormal, hrun⟩
  · obtain ⟨hlen, hfeasible⟩ := BranchAndBound.feasible_point hs (.inl hoptimal)
    rw [if_pos (by simp [Solution.isOptimal, hoptimal]),
      readTuples_of_feasible hp hlen hfeasible] at hsolve
    rw [hsolve] at htuples
    exact .inl ⟨_, htuples, solvable_of_tuples hds htuples⟩
  · rw [if_neg (by simp [Solution.isOptimal, hinfeasible]), hinfeasible] at hsolve
    rw [hsolve] at htuples
    exact .inr (.inl ⟨htuples, hnone⟩)
  · rw [if_neg (by simp [Solution.isOptimal, habnormal]), habnormal] at hsolve
    rw [hsolve] at htuples
    exact .inr (.inr ⟨htuples, p, hp, hrun⟩)

/-- Two distances of one that add up to a third distance of one. -/
theorem tuples_cases_triangle :
    let nest (dataspaces : List Dataspace) : Nest := ⟨⟨[("1", "N")], ["N"]⟩, dataspaces⟩
    let single (i : ℤ) : Collection := ⟨[⟨[i]⟩], 1⟩
    let reads (name : String) (i : ℤ) : Dataspace := ⟨name, single i, ⟨[], 1⟩⟩
    let writes (name : String) (i : ℤ) : Dataspace := ⟨name, ⟨[], 1⟩, single i⟩
    let c : Chain := ⟨[nest [writes "A" 0, writes "C" 0], nest [reads "A" 1, writes "B" 0],
      nest [reads "B" 1, reads "C" 1]]⟩
    let ds : Distances := [(⟨0, 1, 0⟩, 1), (⟨0, 2, 0⟩, 1), (⟨1, 2, 0⟩, 1)]
    distances c = .ok ds ∧ ¬ Solvable ds ∧ tuples c true (BranchAndBound.solver 1) =
      .error (.solver (.shiftsNotFound "branch-and-bound" .infeasible)) := by
  intro nest single reads writes c ds
  have hc : Uniform c := by
    simp [Uniform, c, nest, single, reads, writes, Dataspace.Uniform, Collection.Uniform,
      Dataspace.width, Tuple.width]
  have hds : distances c = .ok ds := by decide +kernel
  have hone : ∀ e ∈ ds, e.2 = 1 := by decide
  have hlo : ∀ link v, (link, v) ∈ ds → Word.lo < v := by
    intro link v hlink
    rw [show v = 1 from hone (link, v) hlink]
    decide
  have h : tuples c true (BranchAndBound.solver 1) =
      .error (.solver (.shiftsNotFound "branch-and-bound" .infeasible)) := by decide +kernel
  refine ⟨hds, ?_, h⟩
  obtain ⟨hcases, -, hinside⟩ := tuples_cases hds hlo le_rfl true
  rcases hcases (hinside (.inl hc)) with ⟨ts, hts, -⟩ | ⟨-, hnone⟩ | ⟨habnormal, -⟩
  · rw [h] at hts
    cases hts
  · exact hnone
  · rw [h] at habnormal
    cases habnormal

/-- Writes of two dimensions in nests of one, beside reads of one dimension that there are none of:
the distance in the second dimension stops the program. -/
theorem tuples_aborted_mixed_widths :
    let nest : Nest := ⟨⟨[("0", "9")], []⟩, [⟨"A", ⟨[], 1⟩, ⟨[⟨[0, 0]⟩], 2⟩⟩]⟩
    let c : Chain := ⟨[nest, nest]⟩
    distances c = .ok [(⟨0, 1, 0⟩, 0), (⟨0, 1, 1⟩, 0)] ∧
      tuples c true (BranchAndBound.solver BranchAndBound.defaultNodeLimit) = .error .aborted := by
  decide +kernel

-- the shift of the last nest is one more than the greatest word
example :
    let nest (dataspaces : List Dataspace) : Nest := ⟨⟨[("1", "N")], ["N"]⟩, dataspaces⟩
    let reads (name : String) (i : ℤ) : Dataspace := ⟨name, ⟨[⟨[i]⟩], 1⟩, ⟨[], 1⟩⟩
    let writes (name : String) (i : ℤ) : Dataspace := ⟨name, ⟨[], 1⟩, ⟨[⟨[i]⟩], 1⟩⟩
    let c : Chain := ⟨[nest [writes "A" 0], nest [reads "A" Word.hi, writes "B" 0],
      nest [reads "B" 1]]⟩
    tuples c true (BranchAndBound.solver 1) =
      .error (.solver (.shiftsNotFound "branch-and-bound" .abnormal)) := by
  decide +kernel

end AutoShift

end LoopSched
