import LoopSched.Proofs.Linear.Aborts
import LoopSched.Proofs.Solvability

/-!
# When shifts cannot be answered

The relaxation of the program for the shifts is always posed: its coefficients are units and its
right-hand sides are distances.  A distance that is the least word is then a row that cannot change
its sign, and no other row aborts.  So a search for shifts is left without an answer exactly if such
a distance is recorded and the search may look at a node at all.
-/

namespace LoopSched

namespace AutoShift

open Checked Dependence Linear

variable {c : Chain} {ds : Distances} {p : Program}

/-! ### The relaxation is posed -/

section Units

variable {n : ℕ}

/-- A unit coefficient goes into a column that is still empty. -/
theorem exists_substituteTerm {coeffs : List ℚ} {t : ℕ × ℤ} (hlt : t.1 < n)
    (hunit : t.2 = 1 ∨ t.2 = -1) (hzero : coeffs.getD t.1 0 = 0) :
    ∃ coeffs', Relaxation.substituteTerm ((List.range n).map (Column.above · 0)) 1 coeffs t =
        .ok (coeffs', 0) ∧
      ∀ j, j ≠ t.1 → coeffs'.getD j 0 = coeffs.getD j 0 := by
  have hfits : Word.Fits t.2 := by
    rcases hunit with h | h <;> rw [h] <;> decide
  have hadd : Ratio.add 0 (t.2 : ℚ) = .ok (t.2 : ℚ) := by
    have := Ratio.add_intCast (m := 0) (n := t.2) (by decide) hfits (by rwa [zero_add])
    rwa [zero_add, Int.cast_zero] at this
  have hmul : Ratio.mul (t.2 : ℚ) (0 : ℤ) = .ok 0 := by
    have := Ratio.mul_intCast (m := t.2) (n := 0) (by rw [mul_zero]; decide)
    rwa [mul_zero] at this
  refine ⟨coeffs.set t.1 t.2, ?_, fun j hj => ?_⟩
  · unfold Relaxation.substituteTerm
    dsimp only
    rw [mul_one, Word.check_eq_ok.mpr hfits, List.getElem?_map, List.getElem?_range hlt]
    show (Ratio.add (coeffs.getD t.1 0) t.2 >>= fun v => Ratio.mul t.2 (0 : ℤ) >>= fun k =>
      .ok (coeffs.set t.1 v, k)) = _
    rw [hzero, hadd, bind_of_eq_ok rfl, hmul]
    rfl
  · rw [List.getD_eq_getElem?_getD, List.getD_eq_getElem?_getD, List.getElem?_set_ne hj.symm]

/-- A sum of units over empty columns is substituted without an overflow, and the other side stays
as it is. -/
theorem exists_substituteTerms {op : ℚ → ℚ → Checked ℚ} {side : ℚ}
    (hop : op side 0 = .ok side) : ∀ {terms : List (ℕ × ℤ)} {coeffs : List ℚ},
      (terms.map (·.1)).Nodup → (∀ t ∈ terms, t.1 < n) → (∀ t ∈ terms, t.2 = 1 ∨ t.2 = -1) →
      (∀ t ∈ terms, coeffs.getD t.1 0 = 0) →
        ∃ coeffs', terms.foldlM (fun s t => do
          let r ← Relaxation.substituteTerm ((List.range n).map (Column.above · 0)) 1 s.1 t
          return (r.1, ← op s.2 r.2)) (coeffs, side) = .ok (coeffs', side)
  | [], coeffs, _, _, _, _ => ⟨coeffs, rfl⟩
  | t :: terms, coeffs, hnodup, hlt, hunit, hzero => by
    rw [List.map_cons, List.nodup_cons] at hnodup
    obtain ⟨hfresh, hnodup⟩ := hnodup
    obtain ⟨htlt, hlt⟩ := List.forall_mem_cons.mp hlt
    obtain ⟨htunit, hunit⟩ := List.forall_mem_cons.mp hunit
    obtain ⟨htzero, hzero⟩ := List.forall_mem_cons.mp hzero
    obtain ⟨coeffs', hsub, hkeep⟩ := exists_substituteTerm htlt htunit htzero
    obtain ⟨result, hresult⟩ := exists_substituteTerms hop hnodup hlt hunit fun u hu =>
      (hkeep u.1 fun heq => hfresh (heq ▸ List.mem_map_of_mem hu)).trans (hzero u hu)
    refine ⟨result, ?_⟩
    rw [List.foldlM_cons, hsub, bind_of_eq_ok rfl, hop]
    exact hresult

theorem exists_substitute_units {form : Form} (hunits : form.Units) (hwithin : form.within n = true)
    {op : ℚ → ℚ → Checked ℚ} {side : ℚ} (hop : op side 0 = .ok side) :
    ∃ coeffs, form.terms.foldlM (fun s t => do
      let r ← Relaxation.substituteTerm ((List.range n).map (Column.above · 0)) 1 s.1 t
      return (r.1, ← op s.2 r.2)) (Simplex.zeros n, side) = .ok (coeffs, side) := by
  simp only [Form.within, List.all_eq_true, decide_eq_true_eq] at hwithin
  exact exists_substituteTerms hop hunits.nodup hwithin hunits.coefficient
    fun t _ => getD_zeros n t.1

theorem exists_cost (hdir : p.direction = .minimize) (hunits : p.objective.Units)
    (hwithin : p.objective.within n = true) :
    ∃ coeffs, Relaxation.cost p ((List.range n).map (Column.above · 0)) n = .ok (coeffs, 0) := by
  have hadd := Ratio.add_zero_zero
  unfold Relaxation.cost
  rw [hdir, hunits.constant]
  exact exists_substitute_units hunits hwithin hadd

theorem exists_constraintRow {con : Constraint} (hunits : con.form.Units)
    (hwithin : con.form.within n = true) (hfits : Word.Fits con.rhs) :
    ∃ r, Relaxation.constraintRow ((List.range n).map (Column.above · 0)) n con = .ok r := by
  have hsub : Ratio.sub con.rhs (0 : ℤ) = .ok (con.rhs : ℚ) := by
    have := Ratio.sub_intCast (m := con.rhs) (n := 0) hfits (by decide) (by rwa [sub_zero])
    rwa [sub_zero] at this
  obtain ⟨coeffs, hcoeffs⟩ := exists_substitute_units hunits hwithin hsub
  unfold Relaxation.constraintRow
  rw [hunits.constant, hsub, bind_of_eq_ok rfl]
  exact ⟨_, bind_of_eq_ok hcoeffs _⟩

end Units

section Program

variable (h : program? c ds = some p)
include h

theorem width_box : Relaxation.width p.box = p.vars.length := by
  rw [box_eq h]
  generalize p.vars.length = n
  induction n with
  | zero => rfl
  | succ n ih =>
    rw [List.replicate_succ, Relaxation.width_cons, ih]
    exact Nat.add_comm 1 n

theorem units_objective : p.objective.Units ∧ p.objective.within p.vars.length = true := by
  obtain ⟨-, -, hobjective, -⟩ := program?_eq_some h
  rw [Form.ofTerms?_range] at hobjective
  rw [← Option.some.inj hobjective]
  exact ⟨Form.units_range _, by simp [Form.within]⟩

theorem exists_pose (hinside : Keyed (Link.Inside c) ds) (hfits : ∀ e ∈ ds, Word.Fits e.2) :
    ∃ posed, Relaxation.pose p p.box = .ok posed := by
  obtain ⟨hdir, hvars, -, hcs⟩ := program?_eq_some h
  obtain ⟨hunits, hwithin⟩ := units_objective h
  obtain ⟨coeffs, hcost⟩ := exists_cost hdir hunits hwithin
  obtain ⟨rows, hrows⟩ : ∃ rows, p.constraints.mapM (Relaxation.constraintRow
      ((List.range p.vars.length).map (Column.above · 0)) p.vars.length) = .ok rows := by
    refine exists_mapM fun con hcon => ?_
    obtain ⟨⟨link, v⟩, hlink, heq⟩ := (mapM_option_mem hcs).2 con hcon
    obtain ⟨con', heq', hwithin, hunits⟩ := exists_constraint (hinside _ hlink) v
    rw [heq] at heq'
    cases heq'
    rw [← hvars] at hwithin
    refine exists_constraintRow hunits hwithin ?_
    rw [(constraint?_eval heq).2.2.1]
    exact hfits _ hlink
  have hlimits : ∃ limits, (p.box.zip ((List.range p.vars.length).map (Column.above · 0))).mapM
      (fun x => Relaxation.boundRow? p.vars.length x.1 x.2) = .ok limits := by
    refine exists_mapM fun x hx => ?_
    exact ⟨none, boundRow?_of_box h (List.of_mem_zip hx).1 _ _⟩
  obtain ⟨limits, hlimits⟩ := hlimits
  unfold Relaxation.pose
  dsimp only
  rw [columnsFrom_box h, width_box h, hcost, bind_of_eq_ok rfl, hrows, bind_of_eq_ok rfl]
  exact ⟨_, bind_of_eq_ok hlimits _⟩

omit h in
theorem lo_lt_of_not_mem (hfits : ∀ e ∈ ds, Word.Fits e.2)
    (hnone : ¬ ∃ link, (link, Word.lo) ∈ ds) : ∀ link v, (link, v) ∈ ds → Word.lo < v := by
  intro link v hlink
  refine lt_of_le_of_ne (hfits _ hlink).1 fun heq => hnone ⟨link, ?_⟩
  rwa [heq]

/-- The relaxation aborts at a distance that has no opposite. -/
theorem aborts_iff (hinside : Keyed (Link.Inside c) ds) (hfits : ∀ e ∈ ds, Word.Fits e.2) :
    Relaxation.Aborts p p.box ↔ ∃ link, (link, Word.lo) ∈ ds := by
  constructor
  · intro haborts
    by_contra hnone
    cases stopsOnly_relaxation h (lo_lt_of_not_mem hfits hnone) _
      (Relaxation.solve_eq_abort_iff.mpr haborts)
  · rintro ⟨link, hlink⟩
    obtain ⟨posed, hposed⟩ := exists_pose h hinside hfits
    obtain ⟨-, -, -, hcs⟩ := program?_eq_some h
    obtain ⟨con, hcon, heq⟩ := (mapM_option_mem hcs).1 _ hlink
    obtain ⟨rows, limits, hrows, -, hposedRows⟩ := (Relaxation.poses_of_pose hposed).rows_eq
    obtain ⟨r, hr, hrow⟩ := exists_mem_of_mapM hrows hcon
    obtain ⟨-, hrhs, -⟩ := row_of_constraint h heq hrow
    refine ⟨box_not_crossed h, posed, hposed, .inl ⟨r, ?_, ?_, r.rhs, by simp, ?_⟩⟩
    · rw [hposedRows]
      exact List.mem_append_left _ hr
    · rw [hrhs]
      norm_num [Word.lo]
    · rw [hrhs, Rat.num_intCast]

/-- The search looks at the whole box first, and that is its only node if it does not abort. -/
theorem solve_program_eq_none_iff (hvalid : p.validate = none) (hinside : Keyed (Link.Inside c) ds)
    (hfits : ∀ e ∈ ds, Word.Fits e.2) {limit : ℕ} :
    BranchAndBound.solve limit p = none ↔ 1 ≤ limit ∧ ∃ link, (link, Word.lo) ∈ ds := by
  constructor
  · intro hsolve
    obtain ⟨-, box, hvisits, -⟩ := BranchAndBound.solve_eq_none_iff.mp hsolve
    have hlimit : 1 ≤ limit := by
      cases hvisits <;> exact Nat.succ_pos _
    refine ⟨hlimit, ?_⟩
    by_contra hnone
    obtain ⟨s, hs, -⟩ := solve_program_cases h hvalid (lo_lt_of_not_mem hfits hnone) hlimit
    rw [hsolve] at hs
    cases hs
  · rintro ⟨hlimit, hlink⟩
    obtain ⟨n, rfl⟩ : ∃ n, limit = n + 1 := ⟨limit - 1, by omega⟩
    exact BranchAndBound.solve_eq_none_iff.mpr
      ⟨hvalid, p.box, .first, (aborts_iff h hinside hfits).mpr hlink⟩

theorem solveTuples_eq_aborted_iff {solver : Solver} :
    solveTuples c ds solver = .error .aborted ↔ solver.solve p = none := by
  unfold solveTuples
  rw [h, Option.bind_some]
  cases solver.solve p with
  | none => exact iff_of_true rfl rfl
  | some s =>
    refine iff_of_false (fun habort => ?_) fun hnone => by cases hnone
    dsimp only at habort
    split at habort
    · cases hread : readTuples c s <;> rw [hread] at habort <;> cases habort
    · cases habort

end Program

/-- A search for shifts has no answer exactly if a distance is in a dimension that a nest does not
have, or the least word is a distance and a node may be looked at. -/
theorem tuples_eq_aborted_iff {includeZero : Bool} {limit : ℕ} :
    tuples c includeZero (BranchAndBound.solver limit) = .error .aborted ↔
      ∃ ds, distances c = .ok ds ∧ ((¬ ∀ e ∈ ds, e.1.Inside c) ∨
        1 ≤ limit ∧ ∃ link, (link, Word.lo) ∈ ds) := by
  cases hds : distances c with
  | error e =>
    refine iff_of_false (fun habort => ?_) fun ⟨_, hok, _⟩ => by cases hok
    unfold tuples at habort
    rw [hds] at habort
    cases habort
  | ok ds =>
    simp only [Except.ok.injEq, exists_eq_left']
    by_cases hinside : ∀ e ∈ ds, e.1.Inside c
    swap
    · exact iff_of_true (tuples_of_not_inside hds hinside includeZero _) (Or.inl hinside)
    rw [or_iff_right (not_not.mpr hinside)]
    by_cases hempty : ds.isEmpty = true
    · obtain ⟨ts, hts⟩ := tuples_of_isEmpty hds hempty includeZero (BranchAndBound.solver limit)
      rw [hts]
      refine iff_of_false (fun habort => by cases habort) ?_
      rintro ⟨-, link, hlink⟩
      rw [List.isEmpty_iff.mp hempty] at hlink
      cases hlink
    obtain ⟨p, hp, hvalid⟩ := exists_program hinside
    have hbind : tuples c includeZero (BranchAndBound.solver limit) = .error .aborted ↔
        solveTuples c ds (BranchAndBound.solver limit) = .error .aborted := by
      rw [tuples_of_not_isEmpty hds hempty]
      cases solveTuples c ds (BranchAndBound.solver limit) with
      | error e => exact ⟨fun h => by cases h; rfl, fun h => by cases h; rfl⟩
      | ok ts => exact iff_of_false (fun h => by cases h) fun h => by cases h
    rw [hbind, solveTuples_eq_aborted_iff hp]
    exact solve_program_eq_none_iff hp hvalid hinside (fits_distances hds)

/-- A solve has no solution exactly if it comes to a relaxation with a row that is stuck or a line
that jams, and every other overflow is a status.  Shifts have no answer exactly if the least word is
one of the distances, or one is in a dimension that a nest does not have, which a uniform chain
rules out. -/
theorem unanswered_iff (limit : ℕ) :
    (∀ p : Program, BranchAndBound.solve limit p = none ↔ p.validate = none ∧
      ∃ box, BranchAndBound.Visits p limit [p.box] none box ∧ Relaxation.Aborts p box) ∧
    (∀ p : Program, BranchAndBound.solve limit p = some { status := .abnormal } ↔
      p.validate = none ∧ BranchAndBound.Overflows limit p) ∧
    ∀ c : Chain, (∀ includeZero : Bool,
      (tuples c includeZero (BranchAndBound.solver limit) = .error .aborted ↔
        ∃ ds, distances c = .ok ds ∧ ((¬ ∀ e ∈ ds, e.1.Inside c) ∨
          1 ≤ limit ∧ ∃ link, (link, Word.lo) ∈ ds))) ∧
      (Uniform c → ∀ ds, distances c = .ok ds → ∀ e ∈ ds, e.1.Inside c) :=
  ⟨fun _ => BranchAndBound.solve_eq_none_iff, fun _ => BranchAndBound.solve_eq_abnormal_iff,
    fun _ => ⟨fun _ => tuples_eq_aborted_iff, fun hc _ => inside_distances hc⟩⟩

/-- The second nest reads the least offset of what the first one writes at zero. -/
theorem unanswered_iff_least_offset :
    let nest (d : Dataspace) : Nest := ⟨⟨[("1", "N")], ["N"]⟩, [d]⟩
    let c : Chain := ⟨[nest ⟨"A", ⟨[], 1⟩, ⟨[⟨[0]⟩], 1⟩⟩, nest ⟨"A", ⟨[⟨[Word.lo]⟩], 1⟩, ⟨[], 1⟩⟩]⟩
    Uniform c ∧ distances c = .ok [(⟨0, 1, 0⟩, Word.lo)] ∧
      tuples c true (BranchAndBound.solver 1) = .error .aborted := by
  intro nest c
  have hc : Uniform c := by
    simp [Uniform, c, nest, Dataspace.Uniform, Collection.Uniform, Dataspace.width, Tuple.width]
  have hds : distances c = .ok [(⟨0, 1, 0⟩, Word.lo)] := by decide +kernel
  exact ⟨hc, hds, (((unanswered_iff 1).2.2 c).1 true).mpr
    ⟨_, hds, .inr ⟨le_rfl, ⟨0, 1, 0⟩, List.mem_singleton_self _⟩⟩⟩

/-- The row that says `x` is at least the least word is stuck. -/
theorem unanswered_of_least_word :
    let p : Program :=
      { direction := .minimize
        vars := [⟨"x", ⟨some 0, none⟩, true⟩]
        constraints := [⟨⟨[(0, 1)], 0⟩, .greaterEq, Word.lo⟩]
        objective := ⟨[(0, 1)], 0⟩ }
    p.validate = none ∧ BranchAndBound.solve BranchAndBound.defaultNodeLimit p = none := by
  decide +kernel

end AutoShift

end LoopSched
