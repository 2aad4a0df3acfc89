import LoopSched.Proofs.Aborts
import LoopSched.Proofs.Fusion
import LoopSched.Proofs.Linear.Signs
import LoopSched.Proofs.Translation

/-!
# Shifting twice

Moving the accesses of every nest against its shift turns every distance into zero: the shifts of
two linked nests differ by their distance, and that is what the distance falls by.  The program of a
chain without distances other than zero asks for equal variables.  Its relaxation has its optimum at
the origin, so the shifts of the moved chain are zero.  The difference of two accesses that is not
the greatest of its link may grow beyond a word on the way; then the moved chain has no distances.
-/

namespace LoopSched.AutoShift

open Checked Dependence Linear

variable {c c' : Chain} {ds : Distances} {p : Program}

/-! ### Distances that are all zero -/

section Zero

variable (h : program? c ds = some p) (hinside : Keyed (Link.Inside c) ds)
  (hzero : ∀ e ∈ ds, e.2 = 0) (hsize : ds.length < Word.hi)

include hzero in
theorem fits_of_zero : ∀ e ∈ ds, Word.Fits e.2 := by
  intro e he
  rw [hzero e he]
  decide

include h in
theorem length_rows_of_poses {coeffs : List ℚ} {offset : ℚ} {rows : List Row}
    (hposes : Relaxation.Poses p p.box coeffs offset rows) : rows.length = ds.length := by
  obtain ⟨-, -, -, hcs⟩ := program?_eq_some h
  rw [← (mapM_forall₂ (rows_of_poses h hposes)).length_eq]
  exact length_of_mapM_option hcs

include h in
/-- The origin of the columns is that of the variables. -/
theorem recover_zeros :
    (Relaxation.columnsFrom 0 p.box).mapM (Relaxation.recover (Simplex.zeros p.vars.length)) =
      .ok (Simplex.zeros p.vars.length) := by
  refine (mapM_eq_ok_map (g := fun _ => 0) ?_).trans ?_
  · rw [columnsFrom_box h, List.forall_mem_map]
    intro i _
    show Ratio.add ((0 : ℤ) : ℚ) ((Simplex.zeros p.vars.length).getD i 0) = .ok 0
    rw [getD_zeros, Int.cast_zero]
    exact Ratio.add_zero_zero
  · rw [List.map_const', columnsFrom_box h, List.length_map, List.length_range]
    rfl

include h hzero hsize in
theorem minimize_of_zero {coeffs : List ℚ} {offset : ℚ} {rows : List Row}
    (hposes : Relaxation.Poses p p.box coeffs offset rows) :
    Simplex.minimize coeffs rows = .ok (.optimal 0 (Simplex.zeros p.vars.length)) := by
  have hlength : coeffs.length = p.vars.length := by
    rw [hposes.length_coeffs, width_box h]
  have hlo : ∀ link v, (link, v) ∈ ds → Word.lo < v := by
    intro link v hlink
    rw [show v = 0 from hzero _ hlink]
    decide
  have hrhs : ∀ r ∈ rows, r.rhs = 0 := by
    intro r hr
    obtain ⟨link, v, hlink, -, hright, -⟩ := exists_link_of_poses h hposes hr
    rw [hright, show v = 0 from hzero _ hlink, Int.cast_zero]
  rw [← hlength]
  refine Simplex.minimize_of_balanced hposes.length_row (difference_of_poses h hposes hlo) hrhs
    (fun j hj => ?_) ?_
  · rw [(cost_of_poses h hposes).2, if_pos (hlength ▸ hj)]
  · rwa [length_rows_of_poses h hposes]

include h hinside hzero hsize

/-- The relaxation has its optimum at the origin. -/
theorem relaxation_of_zero :
    Relaxation.solve p p.box = .ok (.optimal 0 (Simplex.zeros p.vars.length)) := by
  obtain ⟨posed, hposed⟩ := exists_pose h hinside (fits_of_zero hzero)
  have hposes := Relaxation.poses_of_pose hposed
  have hadd : Ratio.add 0 posed.offset = .ok 0 := by
    rw [(cost_of_poses h hposes).1]
    exact Ratio.add_zero_zero
  unfold Relaxation.solve
  rw [if_neg (by rw [box_not_crossed h]; exact Bool.false_ne_true), hposed, bind_of_eq_ok rfl,
    minimize_of_zero h hzero hsize hposes, bind_of_eq_ok rfl]
  dsimp only
  rw [recover_zeros h, bind_of_eq_ok rfl, hadd]
  rfl

theorem solve_of_zero (hvalid : p.validate = none) {limit : ℕ} (hlimit : 1 ≤ limit) :
    BranchAndBound.solve limit p =
      some ⟨.optimal, some 0, Simplex.zeros p.vars.length⟩ := by
  have hsolve := relaxation_of_zero h hinside hzero hsize
  obtain ⟨hdir, -, -, -⟩ := program?_eq_some h
  have hmul : Ratio.mul 0 (Relaxation.sign p.direction) = .ok 0 := by
    rw [hdir]
    exact (Ratio.mul_of_isSign (.inl rfl) (.inr (.inl rfl))).1.trans (by rw [zero_mul])
  have hwhole : ∀ objective values, Relaxation.solve p p.box = .ok (.optimal objective values) →
      ∀ v ∈ values, v.den = 1 := by
    intro objective values hoptimal v hv
    rw [hsolve] at hoptimal
    cases hoptimal
    rw [List.eq_of_mem_replicate hv]
    rfl
  have hrun : BranchAndBound.run limit p =
      .ok ⟨.optimal, some 0, Simplex.zeros p.vars.length⟩ := by
    rcases BranchAndBound.run_of_whole hlimit (relaxation_ne_unbounded h) hwhole with
      ⟨e, herror, -⟩ | ⟨hinfeasible, -⟩ | ⟨objective, values, hoptimal, hrun⟩
    · rw [hsolve] at herror
      cases herror
    · rw [hsolve] at hinfeasible
      cases hinfeasible
    · rw [hsolve] at hoptimal
      cases hoptimal
      rw [hrun]
      unfold BranchAndBound.answer
      dsimp only
      rw [hmul]
      rfl
  unfold BranchAndBound.solve
  rw [hvalid, hrun]
  rfl

end Zero

/-- An optimal solution of the program is read as shifts. -/
theorem exists_tuples_of_optimal (hds : distances c = .ok ds) (hempty : ¬ ds.isEmpty = true)
    (hp : program? c ds = some p) {limit : ℕ} {s : Solution}
    (hs : BranchAndBound.solve limit p = some s) (hoptimal : s.status = .optimal)
    (includeZero : Bool) :
    ∃ ts, tuples c includeZero (BranchAndBound.solver limit) = .ok ts := by
  obtain ⟨hlength, hfeasible⟩ := BranchAndBound.feasible_point hs (.inl hoptimal)
  have hbind : (program? c ds).bind (BranchAndBound.solver limit).solve = some s := by
    rw [hp]
    exact hs
  have hsolve : ∃ all, solveTuples c ds (BranchAndBound.solver limit) = .ok all := by
    unfold solveTuples
    rw [hbind]
    dsimp only
    rw [if_pos (by simp [Solution.isOptimal, hoptimal]),
      readTuples_of_feasible hp hlength hfeasible]
    exact ⟨_, rfl⟩
  obtain ⟨all, hall⟩ := hsolve
  rw [tuples_of_not_isEmpty hds hempty, hall]
  exact ⟨_, rfl⟩

theorem family_zero (c : Chain) {t : ℕ → ℕ → ℤ} (ht : ∀ k d, Entry c k d → t k d = 0) :
    family c t = c.nests.zipIdx.map fun x => (x.2, Tuple.zeros x.1.dimensions) := by
  refine List.map_congr_left fun x hx => ?_
  have hk := List.mk_mem_zipIdx_iff_getElem?.mp hx
  show (x.2, Tuple.mk _) = (x.2, Tuple.mk _)
  refine congrArg (fun values => (x.2, Tuple.mk values)) (List.eq_replicate_iff.mpr ⟨?_, ?_⟩)
  · rw [List.length_map, List.length_range]
  · rw [List.forall_mem_map]
    exact fun d hd => ht x.2 d ⟨x.1, hk, List.mem_range.mp hd⟩

/-- A chain whose distances are all zero does not move. -/
theorem tuples_of_zero (hc : Uniform c) (hds : distances c = .ok ds) (hzero : ∀ e ∈ ds, e.2 = 0)
    (hsize : ds.length < Word.hi) {limit : ℕ} (hlimit : ds.isEmpty = true ∨ 1 ≤ limit) :
    tuples c true (BranchAndBound.solver limit) =
      .ok (c.nests.zipIdx.map fun x => (x.2, Tuple.zeros x.1.dimensions)) := by
  obtain ⟨ts, hts⟩ : ∃ ts, tuples c true (BranchAndBound.solver limit) = .ok ts := by
    by_cases hempty : ds.isEmpty = true
    · exact tuples_of_isEmpty hds hempty true _
    have hinside := inside_distances hc hds
    obtain ⟨p, hp, hvalid⟩ := exists_program hinside
    exact exists_tuples_of_optimal hds hempty hp
      (solve_of_zero hp hinside hzero hsize hvalid (hlimit.resolve_left hempty)) rfl true
  rw [hts]
  obtain ⟨_, t, hds', -, hleast, rfl⟩ := tuples_eq_ok hts
  rw [hds] at hds'
  cases hds'
  have hsolves : Solves c ds fun _ _ => 0 :=
    ⟨fun _ _ _ => le_rfl, fun link v hlink => (hzero _ hlink).symm⟩
  rw [filter_keep_true, family_zero c fun k d he =>
    le_antisymm (hleast.le _ hsolves k d he) (hleast.nonneg k d he)]

/-- Shifts that are found need a node, unless there is nothing to solve. -/
theorem limit_pos_of_tuples (hds : distances c = .ok ds) {limit : ℕ} {ts : List (ℕ × Tuple)}
    (h : tuples c true (BranchAndBound.solver limit) = .ok ts) :
    ds.isEmpty = true ∨ 1 ≤ limit := by
  by_contra hnot
  obtain ⟨hempty, hlimit⟩ := not_or.mp hnot
  obtain rfl : limit = 0 := by omega
  rw [tuples_of_not_isEmpty hds hempty] at h
  obtain ⟨all, hall, -⟩ := bind_eq_ok h
  obtain ⟨p, s, -, hs, hoptimal, -⟩ := exists_solution_of_solveTuples hall
  -- the search stops in front of its first box
  have hs : BranchAndBound.solve 0 p = some s := hs
  unfold BranchAndBound.solve at hs
  split at hs <;> cases hs <;> cases hoptimal

/-! ### Moving against the shifts -/

/-- Every nest moved against its shift; one that is not listed stays where it is. -/
def unshift (c : Chain) (ts : List (ℕ × Tuple)) : Except DimensionError Chain := do
  let nests ← c.nests.zipIdx.mapM fun x => do
    x.1.shift (← Tuple.neg ⟨shiftOf ts x.2 x.1.dimensions⟩)
  return ⟨nests⟩

/-- The shifts of a family with the opposite sign, as vectors. -/
def opposite (c : Chain) (t : ℕ → ℕ → ℤ) (k : ℕ) : List ℤ :=
  (List.range ((c.nests[k]?.map Nest.dimensions).getD 0)).map fun d => -t k d

variable {t : ℕ → ℕ → ℤ}

theorem opposite_eq {k : ℕ} {nest : Nest} (hk : c.nests[k]? = some nest) :
    opposite c t k = (List.range nest.dimensions).map fun d => -t k d := by
  rw [opposite, hk]
  rfl

theorem getD_opposite {k d : ℕ} (he : Entry c k d) : (opposite c t k).getD d 0 = -t k d := by
  obtain ⟨nest, hk, hd⟩ := he
  rw [opposite_eq hk, getD_map_range _ hd]

theorem forall₂_zipIdx {α β : Type} {R : α → ℕ → β → Prop} {xs : List α} {ys : List β} {k : ℕ}
    (h : List.Forall₂ (fun x y => R x.1 x.2 y) (xs.zipIdx k) ys) :
    List.Forall₂ (fun x y => y.2 = x.2 ∧ R x.1 x.2 y.1) (xs.zipIdx k) (ys.zipIdx k) := by
  induction xs generalizing k ys with
  | nil =>
    cases h
    exact .nil
  | cons x xs ih =>
    cases h with
    | cons hx hrest => exact .cons ⟨rfl, hx⟩ (ih hrest)

theorem translates_of_unshift (h : unshift c (family c t) = .ok c') :
    c.Translates (opposite c t) c' := by
  obtain ⟨nests, hnests, h⟩ := bind_eq_ok h
  cases h
  have hall := (List.forall₂_and_left (p := fun x => c.nests[x.2]? = some x.1) _ _).mpr
    ⟨fun x hx => List.mk_mem_zipIdx_iff_getElem?.mp hx, mapM_forall₂ hnests⟩
  refine forall₂_zipIdx (R := fun nest k => Nest.Translates (opposite c t k) nest) ?_
  refine hall.imp ?_
  rintro ⟨nest, k⟩ nest' ⟨hk, hshift⟩
  obtain ⟨extent, hneg, hshift⟩ := bind_eq_ok hshift
  have hvalues : extent.values = opposite c t k := by
    rw [Tuple.neg_eq_ok hneg, opposite_eq hk]
    show (shiftOf (family c t) k nest.dimensions).map _ = _
    rw [← filter_keep_true (family c t), shiftOf_family hk, List.map_map]
    rfl
  show nest.Translates (opposite c t k) nest'
  rw [← hvalues]
  exact Nest.translates_of_shift hshift

/-- Moved against their shifts, the nests keep no distance. -/
theorem moved_opposite (hsolves : Solves c ds t)
    (hentry : ∀ link v, (link, v) ∈ ds →
      Entry c link.later link.dimension ∧ Entry c link.earlier link.dimension) :
    moved (opposite c t) ds = ds.map fun e => (e.1, 0) := by
  refine List.map_congr_left fun e he => ?_
  obtain ⟨hlater, hearlier⟩ := hentry e.1 e.2 he
  have hdiff := hsolves.difference e.1 e.2 he
  have hgap : e.2 + gap (opposite c t) e.1 = 0 := by
    rw [gap, getD_opposite hlater, getD_opposite hearlier]
    omega
  rw [hgap]

/-! ### The second time -/

theorem tuples_of_distances_error {e : DimensionError} (h : distances c = .error e)
    (includeZero : Bool) (solver : Solver) :
    tuples c includeZero solver = .error (.dimension e) := by
  unfold tuples
  rw [h]
  rfl

/-- Shifting a second time, after the accesses of every nest were moved against its shift, finds
nothing left to shift, unless a difference of accesses has become too large for a word.  There are
fewer distances than the greatest word, as in every chain that can be held in memory; without that
the reduced costs of the second time, which count distances, could be too large as well. -/
theorem tuples_unshift (hds : distances c = .ok ds) (hsize : ds.length < Word.hi) {limit : ℕ}
    {ts : List (ℕ × Tuple)} (h : tuples c true (BranchAndBound.solver limit) = .ok ts)
    (hback : unshift c ts = .ok c') :
    (Overflows c' → ∃ t, tuples c' true (BranchAndBound.solver limit) =
      .error (.dimension (.combineOverflow t))) ∧
    (¬ Overflows c' → distances c' = .ok (ds.map fun e => (e.1, 0)) ∧
      tuples c' true (BranchAndBound.solver limit) =
        .ok (c'.nests.zipIdx.map fun x => (x.2, Tuple.zeros x.1.dimensions))) := by
  obtain ⟨_, t, hds', hentry, hleast, rfl⟩ := tuples_eq_ok h
  rw [hds] at hds'
  cases hds'
  rw [filter_keep_true] at hback
  have htranslates := translates_of_unshift hback
  have hc' : Uniform c' := Chain.Translates.uniform_right htranslates
  -- the distances of the moved chain are the moved ones, or there are none
  rcases distances_moved htranslates hds with ⟨_, hok, rfl⟩ | ⟨_, herror, e, rfl⟩
  · rw [moved_opposite hleast.toSolves hentry] at hok
    refine ⟨fun hover => absurd hover (not_overflows hc' hok), fun _ => ⟨hok, ?_⟩⟩
    refine tuples_of_zero hc' hok ?_ ?_ ?_
    · rw [List.forall_mem_map]
      exact fun _ _ => rfl
    · rwa [List.length_map]
    · rw [List.isEmpty_map]
      exact limit_pos_of_tuples hds h
  · exact ⟨fun _ => ⟨e, tuples_of_distances_error herror _ _⟩,
      fun hnot => absurd (overflows_of_error hc' herror) hnot⟩

/-- Three sweeps of a stencil, each over the result of the one before. -/
theorem tuples_unshift_sweeps :
    let nest (dataspaces : List Dataspace) : Nest := ⟨⟨[("1", "N")], ["N"]⟩, dataspaces⟩
    let around (i : ℤ) : Collection := ⟨[⟨[i - 1]⟩, ⟨[i]⟩, ⟨[i + 1]⟩], 1⟩
    let sweep (source target : String) (i : ℤ) : Nest :=
      nest [⟨source, around i, ⟨[], 1⟩⟩, ⟨target, ⟨[], 1⟩, ⟨[⟨[i]⟩], 1⟩⟩]
    let c : Chain := ⟨[sweep "A" "B" 0, sweep "B" "C" 0, sweep "C" "D" 0]⟩
    let ts : List (ℕ × Tuple) := [(0, ⟨[0]⟩), (1, ⟨[1]⟩), (2, ⟨[2]⟩)]
    let c' : Chain := ⟨[sweep "A" "B" 0, sweep "B" "C" (-1), sweep "C" "D" (-2)]⟩
    tuples c true (BranchAndBound.solver 1) = .ok ts ∧ unshift c ts = .ok c' ∧ ¬ Overflows c' ∧
      tuples c' true (BranchAndBound.solver 1) =
        .ok [(0, ⟨[0]⟩), (1, ⟨[0]⟩), (2, ⟨[0]⟩)] := by
  intro nest around sweep c ts c'
  have huniform : Uniform c' := by
    simp [Uniform, c', sweep, nest, around, Dataspace.Uniform, Collection.Uniform, Dataspace.width,
      Tuple.width]
  have hds : distances c = .ok [(⟨0, 1, 0⟩, 1), (⟨1, 2, 0⟩, 1)] := by decide +kernel
  have hds' : distances c' = .ok [(⟨0, 1, 0⟩, 0), (⟨1, 2, 0⟩, 0)] := by decide +kernel
  have h : tuples c true (BranchAndBound.solver 1) = .ok ts := by decide +kernel
  have hback : unshift c ts = .ok c' := by decide +kernel
  have hwords : ¬ Overflows c' := not_overflows huniform hds'
  obtain ⟨-, hzero⟩ := tuples_unshift hds (by decide) h hback
  exact ⟨h, hback, hwords, (hzero hwords).2⟩

/-- Two arrays that the nests touch at a great distance from each other, in opposite directions.
The shift brings the accesses of one array together and those of the other too far apart. -/
theorem tuples_unshift_far_apart :
    let nest (dataspaces : List Dataspace) : Nest := ⟨⟨[("1", "N")], ["N"]⟩, dataspaces⟩
    let single (i : ℤ) : Collection := ⟨[⟨[i]⟩], 1⟩
    let reads (name : String) (i : ℤ) : Dataspace := ⟨name, single i, ⟨[], 1⟩⟩
    let writes (name : String) (i : ℤ) : Dataspace := ⟨name, ⟨[], 1⟩, single i⟩
    let c : Chain := ⟨[nest [writes "A" 0, writes "B" 4611686018427387904],
      nest [reads "A" 4611686018427387905, reads "B" 0]]⟩
    let c' : Chain := ⟨[nest [writes "A" 0, writes "B" 4611686018427387904],
      nest [reads "A" 0, reads "B" (-4611686018427387905)]]⟩
    let ts : List (ℕ × Tuple) := [(0, ⟨[0]⟩), (1, ⟨[4611686018427387905]⟩)]
    tuples c true (BranchAndBound.solver BranchAndBound.defaultNodeLimit) = .ok ts ∧
      unshift c ts = .ok c' ∧
      tuples c' true (BranchAndBound.solver BranchAndBound.defaultNodeLimit) =
        .error (.dimension (.combineOverflow ⟨[-4611686018427387905]⟩)) := by
  decide +kernel

end LoopSched.AutoShift
