import LoopSched.AutoShift
import LoopSched.Proofs.Linear.Search
import Mathlib.Algebra.Order.BigOperators.Group.List
import Mathlib.Logic.Relation

/-!
# Shifts for fusion are the least ones

A chain has one shift variable for each nest and dimension, and a link of its distances fixes the
difference of two of them.  The minimum of two families of shifts with these differences has them
too, so the family with the least sum is least in every single entry.
-/

namespace LoopSched.AutoShift

open Dependence Linear

variable {c : Chain} {ds : Distances}

/-! ### The variables of a chain -/

/-- Nest `k` has a dimension `d`. -/
def Entry (c : Chain) (k d : ℕ) : Prop := ∃ nest, c.nests[k]? = some nest ∧ d < nest.dimensions

/-- One value for each nest and dimension, in the order of the variables. -/
def spread {α : Type} (c : Chain) (f : ℕ → ℕ → α) : List α :=
  c.nests.zipIdx.flatMap fun (nest, k) => (List.range nest.dimensions).map (f k)

theorem mem_spread {α : Type} {f : ℕ → ℕ → α} {a : α} :
    a ∈ spread c f ↔ ∃ k d, Entry c k d ∧ f k d = a := by
  simp only [spread, List.mem_flatMap, List.mem_map, List.mem_range, Prod.exists,
    List.mk_mem_zipIdx_iff_getElem?, Entry]
  constructor
  · rintro ⟨nest, k, hk, d, hd, ha⟩
    exact ⟨k, d, ⟨nest, hk, hd⟩, ha⟩
  · rintro ⟨k, d, ⟨nest, hk, hd⟩, ha⟩
    exact ⟨nest, k, hk, d, hd, ha⟩

theorem getElem?_spread_from {α : Type} {f : ℕ → ℕ → α} {d : ℕ} {nest : Nest} :
    ∀ {nests : List Nest} {m k : ℕ}, nests[k]? = some nest → d < nest.dimensions →
      ((nests.zipIdx m).flatMap fun (nest, k) => (List.range nest.dimensions).map (f k))[
        total ((nests.take k).map Nest.dimensions) + d]? = some (f (m + k) d)
  | [], _, _, hk, _ => by simp at hk
  | n :: nests, m, 0, hk, hd => by
    have hn : n = nest := by simpa using hk
    subst hn
    rw [List.zipIdx_cons, List.flatMap_cons, List.take_zero, List.map_nil, total_nil, zero_add,
      List.getElem?_append_left (by simpa using hd)]
    simp [hd]
  | n :: nests, m, k + 1, hk, hd => by
    have hlen : ((List.range n.dimensions).map (f m)).length = n.dimensions := by simp
    rw [List.zipIdx_cons, List.flatMap_cons, List.take_succ_cons, List.map_cons, total_cons]
    dsimp only
    rw [List.getElem?_append_right (by omega), hlen, add_assoc, Nat.add_sub_cancel_left,
      getElem?_spread_from (by simpa using hk) hd, add_right_comm, add_assoc]

/-- The value of an entry stands at the number of its variable. -/
theorem getElem?_spread {α : Type} (f : ℕ → ℕ → α) {k d : ℕ} (h : Entry c k d) :
    (spread c f)[firstVariable c k + d]? = some (f k d) := by
  obtain ⟨nest, hk, hd⟩ := h
  have := getElem?_spread_from (f := f) (m := 0) hk hd
  rwa [zero_add] at this

theorem length_spread {α β : Type} (f : ℕ → ℕ → α) (g : ℕ → ℕ → β) :
    (spread c f).length = (spread c g).length := by
  simp [spread, List.length_flatMap]

theorem number?_eq_some {k d i : ℕ} (h : number? c k d = some i) :
    Entry c k d ∧ i = firstVariable c k + d := by
  unfold number? at h
  obtain ⟨nest, hk, h⟩ := Option.bind_eq_some_iff.mp h
  obtain ⟨_, hd, h⟩ := Option.bind_eq_some_iff.mp h
  have hd : d < nest.dimensions := by simpa [guard] using hd
  cases h
  exact ⟨⟨nest, hk, hd⟩, rfl⟩

/-! ### The program -/

section Program

variable {p : Program}

theorem shiftVars_eq_spread (c : Chain) : shiftVars c =
    spread c fun k d => { name := s!"shift_{k}_{d}", bounds := { lower := some 0 } } := rfl

theorem eq_of_mem_shiftVars {v : Variable} (h : v ∈ shiftVars c) :
    v.bounds = ⟨some 0, none⟩ ∧ v.integer = true := by
  rw [shiftVars_eq_spread] at h
  obtain ⟨k, d, -, rfl⟩ := mem_spread.mp h
  exact ⟨rfl, rfl⟩

theorem constraint?_eval {link : Link} {v : ℤ} {con : Constraint}
    (h : constraint? c (link, v) = some con) :
    (Entry c link.later link.dimension ∧ Entry c link.earlier link.dimension) ∧
      con.relation = .eq ∧ con.rhs = v ∧ ∀ x, con.form.eval x =
        x (firstVariable c link.later + link.dimension) -
          x (firstVariable c link.earlier + link.dimension) := by
  unfold constraint? at h
  obtain ⟨later, hlater, h⟩ := Option.bind_eq_some_iff.mp h
  obtain ⟨earlier, hearlier, h⟩ := Option.bind_eq_some_iff.mp h
  obtain ⟨form, hform, h⟩ := Option.bind_eq_some_iff.mp h
  cases h
  obtain ⟨hn, rfl⟩ := number?_eq_some hlater
  obtain ⟨hp, rfl⟩ := number?_eq_some hearlier
  refine ⟨⟨hn, hp⟩, rfl, rfl, fun x => ?_⟩
  rw [Form.eval_ofTerms? hform]
  simp [sub_eq_add_neg]

theorem constraint?_eq_some {link : Link} {v : ℤ} {con : Constraint}
    (h : constraint? c (link, v) = some con) :
    (Entry c link.later link.dimension ∧ Entry c link.earlier link.dimension) ∧
      ∀ x, con.relation.Holds (con.form.eval x) con.rhs ↔
        x (firstVariable c link.later + link.dimension) -
          x (firstVariable c link.earlier + link.dimension) = v := by
  obtain ⟨hentries, hrel, hrhs, heval⟩ := constraint?_eval h
  refine ⟨hentries, fun x => ?_⟩
  rw [hrel, hrhs, heval, Relation.Holds]

theorem program?_eq_some (h : program? c ds = some p) :
    p.direction = .minimize ∧ p.vars = shiftVars c ∧
      Form.ofTerms? ((List.range p.vars.length).map ((·, 1))) = some p.objective ∧
      ds.mapM (constraint? c) = some p.constraints := by
  unfold program? at h
  obtain ⟨objective, hobj, h⟩ := Option.bind_eq_some_iff.mp h
  obtain ⟨constraints, hcs, h⟩ := Option.bind_eq_some_iff.mp h
  cases h
  exact ⟨rfl, rfl, hobj, hcs⟩

/-- The program minimizes the sum of all shifts. -/
theorem program?_cost (h : program? c ds = some p) (x : ℕ → ℚ) :
    p.cost x = ((List.range p.vars.length).map x).sum := by
  obtain ⟨hdir, -, hobj, -⟩ := program?_eq_some h
  rw [Program.cost, hdir, Form.eval_ofTerms? hobj, Form.evalTerms, List.map_map]
  simp [Relaxation.sign, Function.comp_def]

/-- Every link is between entries of the chain. -/
theorem entry_of_program? (h : program? c ds = some p) {link : Link} {v : ℤ}
    (hmem : (link, v) ∈ ds) :
    Entry c link.later link.dimension ∧ Entry c link.earlier link.dimension := by
  obtain ⟨-, -, -, hcs⟩ := program?_eq_some h
  obtain ⟨con, -, hcon⟩ := (Checked.mapM_option_mem hcs).1 _ hmem
  exact (constraint?_eq_some hcon).1

theorem var_of_program? (h : program? c ds = some p) {v : Variable} (hv : v ∈ p.vars) :
    v.bounds = ⟨some 0, none⟩ ∧ v.integer = true := by
  obtain ⟨-, hvars, -⟩ := program?_eq_some h
  exact eq_of_mem_shiftVars (hvars ▸ hv)

theorem relaxes_iff (h : program? c ds = some p) (x : ℕ → ℚ) :
    p.Relaxes p.box x ↔ (∀ i < p.vars.length, 0 ≤ x i) ∧
      ∀ link v, (link, v) ∈ ds →
        x (firstVariable c link.later + link.dimension) -
          x (firstVariable c link.earlier + link.dimension) = v := by
  obtain ⟨-, -, -, hcs⟩ := program?_eq_some h
  obtain ⟨hsome, hmem⟩ := Checked.mapM_option_mem hcs
  constructor
  · intro hx
    refine ⟨fun i hi => ?_, fun link v hlink => ?_⟩
    · have hbox : p.box[i]? = some p.vars[i].bounds := by
        rw [Program.box, List.getElem?_map, List.getElem?_eq_getElem hi, Option.map_some]
      have hcontains := hx.inBox i _ hbox
      rw [(var_of_program? h (List.getElem_mem hi)).1] at hcontains
      simpa using hcontains.1 0 rfl
    · obtain ⟨con, hcon, heq⟩ := hsome _ hlink
      exact ((constraint?_eq_some heq).2 x).mp (hx.constraints con hcon)
  · rintro ⟨hpos, hdiff⟩
    refine ⟨fun con hcon => ?_, fun i b hb => ?_⟩
    · obtain ⟨⟨link, v⟩, hlink, heq⟩ := hmem con hcon
      exact ((constraint?_eq_some heq).2 x).mpr (hdiff link v hlink)
    · rw [Program.box, List.getElem?_map] at hb
      obtain ⟨v, hv, rfl⟩ := Option.map_eq_some_iff.mp hb
      rw [(var_of_program? h (List.mem_of_getElem? hv)).1]
      refine ⟨fun l hl => ?_, fun u hu => by cases hu⟩
      cases hl
      simpa using hpos i (List.getElem?_eq_some_iff.mp hv).1

theorem feasible_iff (h : program? c ds = some p) (x : ℕ → ℚ) :
    p.Feasible x ↔ (∀ i < p.vars.length, 0 ≤ x i ∧ (x i).den = 1) ∧
      ∀ link v, (link, v) ∈ ds →
        x (firstVariable c link.later + link.dimension) -
          x (firstVariable c link.earlier + link.dimension) = v := by
  rw [p.feasible_iff]
  constructor
  · intro hx
    obtain ⟨hpos, hdiff⟩ := (relaxes_iff h x).mp hx.toRelaxes
    refine ⟨fun i hi => ⟨hpos i hi, ?_⟩, hdiff⟩
    have hget := List.getElem?_eq_getElem hi
    exact hx.integral i _ hget (var_of_program? h (List.mem_of_getElem? hget)).2
  · rintro ⟨hpos, hdiff⟩
    refine ⟨(relaxes_iff h x).mpr ⟨fun i hi => (hpos i hi).1, hdiff⟩, fun i v hv _ => ?_⟩
    exact (hpos i (List.getElem?_eq_some_iff.mp hv).1).2

/-- The minimum of two feasible points is feasible: both have the same differences, so it follows
the same one of them at both ends of a link. -/
theorem feasible_min (h : program? c ds = some p) {x y : ℕ → ℚ} (hx : p.Feasible x)
    (hy : p.Feasible y) : p.Feasible fun i => min (x i) (y i) := by
  rw [feasible_iff h] at hx hy ⊢
  refine ⟨fun i hi => ⟨le_min (hx.1 i hi).1 (hy.1 i hi).1, ?_⟩, fun link v hlink => ?_⟩
  · rcases min_choice (x i) (y i) with hmin | hmin <;> rw [hmin]
    · exact (hx.1 i hi).2
    · exact (hy.1 i hi).2
  · have h₁ := hx.2 link v hlink
    have h₂ := hy.2 link v hlink
    rcases le_total (x (firstVariable c link.later + link.dimension))
      (y (firstVariable c link.later + link.dimension)) with hle | hle
    · rw [min_eq_left hle, min_eq_left (by linarith), h₁]
    · rw [min_eq_right hle, min_eq_right (by linarith), h₂]

/-- A point with the least sum is least at every variable: otherwise its minimum with the other
point would have a smaller sum. -/
theorem le_of_cost_le (h : program? c ds = some p) {x y : ℕ → ℚ} (hx : p.Feasible x)
    (hopt : ∀ z, p.Feasible z → p.cost x ≤ p.cost z) (hy : p.Feasible y) {i : ℕ}
    (hi : i < p.vars.length) : x i ≤ y i := by
  by_contra hlt
  have hle := hopt _ (feasible_min h hx hy)
  rw [program?_cost h, program?_cost h] at hle
  refine absurd hle (not_le.mpr (List.sum_lt_sum _ _ (fun j _ => min_le_left _ _)
    ⟨i, List.mem_range.mpr hi, ?_⟩))
  exact min_lt_iff.mpr (.inr (not_le.mp hlt))

end Program

/-! ### Families of shifts -/

/-- Non-negative shifts with the differences that the distances ask for. -/
structure Solves (c : Chain) (ds : Distances) (t : ℕ → ℕ → ℤ) : Prop where
  nonneg : ∀ k d, Entry c k d → 0 ≤ t k d
  difference : ∀ link v, (link, v) ∈ ds →
    t link.later link.dimension - t link.earlier link.dimension = v

/-- Shifts that are least in every entry. -/
structure Least (c : Chain) (ds : Distances) (t : ℕ → ℕ → ℤ) : Prop extends Solves c ds t where
  le : ∀ t', Solves c ds t' → ∀ k d, Entry c k d → t k d ≤ t' k d

/-- The shifts of a family as tuples, nest by nest. -/
def family (c : Chain) (t : ℕ → ℕ → ℤ) : List (ℕ × Tuple) :=
  c.nests.zipIdx.map fun (nest, k) => (k, ⟨(List.range nest.dimensions).map (t k)⟩)

section Families

variable {p : Program} {t : ℕ → ℕ → ℤ}

theorem length_vars (h : program? c ds = some p) {α : Type} (f : ℕ → ℕ → α) :
    p.vars.length = (spread c f).length := by
  obtain ⟨-, hvars, -⟩ := program?_eq_some h
  rw [hvars, shiftVars_eq_spread]
  exact length_spread _ f

theorem Entry.lt_length (h : program? c ds = some p) {k d : ℕ} (he : Entry c k d) :
    firstVariable c k + d < p.vars.length := by
  rw [length_vars h fun _ _ => 0]
  exact (List.getElem?_eq_some_iff.mp (getElem?_spread _ he)).1

/-- The point of a family of shifts. -/
def point (c : Chain) (t : ℕ → ℕ → ℤ) (i : ℕ) : ℚ := (spread c t).getD i 0

theorem point_entry {k d : ℕ} (he : Entry c k d) : point c t (firstVariable c k + d) = t k d := by
  rw [point, List.getD_eq_getElem?_getD, getElem?_spread t he, Option.getD_some]

theorem Solves.feasible (ht : Solves c ds t) (h : program? c ds = some p) :
    p.Feasible (point c t) := by
  refine (feasible_iff h _).mpr ⟨fun i hi => ?_, fun link v hlink => ?_⟩
  · rw [length_vars h t] at hi
    obtain ⟨k, d, he, hkd⟩ := mem_spread.mp (List.getElem_mem hi)
    rw [point, List.getD_eq_getElem _ _ hi, ← hkd]
    exact ⟨Int.cast_nonneg (ht.nonneg k d he), Rat.den_intCast _⟩
  · obtain ⟨hn, hp⟩ := entry_of_program? h hlink
    rw [point_entry hn, point_entry hp, ← ht.difference link v hlink, Int.cast_sub]

/-- The least point of the program, read as a family, is the least family. -/
theorem least_of_feasible (h : program? c ds = some p) {x : ℕ → ℚ} (hx : p.Feasible x)
    (hopt : ∀ z, p.Feasible z → p.cost x ≤ p.cost z) :
    Least c ds fun k d => (x (firstVariable c k + d)).num := by
  obtain ⟨hpos, hdiff⟩ := (feasible_iff h x).mp hx
  have hnum : ∀ {k d}, Entry c k d →
      ((x (firstVariable c k + d)).num : ℚ) = x (firstVariable c k + d) := fun he =>
    Rat.coe_int_num_of_den_eq_one (hpos _ (he.lt_length h)).2
  refine ⟨⟨fun k d he => ?_, fun link v hlink => ?_⟩, fun t' ht' k d he => ?_⟩
  · exact Rat.num_nonneg.mpr (hpos _ (he.lt_length h)).1
  · obtain ⟨hn, hp⟩ := entry_of_program? h hlink
    have := hdiff link v hlink
    rw [← hnum hn, ← hnum hp] at this
    exact_mod_cast this
  · have hle := le_of_cost_le h hx hopt (ht'.feasible h) (he.lt_length h)
    rw [point_entry he, ← hnum he] at hle
    exact_mod_cast hle

end Families

/-! ### Groups of tied entries -/

/-- A link ties two entries to each other. -/
def Tied (ds : Distances) (a b : ℕ × ℕ) : Prop :=
  ∃ link v, (link, v) ∈ ds ∧ a = (link.earlier, link.dimension) ∧ b = (link.later, link.dimension)

section Groups

variable {t : ℕ → ℕ → ℤ} {k d : ℕ}

open Classical in
/-- The shifts with a whole group moved down by one. -/
noncomputable def lowered (ds : Distances) (a : ℕ × ℕ) (t : ℕ → ℕ → ℤ) (k d : ℕ) : ℤ :=
  if Relation.EqvGen (Tied ds) a (k, d) then t k d - 1 else t k d

/-- A group without a zero can be moved down: a link has both ends in it or none. -/
theorem Solves.lowered (ht : Solves c ds t) {a : ℕ × ℕ}
    (hpos : ∀ k d, Entry c k d → Relation.EqvGen (Tied ds) a (k, d) → t k d ≠ 0) :
    Solves c ds (lowered ds a t) := by
  refine ⟨fun k d he => ?_, fun link v hlink => ?_⟩
  · have hnonneg := ht.nonneg k d he
    unfold AutoShift.lowered
    by_cases hin : Relation.EqvGen (Tied ds) a (k, d)
    · rw [if_pos hin]
      have := hpos k d he hin
      omega
    · rwa [if_neg hin]
  · have htied : Tied ds (link.earlier, link.dimension) (link.later, link.dimension) :=
      ⟨link, v, hlink, rfl, rfl⟩
    have hdiff := ht.difference link v hlink
    unfold AutoShift.lowered
    by_cases hin : Relation.EqvGen (Tied ds) a (link.earlier, link.dimension)
    · rw [if_pos hin, if_pos (hin.trans _ _ _ (.rel _ _ htied))]
      omega
    · rw [if_neg hin, if_neg fun hn => hin (hn.trans _ _ _ (.symm _ _ (.rel _ _ htied)))]
      exact hdiff

/-- Every group has an entry that does not move. -/
theorem Least.exists_zero (ht : Least c ds t) (he : Entry c k d) :
    ∃ k' d', Entry c k' d' ∧ Relation.EqvGen (Tied ds) (k, d) (k', d') ∧ t k' d' = 0 := by
  by_contra hno
  have hpos : ∀ k' d', Entry c k' d' → Relation.EqvGen (Tied ds) (k, d) (k', d') → t k' d' ≠ 0 :=
    fun k' d' he' hin h0 => hno ⟨k', d', he', hin, h0⟩
  have hle := ht.le _ (ht.toSolves.lowered hpos) k d he
  rw [lowered, if_pos (.refl _)] at hle
  omega

/-- An entry that no link mentions is alone in its group. -/
theorem eq_of_eqvGen_tied {a x y : ℕ × ℕ} (ha : ∀ b, ¬ Tied ds a b ∧ ¬ Tied ds b a)
    (h : Relation.EqvGen (Tied ds) x y) : x = a ↔ y = a := by
  induction h with
  | rel x y hxy =>
    constructor
    · rintro rfl
      exact absurd hxy (ha y).1
    · rintro rfl
      exact absurd hxy (ha x).2
  | refl x => exact Iff.rfl
  | symm x y _ ih => exact ih.symm
  | trans x y z _ _ ih₁ ih₂ => exact ih₁.trans ih₂

/-- Entries that no link mentions do not move. -/
theorem Least.eq_zero (ht : Least c ds t) (he : Entry c k d)
    (hno : ∀ b, ¬ Tied ds (k, d) b ∧ ¬ Tied ds b (k, d)) : t k d = 0 := by
  obtain ⟨k', d', -, hin, h0⟩ := ht.exists_zero he
  have heq : (k', d') = (k, d) := (eq_of_eqvGen_tied hno hin).mp rfl
  cases heq
  exact h0

end Groups

/-! ### The answer -/

section Answer

variable {limit : ℕ} {s : Solution}

theorem intValue?_eq_some {i : ℕ} {v : ℤ} (h : s.intValue? i = some v) : v = (s.point i).num := by
  obtain ⟨r, hr, hv⟩ := Option.bind_eq_some_iff.mp h
  rw [Solution.point, List.getD_eq_getElem?_getD, show s.values[i]? = some r from hr,
    Option.getD_some]
  unfold Ratio.toInt? at hv
  by_cases hden : r.den = 1
  · rw [if_pos hden] at hv
    exact (Option.some.inj hv).symm
  · rw [if_neg hden] at hv
    cases hv

theorem readTuples_eq_ok {all : List (ℕ × Tuple)} (h : readTuples c s = .ok all) :
    all = family c fun k d => (s.point (firstVariable c k + d)).num := by
  refine Checked.mapM_eq_map (fun e _ y hy => ?_) h
  obtain ⟨values, hvalues, hy⟩ := Checked.bind_eq_ok hy
  cases hy
  rw [Checked.mapM_eq_map (fun d _ v hv => ?_) hvalues]
  cases hi : s.intValue? (firstVariable c e.2 + d) with
  | none => simp [hi] at hv
  | some w =>
    simp only [hi] at hv
    cases hv
    exact intValue?_eq_some hi

/-- Shifts are read from an optimal solution of the program. -/
theorem exists_solution_of_solveTuples {solver : Solver} {all : List (ℕ × Tuple)}
    (h : solveTuples c ds solver = .ok all) :
    ∃ p s, program? c ds = some p ∧ solver.solve p = some s ∧ s.status = .optimal ∧
      readTuples c s = .ok all := by
  unfold solveTuples at h
  cases hb : (program? c ds).bind solver.solve with
  | none =>
    rw [hb] at h
    cases h
  | some s =>
    rw [hb] at h
    obtain ⟨p, hp, hs⟩ := Option.bind_eq_some_iff.mp hb
    dsimp only at h
    by_cases hopt : s.isOptimal = true
    · rw [if_pos hopt] at h
      exact ⟨p, s, hp, hs, by simpa [Solution.isOptimal] using hopt,
        Checked.mapError_eq_ok_iff.mp h⟩
    · rw [if_neg hopt] at h
      cases h

theorem solveTuples_eq_ok {all : List (ℕ × Tuple)}
    (h : solveTuples c ds (BranchAndBound.solver limit) = .ok all) :
    (∀ link v, (link, v) ∈ ds →
      Entry c link.later link.dimension ∧ Entry c link.earlier link.dimension) ∧
      ∃ t, Least c ds t ∧ all = family c t := by
  obtain ⟨p, s, hp, hs, hopt, hread⟩ := exists_solution_of_solveTuples h
  refine ⟨fun link v => entry_of_program? hp, _, ?_, readTuples_eq_ok hread⟩
  exact least_of_feasible hp (BranchAndBound.feasible_point hs (.inl hopt)).2
    fun z => BranchAndBound.cost_point_le hs hopt

/-- Without dependences nothing moves. -/
theorem least_nil (c : Chain) : Least c [] fun _ _ => 0 :=
  ⟨⟨fun _ _ _ => le_rfl, fun _ _ h => absurd h List.not_mem_nil⟩,
    fun _ ht k d he => ht.nonneg k d he⟩

theorem tuples_eq_ok {includeZero : Bool} {ts : List (ℕ × Tuple)}
    (h : tuples c includeZero (BranchAndBound.solver limit) = .ok ts) :
    ∃ ds t, distances c = .ok ds ∧
      (∀ link v, (link, v) ∈ ds →
        Entry c link.later link.dimension ∧ Entry c link.earlier link.dimension) ∧
      Least c ds t ∧ ts = (family c t).filter (keep includeZero) := by
  unfold tuples at h
  obtain ⟨ds, hds, h⟩ := Checked.bind_eq_ok h
  have hds : distances c = .ok ds := Checked.mapError_eq_ok_iff.mp hds
  dsimp only at h
  by_cases hempty : ds.isEmpty = true
  · rw [if_pos hempty] at h
    cases h
    rw [List.isEmpty_iff] at hempty
    subst hempty
    refine ⟨[], _, hds, fun _ _ hm => absurd hm List.not_mem_nil, least_nil c, ?_⟩
    simp [family, Tuple.zeros]
  · rw [if_neg hempty] at h
    obtain ⟨all, hall, h⟩ := Checked.bind_eq_ok h
    cases h
    obtain ⟨hentry, t, hleast, rfl⟩ := solveTuples_eq_ok hall
    exact ⟨ds, t, hds, hentry, hleast, rfl⟩

theorem filter_keep_true (ts : List (ℕ × Tuple)) : ts.filter (keep true) = ts :=
  List.filter_eq_self.mpr fun _ _ => rfl

/-- Zero shifts are left out of the same answer. -/
theorem tuples_eq_map (c : Chain) (includeZero : Bool) (solver : Solver) :
    tuples c includeZero solver =
      (tuples c true solver).map fun ts => ts.filter (keep includeZero) := by
  unfold tuples
  cases distances c with
  | error e => rfl
  | ok ds =>
    by_cases hempty : ds.isEmpty = true
    · simp [hempty, Except.mapError, Except.map, bind, Except.bind, pure, Except.pure,
        filter_keep_true]
    · cases hs : solveTuples c ds solver <;>
        simp [hempty, hs, Except.mapError, Except.map, bind, Except.bind, pure, Except.pure,
          filter_keep_true]

/-- The shifts are the least family of non-negative shifts with the distances as differences, so
every group of tied entries has a zero; without zero shifts the answer is the same but for them. -/
theorem tuples_least {ts : List (ℕ × Tuple)}
    (h : tuples c true (BranchAndBound.solver limit) = .ok ts) :
    ∃ ds t, distances c = .ok ds ∧ ts = family c t ∧
      (∀ link v, (link, v) ∈ ds →
        Entry c link.later link.dimension ∧ Entry c link.earlier link.dimension) ∧
      Solves c ds t ∧ (∀ t', Solves c ds t' → ∀ k d, Entry c k d → t k d ≤ t' k d) ∧
      (∀ k d, Entry c k d →
        ∃ k' d', Entry c k' d' ∧ Relation.EqvGen (Tied ds) (k, d) (k', d') ∧ t k' d' = 0) ∧
      (∀ k d, Entry c k d → (∀ b, ¬ Tied ds (k, d) b ∧ ¬ Tied ds b (k, d)) → t k d = 0) ∧
      tuples c false (BranchAndBound.solver limit) = .ok (ts.filter fun e => !e.2.isZero) := by
  obtain ⟨ds, t, hds, hentry, hleast, rfl⟩ := tuples_eq_ok h
  refine ⟨ds, t, hds, filter_keep_true _, hentry, hleast.toSolves, hleast.le,
    fun k d => hleast.exists_zero, fun k d => hleast.eq_zero, ?_⟩
  rw [tuples_eq_map, h]
  rfl

/-- Two sweeps of a stencil between the arrays `A` and `B`, and a nest that has nothing to do with
them. -/
theorem tuples_least_stencil :
    let nest (dataspaces : List Dataspace) : Nest := ⟨⟨[("1", "N")], ["N"]⟩, dataspaces⟩
    let around : Collection := ⟨[⟨[-1]⟩, ⟨[0]⟩, ⟨[1]⟩], 1⟩
    let here : Collection := ⟨[⟨[0]⟩], 1⟩
    let c : Chain := ⟨[nest [⟨"A", around, ⟨[], 1⟩⟩, ⟨"B", ⟨[], 1⟩, here⟩],
      nest [⟨"B", around, ⟨[], 1⟩⟩, ⟨"A", ⟨[], 1⟩, here⟩], nest [⟨"C", here, here⟩]]⟩
    tuples c true (BranchAndBound.solver 100) = .ok [(0, ⟨[0]⟩), (1, ⟨[1]⟩), (2, ⟨[0]⟩)] ∧
      tuples c false (BranchAndBound.solver 100) = .ok [(1, ⟨[1]⟩)] ∧
      ∃ ds t, distances c = .ok ds ∧ [(0, ⟨[0]⟩), (1, ⟨[1]⟩), (2, ⟨[0]⟩)] = family c t ∧
        Solves c ds t ∧ ∀ t', Solves c ds t' → ∀ k d, Entry c k d → t k d ≤ t' k d := by
  intro nest around here c
  have h : tuples c true (BranchAndBound.solver 100) =
      .ok [(0, ⟨[0]⟩), (1, ⟨[1]⟩), (2, ⟨[0]⟩)] := by decide +kernel
  obtain ⟨ds, t, hds, hfamily, -, hsolves, hle, -, -, hfalse⟩ := tuples_least h
  exact ⟨h, hfalse, ds, t, hds, hfamily, hsolves, hle⟩

end Answer

end LoopSched.AutoShift
