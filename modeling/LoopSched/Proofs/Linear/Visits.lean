import LoopSched.Proofs.Linear.Phases

/-!
# The tableaux of a minimization

`Visits` lists every tableau that a minimization comes to, also those of a run that an overflow ends
later: the starting tableau, what each pivot of either phase leaves, and what each turn of the loop
between the phases leaves.  All of them are canonical and have the solutions of the starting
tableau.  From the second phase on, the lines that are still solved for an artificial column are
zero equations of the other columns and no pivot is made in them.
-/

namespace LoopSched.Linear.Simplex

open Tableau

/-- Where a minimization stands. -/
inductive Phase where
  | one
  /-- Before the given line of the loop that expels artificial columns. -/
  | expelling (line : ℕ)
  | two
deriving DecidableEq, Repr

/-- The minimization of `cost` from the tableau `t₀`, whose columns from `m` on are artificial,
comes to the tableau.  Every step is one that does not overflow. -/
inductive Visits (cost : List ℚ) (m : ℕ) (t₀ : Tableau) : Phase → Tableau → Prop
  | begin : t₀.width ≠ m → Visits cost m t₀ .one t₀
  | improve {t t' : Tableau} {r c : ℕ} : Visits cost m t₀ .one t →
      t.move (phaseOneCost m t₀) t₀.width = .ok (.pivot r c) → t.pivot r c = .ok t' →
      Visits cost m t₀ .one t'
  | feasible {t : Tableau} {last : Move} {sum : ℚ} : Visits cost m t₀ .one t →
      t.move (phaseOneCost m t₀) t₀.width = .ok last → (∀ r c, last ≠ .pivot r c) →
      t.objective (phaseOneCost m t₀) = .ok sum → ¬ 0 < sum → Visits cost m t₀ (.expelling 0) t
  | expel {t t' : Tableau} {k : ℕ} : Visits cost m t₀ (.expelling k) t → k < t.lines.length →
      expel m t k = .ok t' → Visits cost m t₀ (.expelling (k + 1)) t'
  | proceed {t : Tableau} : Visits cost m t₀ (.expelling t.lines.length) t → Visits cost m t₀ .two t
  | direct : t₀.width = m → Visits cost m t₀ .two t₀
  | descend {t t' : Tableau} {r c : ℕ} : Visits cost m t₀ .two t →
      t.move (phaseTwoCost cost t₀) m = .ok (.pivot r c) → t.pivot r c = .ok t' →
      Visits cost m t₀ .two t'

variable {cost : List ℚ} {m : ℕ} {t₀ t t' : Tableau} {phase : Phase}

/-! ### What every step keeps -/

/-- What holds of a tableau in each phase. -/
def Stands (m : ℕ) (t₀ : Tableau) : Phase → Tableau → Prop
  | .one, t => Reached t₀ t
  | .expelling k, t => Expelled t₀ t.lines.length m k t
  | .two, t => Reached t₀ t ∧ ∀ l ∈ t.lines, Idle m l

theorem Stands.reached (h : Stands m t₀ phase t) : Reached t₀ t := by
  cases phase with
  | one => exact h
  | expelling k => exact Expelled.reached h
  | two => exact h.1

theorem Expelled.step {n k : ℕ} (h : Expelled t₀ n m k t) (hm : m ≤ t₀.width)
    (hexpel : Simplex.expel m t k = .ok t') : Expelled t₀ n m (k + 1) t' := by
  obtain rfl := expel_eq_exact h.reached.canonical.wide hexpel
  exact h.exact hm

theorem Visits.stands (ht₀ : t₀.Canonical) (hm : m ≤ t₀.width) (h : Visits cost m t₀ phase t) :
    Stands m t₀ phase t := by
  induction h with
  | begin _ => exact Reached.refl ht₀
  | improve _ hmove hpivot ih =>
    obtain ⟨henters, l, hl, hlimits⟩ := justifies_of_move hmove
    exact Reached.pivot ih le_rfl henters hl hlimits hpivot
  | feasible _ _ _ hsum hpos ih =>
    obtain rfl := objective_eq_ok hsum
    exact expelled_start ih (not_lt.mp hpos)
  | expel _ _ hexpel ih =>
    have hnext := ih.step hm hexpel
    show Expelled _ _ _ _ _
    rwa [hnext.length_eq]
  | proceed _ ih =>
    refine ⟨ih.reached, fun l hl => Expelled.idle ih l ?_⟩
    rwa [List.take_length]
  | direct hwidth =>
    refine ⟨Reached.refl ht₀, fun l hl hbasic => ?_⟩
    have hlt := ht₀.basic_lt l hl
    omega
  | descend _ hmove hpivot ih =>
    obtain ⟨henters, l, hl, hlimits⟩ := justifies_of_move hmove
    exact ⟨ih.1.pivot hm henters hl hlimits hpivot,
      idle_pivot ih.1 ih.2 henters.lt_allowed hl hpivot⟩

/-- A basic column is one in its own line and zero in the others. -/
theorem cell_basic (ht : t.Canonical) {i k : ℕ} {l l' : Line} (hl : t.lines[i]? = some l)
    (hl' : t.lines[k]? = some l') : l'.cell l.basic = if k = i then 1 else 0 := by
  have hmem : l ∈ t.lines := List.mem_of_getElem? hl
  have hmem' : l' ∈ t.lines := List.mem_of_getElem? hl'
  by_cases hki : k = i
  · subst hki
    rw [if_pos rfl, Option.some.inj (hl'.symm.trans hl)]
    exact ht.own l hmem
  · rw [if_neg hki]
    refine ht.cell_eq_zero hmem' hmem fun heq => hki ?_
    have hb : t.basis[i]? = some l.basic := by rw [basis, List.getElem?_map, hl]; rfl
    have hb' : t.basis[k]? = some l'.basic := by rw [basis, List.getElem?_map, hl']; rfl
    exact (List.getElem?_inj (List.getElem?_eq_some_iff.mp hb').1 ht.nodup_basis).mp
      (by rw [hb, hb', heq])

/-- A line that is solved for an artificial column in the second phase is no line to pivot in. -/
theorem basic_lt_of_move (hidle : ∀ l ∈ t.lines, Idle m l) {full : List ℚ} {r c : ℕ}
    (hmove : t.move full m = .ok (.pivot r c)) : ∃ l, t.lines[r]? = some l ∧ l.basic < m := by
  obtain ⟨henters, l, hl, hlimits⟩ := justifies_of_move hmove
  refine ⟨l, hl, not_le.mp fun hbasic => ?_⟩
  have hzero := (hidle l (List.mem_of_getElem? hl) hbasic).2 c henters.lt_allowed
  exact absurd hlimits.pos (by rw [hzero]; exact lt_irrefl 0)

/-! ### A run goes through its tableaux -/

theorem Visits.follow_two {n : ℕ} {flag : Bool} (h : Visits cost m t₀ .two t)
    (hfollow : follow (phaseTwoCost cost t₀) m n t = .ok (flag, t')) : Visits cost m t₀ .two t' :=
  (follow_steps (Visits cost m t₀ .two) (fun _ _ _ _ => .descend) n h hfollow).1

theorem Visits.expel_all (ht₀ : t₀.Canonical) (hm : m ≤ t₀.width)
    (h : Visits cost m t₀ (.expelling 0) t) :
    ∀ {k : ℕ} {s : Tableau}, k ≤ t.lines.length →
      (List.range k).foldlM (Simplex.expel m) t = .ok s →
      Visits cost m t₀ (.expelling k) s ∧ s.lines.length = t.lines.length
  | 0, s, _, hs => by
    cases hs
    exact ⟨h, rfl⟩
  | k + 1, s, hk, hs => by
    rw [List.range_succ, List.foldlM_append] at hs
    obtain ⟨u, hu, hs⟩ := Checked.bind_eq_ok hs
    rw [List.foldlM_cons] at hs
    obtain ⟨s', hs', hs⟩ := Checked.bind_eq_ok hs
    cases hs
    obtain ⟨hvisits, hlength⟩ := Visits.expel_all ht₀ hm h (Nat.le_of_succ_le hk) hu
    have hstands : Expelled t₀ u.lines.length m k u := hvisits.stands ht₀ hm
    exact ⟨.expel hvisits (hlength ▸ hk) hs', (hstands.step hm hs').length_eq.trans hlength⟩

/-- What the first phase leaves is where the second one starts. -/
theorem visits_of_phaseOne (ht₀ : t₀.Canonical) (hm : m ≤ t₀.width)
    (h : phaseOne m t₀ = .ok (some t)) : Visits cost m t₀ .two t := by
  cases phaseOne_ends h with
  | direct hw => exact .direct hw
  | @feasible flag _ _ _ hw hopt hsum hpos hexpelled =>
    obtain ⟨hone, hend⟩ := follow_steps (Visits cost m t₀ .one) (fun _ _ _ _ => .improve) _
      (.begin hw) hopt
    have hlast : ∀ r c, (if flag then Move.optimal else .unbounded) ≠ .pivot r c := by
      intro r c
      cases flag <;> simp
    obtain ⟨hall, hlength⟩ :=
      (Visits.feasible hone hend hlast hsum hpos).expel_all ht₀ hm le_rfl hexpelled
    exact .proceed (hlength ▸ hall)

/-- An optimal answer is read off a tableau of the second phase. -/
theorem exists_visits_of_phaseTwo {objective : ℚ} {values : List ℚ} (hwidth : t.width = t₀.width)
    (h : Visits cost m t₀ .two t) (hrun : phaseTwo cost m t = .ok (.optimal objective values)) :
    ∃ s, Visits cost m t₀ .two s ∧ s.objective (phaseTwoCost cost t₀) = .ok objective ∧
      values = s.solution cost.length := by
  have hcost : phaseTwoCost cost t = phaseTwoCost cost t₀ := by
    rw [phaseTwoCost, phaseTwoCost, hwidth]
  cases phaseTwo_ends hrun with
  | @optimal s _ hopt hv =>
    rw [hcost] at hopt hv
    exact ⟨s, h.follow_two hopt, hv, rfl⟩

/-! ### The two invariants -/

section Minimize

variable {rows rows' : List Row} (hlen : ∀ r ∈ rows, r.coeffs.length = cost.length)
  (hrows : rows.mapM Row.normalize = .ok rows')
include hlen hrows

theorem canonical_of_normalize : (start cost.length rows').Canonical := by
  obtain ⟨hrhs, hlen', -⟩ := normalize_rows hrows
  exact start_canonical (hlen' _ hlen) hrhs

/-- Every tableau of a minimization is solved for distinct columns, which are unit vectors, has
non-negative right-hand sides, and has the solutions of the starting tableau. -/
theorem visits_solved {phase : Phase} {t : Tableau}
    (h : Visits cost (cost.length + slackCount rows') (start cost.length rows') phase t) :
    (∀ (i k : ℕ) (l l' : Line), t.lines[i]? = some l → t.lines[k]? = some l' →
      l'.cell l.basic = if k = i then 1 else 0) ∧
    (∀ l ∈ t.lines, 0 ≤ l.rhs) ∧ t.basis.Nodup ∧
    {y | t.Holds y} = {y | (start cost.length rows').Holds y} := by
  have hreached := (h.stands (canonical_of_normalize hlen hrows) (slacks_le_width _ _)).reached
  refine ⟨fun i k l l' hl hl' => cell_basic hreached.canonical hl hl',
    hreached.canonical.rhs_nonneg, hreached.canonical.nodup_basis, ?_⟩
  exact Set.ext hreached.holds_iff

omit hlen hrows in
/-- An equation that forces two columns to zero costs nothing at the start, so its artificial column
is expelled at once, by a pivot on a negative number. -/
theorem visits_solved_negative :
    let rows : List Row := [⟨[-1, -1], .eq, 0⟩]
    let t : Tableau := ⟨3, [⟨0, [1, 1, -1], 0⟩]⟩
    Visits [1, 1] 2 (start 2 rows) (.expelling 1) t ∧ t.basis.Nodup ∧
      {y | t.Holds y} = {y | (start 2 rows).Holds y} := by
  intro rows t
  have hmove : (start 2 rows).move (phaseOneCost 2 (start 2 rows)) 3 = .ok .optimal := by
    decide +kernel
  have hsum : (start 2 rows).objective (phaseOneCost 2 (start 2 rows)) = .ok 0 := by decide +kernel
  have hexpel : Simplex.expel 2 (start 2 rows) 0 = .ok t := by decide +kernel
  have hvisits : Visits [1, 1] 2 (start 2 rows) (.expelling 1) t :=
    .expel (.feasible (.begin (by decide)) hmove (by simp) hsum (lt_irrefl 0)) (by decide) hexpel
  have hlen : ∀ r ∈ rows, r.coeffs.length = [(1 : ℚ), 1].length := by decide
  have hrows : rows.mapM Row.normalize = .ok rows := by decide +kernel
  exact ⟨hvisits, (visits_solved hlen hrows hvisits).2.2⟩

/-- From the second phase on, a line that is solved for an artificial column is a zero equation of
the other columns, so that the column is zero, and no pivot is made in it.  The second phase starts
with what the first one leaves, and an optimal answer is read off one of its tableaux. -/
theorem artificial_lines_idle {m : ℕ} {t₀ : Tableau} (hm : m = cost.length + slackCount rows')
    (ht₀ : t₀ = start cost.length rows') :
    (∀ t, phaseOne m t₀ = .ok (some t) → Visits cost m t₀ .two t) ∧
    (∀ t, Visits cost m t₀ .two t →
      (∀ l ∈ t.lines, m ≤ l.basic → l.rhs = 0 ∧ ∀ j < m, l.cell j = 0) ∧
      (∀ j, m ≤ j → t.point j = 0) ∧
      ∀ r c, t.move (phaseTwoCost cost t₀) m = .ok (.pivot r c) →
        ∃ l, t.lines[r]? = some l ∧ l.basic < m) ∧
    ∀ objective values, minimize cost rows = .ok (.optimal objective values) →
      ∃ t, Visits cost m t₀ .two t ∧ t.objective (phaseTwoCost cost t₀) = .ok objective ∧
        values = (List.range cost.length).map t.point := by
  subst hm ht₀
  have hcanonical := canonical_of_normalize hlen hrows
  have hwidth := slacks_le_width cost.length rows'
  refine ⟨fun t ht => visits_of_phaseOne hcanonical hwidth ht, fun t ht => ?_,
    fun objective values hmin => ?_⟩
  · obtain ⟨-, hidle⟩ := ht.stands hcanonical hwidth
    refine ⟨hidle, fun j hj => ?_, fun r c hmove => basic_lt_of_move hidle hmove⟩
    exact point_eq_zero fun l hl hb => (hidle l hl (hb ▸ hj)).1
  · cases minimize_ends hmin with
    | @proceeds _ t _ hrows' hfound hmin =>
      obtain rfl := Except.ok.inj (hrows.symm.trans hrows')
      have hvisits : Visits cost _ _ .two t := visits_of_phaseOne hcanonical hwidth hfound
      exact exists_visits_of_phaseTwo (hvisits.stands hcanonical hwidth).reached.width_eq hvisits
        hmin

end Minimize

/-- Of two equations that say the same, one keeps its artificial column through the second phase. -/
theorem artificial_lines_idle_twice :
    let cost : List ℚ := [1, 2]
    let rows : List Row := [⟨[1, 1], .eq, 2⟩, ⟨[2, 2], .eq, 4⟩, ⟨[-1, 1], .lessEq, -1⟩]
    let t₀ : Tableau := start 2 [⟨[1, 1], .eq, 2⟩, ⟨[2, 2], .eq, 4⟩, ⟨[1, -1], .greaterEq, 1⟩]
    (∃ t l, phaseOne 3 t₀ = .ok (some t) ∧ t.lines[1]? = some l ∧ l.basic = 4 ∧
      l.cells.length = 6 ∧ l.rhs = 0 ∧ ∀ j < 3, l.cell j = 0) ∧
    minimize cost rows = .ok (.optimal 2 [2, 0]) ∧
    ∃ t, Visits cost 3 t₀ .two t ∧ t.point 4 = 0 ∧ [2, 0] = [t.point 0, t.point 1] := by
  intro cost rows t₀
  have hlen : ∀ r ∈ rows, r.coeffs.length = cost.length := by decide
  have hrows : rows.mapM Row.normalize =
      .ok [⟨[1, 1], .eq, 2⟩, ⟨[2, 2], .eq, 4⟩, ⟨[1, -1], .greaterEq, 1⟩] := by decide +kernel
  obtain ⟨hvisits, hidle, hanswer⟩ := artificial_lines_idle hlen hrows (m := 3) (by decide) rfl
  have hmin : minimize cost rows = .ok (.optimal 2 [2, 0]) := by decide +kernel
  refine ⟨?_, hmin, ?_⟩
  · have hphase : phaseOne 3 t₀ = .ok (some ⟨6, [⟨1, [0, 1, 1 / 2, 1 / 2, 0, -1 / 2], 1 / 2⟩,
        ⟨4, [0, 0, 0, -2, 1, 0], 0⟩, ⟨0, [1, 0, -1 / 2, 1 / 2, 0, 1 / 2], 3 / 2⟩]⟩) := by
      decide +kernel
    exact ⟨_, _, hphase, rfl, rfl, rfl,
      (hidle _ (hvisits _ hphase)).1 _ (by decide) (by decide)⟩
  · obtain ⟨t, ht, -, hvalues⟩ := hanswer 2 [2, 0] hmin
    exact ⟨t, ht, (hidle t ht).2.1 4 (by decide), hvalues⟩

end LoopSched.Linear.Simplex
