import LoopSched.Proofs.Linear.Nodes

/-!
# Where a solve aborts

Two steps of the solver cannot report an overflow.  One is the change of sign of a row with a
negative right-hand side, if one of its numbers is the least word.  The other is the division of a
line of the first phase by a negative cell, if the cell is a fraction whose numerator is the least
word and the division comes to a zero before it overflows.  A solve aborts exactly if one of these
happens in a relaxation that its search solves; all other overflows are reported.
-/

namespace LoopSched

open Checked

namespace Ratio

variable {a b : ℚ}

theorem div_eq_abort_iff (ha : IsWord a) (hb : IsWord b) :
    div a b = .error .abort ↔ a = 0 ∧ b.num = Word.lo ∧ b.den ≠ 1 := by
  by_cases hne : b = 0
  · subst hne
    constructor
    · intro h
      cases h
    · rintro ⟨-, h, -⟩
      cases h
  rw [← not_cancels_iff ha hb hne]
  constructor
  · intro h hcancels
    exact stopsOnly_div (P := (· ≠ .abort)) (by decide) (.inr hcancels) _ h rfl
  · intro hcancels
    unfold Cancels at hcancels
    rw [not_or, not_or] at hcancels
    unfold div quotientParts
    rw [if_neg hne, if_neg hcancels.1, if_neg hcancels.2.1]
    dsimp only
    rw [if_neg hcancels.2.2]
    rfl

theorem neg_eq_error_iff {e : Halt} : neg a = .error e ↔ e = .abort ∧ ¬ Word.Fits (-a.num) := by
  unfold neg
  split
  case isTrue hfits => exact iff_of_false (fun h => by cases h) fun h => h.2 hfits
  case isFalse hfits =>
    constructor
    · intro h
      cases h
      exact ⟨rfl, hfits⟩
    · rintro ⟨rfl, -⟩
      rfl

/-- Of the words only the least one has no opposite. -/
theorem not_fits_neg_iff {n : ℤ} (h : Word.Fits n) : ¬ Word.Fits (-n) ↔ n = Word.lo := by
  unfold Word.Fits Word.lo Word.hi at h ⊢
  omega

end Ratio

namespace Linear

/-! ### Rows -/

/-- The row has to change its sign and holds the least word. -/
def Row.Stuck (r : Row) : Prop := r.rhs < 0 ∧ ∃ a ∈ r.coeffs ++ [r.rhs], a.num = Word.lo

theorem Row.normalize_eq_error_iff {r : Row} (hr : r.InWords) {e : Halt} :
    r.normalize = .error e ↔ e = .abort ∧ r.Stuck := by
  unfold Row.normalize Row.Stuck
  by_cases hneg : r.rhs < 0
  · have hwords : ∀ a ∈ r.coeffs ++ [r.rhs], Ratio.IsWord a := by
      rw [List.forall_mem_append, List.forall_mem_singleton]
      exact ⟨hr.coeffs, hr.rhs⟩
    have hlo : (∃ a ∈ r.coeffs ++ [r.rhs], Ratio.neg a = .error .abort) ↔
        ∃ a ∈ r.coeffs ++ [r.rhs], a.num = Word.lo := by
      refine exists_congr fun a => and_congr_right fun ha => ?_
      rw [Ratio.neg_eq_error_iff, Ratio.not_fits_neg_iff (hwords a ha).num]
      exact and_iff_right rfl
    rw [if_pos hneg,
      mapM_concat_eq_error_iff fun coeffs rhs => Row.mk coeffs r.relation.flipped rhs,
      mapM_eq_error_iff_exists fun a _ e he => (Ratio.neg_eq_error_iff.mp he).1, hlo]
    exact and_congr_right fun _ => (and_iff_right hneg).symm
  · rw [if_neg hneg]
    exact iff_of_false (fun h => by cases h) fun h => hneg h.2.1

theorem Simplex.normalize_rows_eq_error_iff {rows : List Row} (h : ∀ r ∈ rows, r.InWords)
    {e : Halt} : rows.mapM Row.normalize = .error e ↔ e = .abort ∧ ∃ r ∈ rows, r.Stuck := by
  rw [mapM_eq_error_iff_exists fun r hr e he => ((Row.normalize_eq_error_iff (h r hr)).mp he).1]
  refine and_congr_right fun _ => exists_congr fun r => and_congr_right fun hr => ?_
  rw [Row.normalize_eq_error_iff (h r hr)]
  exact and_iff_right rfl

/-! ### Lines -/

/-- Dividing the line comes to a zero before anything overflows, and the divisor is a fraction with
the least word as its numerator. -/
def Line.Jams (l : Line) (p : ℚ) : Prop :=
  p.num = Word.lo ∧ p.den ≠ 1 ∧ ∃ before after, l.cells ++ [l.rhs] = before ++ 0 :: after ∧
    ∀ a ∈ before, ∃ q, Ratio.div a p = .ok q

theorem Line.divide_eq_abort_iff {l : Line} {p : ℚ} (hl : l.InWords) (hp : Ratio.IsWord p) :
    l.divide p = .error .abort ↔ l.Jams p := by
  have hwords : ∀ a ∈ l.cells ++ [l.rhs], Ratio.IsWord a := by
    rw [List.forall_mem_append, List.forall_mem_singleton]
    exact ⟨hl.cells, hl.rhs⟩
  unfold divide Jams
  rw [mapM_concat_eq_error_iff (f := (Ratio.div · p)) fun cells rhs => Line.mk l.basic cells rhs,
    mapM_eq_error_iff]
  constructor
  · rintro ⟨before, a, after, heq, hbefore, ha⟩
    obtain ⟨rfl, hnum, hden⟩ :=
      (Ratio.div_eq_abort_iff (hwords a (by simp [heq])) hp).mp ha
    exact ⟨hnum, hden, before, after, heq, hbefore⟩
  · rintro ⟨hnum, hden, before, after, heq, hbefore⟩
    exact ⟨before, 0, after, heq, hbefore,
      (Ratio.div_eq_abort_iff Ratio.isWord_zero hp).mpr ⟨rfl, hnum, hden⟩⟩

/-! ### Tableaux -/

/-- Clearing the other lines only overflows, so a pivot aborts where its division does. -/
theorem Tableau.pivot_eq_abort_iff {t : Tableau} {r c : ℕ} :
    t.pivot r c = .error .abort ↔
      ∃ line, t.lines[r]? = some line ∧ line.divide (line.cell c) = .error .abort := by
  unfold pivot
  cases t.lines[r]? with
  | none => exact iff_of_false (fun h => by cases h) fun ⟨_, h, _⟩ => by cases h
  | some line =>
    have hP : Halt.overflow ≠ .abort := by decide
    rw [bind_eq_error_iff_of_stopsOnly fun lead _ => ?_]
    · simp
    · refine (stopsOnly_mapM fun l _ => lead.stopsOnly_eliminate hP c l).bind fun above _ => ?_
      refine (stopsOnly_mapM fun l _ => lead.stopsOnly_eliminate hP c l).bind fun below _ => ?_
      exact stopsOnly_ok _

namespace Simplex

open Tableau

variable {t₀ t : Tableau} {m k : ℕ}

theorem expel_eq_abort_iff (ht : t.InWords) :
    expel m t k = .error .abort ↔ ∃ l c, t.lines[k]? = some l ∧ m ≤ l.basic ∧
      (List.range m).find? (l.cell · ≠ 0) = some c ∧ l.Jams (l.cell c) := by
  unfold expel
  cases hk : t.lines[k]? with
  | none => exact iff_of_false (fun h => by cases h) fun ⟨_, _, h, _⟩ => by cases h
  | some l =>
    have hl := ht l (List.mem_of_getElem? hk)
    dsimp only
    by_cases hbasic : l.basic < m
    · rw [if_pos hbasic]
      refine iff_of_false (fun h => by cases h) ?_
      rintro ⟨_, c, h, hm, -⟩
      cases h
      exact absurd hm (not_le.mpr hbasic)
    rw [if_neg hbasic]
    cases hfind : (List.range m).find? (l.cell · ≠ 0) with
    | none =>
      refine iff_of_false (fun h => by cases h) ?_
      rintro ⟨_, c, h, -, h', -⟩
      cases h
      rw [hfind] at h'
      cases h'
    | some c =>
      dsimp only
      rw [pivot_eq_abort_iff, hk]
      constructor
      · rintro ⟨_, h, hdiv⟩
        cases h
        exact ⟨l, c, rfl, not_lt.mp hbasic, hfind,
          (Line.divide_eq_abort_iff hl (hl.cell c)).mp hdiv⟩
      · rintro ⟨_, c', h, -, h', hjams⟩
        cases h
        rw [hfind] at h'
        cases h'
        exact ⟨l, rfl, (Line.divide_eq_abort_iff hl (hl.cell c)).mpr hjams⟩

/-- The first phase ends with artificial columns at zero in the tableau `t`. -/
def Clears (m : ℕ) (t₀ t : Tableau) : Prop :=
  t₀.width ≠ m ∧ (∃ flag, t₀.optimize (phaseOneCost m t₀) t₀.width = .ok (flag, t)) ∧
    ∃ v ≤ 0, t.objective (phaseOneCost m t₀) = .ok v

/-- After the first phase, the turn comes to the line `l`, and its artificial column is to be
replaced by the column `c`. -/
def Expels (m : ℕ) (t₀ : Tableau) (l : Line) (c : ℕ) : Prop :=
  ∃ t, Clears m t₀ t ∧ ∃ k < t.lines.length, ∃ s, (List.range k).foldlM (expel m) t = .ok s ∧
    s.lines[k]? = some l ∧ m ≤ l.basic ∧ (List.range m).find? (l.cell · ≠ 0) = some c

/-- The first phase only divides by positive cells until it puts artificial columns out of the
basis. -/
theorem phaseOne_eq_abort_iff (ht₀ : t₀.Canonical) (hm : m ≤ t₀.width) (hwords : t₀.InWords) :
    phaseOne m t₀ = .error .abort ↔ ∃ l c, Expels m t₀ l c ∧ l.Jams (l.cell c) := by
  have hP : Halt.overflow ≠ .abort := by decide
  have hkeep : ∀ s s' r c, InWords s → s.pivot r c = .ok s' → InWords s' :=
    fun _ _ _ _ => InWords.pivot
  have hoptimize : StopsOnly (· ≠ .abort) (t₀.optimize (phaseOneCost m t₀) t₀.width) :=
    stopsOnly_optimize (length_phaseOneCost hm).le le_rfl hkeep
      (steady_of_safe hP fun _ _ hs => .inr hs.safe) (.refl ht₀) hwords
  have hloop (t : Tableau) :
      (do return some (← (List.range t.lines.length).foldlM (expel m) t)) = .error .abort ↔
        ∃ k < t.lines.length, ∃ s, (List.range k).foldlM (expel m) t = .ok s ∧
          expel m s k = .error .abort :=
    (bind_eq_error_iff_of_stopsOnly fun _ _ => stopsOnly_ok _).trans foldlM_range_eq_error_iff
  unfold phaseOne
  by_cases hw : t₀.width = m
  · rw [if_pos hw]
    refine iff_of_false (fun h => by cases h) ?_
    rintro ⟨l, c, ⟨t, ⟨hne, -⟩, -⟩, -⟩
    exact hne hw
  rw [if_neg hw, hoptimize.bind_eq_error_iff]
  constructor
  · rintro ⟨⟨flag, t⟩, ht, h⟩
    obtain ⟨v, hv, h⟩ := (stopsOnly_objective hP _).bind_eq_error_iff.mp h
    by_cases hpos : 0 < v
    · rw [if_pos hpos] at h
      cases h
    rw [if_neg hpos, hloop] at h
    obtain ⟨k, hk, s, hs, h⟩ := h
    obtain ⟨l, c, hl, hbasic, hc, hjams⟩ :=
      (expel_eq_abort_iff (keeps_expelAll hkeep hwords ht hs)).mp h
    exact ⟨l, c, ⟨t, ⟨hw, ⟨flag, ht⟩, v, not_lt.mp hpos, hv⟩, k, hk, s, hs, hl, hbasic, hc⟩, hjams⟩
  · rintro ⟨l, c, ⟨t, ⟨-, ⟨flag, ht⟩, v, hv, hobjective⟩, k, hk, s, hs, hl, hbasic, hc⟩, hjams⟩
    refine ⟨(flag, t), ht, (stopsOnly_objective hP _).bind_eq_error_iff.mpr ⟨v, hobjective, ?_⟩⟩
    rw [if_neg (not_lt.mpr hv), hloop]
    exact ⟨k, hk, s, hs, (expel_eq_abort_iff (keeps_expelAll hkeep hwords ht hs)).mpr
      ⟨l, c, hl, hbasic, hc, hjams⟩⟩

/-- Putting the artificial columns out of the basis comes to a line that jams. -/
def Jams (cost : List ℚ) (rows : List Row) : Prop :=
  ∃ rows', rows.mapM Row.normalize = .ok rows' ∧ ∃ l c,
    Expels (cost.length + slackCount rows') (start cost.length rows') l c ∧ l.Jams (l.cell c)

theorem minimize_eq_abort_iff {cost : List ℚ} {rows : List Row}
    (hlen : ∀ r ∈ rows, r.coeffs.length = cost.length) (hwords : ∀ r ∈ rows, r.InWords) :
    minimize cost rows = .error .abort ↔ (∃ r ∈ rows, r.Stuck) ∨ Jams cost rows := by
  unfold minimize Jams
  cases hrows : rows.mapM Row.normalize with
  | error e =>
    obtain ⟨rfl, hstuck⟩ := (normalize_rows_eq_error_iff hwords).mp hrows
    exact iff_of_true rfl (.inl hstuck)
  | ok rows' =>
    have hstuck : ¬ ∃ r ∈ rows, r.Stuck := by
      intro h
      rw [(normalize_rows_eq_error_iff hwords).mpr ⟨rfl, h⟩] at hrows
      cases hrows
    obtain ⟨hrhs, hlen', -⟩ := normalize_rows hrows
    have hcanonical := start_canonical (hlen' _ hlen) hrhs
    have hm := slacks_le_width cost.length rows'
    have hstart : (start cost.length rows').InWords := by
      refine inWords_start fun r' hr' => ?_
      obtain ⟨r, hr, hr'⟩ := exists_of_mem_mapM hrows hr'
      exact (hwords r hr).normalize hr'
    rw [bind_of_eq_ok rfl]
    refine Iff.trans (bind_eq_error_iff_of_stopsOnly fun found hfound => ?_) ?_
    · cases found with
      | none => exact stopsOnly_ok _
      | some t =>
        obtain ⟨hreached, -⟩ := phaseOne_some hcanonical hm hfound
        exact stopsOnly_phaseTwo (fun _ _ _ _ => InWords.pivot)
          (steady_of_safe (by decide) fun _ _ hs => .inr hs.safe)
          (fun s _ => s.stopsOnly_objective (by decide) _) hreached
          (keeps_phaseOne (fun _ _ _ _ => InWords.pivot) hstart hfound) (by omega) hm
    rw [phaseOne_eq_abort_iff hcanonical hm hstart, or_iff_right hstuck]
    constructor
    · exact fun h => ⟨rows', rfl, h⟩
    · rintro ⟨_, h, hjams⟩
      cases h
      exact hjams

end Simplex

/-! ### Relaxations -/

namespace Relaxation

variable {p : Program} {box : List Bounds}

/-- The relaxation is posed without an overflow, and its minimization has a row that is stuck or a
line that jams. -/
def Aborts (p : Program) (box : List Bounds) : Prop :=
  box.any (·.crossed) = false ∧ ∃ posed, pose p box = .ok posed ∧
    ((∃ r ∈ posed.rows, r.Stuck) ∨ Simplex.Jams posed.cost posed.rows)

theorem solve_eq_abort_iff : solve p box = .error .abort ↔ Aborts p box := by
  have hP : Halt.overflow ≠ .abort := by decide
  unfold solve Aborts
  by_cases hcross : box.any (·.crossed) = true
  · rw [if_pos hcross]
    exact iff_of_false (fun h => by cases h) fun h => absurd hcross (by simp [h.1])
  rw [if_neg hcross, (stopsOnly_pose hP p box).bind_eq_error_iff,
    and_iff_right (Bool.not_eq_true _ ▸ hcross)]
  refine exists_congr fun posed => and_congr_right fun hposed => ?_
  rw [← Simplex.minimize_eq_abort_iff (poses_of_pose hposed).length_row (inWords_pose hposed)]
  refine bind_eq_error_iff_of_stopsOnly fun optimum _ => ?_
  cases optimum with
  | infeasible => exact stopsOnly_ok _
  | unbounded => exact stopsOnly_ok _
  | optimal objective y =>
    refine (stopsOnly_mapM fun column _ => stopsOnly_recover hP y column).bind fun _ _ => ?_
    exact (Ratio.stopsOnly_add hP _ _).bind fun _ _ => stopsOnly_ok _

theorem isWord_values {objective : ℚ} {values : List ℚ}
    (h : solve p box = .ok (.optimal objective values)) : ∀ v ∈ values, Ratio.IsWord v := by
  cases solve_ends h with
  | optimal _ _ _ hvalues _ =>
    intro v hv
    obtain ⟨column, -, hv⟩ := exists_of_mem_mapM hvalues hv
    exact isWord_recover hv

end Relaxation

/-! ### Searches -/

namespace BranchAndBound

variable {p : Program} {limit n : ℕ} {boxes : List (List Bounds)} {best : Option Incumbent}
  {box : List Bounds}

/-- There is always a word above a fraction of words. -/
theorem fits_floor_add_one {v : ℚ} (hv : Ratio.IsWord v) (hden : v.den ≠ 1) :
    Word.Fits (v.floor + 1) := by
  have hden : (2 : ℤ) ≤ v.den := by
    have := v.den_pos
    omega
  obtain ⟨hlo, hhi⟩ := hv.num
  have hle : v.num / v.den * v.den ≤ v.num := Int.ediv_mul_le _ (by omega)
  have hlt : v.num < (v.num / v.den + 1) * v.den := Int.lt_ediv_add_one_mul_self _ (by omega)
  have hzero : Word.lo < 0 ∧ 0 < Word.hi := by decide
  rw [Rat.floor_def]
  constructor
  · by_contra h
    nlinarith
  · by_contra h
    nlinarith

theorem not_blocked : ¬ Blocked p best box := by
  rintro ⟨objective, values, i, hsolve, -, hf, hfits⟩
  obtain ⟨-, v, hv, hden⟩ := fractional?_some hf
  have hword := Relaxation.isWord_values hsolve v (List.mem_of_getElem? hv)
  rw [List.getD_eq_getElem?_getD, hv] at hfits
  exact hfits (fits_floor_add_one hword hden)

theorem search_eq_abort_iff : search p n boxes best = .error .abort ↔
    ∃ box, Visits p n boxes best box ∧ Relaxation.Aborts p box := by
  constructor
  · intro h
    obtain ⟨box, hvisits, hstop | ⟨-, best', hblocked⟩⟩ := exists_visits_error h
    · exact ⟨box, hvisits, Relaxation.solve_eq_abort_iff.mp hstop⟩
    · exact absurd hblocked not_blocked
  · rintro ⟨box, hvisits, haborts⟩
    exact hvisits.search_eq_error (Relaxation.solve_eq_abort_iff.mpr haborts)

theorem search_eq_overflow_iff : search p n boxes best = .error .overflow ↔
    ∃ box, Visits p n boxes best box ∧ Relaxation.solve p box = .error .overflow := by
  constructor
  · intro h
    obtain ⟨box, hvisits, hstop | ⟨habort, -⟩⟩ := exists_visits_error h
    · exact ⟨box, hvisits, hstop⟩
    · cases habort
  · rintro ⟨box, hvisits, hstop⟩
    exact hvisits.search_eq_error hstop

/-- A number leaves the range of a word in a relaxation, or when the objective of the best point
gets its sign back. -/
def Overflows (limit : ℕ) (p : Program) : Prop :=
  (∃ box, Visits p limit [p.box] none box ∧ Relaxation.solve p box = .error .overflow) ∨
    ∃ exhausted best, search p limit [p.box] none = .ok (.finished exhausted (some best)) ∧
      Ratio.mul best.objective (Relaxation.sign p.direction) = .error .overflow

theorem answer_eq_error {verdict : Verdict} {e : Halt} (h : answer p verdict = .error e) :
    ∃ exhausted best, verdict = .finished exhausted (some best) ∧
      Ratio.mul best.objective (Relaxation.sign p.direction) = .error e := by
  match verdict with
  | .unbounded => cases h
  | .finished _ none => cases h
  | .finished exhausted (some best) =>
    refine ⟨exhausted, best, rfl, ?_⟩
    exact (bind_eq_error h).resolve_right fun ⟨_, _, h⟩ => by cases h

theorem run_eq_error_iff {e : Halt} : run limit p = .error e ↔
    search p limit [p.box] none = .error e ∨
      ∃ exhausted best, search p limit [p.box] none = .ok (.finished exhausted (some best)) ∧
        Ratio.mul best.objective (Relaxation.sign p.direction) = .error e := by
  have hrun : run limit p = search p limit [p.box] none >>= answer p := rfl
  rw [hrun]
  constructor
  · intro h
    rcases bind_eq_error h with h | ⟨verdict, hverdict, h⟩
    · exact .inl h
    · obtain ⟨exhausted, best, rfl, hmul⟩ := answer_eq_error h
      exact .inr ⟨exhausted, best, hverdict, hmul⟩
  · rintro (h | ⟨exhausted, best, hsearch, hmul⟩)
    · rw [h]
      rfl
    · rw [hsearch, bind_of_eq_ok rfl, answer, hmul]
      rfl

theorem run_eq_abort_iff : run limit p = .error .abort ↔
    ∃ box, Visits p limit [p.box] none box ∧ Relaxation.Aborts p box := by
  rw [run_eq_error_iff, search_eq_abort_iff]
  refine or_iff_left ?_
  rintro ⟨_, best, -, hmul⟩
  exact Ratio.stopsOnly_mul (P := (· ≠ .abort)) (by decide) _ _ _ hmul rfl

theorem run_eq_overflow_iff : run limit p = .error .overflow ↔ Overflows limit p := by
  rw [run_eq_error_iff, search_eq_overflow_iff]
  rfl

/-- A solve gives no solution only if a relaxation that it solves aborts. -/
theorem solve_eq_none_iff : solve limit p = none ↔
    p.validate = none ∧ ∃ box, Visits p limit [p.box] none box ∧ Relaxation.Aborts p box := by
  rw [solve_eq_iff (by simp), ← run_eq_abort_iff]
  refine and_congr_right fun _ => ?_
  cases run limit p with
  | ok s => simp
  | error e => cases e <;> simp

-- the first phase leaves a line with the cell `lo / 3`, by which its zeros cannot be divided
example :
    let p : Program :=
      { direction := .minimize
        vars := [⟨"x", ⟨some 0, none⟩, true⟩, ⟨"y", ⟨some 0, none⟩, true⟩,
          ⟨"z", ⟨some 0, none⟩, true⟩]
        constraints := [⟨⟨[(0, -1), (2, 1)], 0⟩, .eq, 0⟩, ⟨⟨[(1, 3), (2, 2)], 0⟩, .eq, 0⟩,
          ⟨⟨[(1, 1), (2, -3074457345618258602)], 0⟩, .eq, 0⟩]
        objective := ⟨[(0, 1)], 0⟩ }
    p.validate = none ∧ solve 1 p = none := by
  decide +kernel

/-- Every other overflow is a status. -/
theorem solve_eq_abnormal_iff : solve limit p = some { status := .abnormal } ↔
    p.validate = none ∧ Overflows limit p := by
  rw [solve_eq_iff (by simp), ← run_eq_overflow_iff]
  refine and_congr_right fun _ => ?_
  cases hrun : run limit p with
  | ok s =>
    refine iff_of_false (fun h => ?_) (fun h => by cases h)
    cases h
    obtain ⟨verdict, -, hanswer⟩ := bind_eq_ok hrun
    rcases answer_eq_ok hanswer with ⟨-, h⟩ | ⟨exhausted, -, h⟩ | ⟨exhausted, best, -, h⟩
    · cases h
    · cases exhausted <;> cases h
    · cases exhausted <;> cases h
  | error e =>
    cases e with
    | overflow => simp
    | abort => simp
    | stalled => exact absurd rfl (run_never_stalls limit p _ hrun)

end BranchAndBound

end Linear

end LoopSched
