import LoopSched.Proofs.Linear.Bland
import LoopSched.Proofs.Linear.Relaxation
import LoopSched.Proofs.Linear.Rounding
import LoopSched.Proofs.Linear.Words

/-!
# Why the simplex method stops

Sums, differences and products stop with an overflow only.  A quotient whose parts cancel does too;
other quotients and the change of sign can also abort.  The budget of pivots is never used up, so a
relaxation stops for these two reasons only, and one over rows of differences, whose tableaux are
whole, with an overflow only.  `P` is the set of reasons; each lemma asks that it contains an abort
or that none can arise.
-/

namespace LoopSched

open Checked

variable {P : Halt → Prop}

/-! ### Arithmetic -/

section Arithmetic

variable (hP : P .overflow)
include hP

theorem Word.stopsOnly_check (n : ℤ) : StopsOnly P (Word.check n) := by
  unfold Word.check
  split
  · exact stopsOnly_ok _
  · exact stopsOnly_error hP

namespace Ratio

theorem stopsOnly_add (a b : ℚ) : StopsOnly P (add a b) := by
  unfold add
  refine (Word.stopsOnly_check hP _).bind fun _ _ => ?_
  refine (Word.stopsOnly_check hP _).bind fun _ _ => ?_
  refine (Word.stopsOnly_check hP _).bind fun _ _ => ?_
  refine (Word.stopsOnly_check hP _).bind fun _ _ => ?_
  exact stopsOnly_ok _

theorem stopsOnly_sub (a b : ℚ) : StopsOnly P (sub a b) := by
  unfold sub
  refine (Word.stopsOnly_check hP _).bind fun _ _ => ?_
  refine (Word.stopsOnly_check hP _).bind fun _ _ => ?_
  refine (Word.stopsOnly_check hP _).bind fun _ _ => ?_
  refine (Word.stopsOnly_check hP _).bind fun _ _ => ?_
  exact stopsOnly_ok _

theorem stopsOnly_mul (a b : ℚ) : StopsOnly P (mul a b) := by
  unfold mul
  refine (Word.stopsOnly_check hP _).bind fun _ _ => ?_
  refine (Word.stopsOnly_check hP _).bind fun _ _ => ?_
  exact stopsOnly_ok _

theorem stopsOnly_quotientParts {a b : ℚ} (h : P .abort ∨ Cancels a b) :
    StopsOnly P (quotientParts a b) := by
  unfold quotientParts
  by_cases hden : a.den = b.den
  · rw [if_pos hden]
    exact stopsOnly_ok _
  rw [if_neg hden]
  by_cases hnum : a.num = b.num
  · rw [if_pos hnum]
    exact stopsOnly_ok _
  rw [if_neg hnum]
  dsimp only
  split
  case isTrue =>
    refine (Word.stopsOnly_check hP _).bind fun _ _ => ?_
    refine (Word.stopsOnly_check hP _).bind fun _ _ => ?_
    exact stopsOnly_ok _
  case isFalse hgcd =>
    refine stopsOnly_error (h.resolve_right fun hcancels => hgcd ?_)
    exact (hcancels.resolve_left hden).resolve_left hnum

theorem stopsOnly_div {a b : ℚ} (h : P .abort ∨ Cancels a b) : StopsOnly P (div a b) := by
  unfold div
  by_cases hb : b = 0
  · rw [if_pos hb]
    exact stopsOnly_error hP
  rw [if_neg hb]
  refine (stopsOnly_quotientParts hP h).bind fun parts _ => ?_
  dsimp only
  split
  · refine (Word.stopsOnly_check hP _).bind fun _ _ => ?_
    refine (Word.stopsOnly_check hP _).bind fun _ _ => ?_
    exact stopsOnly_ok _
  · exact stopsOnly_ok _

omit hP in
theorem stopsOnly_neg {a : ℚ} (h : P .abort ∨ Word.Fits (-a.num)) : StopsOnly P (neg a) := by
  unfold neg
  by_cases hfits : Word.Fits (-a.num)
  · rw [if_pos hfits]
    exact stopsOnly_ok _
  · rw [if_neg hfits]
    exact stopsOnly_error (h.resolve_right hfits)

end Ratio

end Arithmetic

namespace Linear

/-! ### Tableaux -/

theorem Line.exists_cell {l : Line} {v : ℚ} (hv : v ∈ l.cells) : ∃ j, l.cell j = v := by
  obtain ⟨j, hj, rfl⟩ := List.getElem_of_mem hv
  exact ⟨j, List.getD_eq_getElem _ _ hj⟩

/-- The quotients of the line by the number all cancel. -/
structure Line.Cancels (l : Line) (p : ℚ) : Prop where
  cells : ∀ a ∈ l.cells, Ratio.Cancels a p
  rhs : Ratio.Cancels l.rhs p

theorem Line.Whole.cancels {l : Line} (h : l.Whole) (c : ℕ) : l.Cancels (l.cell c) := by
  refine ⟨fun a ha => .inl ?_, .inl ?_⟩
  · obtain ⟨j, rfl⟩ := exists_cell ha
    rw [h.cell j, h.cell c]
  · rw [h.rhs, h.cell c]

theorem Line.InWords.cancels {l : Line} (h : l.InWords) {c : ℕ} (hc : 0 < l.cell c) :
    l.Cancels (l.cell c) :=
  ⟨fun _ _ => Ratio.cancels_of_pos (h.cell c) hc, Ratio.cancels_of_pos (h.cell c) hc⟩

/-- Every line can be solved for a column in which it has a positive cell, without an abort. -/
def Tableau.Safe (t : Tableau) : Prop :=
  ∀ l ∈ t.lines, ∀ c, 0 < l.cell c → l.Cancels (l.cell c)

theorem Tableau.Whole.safe {t : Tableau} (h : t.Whole) : t.Safe :=
  fun l hl c _ => (h l hl).cancels c

theorem Tableau.InWords.safe {t : Tableau} (h : t.InWords) : t.Safe :=
  fun l hl _ hc => (h l hl).cancels hc

section Tableau

variable (hP : P .overflow)
include hP

theorem Line.stopsOnly_divide {l : Line} {p : ℚ} (h : P .abort ∨ l.Cancels p) :
    StopsOnly P (l.divide p) := by
  unfold divide
  refine (stopsOnly_mapM fun a ha => ?_).bind fun cells _ => ?_
  · exact Ratio.stopsOnly_div hP (h.imp_right fun hl => hl.cells a ha)
  · refine (Ratio.stopsOnly_div hP (h.imp_right fun hl => hl.rhs)).bind fun _ _ => ?_
    exact stopsOnly_ok _

theorem Line.stopsOnly_reduce (factor v p : ℚ) : StopsOnly P (reduce factor v p) := by
  unfold reduce
  split
  · exact stopsOnly_ok _
  · exact (Ratio.stopsOnly_mul hP _ _).bind fun _ _ => Ratio.stopsOnly_sub hP _ _

theorem Line.stopsOnly_eliminate (lead : Line) (c : ℕ) (l : Line) :
    StopsOnly P (lead.eliminate c l) := by
  unfold eliminate
  dsimp only
  split
  · exact stopsOnly_ok _
  · refine (stopsOnly_mapM fun x _ => stopsOnly_reduce hP _ _ _).bind fun _ _ => ?_
    exact (stopsOnly_reduce hP _ _ _).bind fun _ _ => stopsOnly_ok _

namespace Tableau

variable {t : Tableau}

theorem stopsOnly_pivot {r c : ℕ}
    (h : P .abort ∨ ∀ line, t.lines[r]? = some line → line.Cancels (line.cell c)) :
    StopsOnly P (t.pivot r c) := by
  unfold pivot
  cases hr : t.lines[r]? with
  | none => exact stopsOnly_ok _
  | some line =>
    refine (Line.stopsOnly_divide hP (h.imp_right fun h => h line hr)).bind fun lead _ => ?_
    refine (stopsOnly_mapM fun l _ => lead.stopsOnly_eliminate hP c l).bind fun above _ => ?_
    refine (stopsOnly_mapM fun l _ => lead.stopsOnly_eliminate hP c l).bind fun below _ => ?_
    exact stopsOnly_ok _

theorem stopsOnly_objective (cost : List ℚ) : StopsOnly P (t.objective cost) :=
  stopsOnly_foldlM fun _ _ _ => (Ratio.stopsOnly_mul hP _ _).bind fun _ _ =>
    Ratio.stopsOnly_add hP _ _

theorem stopsOnly_reducedCost (priced : List (ℚ × Line)) (cost : List ℚ) (j : ℕ) :
    StopsOnly P (reducedCost priced cost j) := by
  refine stopsOnly_foldlM fun x _ reduced => ?_
  dsimp only
  split
  · exact stopsOnly_ok _
  · exact (Ratio.stopsOnly_mul hP _ _).bind fun _ _ => Ratio.stopsOnly_sub hP _ _

theorem stopsOnly_entering? (cost : List ℚ) (allowed : ℕ) :
    StopsOnly P (t.entering? cost allowed) := by
  refine stopsOnly_findM? fun j _ => ?_
  split
  · exact stopsOnly_ok _
  · exact (stopsOnly_reducedCost hP _ _ _).bind fun _ _ => stopsOnly_ok _

theorem stopsOnly_leaving? (h : P .abort ∨ t.Safe) (c : ℕ) : StopsOnly P (t.leaving? c) := by
  refine stopsOnly_foldlM fun x hx best => ?_
  dsimp only
  split
  case isTrue => exact stopsOnly_ok _
  case isFalse hc =>
    refine (Ratio.stopsOnly_div hP (h.imp_right fun hsafe => ?_)).bind fun _ _ => stopsOnly_ok _
    exact (hsafe x.1 (List.fst_mem_of_mem_zipIdx hx) c (not_le.mp hc)).rhs

theorem stopsOnly_move (h : P .abort ∨ t.Safe) (cost : List ℚ) (allowed : ℕ) :
    StopsOnly P (t.move cost allowed) := by
  unfold move
  refine (stopsOnly_entering? hP _ _).bind fun column _ => ?_
  cases column with
  | none => exact stopsOnly_ok _
  | some c =>
    refine (stopsOnly_leaving? hP h c).bind fun best _ => ?_
    cases best <;> exact stopsOnly_ok _

end Tableau

end Tableau

/-! ### Runs -/

namespace Tableau

/-- The steps of the method, from the reached tableaux with the property `I`, stop only for the
reasons `P`. -/
structure Steady (P : Halt → Prop) (t₀ : Tableau) (I : Tableau → Prop) (cost : List ℚ)
    (allowed : ℕ) : Prop where
  move : ∀ s, Reached t₀ s → I s → StopsOnly P (s.move cost allowed)
  pivot : ∀ s r c l, Reached t₀ s → I s → s.lines[r]? = some l → 0 < l.cell c →
    StopsOnly P (s.pivot r c)

section Run

-- `I` is what the pivots of the run keep, beside the solutions
variable {t₀ t : Tableau} {cost : List ℚ} {allowed : ℕ} {I : Tableau → Prop}

theorem steady_of_safe (hP : P .overflow)
    (hsafe : ∀ s, Reached t₀ s → I s → P .abort ∨ s.Safe) : Steady P t₀ I cost allowed where
  move := fun s hs hI => stopsOnly_move hP (hsafe s hs hI) cost allowed
  pivot := by
    intro s r c l hs hI hl hpos
    refine stopsOnly_pivot hP ((hsafe s hs hI).imp_right fun hsafe line hline => ?_)
    rw [hl] at hline
    cases hline
    exact hsafe l (List.mem_of_getElem? hl) c hpos

theorem reached_of_optimize {s : Tableau} {flag : Bool} (ht : Reached t₀ t)
    (hallowed : allowed ≤ t₀.width) (h : t.optimize cost allowed = .ok (flag, s)) :
    Reached t₀ s :=
  (follow_spec (Reached t₀) (fun _ _ _ _ _ hs henters hl hlimits hp =>
    hs.pivot hallowed henters hl hlimits hp) _ ht h).1

variable (hcost : cost.length ≤ t₀.width) (hallowed : allowed ≤ t₀.width)
  (hkeep : ∀ s s' r c, I s → s.pivot r c = .ok s' → I s') (hsteady : Steady P t₀ I cost allowed)
include hcost hallowed hkeep hsteady

/-- A run stops where one of its steps does, or when it has made all its moves. -/
theorem follow_eq_error {e : Halt} : ∀ (n : ℕ) {t : Tableau}, Reached t₀ t → I t →
    follow cost allowed n t = .error e →
      P e ∨ ∃ run : ℕ → Tableau, run 0 = t ∧ Run cost allowed run n
  | 0, t, ht, _, _ => by
    refine .inr ⟨fun _ => t, rfl, ht.canonical, ?_, ?_, fun k hk => absurd hk k.not_lt_zero⟩
    · exact hcost.trans_eq ht.width_eq.symm
    · exact hallowed.trans_eq ht.width_eq.symm
  | n + 1, t, ht, hI, h => by
    have hcost' : cost.length ≤ t.width := hcost.trans_eq ht.width_eq.symm
    have hallowed' : allowed ≤ t.width := hallowed.trans_eq ht.width_eq.symm
    unfold follow at h
    rcases bind_eq_error h with h | ⟨m, hm, h⟩
    · exact .inl (hsteady.move t ht hI e h)
    have hmove := justifies_of_move hm
    cases m with
    | optimal => cases h
    | unbounded => cases h
    | pivot r c =>
      obtain ⟨henters, l, hl, hlimits⟩ := hmove
      rcases bind_eq_error h with h | ⟨s, hs, h⟩
      · exact .inl (hsteady.pivot t r c l ht hI hl hlimits.pos e h)
      have hstep := step_of_pivot ht.canonical hallowed' henters hl hlimits hs
      have hrest := follow_eq_error n (ht.trans hstep.reached) (hkeep t s r c hI hs) h
      rcases hrest with h | ⟨run, h0, hrun⟩
      · exact .inl h
      · -- the first move goes in front of the others
        refine .inr ⟨fun k => k.casesOn t run, rfl, ht.canonical, hcost', hallowed', fun k hk => ?_⟩
        cases k with
        | zero =>
          show ∃ c l, Step cost allowed t c l (run 0)
          rw [h0]
          exact ⟨c, l, hstep⟩
        | succ k => exact hrun.step k (Nat.lt_of_succ_lt_succ hk)

/-- The budget of moves is never used up. -/
theorem stopsOnly_optimize (ht : Reached t₀ t) (hI : I t) :
    StopsOnly P (t.optimize cost allowed) := by
  intro e he
  rcases follow_eq_error hcost hallowed hkeep hsteady _ ht hI he with he | ⟨run, rfl, hrun⟩
  · exact he
  · exact absurd hrun.length_lt (Nat.not_lt.mpr (Nat.le_succ _))

end Run

end Tableau

/-! ### The two phases -/

namespace Simplex

open Tableau

variable {t₀ t : Tableau} {m : ℕ} {I : Tableau → Prop}

section Keep

variable (hkeep : ∀ s s' r c, I s → s.pivot r c = .ok s' → I s')
include hkeep

theorem keeps_expel {t' : Tableau} {k : ℕ} (hI : I t) (h : expel m t k = .ok t') : I t' := by
  unfold expel at h
  split at h
  · cases h
    exact hI
  · split at h
    · cases h
      exact hI
    · split at h
      · cases h
        exact hI
      · exact hkeep _ _ _ _ hI h

theorem keeps_expelAll {cost : List ℚ} {allowed k : ℕ} {flag : Bool} {s : Tableau} (hI : I t₀)
    (ht : t₀.optimize cost allowed = .ok (flag, t))
    (hs : (List.range k).foldlM (expel m) t = .ok s) : I s := by
  have hend : I t := (follow_spec I (fun _ _ _ _ _ hI _ _ _ => hkeep _ _ _ _ hI) _ hI ht).1
  exact foldlM_invariant I (fun _ _ _ _ => keeps_expel hkeep) hend hs

/-- What pivots keep is kept by the first phase. -/
theorem keeps_phaseOne (hI : I t₀) (h : phaseOne m t₀ = .ok (some t)) : I t := by
  cases phaseOne_ends h with
  | direct => exact hI
  | feasible _ hopt _ _ hexpelled => exact keeps_expelAll hkeep hI hopt hexpelled

end Keep

theorem stopsOnly_phaseTwo {cost : List ℚ} (hkeep : ∀ s s' r c, I s → s.pivot r c = .ok s' → I s')
    (hsteady : Steady P t₀ I (phaseTwoCost cost t) m)
    (hobjective : ∀ s, Reached t₀ s → StopsOnly P (s.objective (phaseTwoCost cost t)))
    (ht : Reached t₀ t) (hI : I t) (hcost : cost.length ≤ t₀.width) (hm : m ≤ t₀.width) :
    StopsOnly P (phaseTwo cost m t) := by
  have hfull : (phaseTwoCost cost t).length ≤ t₀.width := by
    rw [length_phaseTwoCost (hcost.trans_eq ht.width_eq.symm), ht.width_eq]
  unfold phaseTwo
  refine (stopsOnly_optimize hfull hm hkeep hsteady ht hI).bind fun x hx => ?_
  obtain ⟨flag, s⟩ := x
  cases flag with
  | false => exact stopsOnly_ok _
  | true =>
    exact (hobjective s (reached_of_optimize ht hm hx)).bind fun _ _ => stopsOnly_ok _

section Expel

variable (hexpel : ∀ s r c l, Reached t₀ s → s.lines[r]? = some l → l.cell c ≠ 0 →
  StopsOnly P (s.pivot r c))
include hexpel

theorem stopsOnly_expel (ht : Reached t₀ t) (k : ℕ) : StopsOnly P (expel m t k) := by
  unfold expel
  cases hl : t.lines[k]? with
  | none => exact stopsOnly_ok _
  | some l =>
    dsimp only
    split
    · exact stopsOnly_ok _
    · cases hj : (List.range m).find? (l.cell · ≠ 0) with
      | none => exact stopsOnly_ok _
      | some j => exact hexpel t k j l ht hl (by simpa using List.find?_some hj)

theorem stopsOnly_expelAll {n : ℕ} (h : Expelled t₀ n m 0 t) (hm : m ≤ t₀.width) :
    ∀ k : ℕ, StopsOnly P ((List.range k).foldlM (expel m) t)
  | 0 => stopsOnly_ok _
  | k + 1 => by
    rw [List.range_succ, List.foldlM_append]
    refine (stopsOnly_expelAll h hm k).bind fun s hs => ?_
    rw [List.foldlM_cons]
    refine (stopsOnly_expel hexpel (h.run hm k hs).reached k).bind fun _ _ => ?_
    exact stopsOnly_ok _

theorem stopsOnly_phaseOne (hkeep : ∀ s s' r c, I s → s.pivot r c = .ok s' → I s')
    (hsteady : Steady P t₀ I (phaseOneCost m t₀) t₀.width)
    (hobjective : ∀ s, Reached t₀ s → StopsOnly P (s.objective (phaseOneCost m t₀)))
    (ht₀ : t₀.Canonical) (hI : I t₀) (hm : m ≤ t₀.width) : StopsOnly P (phaseOne m t₀) := by
  unfold phaseOne
  split
  · exact stopsOnly_ok _
  have hcost := length_phaseOneCost hm
  refine (stopsOnly_optimize hcost.le le_rfl hkeep hsteady (.refl ht₀) hI).bind fun x hx => ?_
  obtain ⟨flag, s⟩ := x
  obtain ⟨hreached, -⟩ := phaseOne_optimize ht₀ hx
  refine (hobjective s hreached).bind fun v hv => ?_
  obtain rfl := objective_eq_ok hv
  by_cases hpos : 0 < s.value (phaseOneCost m t₀)
  · rw [if_pos hpos]
    exact stopsOnly_ok _
  · rw [if_neg hpos]
    have hstart := expelled_start hreached (not_lt.mp hpos)
    exact (stopsOnly_expelAll hexpel hstart hm _).bind fun _ _ => stopsOnly_ok _

end Expel

end Simplex

/-! ### Minimizations -/

/-- The coefficients of a difference are small and can change their sign. -/
theorem Row.Difference.stopsOnly_normalize {r : Row} (h : r.Difference) :
    StopsOnly P r.normalize := by
  obtain ⟨-, ⟨v, hv, hlo⟩, i, j, hdot⟩ := h
  unfold Row.normalize
  by_cases hneg : r.rhs < 0
  · rw [if_pos hneg]
    refine (stopsOnly_mapM fun a ha => Ratio.stopsOnly_neg (.inr ?_)).bind fun _ _ => ?_
    · obtain ⟨k, hk, rfl⟩ := List.getElem_of_mem ha
      have hcell := dot_indicator r.coeffs k
      rw [hdot, List.getD_eq_getElem _ _ hk] at hcell
      rw [← hcell]
      split <;> split <;> decide +kernel
    · refine (Ratio.stopsOnly_neg (.inr ?_)).bind fun _ _ => stopsOnly_ok _
      rw [hv] at hneg ⊢
      have hv' : v < 0 := by exact_mod_cast hneg
      rw [Rat.num_intCast]
      unfold Word.Fits Word.hi
      unfold Word.lo at hlo ⊢
      omega
  · rw [if_neg hneg]
    exact stopsOnly_ok _

theorem Row.stopsOnly_normalize_of_abort (h : P .abort) (r : Row) : StopsOnly P r.normalize := by
  unfold Row.normalize
  split
  · refine (stopsOnly_mapM fun a _ => Ratio.stopsOnly_neg (.inl h)).bind fun _ _ => ?_
    exact (Ratio.stopsOnly_neg (.inl h)).bind fun _ _ => stopsOnly_ok _
  · exact stopsOnly_ok _

/-- A minimization stops with an overflow only, unless a number may abort. -/
theorem Simplex.stopsOnly_minimize (hP : P .overflow) {cost : List ℚ} {rows : List Row}
    (hlen : ∀ r ∈ rows, r.coeffs.length = cost.length)
    (h : P .abort ∨ ∀ r ∈ rows, r.Difference) : StopsOnly P (minimize cost rows) := by
  unfold minimize
  refine (stopsOnly_mapM fun r hr => ?_).bind fun rows' hrows' => ?_
  · rcases h with habort | hdiff
    · exact r.stopsOnly_normalize_of_abort habort
    · exact (hdiff r hr).stopsOnly_normalize
  obtain ⟨hrhs, hlen', -⟩ := normalize_rows hrows'
  replace hlen' := hlen' _ hlen
  have hwhole : ∀ s, Tableau.Reached (start cost.length rows') s → P .abort ∨ s.Whole := by
    intro s hs
    refine h.imp_right fun hdiff => hs.whole ?_
    exact start_rounds hlen' hrhs (Row.Difference.of_mapM_normalize hdiff hrows')
  have hsteady : ∀ full allowed,
      Tableau.Steady P (start cost.length rows') (fun _ => True) full allowed := fun _ _ =>
    Tableau.steady_of_safe hP fun s hs _ => (hwhole s hs).imp_right Tableau.Whole.safe
  have hcanonical := start_canonical hlen' hrhs
  have hm := slacks_le_width cost.length rows'
  refine (stopsOnly_phaseOne (fun s r c l hs hl _ => ?_) (fun _ _ _ _ _ _ => trivial) (hsteady _ _)
    (fun s _ => s.stopsOnly_objective hP _) hcanonical trivial hm).bind fun found hfound => ?_
  · refine Tableau.stopsOnly_pivot hP ((hwhole s hs).imp_right fun hwhole line hline => ?_)
    exact (hwhole line (List.mem_of_getElem? hline)).cancels c
  cases found with
  | none => exact stopsOnly_ok _
  | some t =>
    obtain ⟨hreached, -⟩ := phaseOne_some hcanonical hm hfound
    exact stopsOnly_phaseTwo (fun _ _ _ _ _ _ => trivial) (hsteady _ _)
      (fun s _ => s.stopsOnly_objective hP _) hreached trivial (by omega) hm

/-! ### Relaxations -/

namespace Relaxation

section

variable (hP : P .overflow)
include hP

theorem stopsOnly_substitute (coeffs : List ℚ) (c : ℤ) (column : Column) :
    StopsOnly P (substitute coeffs c column) := by
  cases column with
  | above col lower =>
    refine (Ratio.stopsOnly_add hP _ _).bind fun _ _ => ?_
    exact (Ratio.stopsOnly_mul hP _ _).bind fun _ _ => stopsOnly_ok _
  | below col upper =>
    refine (Ratio.stopsOnly_sub hP _ _).bind fun _ _ => ?_
    exact (Ratio.stopsOnly_mul hP _ _).bind fun _ _ => stopsOnly_ok _
  | split pos neg =>
    refine (Ratio.stopsOnly_add hP _ _).bind fun _ _ => ?_
    exact (Ratio.stopsOnly_sub hP _ _).bind fun _ _ => stopsOnly_ok _

theorem stopsOnly_substituteTerm (columns : List Column) (sgn : ℤ) (coeffs : List ℚ)
    (t : ℕ × ℤ) : StopsOnly P (substituteTerm columns sgn coeffs t) := by
  unfold substituteTerm
  refine (Word.stopsOnly_check hP _).bind fun _ _ => ?_
  cases columns[t.1]? with
  | none => exact stopsOnly_ok _
  | some column => exact stopsOnly_substitute hP _ _ column

theorem stopsOnly_cost (p : Program) (columns : List Column) (n : ℕ) :
    StopsOnly P (cost p columns n) := by
  unfold cost
  refine (Word.stopsOnly_check hP _).bind fun _ _ => stopsOnly_foldlM fun t _ s => ?_
  refine (stopsOnly_substituteTerm hP _ _ _ _).bind fun _ _ => ?_
  exact (Ratio.stopsOnly_add hP _ _).bind fun _ _ => stopsOnly_ok _

theorem stopsOnly_constraintRow (columns : List Column) (n : ℕ) (c : Constraint) :
    StopsOnly P (constraintRow columns n c) := by
  unfold constraintRow
  refine (Ratio.stopsOnly_sub hP _ _).bind fun _ _ => ?_
  refine (stopsOnly_foldlM fun t _ s => ?_).bind fun _ _ => stopsOnly_ok _
  refine (stopsOnly_substituteTerm hP _ _ _ _).bind fun _ _ => ?_
  exact (Ratio.stopsOnly_sub hP _ _).bind fun _ _ => stopsOnly_ok _

theorem stopsOnly_boundRow? (n : ℕ) (b : Bounds) (column : Column) :
    StopsOnly P (boundRow? n b column) := by
  cases column with
  | above col lower =>
    unfold boundRow?
    cases b.upper with
    | none => exact stopsOnly_ok _
    | some upper => exact (Ratio.stopsOnly_sub hP _ _).bind fun _ _ => stopsOnly_ok _
  | below col upper => exact stopsOnly_ok _
  | split pos neg => exact stopsOnly_ok _

theorem stopsOnly_recover (y : List ℚ) (column : Column) : StopsOnly P (recover y column) := by
  cases column with
  | above col lower => exact Ratio.stopsOnly_add hP _ _
  | below col upper => exact Ratio.stopsOnly_sub hP _ _
  | split pos neg => exact Ratio.stopsOnly_sub hP _ _

theorem stopsOnly_pose (p : Program) (box : List Bounds) : StopsOnly P (pose p box) := by
  unfold pose
  refine (stopsOnly_cost hP _ _ _).bind fun _ _ => ?_
  refine (stopsOnly_mapM fun c _ => stopsOnly_constraintRow hP _ _ c).bind fun _ _ => ?_
  refine (stopsOnly_mapM fun x _ => stopsOnly_boundRow? hP _ _ _).bind fun _ _ => ?_
  exact stopsOnly_ok _

/-- A relaxation stops with an overflow only, unless a number of its minimization may abort. -/
theorem stopsOnly_solve {p : Program} {box : List Bounds}
    (h : ∀ coeffs offset rows, Poses p box coeffs offset rows →
      P .abort ∨ ∀ r ∈ rows, r.Difference) : StopsOnly P (solve p box) := by
  unfold solve
  split
  · exact stopsOnly_ok _
  refine (stopsOnly_pose hP p box).bind fun posed hposed => ?_
  have hposes := poses_of_pose hposed
  refine (Simplex.stopsOnly_minimize hP hposes.length_row (h _ _ _ hposes)).bind fun optimum _ => ?_
  cases optimum with
  | infeasible => exact stopsOnly_ok _
  | unbounded => exact stopsOnly_ok _
  | optimal objective y =>
    refine (stopsOnly_mapM fun column _ => stopsOnly_recover hP y column).bind fun _ _ => ?_
    exact (Ratio.stopsOnly_add hP _ _).bind fun _ _ => stopsOnly_ok _

end

theorem solve_never_stalls (p : Program) (box : List Bounds) :
    StopsOnly (· ≠ .stalled) (solve p box) :=
  stopsOnly_solve (by decide) fun _ _ _ _ => .inl (by decide)

end Relaxation

end Linear

end LoopSched
