import LoopSched.Proofs.Linear.Moves
import LoopSched.Proofs.Linear.Start

/-!
# The two phases of the simplex method

Every pivot of either phase keeps the tableau canonical and its solutions the same.  The first
phase ends with the least sum of artificial columns, so a positive sum proves that the rows cannot
be satisfied.  Otherwise the lines still solved for an artificial column say nothing about the other
columns, and stay that way, so the second phase minimizes over exactly the points that satisfy the
rows.
-/

open Finset

namespace LoopSched.Linear

namespace Tableau

/-! ### What pivots keep -/

/-- The tableau is canonical and has the solutions of the tableau it comes from. -/
structure Reached (t₀ t : Tableau) : Prop where
  canonical : t.Canonical
  width_eq : t.width = t₀.width
  holds_iff : ∀ y, t.Holds y ↔ t₀.Holds y

theorem Reached.refl {t : Tableau} (ht : t.Canonical) : Reached t t := ⟨ht, rfl, fun _ => Iff.rfl⟩

section Exchange

variable {t₀ t : Tableau} {above below : List Line} {line : Line} {c : ℕ}

theorem Reached.exchange (h : Reached t₀ t) (hlines : t.lines = above ++ line :: below)
    (hc : line.cell c ≠ 0) (hcw : c < t.width)
    (hrhs : ∀ l ∈ (Tableau.exchange t.width above line below c).lines, 0 ≤ l.rhs) :
    Reached t₀ (Tableau.exchange t.width above line below c) := by
  obtain ⟨width, lines⟩ := t
  obtain rfl : lines = above ++ line :: below := hlines
  refine ⟨exchange_canonical h.canonical hc hcw hrhs, h.width_eq, fun y => ?_⟩
  rw [exchange_holds_iff h.canonical.wide hc]
  exact h.holds_iff y

/-- The line that limits the entering column the most keeps all right-hand sides non-negative. -/
theorem exchange_rhs_nonneg (ht : t.Canonical) (hlines : t.lines = above ++ line :: below)
    (hlimits : t.Limits c line) :
    ∀ l ∈ (Tableau.exchange t.width above line below c).lines, 0 ≤ l.rhs := by
  have hratio : 0 ≤ line.rhs / line.cell c :=
    div_nonneg (ht.rhs_nonneg line (by simp [hlines])) hlimits.pos.le
  have hother : ∀ l ∈ t.lines, 0 ≤ ((line.solvedFor c).cleared c l).rhs := by
    intro l hl
    rw [Line.cleared_rhs, Line.solvedFor_rhs, sub_nonneg]
    rcases le_or_gt (l.cell c) 0 with hneg | hpos
    · exact (mul_nonpos_of_nonpos_of_nonneg hneg hratio).trans (ht.rhs_nonneg l hl)
    · have hle : line.rhs / line.cell c ≤ l.rhs / l.cell c := by
        rcases hlimits.least l hl hpos with hlt | ⟨heq, -⟩
        · exact hlt.le
        · exact heq.le
      calc l.cell c * (line.rhs / line.cell c) ≤ l.cell c * (l.rhs / l.cell c) :=
            mul_le_mul_of_nonneg_left hle hpos.le
        _ = l.rhs := mul_div_cancel₀ l.rhs hpos.ne'
  simp only [Tableau.exchange, List.forall_mem_append, List.forall_mem_cons, List.forall_mem_map]
  exact ⟨fun l hl => hother l (by simp [hlines, hl]), hratio,
    fun l hl => hother l (by simp [hlines, hl])⟩

/-- The pivots of a run keep what `Reached` says. -/
theorem Reached.pivot {t' : Tableau} {cost : List ℚ} {allowed r : ℕ} (h : Reached t₀ t)
    (hallowed : allowed ≤ t₀.width) (henters : t.Enters cost allowed c)
    (hr : t.lines[r]? = some line) (hlimits : t.Limits c line) (hp : t.pivot r c = .ok t') :
    Reached t₀ t' := by
  obtain ⟨above, below, hlines, -, hc, rfl⟩ := pivot_eq_ok h.canonical.wide hr hp
  refine h.exchange hlines hc ?_ (exchange_rhs_nonneg h.canonical hlines hlimits)
  rw [h.width_eq]
  exact henters.lt_allowed.trans_le hallowed

end Exchange

/-! ### Lines solved for an artificial column -/

/-- If the line is solved for a column from `m` on, it is the zero equation below `m`. -/
def Idle (m : ℕ) (l : Line) : Prop := m ≤ l.basic → l.rhs = 0 ∧ ∀ j < m, l.cell j = 0

theorem idle_solvedFor {m c : ℕ} (hc : c < m) (l : Line) : Idle m (l.solvedFor c) :=
  fun h => absurd hc (not_lt.mpr h)

theorem Idle.cleared {m c : ℕ} {lead l : Line} (h : Idle m l) (hc : c < m)
    (hlen : l.cells.length = lead.cells.length) : Idle m (lead.cleared c l) := by
  intro hm
  obtain ⟨hrhs, hcells⟩ := h hm
  refine ⟨?_, fun j hj => ?_⟩
  · rw [Line.cleared_rhs, hcells c hc, hrhs, zero_mul, sub_zero]
  · rw [Line.cell_cleared hlen, hcells c hc, hcells j hj, zero_mul, sub_zero]

end Tableau

/-- One turn of the loop that expels artificial columns, without overflow. -/
def Exact.expel (artStart : ℕ) (t : Tableau) (i : ℕ) : Tableau :=
  match t.lines[i]? with
  | none => t
  | some l =>
    if l.basic < artStart then t else
      match (List.range artStart).find? (l.cell · ≠ 0) with
      | none => t
      | some j => pivot t i j

namespace Simplex

open Tableau

/-! ### Expelling artificial columns -/

/-- The state of the loop that expels artificial columns, before line `k`. -/
structure Expelled (t₀ : Tableau) (n m k : ℕ) (t : Tableau) : Prop where
  reached : Reached t₀ t
  length_eq : t.lines.length = n
  zero : ∀ l ∈ t.lines, m ≤ l.basic → l.rhs = 0
  idle : ∀ l ∈ t.lines.take k, Idle m l

/-- A line that needs no pivot. -/
theorem Expelled.skip {t₀ t : Tableau} {n m k : ℕ} (h : Expelled t₀ n m k t)
    (hk : ∀ l, t.lines[k]? = some l → Idle m l) : Expelled t₀ n m (k + 1) t := by
  refine ⟨h.reached, h.length_eq, h.zero, fun l hl => ?_⟩
  rw [List.take_add_one, List.mem_append, Option.mem_toList] at hl
  rcases hl with hl | hl
  · exact h.idle l hl
  · exact hk l hl

/-- An exchange in a line whose right-hand side is zero leaves all right-hand sides alone. -/
theorem Expelled.exchange {t₀ t : Tableau} {n m k c : ℕ} {above below : List Line} {line : Line}
    (h : Expelled t₀ n m k t) (hm : m ≤ t₀.width) (hlines : t.lines = above ++ line :: below)
    (hlen : above.length = k) (hb : m ≤ line.basic) (hc : line.cell c ≠ 0) (hcm : c < m) :
    Expelled t₀ n m (k + 1) (Tableau.exchange t.width above line below c) := by
  have hmem : line ∈ t.lines := by simp [hlines]
  have hlead : (line.solvedFor c).rhs = 0 := by
    rw [Line.solvedFor_rhs, h.zero line hmem hb, zero_div]
  have hkeep : ∀ l, ((line.solvedFor c).cleared c l).rhs = l.rhs := fun l => by
    rw [Line.cleared_rhs, hlead, mul_zero, sub_zero]
  refine ⟨h.reached.exchange hlines hc ?_ ?_, ?_, ?_, ?_⟩
  · rw [h.reached.width_eq]
    exact hcm.trans_le hm
  · simp only [Tableau.exchange, List.forall_mem_append, List.forall_mem_cons, List.forall_mem_map,
      hkeep, hlead]
    exact ⟨fun l hl => h.reached.canonical.rhs_nonneg l (by simp [hlines, hl]), le_rfl,
      fun l hl => h.reached.canonical.rhs_nonneg l (by simp [hlines, hl])⟩
  · rw [← h.length_eq, hlines]
    simp [Tableau.exchange]
  · simp only [Tableau.exchange, List.forall_mem_append, List.forall_mem_cons, List.forall_mem_map,
      hkeep]
    exact ⟨fun l hl => h.zero l (by simp [hlines, hl]), fun _ => hlead,
      fun l hl => h.zero l (by simp [hlines, hl])⟩
  · -- up to this line: the lines above, which the pivot does not disturb, and the new one
    have htake : (Tableau.exchange t.width above line below c).lines.take (k + 1) =
        above.map ((line.solvedFor c).cleared c) ++ [line.solvedFor c] := by
      simp [Tableau.exchange, List.take_append, hlen]
    rw [htake]
    simp only [List.forall_mem_append, List.forall_mem_singleton, List.forall_mem_map]
    refine ⟨fun l hl => Idle.cleared (h.idle l ?_) hcm ?_, idle_solvedFor hcm line⟩
    · rw [hlines, ← hlen]
      simpa using hl
    · rw [Line.length_solvedFor, h.reached.canonical.wide l (by simp [hlines, hl]),
        h.reached.canonical.wide line hmem]

theorem expel_eq_exact {t t' : Tableau} {m k : ℕ} (hwide : ∀ l ∈ t.lines, l.cells.length = t.width)
    (h : expel m t k = .ok t') : t' = Exact.expel m t k := by
  unfold expel at h
  unfold Exact.expel
  cases hk : t.lines[k]? with
  | none =>
    simp only [hk] at h
    cases h
    rfl
  | some line =>
    simp only [hk] at h ⊢
    by_cases hb : line.basic < m
    · rw [if_pos hb] at h ⊢
      cases h
      rfl
    · rw [if_neg hb] at h ⊢
      cases hfind : (List.range m).find? (line.cell · ≠ 0) with
      | none =>
        simp only [hfind] at h
        cases h
        rfl
      | some c =>
        simp only [hfind] at h
        exact pivot_eq_exact hwide h

theorem Expelled.exact {t₀ t : Tableau} {n m k : ℕ} (h : Expelled t₀ n m k t)
    (hm : m ≤ t₀.width) : Expelled t₀ n m (k + 1) (Exact.expel m t k) := by
  unfold Exact.expel
  cases hk : t.lines[k]? with
  | none => exact h.skip fun l hl => by rw [hk] at hl; cases hl
  | some line =>
    dsimp only
    by_cases hb : line.basic < m
    · rw [if_pos hb]
      exact h.skip fun l hl hl' => by rw [hk] at hl; cases hl; exact absurd hb (not_lt.mpr hl')
    · rw [if_neg hb]
      cases hfind : (List.range m).find? (line.cell · ≠ 0) with
      | none =>
        rw [List.find?_range_eq_none] at hfind
        exact h.skip fun l hl hl' => by
          rw [hk] at hl; cases hl
          exact ⟨h.zero line (List.mem_of_getElem? hk) hl', fun j hj => by simpa using hfind j hj⟩
      | some c =>
        obtain ⟨hc, hcm, -⟩ := List.find?_range_eq_some.mp hfind
        obtain ⟨hlines, hlen⟩ := lines_eq_append hk
        dsimp only
        rw [exact_pivot_eq hlines hlen]
        exact h.exchange hm hlines hlen (not_lt.mp hb) (by simpa using hc) (List.mem_range.mp hcm)

/-- The whole loop, line by line. -/
theorem Expelled.exact_run {t₀ t : Tableau} {n m : ℕ} (h : Expelled t₀ n m 0 t)
    (hm : m ≤ t₀.width) :
    ∀ k : ℕ, Expelled t₀ n m k ((List.range k).foldl (Exact.expel m) t)
  | 0 => h
  | k + 1 => by
    rw [List.range_succ, List.foldl_append]
    exact (Expelled.exact_run h hm k).exact hm

theorem Expelled.foldlM_eq_exact {t₀ t : Tableau} {n m : ℕ} (h : Expelled t₀ n m 0 t)
    (hm : m ≤ t₀.width) : ∀ (k : ℕ) {t' : Tableau},
      (List.range k).foldlM (expel m) t = .ok t' → t' = (List.range k).foldl (Exact.expel m) t
  | 0, t', hrun => by
    cases hrun
    rfl
  | k + 1, t', hrun => by
    rw [List.range_succ, List.foldlM_append] at hrun
    obtain ⟨s, hs, hrun⟩ := Checked.bind_eq_ok hrun
    rw [List.foldlM_cons] at hrun
    obtain ⟨s', hs', hrun⟩ := Checked.bind_eq_ok hrun
    cases hrun
    obtain rfl := Expelled.foldlM_eq_exact h hm k hs
    rw [List.range_succ, List.foldl_append]
    exact expel_eq_exact (h.exact_run hm k).reached.canonical.wide hs'

theorem Expelled.run {t₀ t t' : Tableau} {n m : ℕ} (h : Expelled t₀ n m 0 t) (hm : m ≤ t₀.width)
    (k : ℕ) (hrun : (List.range k).foldlM (expel m) t = .ok t') : Expelled t₀ n m k t' :=
  h.foldlM_eq_exact hm k hrun ▸ h.exact_run hm k

/-! ### The first phase -/

theorem getD_phaseOneCost (m j : ℕ) (t : Tableau) :
    (phaseOneCost m t).getD j 0 = if m ≤ j ∧ j < m + (t.width - m) then 1 else 0 := by
  unfold phaseOneCost
  rcases lt_or_ge j m with hj | hj
  · rw [List.getD_append _ _ _ _ (by simpa using hj), getD_zeros, if_neg (by omega)]
  · rw [List.getD_append_right _ _ _ _ (by simpa using hj), length_zeros]
    split_ifs with h
    · rw [List.getD_replicate _ (by omega)]
    · rw [List.getD_eq_default _ _ (by rw [List.length_replicate]; omega)]

theorem phaseOneCost_nonneg (m j : ℕ) (t : Tableau) : 0 ≤ (phaseOneCost m t).getD j 0 := by
  rw [getD_phaseOneCost]
  split_ifs
  · exact zero_le_one
  · exact le_rfl

theorem length_phaseOneCost {m : ℕ} {t : Tableau} (hm : m ≤ t.width) :
    (phaseOneCost m t).length = t.width := by
  simp [phaseOneCost, hm]

/-- A column with non-negative cost that nothing limits does not lower a non-negative cost. -/
theorem reduced_nonneg {t : Tableau} {cost : List ℚ} {c : ℕ} (hcost : ∀ j, 0 ≤ cost.getD j 0)
    (hcells : ∀ l ∈ t.lines, l.cell c ≤ 0) : 0 ≤ t.reduced cost c := by
  rw [reduced, sub_nonneg]
  have hterms : ∀ x ∈ t.lines.map fun l => cost.getD l.basic 0 * l.cell c, x ≤ 0 := by
    simp only [List.forall_mem_map]
    exact fun l hl => mul_nonpos_of_nonneg_of_nonpos (hcost l.basic) (hcells l hl)
  have hsum := List.sum_le_card_nsmul _ 0 hterms
  rw [nsmul_zero] at hsum
  exact hsum.trans (hcost c)

/-- The first phase never runs off, so it ends in an optimal tableau. -/
theorem phaseOne_optimize {m : ℕ} {t₀ t : Tableau} {flag : Bool} (ht₀ : t₀.Canonical)
    (h : t₀.optimize (phaseOneCost m t₀) t₀.width = .ok (flag, t)) :
    Reached t₀ t ∧ t.Optimal (phaseOneCost m t₀) t₀.width := by
  obtain ⟨hreached, hend⟩ := follow_spec (Reached t₀)
    (fun s s' r c l hs henters hl hlimits hp => hs.pivot le_rfl henters hl hlimits hp) _
    (Reached.refl ht₀) h
  cases flag with
  | true => exact ⟨hreached, hend⟩
  | false =>
    obtain ⟨c, henters, hcells⟩ := hend
    exact absurd henters.negative
      (not_lt.mpr (reduced_nonneg (fun j => phaseOneCost_nonneg m j t₀) hcells))

/-- The least sum of artificials is reached: no solution without artificials has a positive one. -/
theorem phaseOne_value_nonpos {m : ℕ} {t₀ t : Tableau} (hm : m ≤ t₀.width)
    (hreached : Reached t₀ t) (hoptimal : t.Optimal (phaseOneCost m t₀) t₀.width) {z : ℕ → ℚ}
    (hz : ∀ j, 0 ≤ z j) (hart : ∀ j, m ≤ j → z j = 0) (hsol : t₀.Holds z) :
    t.value (phaseOneCost m t₀) ≤ 0 := by
  have hlen := length_phaseOneCost hm
  have hle : t.value (phaseOneCost m t₀) ≤ dot (phaseOneCost m t₀) z := by
    refine hreached.canonical.value_le_dot (by rw [hlen, hreached.width_eq])
      ((hreached.holds_iff z).mpr hsol) hz fun j hj => ?_
    rcases hoptimal j (hreached.width_eq ▸ hj) with h | h
    · exact .inl h
    · exact .inr (.inl h)
  have hzero : dot (phaseOneCost m t₀) z = 0 := by
    rw [dot_eq_sum _ z le_rfl]
    refine sum_eq_zero fun j _ => ?_
    rcases lt_or_ge j m with hj | hj
    · rw [getD_phaseOneCost, if_neg (by omega), zero_mul]
    · rw [hart j hj, mul_zero]
  rwa [hzero] at hle

/-- With no artificial sum left, the lines of artificial columns have right-hand side zero. -/
theorem rhs_eq_zero_of_value {m : ℕ} {t₀ t : Tableau} (hreached : Reached t₀ t)
    (hvalue : t.value (phaseOneCost m t₀) ≤ 0) : ∀ l ∈ t.lines, m ≤ l.basic → l.rhs = 0 := by
  intro l hl hm
  have hterms : ∀ x ∈ t.lines.map fun l => (phaseOneCost m t₀).getD l.basic 0 * l.rhs, 0 ≤ x := by
    simp only [List.forall_mem_map]
    exact fun l hl =>
      mul_nonneg (phaseOneCost_nonneg m _ t₀) (hreached.canonical.rhs_nonneg l hl)
  have hle := (List.single_le_sum hterms _ (List.mem_map_of_mem hl)).trans hvalue
  have hlt := hreached.canonical.basic_lt l hl
  rw [hreached.width_eq] at hlt
  rw [getD_phaseOneCost, if_pos (by omega), one_mul] at hle
  exact le_antisymm hle (hreached.canonical.rhs_nonneg l hl)

/-- The tableau with which the expelling starts. -/
theorem expelled_start {m : ℕ} {t₀ t : Tableau} (hreached : Reached t₀ t)
    (hvalue : t.value (phaseOneCost m t₀) ≤ 0) : Expelled t₀ t.lines.length m 0 t :=
  ⟨hreached, rfl, rhs_eq_zero_of_value hreached hvalue, by simp⟩

/-- How the first phase can end. -/
inductive PhaseOneEnds (m : ℕ) (t₀ : Tableau) : Option Tableau → Prop
  /-- There are no artificial columns. -/
  | direct : t₀.width = m → PhaseOneEnds m t₀ (some t₀)
  /-- Their least sum is positive. -/
  | infeasible {flag : Bool} {s : Tableau} {sum : ℚ} : t₀.width ≠ m →
      t₀.optimize (phaseOneCost m t₀) t₀.width = .ok (flag, s) →
      s.objective (phaseOneCost m t₀) = .ok sum → 0 < sum → PhaseOneEnds m t₀ none
  /-- Their least sum is zero, and they are expelled from all lines they can be expelled from. -/
  | feasible {flag : Bool} {s t : Tableau} {sum : ℚ} : t₀.width ≠ m →
      t₀.optimize (phaseOneCost m t₀) t₀.width = .ok (flag, s) →
      s.objective (phaseOneCost m t₀) = .ok sum → ¬ 0 < sum →
      (List.range s.lines.length).foldlM (expel m) s = .ok t → PhaseOneEnds m t₀ (some t)

theorem phaseOne_ends {m : ℕ} {t₀ : Tableau} {found : Option Tableau}
    (h : phaseOne m t₀ = .ok found) : PhaseOneEnds m t₀ found := by
  unfold phaseOne at h
  by_cases hw : t₀.width = m
  · rw [if_pos hw] at h
    cases h
    exact .direct hw
  · rw [if_neg hw] at h
    obtain ⟨⟨flag, s⟩, hopt, h⟩ := Checked.bind_eq_ok h
    obtain ⟨sum, hsum, h⟩ := Checked.bind_eq_ok h
    by_cases hpos : 0 < sum
    · rw [if_pos hpos] at h
      cases h
      exact .infeasible hw hopt hsum hpos
    · rw [if_neg hpos] at h
      obtain ⟨t, hexpelled, h⟩ := Checked.bind_eq_ok h
      cases h
      exact .feasible hw hopt hsum hpos hexpelled

theorem phaseOne_some {m : ℕ} {t₀ t : Tableau} (ht₀ : t₀.Canonical) (hm : m ≤ t₀.width)
    (h : phaseOne m t₀ = .ok (some t)) : Reached t₀ t ∧ ∀ l ∈ t.lines, Idle m l := by
  cases phaseOne_ends h with
  | direct hw =>
    exact ⟨Reached.refl ht₀, fun l hl hl' =>
      absurd (ht₀.basic_lt l hl) (by rw [hw]; exact not_lt.mpr hl')⟩
  | feasible _ hopt hsum hpos hexpelled =>
    obtain ⟨hreached, -⟩ := phaseOne_optimize ht₀ hopt
    obtain rfl := objective_eq_ok hsum
    have hend := (expelled_start hreached (not_lt.mp hpos)).run hm _ hexpelled
    refine ⟨hend.reached, fun l hl => hend.idle l ?_⟩
    rwa [← hend.length_eq, List.take_length]

theorem phaseOne_none {m : ℕ} {t₀ : Tableau} (ht₀ : t₀.Canonical) (hm : m ≤ t₀.width)
    (h : phaseOne m t₀ = .ok none) {z : ℕ → ℚ} (hz : ∀ j, 0 ≤ z j)
    (hart : ∀ j, m ≤ j → z j = 0) : ¬ t₀.Holds z := by
  intro hsol
  cases phaseOne_ends h with
  | infeasible _ hopt hsum hpos =>
    obtain ⟨hreached, hoptimal⟩ := phaseOne_optimize ht₀ hopt
    obtain rfl := objective_eq_ok hsum
    exact absurd (phaseOne_value_nonpos hm hreached hoptimal hz hart hsol) (not_le.mpr hpos)

/-! ### The second phase -/

theorem dot_phaseTwoCost (cost : List ℚ) (t : Tableau) (z : ℕ → ℚ) :
    dot (phaseTwoCost cost t) z = dot cost z := by
  rw [phaseTwoCost, dot_append, dot_zeros, add_zero]

theorem length_phaseTwoCost {cost : List ℚ} {t : Tableau} (h : cost.length ≤ t.width) :
    (phaseTwoCost cost t).length = t.width := by
  simp [phaseTwoCost, h]

/-- The pivots of the second phase leave the artificial columns out of the game. -/
theorem idle_pivot {t₀ t t' : Tableau} {r c m : ℕ} {line : Line} (h : Reached t₀ t)
    (hidle : ∀ l ∈ t.lines, Idle m l) (hcm : c < m) (hr : t.lines[r]? = some line)
    (hp : t.pivot r c = .ok t') : ∀ l ∈ t'.lines, Idle m l := by
  obtain ⟨above, below, hlines, -, -, rfl⟩ := pivot_eq_ok h.canonical.wide hr hp
  have hother : ∀ l ∈ t.lines, Idle m ((line.solvedFor c).cleared c l) := fun l hl =>
    (hidle l hl).cleared hcm (by
      rw [Line.length_solvedFor, h.canonical.wide l hl,
        h.canonical.wide line (List.mem_of_getElem? hr)])
  simp only [exchange, List.forall_mem_append, List.forall_mem_cons, List.forall_mem_map]
  exact ⟨fun l hl => hother l (by simp [hlines, hl]), idle_solvedFor hcm line,
    fun l hl => hother l (by simp [hlines, hl])⟩

theorem phaseTwo_optimize {m : ℕ} {cost : List ℚ} {t₀ t t' : Tableau} {flag : Bool}
    (hm : m ≤ t₀.width) (h : Reached t₀ t) (hidle : ∀ l ∈ t.lines, Idle m l)
    (hopt : t.optimize cost m = .ok (flag, t')) :
    (Reached t₀ t' ∧ ∀ l ∈ t'.lines, Idle m l) ∧
      if flag then t'.Optimal cost m else t'.Unlimited cost m :=
  follow_spec (fun s => Reached t₀ s ∧ ∀ l ∈ s.lines, Idle m l)
    (fun _ _ _ _ _ hs henters hl hlimits hp => ⟨hs.1.pivot hm henters hl hlimits hp,
      idle_pivot hs.1 hs.2 henters.lt_allowed hl hp⟩) _ ⟨h, hidle⟩ hopt

/-- How the second phase can end. -/
inductive PhaseTwoEnds (cost : List ℚ) (m : ℕ) (t : Tableau) : Optimum → Prop
  | optimal {s : Tableau} {objective : ℚ} :
      t.optimize (phaseTwoCost cost t) m = .ok (true, s) →
      s.objective (phaseTwoCost cost t) = .ok objective →
      PhaseTwoEnds cost m t (.optimal objective (s.solution cost.length))
  | unbounded {s : Tableau} :
      t.optimize (phaseTwoCost cost t) m = .ok (false, s) → PhaseTwoEnds cost m t .unbounded

theorem phaseTwo_ends {m : ℕ} {cost : List ℚ} {t : Tableau} {out : Optimum}
    (h : phaseTwo cost m t = .ok out) : PhaseTwoEnds cost m t out := by
  unfold phaseTwo at h
  obtain ⟨⟨flag, s⟩, hopt, h⟩ := Checked.bind_eq_ok h
  cases flag with
  | false =>
    cases h
    exact .unbounded hopt
  | true =>
    obtain ⟨objective, hobjective, h⟩ := Checked.bind_eq_ok h
    cases h
    exact .optimal hopt hobjective

/-- The second phase ends in the cheapest of all solutions without artificials. -/
theorem phaseTwo_optimal {m : ℕ} {cost values : List ℚ} {objective : ℚ} {t₀ t : Tableau}
    (hm : m ≤ t₀.width) (hcost : cost.length ≤ m) (h : Reached t₀ t)
    (hidle : ∀ l ∈ t.lines, Idle m l) (hrun : phaseTwo cost m t = .ok (.optimal objective values)) :
    ∃ z : ℕ → ℚ, values = (List.range cost.length).map z ∧ (∀ j, 0 ≤ z j) ∧
      (∀ j, m ≤ j → z j = 0) ∧ t₀.Holds z ∧ objective = dot cost z ∧
      ∀ y : ℕ → ℚ, (∀ j, 0 ≤ y j) → (∀ j, m ≤ j → y j = 0) → t₀.Holds y → objective ≤ dot cost y := by
  cases phaseTwo_ends hrun with
  | @optimal s _ hopt hv =>
    obtain ⟨⟨hs, hsidle⟩, hend⟩ := phaseTwo_optimize hm h hidle hopt
    have hlen : (phaseTwoCost cost t).length ≤ s.width := by
      rw [length_phaseTwoCost (by rw [h.width_eq]; omega), hs.width_eq, h.width_eq]
    have hvalue : objective = s.value (phaseTwoCost cost t) := objective_eq_ok hv
    refine ⟨s.point, rfl, hs.canonical.point_nonneg, fun j hj => ?_, ?_, ?_, fun y hy hart hsol => ?_⟩
    · refine point_eq_zero fun l hl hb => (hsidle l hl ?_).1
      rwa [hb]
    · exact (hs.holds_iff _).mp hs.canonical.holds_point
    · rw [hvalue, ← hs.canonical.dot_point hlen, dot_phaseTwoCost]
    · rw [hvalue, ← dot_phaseTwoCost cost t]
      refine hs.canonical.value_le_dot hlen ((hs.holds_iff y).mpr hsol) hy fun j _ => ?_
      rcases lt_or_ge j m with hj | hj
      · rcases hend j hj with hmem | hred
        · exact .inl hmem
        · exact .inr (.inl hred)
      · exact .inr (.inr (hart j hj))

/-! ### Both phases together -/

theorem normalize_rows {rows rows' : List Row} (h : rows.mapM Row.normalize = .ok rows') :
    (∀ r ∈ rows', 0 ≤ r.rhs) ∧
      (∀ n, (∀ r ∈ rows, r.coeffs.length = n) → ∀ r ∈ rows', r.coeffs.length = n) ∧
      ∀ y, (∀ r ∈ rows', r.Holds y) ↔ ∀ r ∈ rows, r.Holds y := by
  have hall := Checked.mapM_forall₂ h
  clear h
  induction hall with
  | nil => simp
  | @cons r r' rows rows' hr _ ih =>
    obtain ⟨hrhs, hlen, hholds⟩ := Row.normalize_eq_ok hr
    obtain ⟨ih1, ih2, ih3⟩ := ih
    refine ⟨List.forall_mem_cons.mpr ⟨hrhs, ih1⟩, fun n hn => ?_, fun y => ?_⟩
    · rw [List.forall_mem_cons] at hn ⊢
      exact ⟨hlen.trans hn.1, ih2 n hn.2⟩
    · rw [List.forall_mem_cons, List.forall_mem_cons, hholds, ih3]

/-- How a minimization can end. -/
inductive MinimizeEnds (cost : List ℚ) (rows : List Row) : Optimum → Prop
  | infeasible {rows' : List Row} : rows.mapM Row.normalize = .ok rows' →
      phaseOne (cost.length + slackCount rows') (start cost.length rows') = .ok none →
      MinimizeEnds cost rows .infeasible
  | proceeds {rows' : List Row} {t : Tableau} {out : Optimum} :
      rows.mapM Row.normalize = .ok rows' →
      phaseOne (cost.length + slackCount rows') (start cost.length rows') = .ok (some t) →
      phaseTwo cost (cost.length + slackCount rows') t = .ok out → MinimizeEnds cost rows out

theorem minimize_ends {cost : List ℚ} {rows : List Row} {out : Optimum}
    (h : minimize cost rows = .ok out) : MinimizeEnds cost rows out := by
  unfold minimize at h
  obtain ⟨rows', hrows', h⟩ := Checked.bind_eq_ok h
  obtain ⟨found, hfound, h⟩ := Checked.bind_eq_ok h
  cases found with
  | none =>
    cases h
    exact .infeasible hrows' hfound
  | some t => exact .proceeds hrows' hfound h

/-- The value found is attained by the values found, and no point that satisfies the rows is
cheaper. -/
theorem minimize_optimal {cost values : List ℚ} {rows : List Row} {objective : ℚ}
    (hlen : ∀ r ∈ rows, r.coeffs.length = cost.length)
    (h : minimize cost rows = .ok (.optimal objective values)) :
    values.length = cost.length ∧ (∀ j, 0 ≤ values.getD j 0) ∧
      (∀ r ∈ rows, r.Holds fun j => values.getD j 0) ∧
      objective = dot cost (fun j => values.getD j 0) ∧
      ∀ y : ℕ → ℚ, (∀ j, 0 ≤ y j) → (∀ r ∈ rows, r.Holds y) → objective ≤ dot cost y := by
  cases minimize_ends h with
  | @proceeds rows' _ _ hrows' hfound h =>
    have hm := slacks_le_width cost.length rows'
    obtain ⟨hrhs, hlen', hiff⟩ := normalize_rows hrows'
    replace hlen' := hlen' _ hlen
    obtain ⟨hreached, hidle⟩ := phaseOne_some (start_canonical hlen' hrhs) hm hfound
    obtain ⟨z, rfl, hz, hart, hsol, hobj, hbest⟩ :=
      phaseTwo_optimal hm (by omega) hreached hidle h
    have hget : ∀ j < cost.length, ((List.range cost.length).map z).getD j 0 = z j := by
      intro j hj
      rw [List.getD_eq_getElem _ _ (by simpa using hj)]
      simp
    refine ⟨by simp, fun j => ?_, ?_, ?_, fun y hy hrows => ?_⟩
    · rcases lt_or_ge j cost.length with hj | hj
      · rw [hget j hj]
        exact hz j
      · rw [List.getD_eq_default _ _ (by simpa using hj)]
    · intro r hr
      have hrz := (hiff z).mp (rows_hold_of_start hlen' hz hart hsol) r hr
      unfold Row.Holds at hrz ⊢
      rwa [dot_congr fun j hj => hget j (hlen r hr ▸ hj)]
    · rw [hobj, dot_congr hget]
    · have hy' := (hiff y).mpr hrows
      have hle := hbest _ (withSlacks_nonneg hy hy') (fun j hj => withSlacks_artificial y hj)
        (start_holds_withSlacks hlen' hy')
      refine hle.trans_eq (dot_congr fun j hj => ?_)
      rw [withSlacks, if_pos hj]

/-- If the method says so, no non-negative point satisfies the rows. -/
theorem minimize_infeasible {cost : List ℚ} {rows : List Row}
    (hlen : ∀ r ∈ rows, r.coeffs.length = cost.length)
    (h : minimize cost rows = .ok .infeasible) {y : ℕ → ℚ} (hy : ∀ j, 0 ≤ y j) :
    ¬ ∀ r ∈ rows, r.Holds y := by
  intro hrows
  cases minimize_ends h with
  | @infeasible rows' hrows' hfound =>
    have hm := slacks_le_width cost.length rows'
    obtain ⟨hrhs, hlen', hiff⟩ := normalize_rows hrows'
    replace hlen' := hlen' _ hlen
    have hy' := (hiff y).mpr hrows
    exact phaseOne_none (start_canonical hlen' hrhs) hm hfound (withSlacks_nonneg hy hy')
      (fun j hj => withSlacks_artificial y hj) (start_holds_withSlacks hlen' hy')
  | proceeds _ _ h => cases phaseTwo_ends h

end Simplex

end LoopSched.Linear
