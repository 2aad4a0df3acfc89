import LoopSched.Proofs.Linear.Exact
import LoopSched.Proofs.Linear.Nodes

/-!
# The solver always returns

With exact numbers no move of the simplex method leads back to a basis, so both phases end, and with
them every minimization, every relaxation and every search.  The checked solver makes the same moves
as long as its numbers are words: it returns the exact result or stops because one of them is not,
and never because it has used up its budget of moves.
-/

namespace LoopSched.Linear

open Checked

namespace Exact

variable {cost : List ℚ} {allowed : ℕ}

/-! ### The loop -/

/-- The tableaux of `n` turns in a row. -/
def Trace (cost : List ℚ) (allowed : ℕ) (run : ℕ → Tableau) (n : ℕ) : Prop :=
  ∀ k < n, turn cost allowed (run k) = .inr (run (k + 1))

theorem eq_of_turn {t : Tableau} {r : Bool × Tableau} (h : turn cost allowed t = .inl r) :
    ∃ flag, r = (flag, t) := by
  unfold turn at h
  split at h <;> cases h <;> exact ⟨_, rfl⟩

theorem step_of_turn {t t' : Tableau} (h : turn cost allowed t = .inr t') (ht : t.Canonical)
    (hallowed : allowed ≤ t.width) : ∃ c l, Tableau.Step cost allowed t c l t' := by
  have hjust := justifies_move t cost allowed
  unfold turn at h
  cases hmove : move t cost allowed with
  | optimal =>
    rw [hmove] at h
    cases h
  | unbounded =>
    rw [hmove] at h
    cases h
  | pivot row column =>
  rw [hmove] at h hjust
  cases h
  obtain ⟨henters, l, hl, hlimits⟩ := hjust
  obtain ⟨hlines, hlen⟩ := Tableau.lines_eq_append hl
  rw [Tableau.exact_pivot_eq hlines hlen]
  exact ⟨column, l, Tableau.step_of_exchange ht hallowed henters hlines hlimits⟩

theorem Trace.run {run : ℕ → Tableau} {n : ℕ} (h : Trace cost allowed run n)
    (ht : (run 0).Canonical) (hcost : cost.length ≤ (run 0).width)
    (hallowed : allowed ≤ (run 0).width) : Tableau.Run cost allowed run n := by
  induction n with
  | zero => exact ⟨ht, hcost, hallowed, fun k hk => absurd hk k.not_lt_zero⟩
  | succ n ih =>
    have hrun := ih fun k hk => h k (Nat.lt_succ_of_lt hk)
    have hreached := hrun.reached le_rfl
    refine ⟨ht, hcost, hallowed, fun k hk => ?_⟩
    rcases Nat.lt_succ_iff_lt_or_eq.mp hk with hk | rfl
    · exact hrun.step k hk
    · exact step_of_turn (h k hk) hreached.canonical (hallowed.trans_eq hreached.width_eq.symm)

/-- Either the loop ends before the `n`-th turn, or it makes `n` turns. -/
theorem ends_or_trace (cost : List ℚ) (allowed : ℕ) : ∀ (n : ℕ) (t : Tableau),
    (∃ k run flag, k < n ∧ run 0 = t ∧ Trace cost allowed run k ∧
      optimize cost allowed t = .some (flag, run k)) ∨
      ∃ run, run 0 = t ∧ Trace cost allowed run n
  | 0, t => .inr ⟨fun _ => t, rfl, fun k hk => absurd hk k.not_lt_zero⟩
  | n + 1, t => by
    cases hturn : turn cost allowed t with
    | inl r =>
      obtain ⟨flag, rfl⟩ := eq_of_turn hturn
      exact .inl ⟨0, fun _ => t, flag, n.succ_pos, rfl, fun k hk => absurd hk k.not_lt_zero,
        optimize_of_inl hturn⟩
    | inr t' =>
      -- the turn from `t` goes in front of those that follow it
      have hfront : ∀ {run : ℕ → Tableau} {k : ℕ}, run 0 = t' →
          Trace cost allowed run k → Trace cost allowed (fun k => k.casesOn t run) (k + 1) := by
        rintro run k rfl htrace i hi
        cases i with
        | zero => exact hturn
        | succ i => exact htrace i (Nat.lt_of_succ_lt_succ hi)
      rw [optimize_of_inr hturn]
      rcases ends_or_trace cost allowed n t' with
        ⟨k, run, flag, hk, h0, htrace, hopt⟩ | ⟨run, h0, htrace⟩
      · exact .inl ⟨k + 1, fun k => k.casesOn t run, flag, Nat.succ_lt_succ hk, rfl,
          hfront h0 htrace, hopt⟩
      · exact .inr ⟨fun k => k.casesOn t run, rfl, hfront h0 htrace⟩

section Loop

variable {t : Tableau} (ht : t.Canonical) (hcost : cost.length ≤ t.width)
  (hallowed : allowed ≤ t.width)
include ht hcost hallowed

/-- The loop ends, with fewer turns than there are ordered bases. -/
theorem optimize_ends : ∃ n run flag, n < t.width ^ t.lines.length ∧ run 0 = t ∧
    Trace cost allowed run n ∧ optimize cost allowed t = .some (flag, run n) := by
  rcases ends_or_trace cost allowed (t.width ^ t.lines.length) t with h | ⟨run, rfl, htrace⟩
  · exact h
  · exact absurd (htrace.run ht hcost hallowed).length_lt (lt_irrefl _)

theorem reached_of_optimize {flag : Bool} {s : Tableau}
    (h : optimize cost allowed t = .some (flag, s)) : Tableau.Reached t s := by
  obtain ⟨n, run, flag', -, rfl, htrace, hopt⟩ := optimize_ends ht hcost hallowed
  rw [hopt] at h
  cases Part.some_inj.mp h
  exact (htrace.run ht hcost hallowed).reached le_rfl

end Loop

/-! ### The two phases -/

section Phases

variable {m : ℕ} {t₀ : Tableau} (ht₀ : t₀.Canonical) (hm : m ≤ t₀.width)
include ht₀ hm

theorem exists_phaseOne : ∃ found, phaseOne m t₀ = .some found := by
  unfold phaseOne
  dsimp only
  split
  · exact ⟨_, rfl⟩
  · obtain ⟨n, run, flag, -, -, -, hopt⟩ :=
      optimize_ends ht₀ (Simplex.length_phaseOneCost hm).le le_rfl
    rw [hopt]
    exact ⟨_, Part.map_some _ _⟩

theorem reached_of_phaseOne {t : Tableau} (h : phaseOne m t₀ = .some (some t)) :
    Tableau.Reached t₀ t := by
  unfold phaseOne at h
  dsimp only at h
  by_cases hw : t₀.width = m
  · rw [if_pos hw] at h
    cases Part.some_inj.mp h
    exact .refl ht₀
  · rw [if_neg hw] at h
    have hcost := (Simplex.length_phaseOneCost hm).le
    obtain ⟨n, run, flag, -, -, -, hopt⟩ := optimize_ends ht₀ hcost le_rfl
    have hreached := reached_of_optimize ht₀ hcost le_rfl hopt
    rw [hopt, Part.map_some, Part.some_inj] at h
    dsimp only at h
    by_cases hpos : 0 < (run n).value (Simplex.phaseOneCost m t₀)
    · rw [if_pos hpos] at h
      cases h
    · rw [if_neg hpos] at h
      cases h
      exact ((Simplex.expelled_start hreached (not_lt.mp hpos)).exact_run hm _).reached

end Phases

/-- The tableaux that a minimization hands to the loop, with the cost and the number of columns
that may enter: the starting tableau, and the one that the first phase leaves. -/
inductive Handed (cost : List ℚ) (rows : List Row) : Tableau → List ℚ → ℕ → Prop
  | first : Handed cost rows (start cost rows)
      (Simplex.phaseOneCost (artStart cost rows) (start cost rows)) (start cost rows).width
  | second {t : Tableau} (h : phaseOne (artStart cost rows) (start cost rows) = .some (some t)) :
      Handed cost rows t (Simplex.phaseTwoCost cost t) (artStart cost rows)

section Minimize

variable {rows : List Row} (hlen : ∀ r ∈ rows, r.coeffs.length = cost.length)
include hlen

theorem Handed.canonical {t : Tableau} {full : List ℚ} (h : Handed cost rows t full allowed) :
    t.Canonical ∧ full.length ≤ t.width ∧ allowed ≤ t.width := by
  have hstart := canonical_start hlen
  have hm := artStart_le cost rows
  cases h with
  | first => exact ⟨hstart, (Simplex.length_phaseOneCost hm).le, le_rfl⟩
  | second hfound =>
    have hreached := reached_of_phaseOne hstart hm hfound
    have hwidth : artStart cost rows ≤ _ := hm.trans_eq hreached.width_eq.symm
    have hcost : cost.length ≤ artStart cost rows := Nat.le_add_right _ _
    exact ⟨hreached.canonical, (Simplex.length_phaseTwoCost (hcost.trans hwidth)).le, hwidth⟩

theorem exists_minimize : ∃ out, minimize cost rows = .some out := by
  unfold minimize
  obtain ⟨found, hfound⟩ := exists_phaseOne (canonical_start hlen) (artStart_le cost rows)
  rw [hfound, Part.bind_some]
  cases found with
  | none => exact ⟨_, rfl⟩
  | some t =>
    obtain ⟨hcanonical, hfull, hallowed⟩ := (Handed.second hfound).canonical hlen
    obtain ⟨n, run, flag, -, -, -, hopt⟩ := optimize_ends hcanonical hfull hallowed
    dsimp only
    rw [phaseTwo, hopt]
    exact ⟨_, Part.map_some _ _⟩

end Minimize

/-! ### Relaxations and searches -/

theorem length_substituteTerm (columns : List Column) (sgn : ℤ) (coeffs : List ℚ) (t : ℕ × ℤ) :
    (substituteTerm columns sgn coeffs t).1.length = coeffs.length := by
  unfold substituteTerm
  cases columns[t.1]? with
  | none => rfl
  | some column => cases column <;> simp [substitute]

/-- Substituting terms keeps the number of coefficients, whatever becomes of the constant part. -/
theorem length_foldl_substituteTerm (columns : List Column) (sgn : ℤ) (f : ℚ → ℚ → ℚ)
    (terms : List (ℕ × ℤ)) (s : List ℚ × ℚ) :
    (terms.foldl (fun acc t => ((substituteTerm columns sgn acc.1 t).1,
      f acc.2 (substituteTerm columns sgn acc.1 t).2)) s).1.length = s.1.length := by
  induction terms generalizing s with
  | nil => rfl
  | cons t terms ih => rw [List.foldl_cons, ih, length_substituteTerm]

theorem length_pose_cost (p : Program) (box : List Bounds) :
    (pose p box).cost.length = Relaxation.width box :=
  (length_foldl_substituteTerm _ _ (· + ·) _ _).trans (length_zeros _)

theorem length_pose_row (p : Program) (box : List Bounds) :
    ∀ r ∈ (pose p box).rows, r.coeffs.length = (pose p box).cost.length := by
  rw [length_pose_cost]
  simp only [pose, List.forall_mem_append, List.forall_mem_map, List.mem_filterMap]
  refine ⟨fun c _ => ?_, ?_⟩
  · exact (length_foldl_substituteTerm _ _ (· - ·) _ _).trans (length_zeros _)
  · rintro r ⟨⟨b, column⟩, -, hr⟩
    cases column with
    | above col lower =>
      obtain ⟨upper, -, rfl⟩ := Option.map_eq_some_iff.mp hr
      simp
    | below col upper => cases hr
    | split pos neg => cases hr

theorem exists_relax (p : Program) (box : List Bounds) : ∃ r, relax p box = .some r := by
  unfold relax
  split
  · exact ⟨_, rfl⟩
  · obtain ⟨out, hout⟩ := exists_minimize (length_pose_row p box)
    rw [hout]
    exact ⟨_, Part.map_some _ _⟩

theorem exists_search (p : Program) : ∀ (n : ℕ) (boxes : List (List Bounds))
    (best : Option BranchAndBound.Incumbent), ∃ verdict, search p n boxes best = .some verdict
  | _, [], _ => ⟨_, by rw [search]⟩
  | 0, _ :: _, _ => ⟨_, by rw [search]⟩
  | n + 1, box :: boxes, best => by
    obtain ⟨outcome, houtcome⟩ := exists_relax p box
    rw [search, houtcome, Part.bind_some]
    cases outcome with
    | infeasible => exact exists_search p n boxes best
    | unbounded => exact ⟨_, rfl⟩
    | optimal objective values =>
      dsimp only
      split
      · cases BranchAndBound.fractional? p.vars values with
        | none => exact exists_search p n boxes _
        | some i => exact exists_search p n _ best
      · exact exists_search p n boxes best

theorem exists_run (limit : ℕ) (p : Program) : ∃ s, run limit p = .some s := by
  obtain ⟨verdict, hverdict⟩ := exists_search p limit [p.box] none
  exact ⟨answer p verdict, by rw [run, hverdict, Part.map_some]⟩

/-! ### The checked solver -/

/-- The exact computation has a result.  The checked one has the same, or came to a number that is
not a word. -/
def Returns {α : Type} (checked : Checked α) (exact : Part α) : Prop :=
  ∃ a, exact = .some a ∧
    (checked = .ok a ∨ checked = .error .overflow ∨ checked = .error .abort)

theorem Returns.of_stopsOnly {α : Type} {checked : Checked α} {exact : Part α}
    (hexact : ∃ a, exact = .some a) (hagree : ∀ a, checked = .ok a → exact = .some a)
    (hstops : StopsOnly (· ≠ .stalled) checked) : Returns checked exact := by
  obtain ⟨a, ha⟩ := hexact
  refine ⟨a, ha, ?_⟩
  cases hchecked : checked with
  | ok b =>
    have hb := hagree b hchecked
    rw [ha] at hb
    cases Part.some_inj.mp hb
    exact .inl rfl
  | error e =>
    cases e with
    | overflow => exact .inr (.inl rfl)
    | abort => exact .inr (.inr rfl)
    | stalled => exact absurd rfl (hstops _ hchecked)

theorem returns_run (limit : ℕ) (p : Program) :
    Returns (BranchAndBound.run limit p) (run limit p) :=
  .of_stopsOnly (exists_run limit p) (fun _ => run_of_checked) (BranchAndBound.run_never_stalls limit p)

/-- The loop of the simplex method visits no basis twice and ends on every tableau that a
minimization hands to it, so minimizations, relaxations and solves all return. -/
theorem loop_ends_and_solver_returns :
    (∀ (cost : List ℚ) (rows : List Row), (∀ r ∈ rows, r.coeffs.length = cost.length) →
      (∀ t full allowed, Handed cost rows t full allowed →
        (∀ run n, run 0 = t → Trace full allowed run n →
          ∀ i j, i < j → j ≤ n → (run i).basis.toFinset ≠ (run j).basis.toFinset) ∧
        ∃ n run flag, n < t.width ^ t.lines.length ∧ run 0 = t ∧ Trace full allowed run n ∧
          optimize full allowed t = .some (flag, run n)) ∧
      Returns (Simplex.minimize cost rows) (minimize cost rows)) ∧
    (∀ (p : Program) (box : List Bounds), Returns (Relaxation.solve p box) (relax p box)) ∧
    ∀ (limit : ℕ) (p : Program), ∃ s, solve limit p = .some s ∧
      (BranchAndBound.solve limit p = some s ∨ BranchAndBound.run limit p = .error .overflow ∨
        BranchAndBound.run limit p = .error .abort) := by
  refine ⟨fun cost rows hlen => ⟨fun t full allowed hhanded => ?_, ?_⟩, fun p box => ?_,
    fun limit p => ?_⟩
  · obtain ⟨hcanonical, hfull, hallowed⟩ := hhanded.canonical hlen
    refine ⟨fun run n h0 htrace i j hij hj => ?_, optimize_ends hcanonical hfull hallowed⟩
    subst h0
    exact (htrace.run hcanonical hfull hallowed).basis_injective hij hj
  · exact .of_stopsOnly (exists_minimize hlen) (fun _ => minimize_of_checked hlen)
      (Simplex.stopsOnly_minimize (by decide) hlen (.inl (by decide)))
  · exact .of_stopsOnly (exists_relax p box) (fun _ => relax_of_checked) (Relaxation.solve_never_stalls p box)
  · unfold solve BranchAndBound.solve
    by_cases hvalid : p.validate.isSome = true
    · rw [if_pos hvalid, if_pos hvalid]
      exact ⟨_, rfl, .inl rfl⟩
    · rw [if_neg hvalid, if_neg hvalid]
      obtain ⟨s, hs, hrun | hrun⟩ := returns_run limit p
      · exact ⟨s, hs, .inl (by rw [hrun])⟩
      · exact ⟨s, hs, .inr hrun⟩

/-- A minimization on which taking the steepest column instead of the first goes round in a circle:
`-3/4 x + 20 y - 1/2 z + 6 w` with two rows that hold with equality at the start. -/
theorem loop_ends_and_solver_returns_degenerate :
    let cost : List ℚ := [-3 / 4, 20, -1 / 2, 6]
    let rows : List Row := [⟨[1 / 4, -8, -1, 9], .lessEq, 0⟩, ⟨[1 / 2, -12, -1 / 2, 3], .lessEq, 0⟩,
      ⟨[0, 0, 1, 0], .lessEq, 1⟩]
    Handed cost rows (start cost rows) (Simplex.phaseTwoCost cost (start cost rows)) 7 ∧
      (∃ n run flag, n < 7 ^ 3 ∧ run 0 = start cost rows ∧
        Trace (Simplex.phaseTwoCost cost (start cost rows)) 7 run n ∧
        optimize (Simplex.phaseTwoCost cost (start cost rows)) 7 (start cost rows) =
          .some (flag, run n)) ∧
      Simplex.minimize cost rows = .ok (.optimal (-5 / 4) [1, 0, 1, 0]) ∧
      minimize cost rows = .some (.optimal (-5 / 4) [1, 0, 1, 0]) := by
  intro cost rows
  have hlen : ∀ r ∈ rows, r.coeffs.length = cost.length := by decide
  -- no row needs an artificial column, so the first phase hands the tableau on
  have hfound :
      phaseOne (artStart cost rows) (start cost rows) = .some (some (start cost rows)) := by
    unfold phaseOne
    exact if_pos (by decide)
  have hhanded : Handed cost rows (start cost rows)
      (Simplex.phaseTwoCost cost (start cost rows)) 7 := .second hfound
  have hchecked : Simplex.minimize cost rows = .ok (.optimal (-5 / 4) [1, 0, 1, 0]) := by
    decide +kernel
  obtain ⟨hloop, out, hout, hreturns⟩ := loop_ends_and_solver_returns.1 cost rows hlen
  refine ⟨hhanded, (hloop _ _ _ hhanded).2, hchecked, ?_⟩
  rw [hchecked] at hreturns
  rcases hreturns with h | h | h <;> cases h
  exact hout

end Exact

end LoopSched.Linear
