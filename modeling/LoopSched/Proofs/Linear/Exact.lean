import LoopSched.Proofs.Linear.Bland
import LoopSched.Proofs.Linear.Search
import Mathlib.Data.PFun

/-!
# The solver with exact numbers

The same solver over rational numbers of any size and without a budget for its moves.  A checked
computation that does not stop has the exact result: tableau by tableau in the simplex method,
column by column in a relaxation and node by node in the search.
-/

namespace LoopSched.Linear.Exact

/-! ### The simplex method -/

/-- One turn of the loop: the last tableau, with the flag that tells whether it is optimal, or the
next one. -/
def turn (cost : List ℚ) (allowed : ℕ) (t : Tableau) : (Bool × Tableau) ⊕ Tableau :=
  match move t cost allowed with
  | .optimal => .inl (true, t)
  | .unbounded => .inl (false, t)
  | .pivot row column => .inr (pivot t row column)

/-- Take turns until the method stops, however many they are; there is no result if it never
does. -/
def optimize (cost : List ℚ) (allowed : ℕ) : Tableau →. Bool × Tableau :=
  PFun.fix fun t => .some (turn cost allowed t)

def phaseOne (artStart : ℕ) (t : Tableau) : Part (Option Tableau) :=
  let cost := Simplex.phaseOneCost artStart t
  if t.width = artStart then .some (some t) else
    (optimize cost t.width t).map fun x =>
      if 0 < x.2.value cost then none
      else some ((List.range x.2.lines.length).foldl (expel artStart) x.2)

def phaseTwo (cost : List ℚ) (artStart : ℕ) (t : Tableau) : Part Optimum :=
  let full := Simplex.phaseTwoCost cost t
  (optimize full artStart t).map fun x =>
    if x.1 then .optimal (x.2.value full) (x.2.solution cost.length) else .unbounded

def normalize (r : Row) : Row :=
  if r.rhs < 0 then ⟨r.coeffs.map (- ·), r.relation.flipped, -r.rhs⟩ else r

/-- Where the artificial columns of a minimization start. -/
def artStart (cost : List ℚ) (rows : List Row) : ℕ :=
  cost.length + Simplex.slackCount (rows.map normalize)

/-- The tableau that a minimization starts with. -/
def start (cost : List ℚ) (rows : List Row) : Tableau :=
  Simplex.start cost.length (rows.map normalize)

def minimize (cost : List ℚ) (rows : List Row) : Part Optimum :=
  (phaseOne (artStart cost rows) (start cost rows)).bind fun found =>
    match found with
    | none => .some .infeasible
    | some t => phaseTwo cost (artStart cost rows) t

/-! ### Relaxations -/

def substitute (coeffs : List ℚ) (c : ℤ) : Column → List ℚ × ℚ
  | .above col lower => (coeffs.set col (coeffs.getD col 0 + c), c * lower)
  | .below col upper => (coeffs.set col (coeffs.getD col 0 - c), c * upper)
  | .split pos neg =>
    let coeffs := coeffs.set pos (coeffs.getD pos 0 + c)
    (coeffs.set neg (coeffs.getD neg 0 - c), 0)

def substituteTerm (columns : List Column) (sign : ℤ) (coeffs : List ℚ) (t : ℕ × ℤ) :
    List ℚ × ℚ :=
  match columns[t.1]? with
  | none => (coeffs, 0)
  | some column => substitute coeffs (t.2 * sign) column

def cost (p : Program) (columns : List Column) (n : ℕ) : List ℚ × ℚ :=
  let s := Relaxation.sign p.direction
  p.objective.terms.foldl (fun acc t =>
    ((substituteTerm columns s acc.1 t).1, acc.2 + (substituteTerm columns s acc.1 t).2))
    (Simplex.zeros n, ((p.objective.constant * s : ℤ) : ℚ))

def constraintRow (columns : List Column) (n : ℕ) (c : Constraint) : Row :=
  let acc := c.form.terms.foldl (fun acc t =>
    ((substituteTerm columns 1 acc.1 t).1, acc.2 - (substituteTerm columns 1 acc.1 t).2))
    (Simplex.zeros n, (c.rhs : ℚ) - c.form.constant)
  ⟨acc.1, c.relation, acc.2⟩

def boundRow? (n : ℕ) (b : Bounds) : Column → Option Row
  | .above col lower =>
    b.upper.map fun upper => ⟨Simplex.single n col 1, .lessEq, (upper : ℚ) - lower⟩
  | _ => none

def pose (p : Program) (box : List Bounds) : Relaxation.Posed :=
  let columns := Relaxation.columnsFrom 0 box
  let n := Relaxation.width box
  ⟨(cost p columns n).1, (cost p columns n).2,
    p.constraints.map (constraintRow columns n) ++
      (box.zip columns).filterMap fun x => boundRow? n x.1 x.2⟩

/-- The relaxation that a minimum over the columns stands for. -/
def read (columns : List Column) (offset : ℚ) : Optimum → Relaxed
  | .infeasible => .infeasible
  | .unbounded => .unbounded
  | .optimal objective y =>
    .optimal (objective + offset) (columns.map (·.value fun j => y.getD j 0))

def relax (p : Program) (box : List Bounds) : Part Relaxed :=
  if box.any (·.crossed) then .some .infeasible else
    (minimize (pose p box).cost (pose p box).rows).map
      (read (Relaxation.columnsFrom 0 box) (pose p box).offset)

/-! ### The search -/

def search (p : Program) :
    ℕ → List (List Bounds) → Option BranchAndBound.Incumbent → Part BranchAndBound.Verdict
  | _, [], best => .some (.finished false best)
  | 0, _ :: _, best => .some (.finished true best)
  | n + 1, box :: boxes, best =>
    (relax p box).bind fun outcome =>
      match outcome with
      | .infeasible => search p n boxes best
      | .unbounded => .some .unbounded
      | .optimal objective values =>
        if BranchAndBound.improves objective best then
          match BranchAndBound.fractional? p.vars values with
          | none => search p n boxes (some ⟨objective, values⟩)
          | some i =>
            let floor := (values.getD i 0).floor
            search p n (box.modify i ({ · with upper := some floor }) ::
              box.modify i ({ · with lower := some (floor + 1) }) :: boxes) best
        else search p n boxes best

def answer (p : Program) : BranchAndBound.Verdict → Solution
  | .unbounded => { status := .unbounded }
  | .finished exhausted none => { status := if exhausted then .notSolved else .infeasible }
  | .finished exhausted (some best) =>
    ⟨if exhausted then .feasible else .optimal,
      some (best.objective * Relaxation.sign p.direction), best.values⟩

def run (limit : ℕ) (p : Program) : Part Solution := (search p limit [p.box] none).map (answer p)

def solve (limit : ℕ) (p : Program) : Part Solution :=
  if p.validate.isSome then .some { status := .modelInvalid } else run limit p

/-! ### The checked solver agrees -/

theorem optimize_of_inl {cost : List ℚ} {allowed : ℕ} {t : Tableau} {r : Bool × Tableau}
    (h : turn cost allowed t = .inl r) : optimize cost allowed t = .some r :=
  Part.eq_some_iff.mpr (PFun.fix_stop (by rw [h]; exact Part.mem_some _))

theorem optimize_of_inr {cost : List ℚ} {allowed : ℕ} {t t' : Tableau}
    (h : turn cost allowed t = .inr t') : optimize cost allowed t = optimize cost allowed t' :=
  PFun.fix_fwd_eq (by rw [h]; exact Part.mem_some _)

theorem optimize_of_follow {cost : List ℚ} {allowed : ℕ} : ∀ (n : ℕ) {t : Tableau}
    {r : Bool × Tableau}, t.Canonical → allowed ≤ t.width →
    Tableau.follow cost allowed n t = .ok r → optimize cost allowed t = .some r
  | 0, t, r, _, _, h => by cases h
  | n + 1, t, r, ht, hallowed, h => by
    unfold Tableau.follow at h
    obtain ⟨m, hm, h⟩ := Checked.bind_eq_ok h
    have hmove := Tableau.move_eq_exact hm
    cases m with
    | optimal =>
      cases h
      exact optimize_of_inl (by rw [turn, ← hmove])
    | unbounded =>
      cases h
      exact optimize_of_inl (by rw [turn, ← hmove])
    | pivot row column =>
      obtain ⟨s, hs, h⟩ := Checked.bind_eq_ok h
      obtain ⟨henters, l, hl, hlimits⟩ := Tableau.justifies_of_move hm
      have hreached := (Tableau.step_of_pivot ht hallowed henters hl hlimits hs).reached
      have hturn : turn cost allowed t = .inr s := by
        rw [turn, ← hmove, Tableau.pivot_eq_exact ht.wide hs]
      rw [optimize_of_inr hturn]
      exact optimize_of_follow n hreached.canonical (hreached.width_eq ▸ hallowed) h

theorem phaseOne_of_checked {m : ℕ} {t₀ : Tableau} {found : Option Tableau} (ht₀ : t₀.Canonical)
    (hm : m ≤ t₀.width) (h : Simplex.phaseOne m t₀ = .ok found) : phaseOne m t₀ = .some found := by
  unfold phaseOne
  dsimp only
  cases Simplex.phaseOne_ends h with
  | direct hw => rw [if_pos hw]
  | infeasible hw hopt hsum hpos =>
    obtain rfl := Tableau.objective_eq_ok hsum
    rw [if_neg hw, optimize_of_follow _ ht₀ le_rfl hopt, Part.map_some]
    dsimp only
    rw [if_pos hpos]
  | feasible hw hopt hsum hpos hexpelled =>
    obtain ⟨hreached, -⟩ := Simplex.phaseOne_optimize ht₀ hopt
    obtain rfl := Tableau.objective_eq_ok hsum
    rw [if_neg hw, optimize_of_follow _ ht₀ le_rfl hopt, Part.map_some]
    dsimp only
    rw [if_neg hpos,
      (Simplex.expelled_start hreached (not_lt.mp hpos)).foldlM_eq_exact hm _ hexpelled]

theorem phaseTwo_of_checked {m : ℕ} {cost : List ℚ} {t : Tableau} {out : Optimum}
    (ht : t.Canonical) (hm : m ≤ t.width) (h : Simplex.phaseTwo cost m t = .ok out) :
    phaseTwo cost m t = .some out := by
  unfold phaseTwo
  dsimp only
  cases Simplex.phaseTwo_ends h with
  | unbounded hopt =>
    rw [optimize_of_follow _ ht hm hopt, Part.map_some]
    rfl
  | optimal hopt hv =>
    rw [optimize_of_follow _ ht hm hopt, Part.map_some, Tableau.objective_eq_ok hv]
    rfl

theorem normalize_of_checked {r r' : Row} (h : r.normalize = .ok r') : r' = normalize r := by
  unfold normalize
  rcases Row.normalize_cases h with ⟨hrhs, rfl⟩ | ⟨hneg, rfl⟩
  · rw [if_neg (not_lt.mpr hrhs)]
  · rw [if_pos hneg]

section Minimize

variable {cost : List ℚ} {rows : List Row} (hlen : ∀ r ∈ rows, r.coeffs.length = cost.length)

theorem artStart_le (cost : List ℚ) (rows : List Row) :
    artStart cost rows ≤ (start cost rows).width := by
  simp [artStart, start, Simplex.start]

include hlen

/-- The starting tableau is canonical: normalized rows have non-negative right-hand sides. -/
theorem canonical_start : (start cost rows).Canonical := by
  refine Simplex.start_canonical ?_ ?_
  · simp only [List.forall_mem_map]
    intro r hr
    unfold normalize
    split
    · simp [hlen r hr]
    · exact hlen r hr
  · simp only [List.forall_mem_map]
    intro r _
    unfold normalize
    split
    case isTrue hneg => exact neg_nonneg.mpr hneg.le
    case isFalse hneg => exact not_lt.mp hneg

theorem minimize_of_checked {out : Optimum} (h : Simplex.minimize cost rows = .ok out) :
    minimize cost rows = .some out := by
  have hcanonical := canonical_start hlen
  have hm := artStart_le cost rows
  unfold minimize
  cases Simplex.minimize_ends h with
  | infeasible hrows' hfound =>
    obtain rfl := Checked.mapM_eq_map (fun _ _ _ hr => normalize_of_checked hr) hrows'
    rw [phaseOne_of_checked hcanonical hm hfound, Part.bind_some]
  | proceeds hrows' hfound h =>
    obtain rfl := Checked.mapM_eq_map (fun _ _ _ hr => normalize_of_checked hr) hrows'
    obtain ⟨hreached, -⟩ := Simplex.phaseOne_some hcanonical hm hfound
    rw [phaseOne_of_checked hcanonical hm hfound, Part.bind_some]
    exact phaseTwo_of_checked hreached.canonical (hm.trans_eq hreached.width_eq.symm) h

end Minimize

theorem substitute_of_checked {coeffs : List ℚ} {c : ℤ} {column : Column} {r : List ℚ × ℚ}
    (h : Relaxation.substitute coeffs c column = .ok r) : r = substitute coeffs c column := by
  cases column with
  | above col lower =>
    obtain ⟨v, hv, h⟩ := Checked.bind_eq_ok h
    obtain ⟨q, hq, h⟩ := Checked.bind_eq_ok h
    cases h
    rw [Ratio.add_eq_ok hv, Ratio.mul_eq_ok hq, substitute]
  | below col upper =>
    obtain ⟨v, hv, h⟩ := Checked.bind_eq_ok h
    obtain ⟨q, hq, h⟩ := Checked.bind_eq_ok h
    cases h
    rw [Ratio.sub_eq_ok hv, Ratio.mul_eq_ok hq, substitute]
  | split pos neg =>
    obtain ⟨v, hv, h⟩ := Checked.bind_eq_ok h
    obtain ⟨w, hw, h⟩ := Checked.bind_eq_ok h
    cases h
    rw [Ratio.sub_eq_ok hw, Ratio.add_eq_ok hv, substitute]

theorem substituteTerm_of_checked {columns : List Column} {sgn : ℤ} {coeffs : List ℚ} {t : ℕ × ℤ}
    {r : List ℚ × ℚ} (h : Relaxation.substituteTerm columns sgn coeffs t = .ok r) :
    r = substituteTerm columns sgn coeffs t := by
  unfold Relaxation.substituteTerm at h
  obtain ⟨_, -, h⟩ := Checked.bind_eq_ok h
  unfold substituteTerm
  cases hc : columns[t.1]? with
  | none =>
    simp only [hc] at h
    cases h
    rfl
  | some column =>
    simp only [hc] at h
    exact substitute_of_checked h

theorem cost_of_checked {p : Program} {columns : List Column} {n : ℕ} {r : List ℚ × ℚ}
    (h : Relaxation.cost p columns n = .ok r) : r = cost p columns n := by
  unfold Relaxation.cost at h
  obtain ⟨_, -, h⟩ := Checked.bind_eq_ok h
  refine Checked.foldlM_eq_foldl (fun t _ s s' hs => ?_) h
  obtain ⟨q, hq, hs⟩ := Checked.bind_eq_ok hs
  obtain ⟨v, hv, hs⟩ := Checked.bind_eq_ok hs
  cases hs
  rw [Ratio.add_eq_ok hv, ← substituteTerm_of_checked hq]

theorem constraintRow_of_checked {columns : List Column} {n : ℕ} {c : Constraint} {r : Row}
    (h : Relaxation.constraintRow columns n c = .ok r) : r = constraintRow columns n c := by
  unfold Relaxation.constraintRow at h
  obtain ⟨rhs, hrhs, h⟩ := Checked.bind_eq_ok h
  obtain ⟨acc, hacc, h⟩ := Checked.bind_eq_ok h
  cases h
  rw [Ratio.sub_eq_ok hrhs] at hacc
  have hexact := Checked.foldlM_eq_foldl (g := fun acc t =>
    ((substituteTerm columns 1 acc.1 t).1, acc.2 - (substituteTerm columns 1 acc.1 t).2))
    (fun t _ s s' hs => by
      obtain ⟨q, hq, hs⟩ := Checked.bind_eq_ok hs
      obtain ⟨v, hv, hs⟩ := Checked.bind_eq_ok hs
      cases hs
      rw [Ratio.sub_eq_ok hv, ← substituteTerm_of_checked hq]) hacc
  rw [hexact, constraintRow]

theorem boundRow?_of_checked {n : ℕ} {b : Bounds} {column : Column} {limit : Option Row}
    (h : Relaxation.boundRow? n b column = .ok limit) : limit = boundRow? n b column := by
  cases column with
  | above col lower =>
    unfold Relaxation.boundRow? at h
    unfold boundRow?
    cases hu : b.upper with
    | none =>
      simp only [hu] at h
      cases h
      rfl
    | some upper =>
      simp only [hu] at h
      obtain ⟨v, hv, h⟩ := Checked.bind_eq_ok h
      cases h
      rw [Ratio.sub_eq_ok hv]
      rfl
  | below col upper =>
    cases h
    rfl
  | split pos neg =>
    cases h
    rfl

theorem pose_of_checked {p : Program} {box : List Bounds} {posed : Relaxation.Posed}
    (h : Relaxation.pose p box = .ok posed) : posed = pose p box := by
  unfold Relaxation.pose at h
  obtain ⟨acc, hcost, h⟩ := Checked.bind_eq_ok h
  obtain ⟨rows, hrows, h⟩ := Checked.bind_eq_ok h
  obtain ⟨limits, hlimits, h⟩ := Checked.bind_eq_ok h
  cases h
  rw [cost_of_checked hcost,
    Checked.mapM_eq_map (fun _ _ _ hr => constraintRow_of_checked hr) hrows,
    Checked.mapM_eq_map (fun _ _ _ hr => boundRow?_of_checked hr) hlimits, List.filterMap_map]
  rfl

theorem relax_of_checked {p : Program} {box : List Bounds} {r : Relaxed}
    (h : Relaxation.solve p box = .ok r) : relax p box = .some r := by
  -- without crossed ranges the answer is read off that of the exact minimization
  have hread : ∀ {posed : Relaxation.Posed} {optimum : Optimum}, ¬ box.any (·.crossed) = true →
      Relaxation.pose p box = .ok posed → Simplex.minimize posed.cost posed.rows = .ok optimum →
      relax p box = .some (read (Relaxation.columnsFrom 0 box) posed.offset optimum) := by
    intro posed optimum hcross hposed hmin
    unfold relax
    rw [if_neg hcross, ← pose_of_checked hposed,
      minimize_of_checked (Relaxation.poses_of_pose hposed).length_row hmin, Part.map_some]
  cases Relaxation.solve_ends h with
  | crossed hcross => rw [relax, if_pos hcross]
  | infeasible hcross hposed hmin => exact hread hcross hposed hmin
  | unbounded hcross hposed hmin => exact hread hcross hposed hmin
  | optimal hcross hposed hmin hvalues hobjective =>
    rw [hread hcross hposed hmin, Ratio.add_eq_ok hobjective, Relaxation.recover_columns hvalues,
      read]

theorem search_of_turn {p : Program} {box : List Bounds} {boxes boxes' : List (List Bounds)}
    {best best' : Option BranchAndBound.Incumbent}
    (h : BranchAndBound.Turn p box boxes best boxes' best') (n : ℕ) :
    search p (n + 1) (box :: boxes) best = search p n boxes' best' := by
  rw [search]
  cases h with
  | infeasible hsolve => rw [relax_of_checked hsolve, Part.bind_some]
  | pruned hsolve him =>
    rw [relax_of_checked hsolve, Part.bind_some]
    exact if_neg him
  | incumbent hsolve him hf =>
    rw [relax_of_checked hsolve, Part.bind_some]
    refine (if_pos him).trans ?_
    rw [hf]
  | branch hsolve him hf hsplit =>
    obtain ⟨rfl, rfl⟩ := BranchAndBound.split_eq_ok hsplit
    rw [relax_of_checked hsolve, Part.bind_some]
    refine (if_pos him).trans ?_
    rw [hf]

/-- Both searches look at the same boxes. -/
theorem search_of_checked {p : Program} {verdict : BranchAndBound.Verdict} :
    ∀ (n : ℕ) (boxes : List (List Bounds)) (best : Option BranchAndBound.Incumbent),
      BranchAndBound.search p n boxes best = .ok verdict → search p n boxes best = .some verdict
  | _, [], best, h => by
    rw [BranchAndBound.search] at h
    cases h
    rw [search]
  | 0, _ :: _, best, h => by
    rw [BranchAndBound.search] at h
    cases h
    rw [search]
  | n + 1, box :: boxes, best, h => by
    rcases BranchAndBound.search_succ_eq_ok h with ⟨rfl, hsolve⟩ | ⟨boxes', best', hturn, h⟩
    · rw [search, relax_of_checked hsolve, Part.bind_some]
    · rw [search_of_turn hturn]
      exact search_of_checked n boxes' best' h

theorem answer_of_checked {p : Program} {verdict : BranchAndBound.Verdict} {s : Solution}
    (h : BranchAndBound.answer p verdict = .ok s) : s = answer p verdict := by
  match verdict with
  | .unbounded =>
    cases h
    rfl
  | .finished exhausted none =>
    cases h
    rfl
  | .finished exhausted (some best) =>
    obtain ⟨objective, hmul, h⟩ := Checked.bind_eq_ok h
    cases h
    rw [Ratio.mul_eq_ok hmul, answer]

theorem run_of_checked {limit : ℕ} {p : Program} {s : Solution}
    (h : BranchAndBound.run limit p = .ok s) : run limit p = .some s := by
  obtain ⟨verdict, hsearch, hanswer⟩ := Checked.bind_eq_ok h
  rw [run, Program.box, search_of_checked _ _ _ hsearch, Part.map_some,
    answer_of_checked hanswer]

end LoopSched.Linear.Exact
