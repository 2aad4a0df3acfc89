import LoopSched.Proofs.Checked
import LoopSched.Proofs.Linear.Dot
import Mathlib.Algebra.Order.Ring.Rat
import Mathlib.Tactic.FieldSimp

/-!
# Pivots

A pivot that does not overflow is the exact exchange of a basic column: the chosen line is divided
by its cell in the entering column and subtracted from the others until the column is cleared.
The equations keep their solutions, and every line stays solved for its own basic column.
-/

namespace LoopSched.Linear

namespace Line

/-- The point satisfies the equation. -/
def Holds (l : Line) (y : ℕ → ℚ) : Prop := dot l.cells y = l.rhs

/-- The equation solved for column `c`. -/
def solvedFor (l : Line) (c : ℕ) : Line := ⟨c, l.cells.map (· / l.cell c), l.rhs / l.cell c⟩

/-- The equation less the multiple of `lead` that clears column `c`. -/
def cleared (lead : Line) (c : ℕ) (l : Line) : Line :=
  ⟨l.basic, List.zipWith (fun v p => v - l.cell c * p) l.cells lead.cells,
    l.rhs - l.cell c * lead.rhs⟩

@[simp] theorem solvedFor_basic (l : Line) (c : ℕ) : (l.solvedFor c).basic = c := rfl

@[simp] theorem cleared_basic (lead : Line) (c : ℕ) (l : Line) :
    (lead.cleared c l).basic = l.basic := rfl

@[simp] theorem solvedFor_rhs (l : Line) (c : ℕ) : (l.solvedFor c).rhs = l.rhs / l.cell c := rfl

@[simp] theorem cleared_rhs (lead : Line) (c : ℕ) (l : Line) :
    (lead.cleared c l).rhs = l.rhs - l.cell c * lead.rhs := rfl

@[simp] theorem length_solvedFor (l : Line) (c : ℕ) :
    (l.solvedFor c).cells.length = l.cells.length := List.length_map _

theorem cell_solvedFor (l : Line) (c j : ℕ) : (l.solvedFor c).cell j = l.cell j / l.cell c := by
  unfold solvedFor cell
  grind

variable {lead l : Line} {c : ℕ}

theorem length_cleared (h : l.cells.length = lead.cells.length) :
    (lead.cleared c l).cells.length = l.cells.length := by
  simp [cleared, h]

theorem cell_cleared (h : l.cells.length = lead.cells.length) (j : ℕ) :
    (lead.cleared c l).cell j = l.cell j - l.cell c * lead.cell j := by
  unfold cleared cell
  grind

theorem holds_solvedFor (hc : l.cell c ≠ 0) (y : ℕ → ℚ) :
    (l.solvedFor c).Holds y ↔ l.Holds y := by
  unfold Holds solvedFor
  rw [dot_map_div, div_left_inj' hc]

theorem holds_cleared (h : l.cells.length = lead.cells.length) {y : ℕ → ℚ} (hy : lead.Holds y) :
    (lead.cleared c l).Holds y ↔ l.Holds y := by
  unfold Holds cleared
  rw [dot_zipWith_sub_mul _ _ _ _ h, show dot lead.cells y = lead.rhs from hy]
  exact sub_left_inj

/-! ### The checked steps are exact -/

theorem divide_eq_ok {l' : Line} {p : ℚ} (h : l.divide p = .ok l') :
    p ≠ 0 ∧ l' = ⟨l.basic, l.cells.map (· / p), l.rhs / p⟩ := by
  unfold divide at h
  obtain ⟨cells, hcells, h⟩ := Checked.bind_eq_ok h
  obtain ⟨rhs, hrhs, h⟩ := Checked.bind_eq_ok h
  obtain ⟨hp, rfl⟩ := Ratio.div_eq_ok hrhs
  have := Checked.mapM_eq_map (g := (· / p)) (fun _ _ _ hv => (Ratio.div_eq_ok hv).2) hcells
  subst this
  cases h
  exact ⟨hp, rfl⟩

theorem reduce_eq_ok {f v p r : ℚ} (h : reduce f v p = .ok r) : r = v - f * p := by
  unfold reduce at h
  by_cases hp : p = 0
  · rw [if_pos hp] at h
    cases h
    rw [hp, mul_zero, sub_zero]
  · rw [if_neg hp] at h
    obtain ⟨q, hq, h⟩ := Checked.bind_eq_ok h
    rw [Ratio.sub_eq_ok h, Ratio.mul_eq_ok hq]

theorem eliminate_eq_ok {l' : Line} (hlen : l.cells.length = lead.cells.length)
    (h : lead.eliminate c l = .ok l') : l' = lead.cleared c l := by
  unfold eliminate at h
  dsimp only at h
  by_cases hc : l.cell c = 0
  · -- nothing to clear: the line is left alone, and the exact step subtracts zeros
    rw [if_pos hc] at h
    cases h
    have hz : List.zipWith (fun v p => v - l.cell c * p) l.cells lead.cells = l.cells := by
      apply List.ext_getElem <;> simp [hc, hlen]
    unfold cleared
    rw [hz, hc, zero_mul, sub_zero]
  · rw [if_neg hc] at h
    obtain ⟨cells, hcells, h⟩ := Checked.bind_eq_ok h
    obtain ⟨rhs, hrhs, h⟩ := Checked.bind_eq_ok h
    have := Checked.mapM_eq_map (g := fun x : ℚ × ℚ => x.1 - l.cell c * x.2)
      (fun _ _ _ hv => reduce_eq_ok hv) hcells
    subst this
    cases h
    rw [reduce_eq_ok hrhs, List.map_zip_eq_zipWith]
    rfl

end Line

namespace Tableau

/-- The point satisfies every equation. -/
def Holds (t : Tableau) (y : ℕ → ℚ) : Prop := ∀ l ∈ t.lines, l.Holds y

/-- The tableau in which `line`, standing between `above` and `below`, is solved for column `c`. -/
def exchange (width : ℕ) (above : List Line) (line : Line) (below : List Line) (c : ℕ) : Tableau :=
  let lead := line.solvedFor c
  ⟨width, above.map (lead.cleared c) ++ lead :: below.map (lead.cleared c)⟩

/-- Every line is solved for its basic column, which no other line mentions, and the basic solution
is non-negative. -/
structure Canonical (t : Tableau) : Prop where
  wide : ∀ l ∈ t.lines, l.cells.length = t.width
  basic_lt : ∀ l ∈ t.lines, l.basic < t.width
  own : ∀ l ∈ t.lines, l.cell l.basic = 1
  apart : t.lines.Pairwise fun l m => l.cell m.basic = 0 ∧ m.cell l.basic = 0
  rhs_nonneg : ∀ l ∈ t.lines, 0 ≤ l.rhs

/-- A line stands between the lines above and below it. -/
theorem lines_eq_append {t : Tableau} {r : ℕ} {line : Line} (h : t.lines[r]? = some line) :
    t.lines = t.lines.take r ++ line :: t.lines.drop (r + 1) ∧ (t.lines.take r).length = r := by
  obtain ⟨hlt, hget⟩ := List.getElem?_eq_some_iff.mp h
  refine ⟨?_, by rw [List.length_take]; omega⟩
  rw [← hget, List.getElem_cons_drop, List.take_append_drop]

/-- How a pivot can end.  Without the line there is nothing to do. -/
inductive PivotEnds (t : Tableau) (r c : ℕ) : Tableau → Prop
  | missing : t.lines[r]? = none → PivotEnds t r c t
  | pivoted {line lead : Line} {above below : List Line} : t.lines[r]? = some line →
      line.divide (line.cell c) = .ok lead →
      (t.lines.take r).mapM (lead.eliminate c) = .ok above →
      (t.lines.drop (r + 1)).mapM (lead.eliminate c) = .ok below →
      PivotEnds t r c { t with lines := above ++ { lead with basic := c } :: below }

theorem pivot_ends {t t' : Tableau} {r c : ℕ} (h : t.pivot r c = .ok t') : PivotEnds t r c t' := by
  unfold pivot at h
  cases hr : t.lines[r]? with
  | none =>
    rw [hr] at h
    cases h
    exact .missing hr
  | some line =>
    rw [hr] at h
    obtain ⟨lead, hlead, h⟩ := Checked.bind_eq_ok h
    obtain ⟨above, habove, h⟩ := Checked.bind_eq_ok h
    obtain ⟨below, hbelow, h⟩ := Checked.bind_eq_ok h
    cases h
    exact .pivoted hr hlead habove hbelow

/-- A pivot that succeeds is the exact exchange. -/
theorem pivot_eq_ok {t t' : Tableau} {r c : ℕ} {line : Line}
    (hwide : ∀ l ∈ t.lines, l.cells.length = t.width) (hr : t.lines[r]? = some line)
    (h : t.pivot r c = .ok t') :
    ∃ above below, t.lines = above ++ line :: below ∧ above.length = r ∧ line.cell c ≠ 0 ∧
      t' = exchange t.width above line below c := by
  obtain ⟨hsplit, hlen⟩ := lines_eq_append hr
  have hline : line.cells.length = t.width := hwide line (List.mem_of_getElem? hr)
  cases pivot_ends h with
  | missing hnone => cases hr.symm.trans hnone
  | pivoted hsome hlead habove hbelow =>
    cases hr.symm.trans hsome
    obtain ⟨hc, rfl⟩ := Line.divide_eq_ok hlead
    have hexact : ∀ l ∈ t.lines, ∀ l', Line.eliminate _ c l = .ok l' →
        l' = (line.solvedFor c).cleared c l := fun l hl l' hl' =>
      Line.eliminate_eq_ok (by rw [hwide l hl]; simp [hline]) hl'
    have ha := Checked.mapM_eq_map (fun l hl => hexact l (List.mem_of_mem_take hl)) habove
    have hb := Checked.mapM_eq_map (fun l hl => hexact l (List.mem_of_mem_drop hl)) hbelow
    subst ha hb
    exact ⟨_, _, hsplit, hlen, hc, rfl⟩

end Tableau

/-- The pivot without overflow. -/
def Exact.pivot (t : Tableau) (r c : ℕ) : Tableau :=
  match t.lines[r]? with
  | none => t
  | some line => Tableau.exchange t.width (t.lines.take r) line (t.lines.drop (r + 1)) c

namespace Tableau

theorem exact_pivot_eq {t : Tableau} {r c : ℕ} {above below : List Line} {line : Line}
    (hlines : t.lines = above ++ line :: below) (hlen : above.length = r) :
    Exact.pivot t r c = exchange t.width above line below c := by
  subst hlen
  have hget : t.lines[above.length]? = some line := by simp [hlines]
  unfold Exact.pivot
  rw [hget]
  simp [hlines]

theorem pivot_eq_exact {t t' : Tableau} {r c : ℕ} (hwide : ∀ l ∈ t.lines, l.cells.length = t.width)
    (h : t.pivot r c = .ok t') : t' = Exact.pivot t r c := by
  cases pivot_ends h with
  | missing hr => rw [Exact.pivot, hr]
  | pivoted hr _ _ _ =>
    obtain ⟨above, below, hlines, hlen, -, heq⟩ := pivot_eq_ok hwide hr h
    exact heq.trans (exact_pivot_eq hlines hlen).symm

section Exchange

variable {w c : ℕ} {above below : List Line} {line : Line}

theorem exchange_holds_iff (hwide : ∀ l ∈ above ++ line :: below, l.cells.length = w)
    (hc : line.cell c ≠ 0) (y : ℕ → ℚ) :
    (exchange w above line below c).Holds y ↔ ∀ l ∈ above ++ line :: below, l.Holds y := by
  have hline : line.cells.length = w := hwide line (by simp)
  have hlead := Line.holds_solvedFor hc y
  have hother : line.Holds y → ∀ l ∈ above ++ line :: below,
      (((line.solvedFor c).cleared c l).Holds y ↔ l.Holds y) := fun hy l hl =>
    Line.holds_cleared (by rw [hwide l hl]; simp [hline]) (hlead.mpr hy)
  simp only [Holds, exchange, List.forall_mem_append, List.forall_mem_cons, List.forall_mem_map]
  constructor
  · rintro ⟨ha, hl, hb⟩
    have hy := hlead.mp hl
    exact ⟨fun l hl => (hother hy l (by simp [hl])).mp (ha l hl), hy,
      fun l hl => (hother hy l (by simp [hl])).mp (hb l hl)⟩
  · rintro ⟨ha, hy, hb⟩
    exact ⟨fun l hl => (hother hy l (by simp [hl])).mpr (ha l hl), hlead.mpr hy,
      fun l hl => (hother hy l (by simp [hl])).mpr (hb l hl)⟩

/-- An exchange keeps the tableau canonical as long as no right-hand side becomes negative. -/
theorem exchange_canonical (ht : Canonical ⟨w, above ++ line :: below⟩) (hc : line.cell c ≠ 0)
    (hcw : c < w) (hrhs : ∀ l ∈ (exchange w above line below c).lines, 0 ≤ l.rhs) :
    (exchange w above line below c).Canonical := by
  obtain ⟨hwide, hlt, hown, hapart, -⟩ := ht
  dsimp only at hwide hlt hown hapart
  have hlen : ∀ l ∈ above ++ line :: below, l.cells.length = (line.solvedFor c).cells.length :=
    fun l hl => by rw [Line.length_solvedFor, hwide l hl, hwide line (by simp)]
  have hlead : (line.solvedFor c).cell c = 1 := by rw [Line.cell_solvedFor, div_self hc]
  rw [List.pairwise_append, List.pairwise_cons] at hapart
  obtain ⟨hpa, ⟨hline, hpb⟩, hcross⟩ := hapart
  -- the basic columns of the other lines are zero in `line`, so its multiples do not disturb them
  have hzero : ∀ l, l ∈ above ∨ l ∈ below → (line.solvedFor c).cell l.basic = 0 := by
    rintro l (hl | hl)
    · rw [Line.cell_solvedFor, (hcross l hl line (by simp)).2, zero_div]
    · rw [Line.cell_solvedFor, (hline l hl).1, zero_div]
  have hkeep : ∀ l ∈ above ++ line :: below, ∀ m, m ∈ above ∨ m ∈ below →
      ((line.solvedFor c).cleared c l).cell m.basic = l.cell m.basic := fun l hl m hm => by
    rw [Line.cell_cleared (hlen l hl), hzero m hm, mul_zero, sub_zero]
  have hclear : ∀ l ∈ above ++ line :: below, ((line.solvedFor c).cleared c l).cell c = 0 :=
    fun l hl => by rw [Line.cell_cleared (hlen l hl), hlead, mul_one, sub_self]
  refine ⟨?_, ?_, ?_, ?_, hrhs⟩
  · simp only [exchange, List.forall_mem_append, List.forall_mem_cons, List.forall_mem_map]
    refine ⟨fun l hl => ?_, by simp [hwide line], fun l hl => ?_⟩
    · rw [Line.length_cleared (hlen l (by simp [hl])), hwide l (by simp [hl])]
    · rw [Line.length_cleared (hlen l (by simp [hl])), hwide l (by simp [hl])]
  · simp only [exchange, List.forall_mem_append, List.forall_mem_cons, List.forall_mem_map]
    exact ⟨fun l hl => hlt l (by simp [hl]), hcw, fun l hl => hlt l (by simp [hl])⟩
  · simp only [exchange, List.forall_mem_append, List.forall_mem_cons, List.forall_mem_map]
    refine ⟨fun l hl => ?_, hlead, fun l hl => ?_⟩
    · rw [Line.cleared_basic, hkeep l (by simp [hl]) l (.inl hl), hown l (by simp [hl])]
    · rw [Line.cleared_basic, hkeep l (by simp [hl]) l (.inr hl), hown l (by simp [hl])]
  · simp only [exchange]
    rw [List.pairwise_append, List.pairwise_cons, List.pairwise_map, List.pairwise_map]
    refine ⟨hpa.imp_of_mem fun {l m} hl hm h => ?_, ⟨?_, hpb.imp_of_mem fun {l m} hl hm h => ?_⟩, ?_⟩
    · rw [Line.cleared_basic, Line.cleared_basic, hkeep l (by simp [hl]) m (.inl hm),
        hkeep m (by simp [hm]) l (.inl hl)]
      exact h
    · simp only [List.forall_mem_map]
      exact fun l hl => ⟨hzero l (.inr hl), hclear l (by simp [hl])⟩
    · rw [Line.cleared_basic, Line.cleared_basic, hkeep l (by simp [hl]) m (.inr hm),
        hkeep m (by simp [hm]) l (.inr hl)]
      exact h
    · simp only [List.forall_mem_map, List.forall_mem_cons]
      refine fun l hl => ⟨⟨hclear l (by simp [hl]), hzero l (.inl hl)⟩, fun m hm => ?_⟩
      rw [Line.cleared_basic, Line.cleared_basic, hkeep l (by simp [hl]) m (.inr hm),
        hkeep m (by simp [hm]) l (.inl hl)]
      exact hcross l hl m (by simp [hm])

end Exchange

end Tableau

end LoopSched.Linear
