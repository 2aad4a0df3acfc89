import LoopSched.Proofs.Linear.Pivot
import Mathlib.Tactic.Linarith

/-!
# The starting tableau

The rows of a minimization as equations.  A row that is not an equation gets a slack column, which
takes up the difference of its sides.  A non-negative point satisfies the rows exactly if slacks can
be found for it under which the starting equations hold with all artificial columns at zero.
-/

namespace LoopSched.Linear

theorem Relation.holds_flipped (rel : Relation) (a b : ℚ) :
    rel.flipped.Holds (-a) (-b) ↔ rel.Holds a b := by
  cases rel <;> simp [flipped, Holds]

/-- Sign of the slack of a row. -/
def Relation.slackSign : Relation → ℚ
  | lessEq => 1
  | eq => 0
  | greaterEq => -1

namespace Row

/-- The point satisfies the row. -/
def Holds (r : Row) (y : ℕ → ℚ) : Prop := r.relation.Holds (dot r.coeffs y) r.rhs

/-- By how much the sides of an inequality differ. -/
def slack (r : Row) (y : ℕ → ℚ) : ℚ :=
  match r.relation with
  | .lessEq => r.rhs - dot r.coeffs y
  | .eq => 0
  | .greaterEq => dot r.coeffs y - r.rhs

/-- Number of slack columns that the row takes. -/
def slackColumns (r : Row) : ℕ := if r.relation = .eq then 0 else 1

/-- Number of artificial columns that the row takes. -/
def artificialColumns (r : Row) : ℕ := if r.relation = .lessEq then 0 else 1

theorem Holds.slack_nonneg {r : Row} {y : ℕ → ℚ} (h : r.Holds y) : 0 ≤ r.slack y := by
  unfold Holds at h
  unfold slack
  cases hrel : r.relation <;> rw [hrel] at h <;> simpa [Relation.Holds] using h

theorem Holds.add_slack {r : Row} {y : ℕ → ℚ} (h : r.Holds y) :
    dot r.coeffs y + r.relation.slackSign * r.slack y = r.rhs := by
  unfold Holds at h
  unfold slack Relation.slackSign
  cases hrel : r.relation with
  | lessEq => simp only; ring
  | greaterEq => simp only; ring
  | eq => rw [hrel] at h; simpa [Relation.Holds] using h

theorem holds_of_slack {r : Row} {y : ℕ → ℚ} {d : ℚ} (hd : 0 ≤ d)
    (h : dot r.coeffs y + r.relation.slackSign * d = r.rhs) : r.Holds y := by
  unfold Relation.slackSign at h
  unfold Holds
  cases hrel : r.relation <;> rw [hrel] at h <;> simp only [Relation.Holds] at h ⊢ <;> linarith

theorem normalize_cases {r r' : Row} (h : r.normalize = .ok r') :
    0 ≤ r.rhs ∧ r' = r ∨
      r.rhs < 0 ∧ r' = ⟨r.coeffs.map (-·), r.relation.flipped, -r.rhs⟩ := by
  unfold normalize at h
  by_cases hneg : r.rhs < 0
  · rw [if_pos hneg] at h
    obtain ⟨coeffs, hcoeffs, h⟩ := Checked.bind_eq_ok h
    obtain ⟨rhs, hrhs, h⟩ := Checked.bind_eq_ok h
    cases h
    rw [Checked.mapM_eq_map (fun _ _ _ hv => Ratio.neg_eq_ok hv) hcoeffs, Ratio.neg_eq_ok hrhs]
    exact .inr ⟨hneg, rfl⟩
  · rw [if_neg hneg] at h
    cases h
    exact .inl ⟨not_lt.mp hneg, rfl⟩

theorem normalize_eq_ok {r r' : Row} (h : r.normalize = .ok r') :
    0 ≤ r'.rhs ∧ r'.coeffs.length = r.coeffs.length ∧ ∀ y, r'.Holds y ↔ r.Holds y := by
  rcases normalize_cases h with ⟨hrhs, rfl⟩ | ⟨hneg, rfl⟩
  · exact ⟨hrhs, rfl, fun _ => Iff.rfl⟩
  · refine ⟨(neg_pos.mpr hneg).le, by simp, fun y => ?_⟩
    unfold Holds
    rw [dot_map_neg]
    exact r.relation.holds_flipped _ _

end Row

namespace Simplex

theorem slackCount_cons (r : Row) (rows : List Row) :
    slackCount (r :: rows) = r.slackColumns + slackCount rows := by
  rw [slackCount, List.countP_cons, add_comm, slackCount, Row.slackColumns]
  by_cases h : r.relation = .eq <;> simp [h]

theorem artificialCount_cons (r : Row) (rows : List Row) :
    artificialCount (r :: rows) = r.artificialColumns + artificialCount rows := by
  rw [artificialCount, List.countP_cons, add_comm, artificialCount, Row.artificialColumns]
  by_cases h : r.relation = .lessEq <;> simp [h]

/-- Slacks of the rows that have one, in order. -/
def slacks (rows : List Row) (y : ℕ → ℚ) : List ℚ :=
  (rows.filter (·.relation ≠ .eq)).map (·.slack y)

@[simp] theorem length_slacks (rows : List Row) (y : ℕ → ℚ) :
    (slacks rows y).length = slackCount rows := by
  rw [slacks, List.length_map, slackCount, List.countP_eq_length_filter]

/-- A point over the given columns, continued by the slacks of the rows and by zeros. -/
def withSlacks (n : ℕ) (rows : List Row) (y : ℕ → ℚ) (j : ℕ) : ℚ :=
  if j < n then y j else (slacks rows y).getD (j - n) 0

theorem withSlacks_nonneg {n : ℕ} {rows : List Row} {y : ℕ → ℚ} (hy : ∀ j, 0 ≤ y j)
    (hrows : ∀ r ∈ rows, r.Holds y) (j : ℕ) : 0 ≤ withSlacks n rows y j := by
  unfold withSlacks
  split
  · exact hy j
  · have hall : ∀ v ∈ slacks rows y, 0 ≤ v := by
      simp only [slacks, List.forall_mem_map]
      exact fun r hr => (hrows r (List.mem_of_mem_filter hr)).slack_nonneg
    rw [List.getD_eq_getElem?_getD]
    cases hv : (slacks rows y)[j - n]? with
    | none => exact le_rfl
    | some v => exact hall v (List.mem_of_getElem? hv)

theorem withSlacks_artificial {n : ℕ} {rows : List Row} (y : ℕ → ℚ) {j : ℕ}
    (hj : n + slackCount rows ≤ j) : withSlacks n rows y j = 0 := by
  unfold withSlacks
  rw [if_neg (by omega), List.getD_eq_default _ _ (by rw [length_slacks]; omega)]

/-! ### One row and its line -/

/-- The line that a row starts with. -/
def startLine (n s a i k : ℕ) (r : Row) : Line :=
  match r.relation with
  | .lessEq => ⟨n + i, r.coeffs ++ single s i 1 ++ zeros a, r.rhs⟩
  | .greaterEq => ⟨n + s + k, r.coeffs ++ single s i (-1) ++ single a k 1, r.rhs⟩
  | .eq => ⟨n + s + k, r.coeffs ++ zeros s ++ single a k 1, r.rhs⟩

theorem startLines_cons (n s a i k : ℕ) (r : Row) (rows : List Row) :
    startLines n s a i k (r :: rows) = startLine n s a i k r ::
      startLines n s a (i + r.slackColumns) (k + r.artificialColumns) rows := by
  cases hrel : r.relation <;>
    simp [startLines, startLine, Row.slackColumns, Row.artificialColumns, hrel]

section StartLine

variable {n s a i k : ℕ} {r : Row}

/-- The values of the given, the slack and the artificial part of a line add up. -/
theorem dot_parts {u v w : List ℚ} (hu : u.length = n) (hv : v.length = s) (z : ℕ → ℚ) :
    dot (u ++ v ++ w) z =
      dot u z + dot v (fun j => z (n + j)) + dot w fun j => z (n + s + j) := by
  rw [dot_append, dot_append, List.length_append, hu, hv]

theorem getD_slackPart {u v w : List ℚ} (hu : u.length = n) (hv : v.length = s) {q : ℕ}
    (hq : q < s) : (u ++ v ++ w).getD (n + q) 0 = v.getD q 0 := by
  rw [List.append_assoc, List.getD_append_right _ _ _ _ (by omega), hu, Nat.add_sub_cancel_left,
    List.getD_append _ _ _ _ (by omega)]

theorem getD_artificialPart {u v w : List ℚ} (hu : u.length = n) (hv : v.length = s) (q : ℕ) :
    (u ++ v ++ w).getD (n + s + q) 0 = w.getD q 0 := by
  rw [List.getD_append_right _ _ _ _ (by rw [List.length_append]; omega), List.length_append, hu,
    hv, Nat.add_sub_cancel_left]

/-- The place of a row in the tableau: its coefficients fill the given columns, and the slack and
artificial columns it takes exist. -/
structure Placed (n s a i k : ℕ) (r : Row) : Prop where
  length_eq : r.coeffs.length = n
  slack_le : i + r.slackColumns ≤ s
  artificial_le : k + r.artificialColumns ≤ a

variable (hr : Placed n s a i k r)
include hr

/-- Without artificials, the line says that the slack makes up the difference. -/
theorem startLine_holds_iff {z : ℕ → ℚ} (hart : ∀ j, n + s ≤ j → z j = 0) :
    (startLine n s a i k r).Holds z ↔
      dot r.coeffs z + r.relation.slackSign * z (n + i) = r.rhs := by
  obtain ⟨hlen, hs, ha⟩ := hr
  have hzero : ∀ q, z (n + s + q) = 0 := fun q => hart _ (by omega)
  unfold startLine Line.Holds Relation.slackSign
  unfold Row.slackColumns at hs
  unfold Row.artificialColumns at ha
  cases hrel : r.relation with
  | lessEq =>
    simp only [hrel, reduceCtorEq, if_false] at hs
    simp only
    rw [dot_parts hlen (length_single ..), dot_single (by omega), dot_zeros, add_zero]
  | greaterEq =>
    simp only [hrel, reduceCtorEq, if_false] at hs ha
    simp only
    rw [dot_parts hlen (length_single ..), dot_single (by omega), dot_single (by omega), hzero,
      mul_zero, add_zero]
  | eq =>
    simp only [hrel, reduceCtorEq, if_false] at ha
    simp only
    rw [dot_parts hlen (length_zeros _), dot_zeros, dot_single (by omega), hzero, mul_zero,
      zero_mul, add_zero]

theorem length_startLine : (startLine n s a i k r).cells.length = n + s + a := by
  unfold startLine
  cases hrel : r.relation <;> simp [hr.length_eq, add_assoc]

omit hr in
@[simp] theorem startLine_rhs : (startLine n s a i k r).rhs = r.rhs := by
  unfold startLine
  cases hrel : r.relation <;> rfl

/-- The slack columns of a line are zero but for its own. -/
theorem cell_slack {q : ℕ} (hq : q < s) :
    (startLine n s a i k r).cell (n + q) = if q = i then r.relation.slackSign else 0 := by
  unfold startLine Line.cell Relation.slackSign
  obtain ⟨hlen, hs, -⟩ := hr
  unfold Row.slackColumns at hs
  cases hrel : r.relation with
  | lessEq =>
    simp only [hrel, reduceCtorEq, if_false] at hs
    simp only
    rw [getD_slackPart hlen (length_single ..) hq, getD_single (by omega)]
  | greaterEq =>
    simp only [hrel, reduceCtorEq, if_false] at hs
    simp only
    rw [getD_slackPart hlen (length_single ..) hq, getD_single (by omega)]
  | eq =>
    simp only
    rw [getD_slackPart hlen (length_zeros _) hq, getD_zeros, ite_self]

/-- The artificial columns of a line are zero but for its own. -/
theorem cell_artificial (q : ℕ) :
    (startLine n s a i k r).cell (n + s + q) = if q = k then (r.artificialColumns : ℚ) else 0 := by
  obtain ⟨hlen, -, ha⟩ := hr
  unfold startLine Line.cell
  unfold Row.artificialColumns at ha ⊢
  cases hrel : r.relation with
  | lessEq =>
    simp only
    rw [getD_artificialPart hlen (length_single ..), getD_zeros]
    simp
  | greaterEq =>
    simp only [hrel, reduceCtorEq, if_false] at ha
    simp only [reduceCtorEq, if_false]
    rw [getD_artificialPart hlen (length_single ..), getD_single (by omega), Nat.cast_one]
  | eq =>
    simp only [hrel, reduceCtorEq, if_false] at ha
    simp only [reduceCtorEq, if_false]
    rw [getD_artificialPart hlen (length_zeros _), getD_single (by omega), Nat.cast_one]

/-- The basic column of a line is its slack column in a `≤`-row and its artificial column else. -/
theorem startLine_basic :
    i < i + r.slackColumns ∧ (startLine n s a i k r).basic = n + i ∧
        (startLine n s a i k r).cell (n + i) = 1 ∨
      k < k + r.artificialColumns ∧ (startLine n s a i k r).basic = n + s + k ∧
        (startLine n s a i k r).cell (n + s + k) = 1 := by
  have hslack := cell_slack hr (q := i)
  have hart := cell_artificial hr k
  obtain ⟨-, hs, -⟩ := hr
  unfold Row.artificialColumns at hart ⊢
  unfold Row.slackColumns at hs ⊢
  cases hrel : r.relation with
  | lessEq =>
    rw [hrel] at hslack
    simp only [hrel, reduceCtorEq, if_false] at hs ⊢
    exact .inl ⟨by omega, by simp [startLine, hrel], by
      simpa [Relation.slackSign] using hslack (by omega)⟩
  | greaterEq =>
    simp only [hrel, reduceCtorEq, if_true, if_false, Nat.cast_one] at hart ⊢
    exact .inr ⟨by omega, by simp [startLine, hrel], hart⟩
  | eq =>
    simp only [hrel, reduceCtorEq, if_true, if_false, Nat.cast_one] at hart ⊢
    exact .inr ⟨by omega, by simp [startLine, hrel], hart⟩

end StartLine

/-! ### All rows -/

section StartLines

variable {n s a : ℕ}

/-- The rows fit into the tableau from slack column `i` and artificial column `k` on. -/
def Fits (n s a i k : ℕ) (rows : List Row) : Prop :=
  (∀ r ∈ rows, r.coeffs.length = n) ∧ i + slackCount rows ≤ s ∧ k + artificialCount rows ≤ a

theorem fits_cons {i k : ℕ} {r : Row} {rows : List Row} (h : Fits n s a i k (r :: rows)) :
    Placed n s a i k r ∧ Fits n s a (i + r.slackColumns) (k + r.artificialColumns) rows := by
  obtain ⟨hlen, hs, ha⟩ := h
  rw [slackCount_cons] at hs
  rw [artificialCount_cons] at ha
  exact ⟨⟨hlen r (by simp), by omega, by omega⟩, fun m hm => hlen m (by simp [hm]), by omega,
    by omega⟩

/-- The rows hold wherever the starting lines hold with non-negative slacks and no artificials. -/
theorem rows_hold {z : ℕ → ℚ} (hz : ∀ j, 0 ≤ z j) (hart : ∀ j, n + s ≤ j → z j = 0) :
    ∀ (rows : List Row) (i k : ℕ), Fits n s a i k rows →
      (∀ l ∈ startLines n s a i k rows, l.Holds z) → ∀ r ∈ rows, r.Holds z
  | [], _, _, _, _ => by simp
  | r :: rows, i, k, hfits, hlines => by
    obtain ⟨hr, hrows⟩ := fits_cons hfits
    rw [startLines_cons, List.forall_mem_cons, startLine_holds_iff hr hart] at hlines
    exact List.forall_mem_cons.mpr
      ⟨Row.holds_of_slack (hz _) hlines.1, rows_hold hz hart rows _ _ hrows hlines.2⟩

/-- The starting lines hold at a point whose slack columns take up the slacks of the rows. -/
theorem startLines_hold {y z : ℕ → ℚ} (hzy : ∀ j < n, z j = y j)
    (hart : ∀ j, n + s ≤ j → z j = 0) :
    ∀ (rows : List Row) (i k : ℕ), Fits n s a i k rows → (∀ r ∈ rows, r.Holds y) →
      (∀ q < slackCount rows, z (n + (i + q)) = (slacks rows y).getD q 0) →
      ∀ l ∈ startLines n s a i k rows, l.Holds z
  | [], _, _, _, _, _ => by simp [startLines]
  | r :: rows, i, k, hfits, hholds, hslacks => by
    obtain ⟨hr, hrows⟩ := fits_cons hfits
    rw [List.forall_mem_cons] at hholds
    rw [startLines_cons, List.forall_mem_cons, startLine_holds_iff hr hart]
    have hdot : dot r.coeffs z = dot r.coeffs y :=
      dot_congr fun j hj => hzy j (hr.length_eq ▸ hj)
    have hsize := slackCount_cons r rows
    by_cases heq : r.relation = .eq
    · -- an equation has no slack column and leaves the numbering as it is
      have hcons : slacks (r :: rows) y = slacks rows y := by simp [slacks, heq]
      have hcol : r.slackColumns = 0 := by simp [Row.slackColumns, heq]
      refine ⟨?_, startLines_hold hzy hart rows _ _ hrows hholds.2 fun q hq => ?_⟩
      · rw [hdot, ← hholds.1.add_slack, heq, Relation.slackSign, zero_mul, zero_mul]
      · rw [hcol, add_zero, hslacks q (by omega), hcons]
    · have hcons : slacks (r :: rows) y = r.slack y :: slacks rows y := by simp [slacks, heq]
      have hcol : r.slackColumns = 1 := by simp [Row.slackColumns, heq]
      refine ⟨?_, startLines_hold hzy hart rows _ _ hrows hholds.2 fun q hq => ?_⟩
      · have hi := hslacks 0 (by omega)
        rw [hcons, List.getD_cons_zero, add_zero] at hi
        rw [hdot, hi, hholds.1.add_slack]
      · have hq1 := hslacks (q + 1) (by omega)
        rw [hcons, List.getD_cons_succ] at hq1
        rw [hcol, show i + 1 + q = i + (q + 1) by omega, hq1]

/-- Columns that lines from slack column `i` and artificial column `k` on may be solved for. -/
def Free (n s a i k b : ℕ) : Prop :=
  (∃ q, i ≤ q ∧ q < s ∧ b = n + q) ∨ ∃ q, k ≤ q ∧ q < a ∧ b = n + s + q

theorem startLines_basic_free : ∀ (rows : List Row) (i k : ℕ), Fits n s a i k rows →
    ∀ l ∈ startLines n s a i k rows, Free n s a i k l.basic
  | [], _, _, _ => by simp [startLines]
  | r :: rows, i, k, hfits => by
    obtain ⟨hr, hrows⟩ := fits_cons hfits
    rw [startLines_cons, List.forall_mem_cons]
    refine ⟨?_, fun l hl => ?_⟩
    · rcases startLine_basic hr with ⟨hi, hb, -⟩ | ⟨hk, hb, -⟩
      · exact .inl ⟨i, le_rfl, hi.trans_le hr.slack_le, hb⟩
      · exact .inr ⟨k, le_rfl, hk.trans_le hr.artificial_le, hb⟩
    · rcases startLines_basic_free rows _ _ hrows l hl with ⟨q, hq, h⟩ | ⟨q, hq, h⟩
      · exact .inl ⟨q, by omega, h⟩
      · exact .inr ⟨q, by omega, h⟩

/-- The columns taken before are zero. -/
theorem startLines_cell_taken : ∀ (rows : List Row) (i k : ℕ), Fits n s a i k rows →
    ∀ l ∈ startLines n s a i k rows,
      (∀ q < i, l.cell (n + q) = 0) ∧ ∀ q < k, l.cell (n + s + q) = 0
  | [], _, _, _ => by simp [startLines]
  | r :: rows, i, k, hfits => by
    obtain ⟨hr, hrows⟩ := fits_cons hfits
    rw [startLines_cons, List.forall_mem_cons]
    refine ⟨⟨fun q hq => ?_, fun q hq => ?_⟩, fun l hl => ?_⟩
    · have := hr.slack_le
      rw [cell_slack hr (by omega), if_neg (by omega)]
    · rw [cell_artificial hr, if_neg (by omega)]
    · obtain ⟨h1, h2⟩ := startLines_cell_taken rows _ _ hrows l hl
      exact ⟨fun q hq => h1 q (by omega), fun q hq => h2 q (by omega)⟩

/-- A line is zero in the columns that later lines may be solved for. -/
theorem startLine_cell_free {i k b : ℕ} {r : Row} (hr : Placed n s a i k r)
    (hb : Free n s a (i + r.slackColumns) (k + r.artificialColumns) b) :
    (startLine n s a i k r).cell b = 0 := by
  rcases hb with ⟨q, hq, hqs, rfl⟩ | ⟨q, hq, -, rfl⟩
  · rw [cell_slack hr hqs]
    by_cases h : q = i
    · -- the slack column is still free only if the row is an equation
      have heq : r.relation = .eq := by
        by_contra hne
        rw [Row.slackColumns, if_neg hne] at hq
        omega
      rw [if_pos h, heq, Relation.slackSign]
    · rw [if_neg h]
  · rw [cell_artificial hr]
    by_cases h : q = k
    · rw [if_pos h, show r.artificialColumns = 0 by omega, Nat.cast_zero]
    · rw [if_neg h]

theorem startLines_apart : ∀ (rows : List Row) (i k : ℕ), Fits n s a i k rows →
    (startLines n s a i k rows).Pairwise fun l m => l.cell m.basic = 0 ∧ m.cell l.basic = 0
  | [], _, _, _ => .nil
  | r :: rows, i, k, hfits => by
    obtain ⟨hr, hrows⟩ := fits_cons hfits
    rw [startLines_cons, List.pairwise_cons]
    refine ⟨fun m hm => ⟨?_, ?_⟩, startLines_apart rows _ _ hrows⟩
    · exact startLine_cell_free hr (startLines_basic_free rows _ _ hrows m hm)
    · obtain ⟨h1, h2⟩ := startLines_cell_taken rows _ _ hrows m hm
      rcases startLine_basic hr with ⟨hi, hb, -⟩ | ⟨hk, hb, -⟩
      · rw [hb]; exact h1 i hi
      · rw [hb]; exact h2 k hk

theorem forall_mem_startLines {P : Line → Prop} : ∀ (rows : List Row) (i k : ℕ),
    (∀ i k, ∀ r ∈ rows, Placed n s a i k r → P (startLine n s a i k r)) →
      Fits n s a i k rows → ∀ l ∈ startLines n s a i k rows, P l
  | [], _, _, _, _ => by simp [startLines]
  | r :: rows, i, k, h, hfits => by
    obtain ⟨hr, hrows⟩ := fits_cons hfits
    rw [startLines_cons, List.forall_mem_cons]
    exact ⟨h i k r (by simp) hr,
      forall_mem_startLines rows _ _ (fun i k m hm => h i k m (by simp [hm])) hrows⟩

end StartLines

theorem fits_start {n : ℕ} {rows : List Row} (hlen : ∀ r ∈ rows, r.coeffs.length = n) :
    Fits n (slackCount rows) (artificialCount rows) 0 0 rows :=
  ⟨hlen, (Nat.zero_add _).le, (Nat.zero_add _).le⟩

theorem start_canonical {n : ℕ} {rows : List Row} (hlen : ∀ r ∈ rows, r.coeffs.length = n)
    (hrhs : ∀ r ∈ rows, 0 ≤ r.rhs) : (start n rows).Canonical := by
  have hfits := fits_start hlen
  refine ⟨?_, fun l hl => ?_, ?_, startLines_apart rows _ _ hfits, ?_⟩
  · exact forall_mem_startLines rows _ _ (fun _ _ _ _ hr => length_startLine hr) hfits
  · rcases startLines_basic_free rows _ _ hfits l hl with ⟨q, -, hq, hb⟩ | ⟨q, -, hq, hb⟩
    · rw [hb]
      show n + q < n + slackCount rows + artificialCount rows
      omega
    · rw [hb]
      show n + slackCount rows + q < n + slackCount rows + artificialCount rows
      omega
  · refine forall_mem_startLines rows _ _ (fun _ _ _ _ hr => ?_) hfits
    rcases startLine_basic hr with ⟨-, hb, h⟩ | ⟨-, hb, h⟩ <;> rw [hb, h]
  · exact forall_mem_startLines rows _ _
      (fun _ _ r hmem _ => by rw [startLine_rhs]; exact hrhs r hmem) hfits

theorem slacks_le_width (n : ℕ) (rows : List Row) : n + slackCount rows ≤ (start n rows).width :=
  Nat.le_add_right _ _

/-- The starting equations say of a point without artificials what the rows say. -/
theorem rows_hold_of_start {n : ℕ} {rows : List Row} (hlen : ∀ r ∈ rows, r.coeffs.length = n)
    {z : ℕ → ℚ} (hz : ∀ j, 0 ≤ z j) (hart : ∀ j, n + slackCount rows ≤ j → z j = 0)
    (h : (start n rows).Holds z) : ∀ r ∈ rows, r.Holds z :=
  rows_hold hz hart rows 0 0 (fits_start hlen) h

theorem start_holds_withSlacks {n : ℕ} {rows : List Row}
    (hlen : ∀ r ∈ rows, r.coeffs.length = n) {y : ℕ → ℚ} (hrows : ∀ r ∈ rows, r.Holds y) :
    (start n rows).Holds (withSlacks n rows y) := by
  refine startLines_hold (fun j hj => ?_) (fun j hj => withSlacks_artificial y hj) rows 0 0
    (fits_start hlen) hrows fun q _ => ?_
  · rw [withSlacks, if_pos hj]
  · rw [withSlacks, if_neg (by omega), show n + (0 + q) - n = q by omega]

end Simplex

end LoopSched.Linear
