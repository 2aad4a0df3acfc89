import LoopSched.Linear.Relaxation
import LoopSched.Proofs.Linear.Form
import LoopSched.Proofs.Linear.Phases
import Mathlib.Tactic.LinearCombination

/-!
# The change of variables of the relaxation

`decode` reads the value of every variable off non-negative columns, `encode` finds columns for a
point in a box.  The rows of a relaxation say of the columns what the constraints and ranges say of
the decoded point, and the cost is the objective up to its constant part, so the relaxation is
solved exactly.
-/

namespace LoopSched.Linear

/-- A relation only depends on the difference of its sides. -/
theorem Relation.holds_congr (rel : Relation) {a b a' b' : ℚ} (h : a - b = a' - b') :
    rel.Holds a b ↔ rel.Holds a' b' := by
  cases rel with
  | lessEq => rw [Holds, Holds, ← sub_nonpos, h, sub_nonpos]
  | eq => rw [Holds, Holds, ← sub_eq_zero, h, sub_eq_zero]
  | greaterEq => rw [Holds, Holds, ← sub_nonneg, h, sub_nonneg]

/-- The point lies in every range of the box. -/
def InBox (box : List Bounds) (x : ℕ → ℚ) : Prop :=
  ∀ i (b : Bounds), box[i]? = some b → b.Contains (x i)

theorem inBox_cons {b : Bounds} {box : List Bounds} {x : ℕ → ℚ} :
    InBox (b :: box) x ↔ b.Contains (x 0) ∧ InBox box fun i => x (i + 1) := by
  constructor
  · intro h
    exact ⟨h 0 b rfl, fun i b' hi => h (i + 1) b' hi⟩
  · rintro ⟨h0, h⟩ i b' hi
    cases i with
    | zero => cases hi; exact h0
    | succ i => exact h i b' hi

/-- The constraints hold and the point lies in the box; integrality is not asked for. -/
structure Program.Relaxes (p : Program) (box : List Bounds) (x : ℕ → ℚ) : Prop where
  constraints : ∀ c ∈ p.constraints, c.relation.Holds (c.form.eval x) c.rhs
  inBox : InBox box x

/-- No form mentions a variable from `n` on. -/
structure Program.Scoped (p : Program) (n : ℕ) : Prop where
  objective : p.objective.within n = true
  constraints : ∀ c ∈ p.constraints, c.form.within n = true

/-! ### Columns -/

namespace Column

/-- Value of the variable that the column stands for. -/
def value (y : ℕ → ℚ) : Column → ℚ
  | above col lower => lower + y col
  | below col upper => upper - y col
  | split pos neg => y pos - y neg

/-- The column only uses places below `n`. -/
def Within (n : ℕ) : Column → Prop
  | above col _ => col < n
  | below col _ => col < n
  | split pos neg => pos < n ∧ neg < n

theorem Within.mono {m n : ℕ} (hmn : m ≤ n) {column : Column} (h : column.Within m) :
    column.Within n := by
  cases column with
  | above col lower => exact lt_of_lt_of_le h hmn
  | below col upper => exact lt_of_lt_of_le h hmn
  | split pos neg => exact ⟨lt_of_lt_of_le h.1 hmn, lt_of_lt_of_le h.2 hmn⟩

end Column

namespace Relaxation

/-- Values of the variables, read off the columns. -/
def decode (columns : List Column) (y : ℕ → ℚ) (i : ℕ) : ℚ :=
  (columns[i]?.map (·.value y)).getD 0

/-- The column of a range, from place `n` on. -/
def columnOf (n : ℕ) (b : Bounds) : Column :=
  match b.lower, b.upper with
  | some l, _ => .above n l
  | none, some u => .below n u
  | none, none => .split n (n + 1)

theorem columnsFrom_cons (n : ℕ) (b : Bounds) (bs : List Bounds) :
    columnsFrom n (b :: bs) = columnOf n b :: columnsFrom (n + columnWidth b) bs := by
  obtain ⟨_ | l, _ | u⟩ := b <;> rfl

@[simp] theorem width_cons (b : Bounds) (bs : List Bounds) :
    width (b :: bs) = columnWidth b + width bs := rfl

@[simp] theorem length_columnsFrom (n : ℕ) (bs : List Bounds) :
    (columnsFrom n bs).length = bs.length := by
  induction bs generalizing n with
  | nil => rfl
  | cons b bs ih => rw [columnsFrom_cons, List.length_cons, ih, List.length_cons]

theorem columnOf_within (n : ℕ) (b : Bounds) : (columnOf n b).Within (n + columnWidth b) := by
  obtain ⟨_ | l, _ | u⟩ := b <;> simp [columnOf, columnWidth, Column.Within]

theorem columnsFrom_within (n : ℕ) (bs : List Bounds) :
    ∀ column ∈ columnsFrom n bs, column.Within (n + width bs) := by
  induction bs generalizing n with
  | nil => simp [columnsFrom]
  | cons b bs ih =>
    rw [columnsFrom_cons, List.forall_mem_cons, width_cons, ← add_assoc]
    exact ⟨(columnOf_within n b).mono (by omega), ih _⟩

theorem decode_cons_succ (column : Column) (columns : List Column) (y : ℕ → ℚ) (i : ℕ) :
    decode (column :: columns) y (i + 1) = decode columns y i := rfl

/-! ### Substituting terms -/

theorem substitute_eq_ok {coeffs coeffs' : List ℚ} {c : ℤ} {k : ℚ} {column : Column}
    (hcol : column.Within coeffs.length) (h : substitute coeffs c column = .ok (coeffs', k)) :
    coeffs'.length = coeffs.length ∧
      ∀ y, dot coeffs' y + k = dot coeffs y + c * column.value y := by
  cases column with
  | above col lower =>
    obtain ⟨v, hv, h⟩ := Checked.bind_eq_ok h
    obtain ⟨q, hq, h⟩ := Checked.bind_eq_ok h
    cases h
    refine ⟨by simp, fun y => ?_⟩
    rw [dot_set hcol, Ratio.add_eq_ok hv, Ratio.mul_eq_ok hq, Column.value]
    ring
  | below col upper =>
    obtain ⟨v, hv, h⟩ := Checked.bind_eq_ok h
    obtain ⟨q, hq, h⟩ := Checked.bind_eq_ok h
    cases h
    refine ⟨by simp, fun y => ?_⟩
    rw [dot_set hcol, Ratio.sub_eq_ok hv, Ratio.mul_eq_ok hq, Column.value]
    ring
  | split pos neg =>
    obtain ⟨v, hv, h⟩ := Checked.bind_eq_ok h
    obtain ⟨w, hw, h⟩ := Checked.bind_eq_ok h
    cases h
    refine ⟨by simp, fun y => ?_⟩
    rw [dot_set (by simpa using hcol.2), dot_set hcol.1, Ratio.sub_eq_ok hw, Ratio.add_eq_ok hv,
      Column.value]
    ring

theorem substituteTerm_eq_ok {columns : List Column} {sgn : ℤ} {coeffs coeffs' : List ℚ}
    {t : ℕ × ℤ} {k : ℚ} (hcols : ∀ column ∈ columns, column.Within coeffs.length)
    (h : substituteTerm columns sgn coeffs t = .ok (coeffs', k)) :
    coeffs'.length = coeffs.length ∧
      ∀ y, dot coeffs' y + k = dot coeffs y + sgn * (t.2 * decode columns y t.1) := by
  unfold substituteTerm at h
  obtain ⟨_, -, h⟩ := Checked.bind_eq_ok h
  unfold decode
  cases hc : columns[t.1]? with
  | none =>
    simp only [hc] at h
    cases h
    exact ⟨rfl, fun y => by simp⟩
  | some column =>
    simp only [hc] at h
    obtain ⟨hlen, hdot⟩ := substitute_eq_ok (hcols column (List.mem_of_getElem? hc)) h
    refine ⟨hlen, fun y => ?_⟩
    rw [hdot y, Option.map_some, Option.getD_some, Int.cast_mul]
    ring

/-- Substituting all terms of a form.  The constant parts go to the accumulator with sign `e`. -/
theorem foldlM_substituteTerm (columns : List Column) (sgn : ℤ) (e : ℚ)
    {f : List ℚ × ℚ → ℕ × ℤ → Checked (List ℚ × ℚ)}
    (hf : ∀ s t s', f s t = .ok s' →
      ∃ k, substituteTerm columns sgn s.1 t = .ok (s'.1, k) ∧ s'.2 = s.2 + e * k) :
    ∀ {terms : List (ℕ × ℤ)} {s s' : List ℚ × ℚ},
      (∀ column ∈ columns, column.Within s.1.length) → terms.foldlM f s = .ok s' →
      s'.1.length = s.1.length ∧ ∀ y, e * dot s'.1 y + s'.2 =
        e * dot s.1 y + s.2 + e * (sgn * Form.evalTerms terms (decode columns y))
  | [], s, s', _, h => by
    cases h
    exact ⟨rfl, fun y => by simp⟩
  | t :: terms, s, s', hcols, h => by
    rw [List.foldlM_cons] at h
    obtain ⟨r, hr, h⟩ := Checked.bind_eq_ok h
    obtain ⟨k, hk, hacc⟩ := hf s t r hr
    obtain ⟨hlen, hdot⟩ := substituteTerm_eq_ok hcols hk
    obtain ⟨hlen', hdot'⟩ := foldlM_substituteTerm columns sgn e hf (hlen ▸ hcols) h
    refine ⟨hlen'.trans hlen, fun y => ?_⟩
    rw [hdot' y, hacc, Form.evalTerms_cons]
    linear_combination e * hdot y

section Rows

variable {columns : List Column} {n : ℕ} (hcols : ∀ column ∈ columns, column.Within n)
include hcols

/-- The cost of the columns is the objective of the decoded point, as a minimization. -/
theorem cost_eq_ok {p : Program} {coeffs : List ℚ} {offset : ℚ}
    (h : cost p columns n = .ok (coeffs, offset)) :
    coeffs.length = n ∧ ∀ y, dot coeffs y + offset =
      sign p.direction * p.objective.eval (decode columns y) := by
  unfold cost at h
  obtain ⟨_, -, h⟩ := Checked.bind_eq_ok h
  obtain ⟨hlen, hdot⟩ := foldlM_substituteTerm columns (sign p.direction) 1
    (fun s t s' hs => by
      obtain ⟨⟨coeffs, k⟩, hk, hs⟩ := Checked.bind_eq_ok hs
      obtain ⟨v, hv, hs⟩ := Checked.bind_eq_ok hs
      cases hs
      exact ⟨k, hk, by rw [Ratio.add_eq_ok hv, one_mul]⟩) (by simpa using hcols) h
  refine ⟨by simpa using hlen, fun y => ?_⟩
  have := hdot y
  rw [dot_zeros, Int.cast_mul] at this
  rw [Form.eval_eq]
  linear_combination this

/-- The sides of a row differ by as much as the sides of its constraint. -/
theorem constraintRow_dot {c : Constraint} {r : Row} (h : constraintRow columns n c = .ok r) :
    r.coeffs.length = n ∧ r.relation = c.relation ∧
      ∀ y, dot r.coeffs y - r.rhs = c.form.eval (decode columns y) - c.rhs := by
  unfold constraintRow at h
  obtain ⟨rhs, hrhs, h⟩ := Checked.bind_eq_ok h
  obtain ⟨⟨coeffs, rhs'⟩, hfold, h⟩ := Checked.bind_eq_ok h
  cases h
  obtain ⟨hlen, hdot⟩ := foldlM_substituteTerm columns 1 (-1)
    (fun s t s' hs => by
      obtain ⟨⟨coeffs, k⟩, hk, hs⟩ := Checked.bind_eq_ok hs
      obtain ⟨v, hv, hs⟩ := Checked.bind_eq_ok hs
      cases hs
      exact ⟨k, hk, by rw [Ratio.sub_eq_ok hv]; ring⟩) (by simpa using hcols) hfold
  refine ⟨by simpa using hlen, rfl, fun y => ?_⟩
  have := hdot y
  rw [dot_zeros, Ratio.sub_eq_ok hrhs, Int.cast_one] at this
  rw [Form.eval_eq]
  linear_combination -this

/-- The row of a constraint says of the columns what the constraint says of the decoded point. -/
theorem constraintRow_eq_ok {c : Constraint} {r : Row} (h : constraintRow columns n c = .ok r) :
    r.coeffs.length = n ∧
      ∀ y, r.Holds y ↔ c.relation.Holds (c.form.eval (decode columns y)) c.rhs := by
  obtain ⟨hlen, hrel, hdot⟩ := constraintRow_dot hcols h
  refine ⟨hlen, fun y => ?_⟩
  rw [Row.Holds, hrel]
  exact c.relation.holds_congr (hdot y)

theorem constraintRows_eq_ok {cs : List Constraint} {rows : List Row}
    (h : cs.mapM (constraintRow columns n) = .ok rows) :
    (∀ r ∈ rows, r.coeffs.length = n) ∧ ∀ y, (∀ r ∈ rows, r.Holds y) ↔
      ∀ c ∈ cs, c.relation.Holds (c.form.eval (decode columns y)) c.rhs := by
  have hall := Checked.mapM_forall₂ h
  clear h
  induction hall with
  | nil => simp
  | @cons c r cs rows hr _ ih =>
    obtain ⟨hlen, hiff⟩ := constraintRow_eq_ok hcols hr
    refine ⟨List.forall_mem_cons.mpr ⟨hlen, ih.1⟩, fun y => ?_⟩
    rw [List.forall_mem_cons, List.forall_mem_cons, hiff, ih.2]

end Rows

/-! ### Ranges -/

/-- The row of a range, with the sign of its column, keeps the variable in the range. -/
theorem boundRow?_eq_ok {b : Bounds} {k n : ℕ} {limit : Option Row} (hk : k + columnWidth b ≤ n)
    (h : boundRow? n b (columnOf k b) = .ok limit) :
    (∀ r ∈ limit, r.coeffs.length = n) ∧ ∀ y : ℕ → ℚ, (∀ j, 0 ≤ y j) →
      ((∀ r ∈ limit, r.Holds y) ↔ b.Contains ((columnOf k b).value y)) := by
  obtain ⟨_ | l, _ | u⟩ := b
  · -- a free variable
    cases h
    exact ⟨by simp, fun y _ => by simp [Bounds.Contains]⟩
  · -- only an upper end
    cases h
    exact ⟨by simp, fun y hy => by simp [Bounds.Contains, columnOf, Column.value, hy]⟩
  · -- only a lower end
    cases h
    exact ⟨by simp, fun y hy => by simp [Bounds.Contains, columnOf, Column.value, hy]⟩
  · -- both ends: the row says that the column does not exceed their difference
    obtain ⟨v, hv, h⟩ := Checked.bind_eq_ok h
    cases h
    have hkn : k < n := by simp [columnWidth] at hk; omega
    refine ⟨by simp, fun y hy => ?_⟩
    rw [Ratio.sub_eq_ok hv]
    simp only [Option.mem_def, Option.some.injEq, forall_eq', Row.Holds, Relation.Holds,
      Bounds.Contains, columnOf, Column.value]
    rw [dot_single hkn, one_mul, le_sub_iff_add_le']
    exact ⟨fun h => ⟨le_add_of_nonneg_right (hy k), h⟩, fun h => h.2⟩

theorem boundRows_eq_ok {n : ℕ} : ∀ {bs : List Bounds} {k : ℕ} {limits : List (Option Row)},
    k + width bs ≤ n →
    (bs.zip (columnsFrom k bs)).mapM (fun (b, column) => boundRow? n b column) = .ok limits →
    (∀ r ∈ limits.filterMap id, r.coeffs.length = n) ∧ ∀ y : ℕ → ℚ, (∀ j, 0 ≤ y j) →
      ((∀ r ∈ limits.filterMap id, r.Holds y) ↔ InBox bs (decode (columnsFrom k bs) y))
  | [], k, limits, _, h => by
    cases h
    exact ⟨by simp, fun y _ => by simp [InBox]⟩
  | b :: bs, k, limits, hk, h => by
    rw [columnsFrom_cons, List.zip_cons_cons, List.mapM_cons] at h
    obtain ⟨limit, hlimit, h⟩ := Checked.bind_eq_ok h
    obtain ⟨rest, hrest, h⟩ := Checked.bind_eq_ok h
    cases h
    rw [width_cons] at hk
    obtain ⟨hlen, hiff⟩ := boundRow?_eq_ok (by omega) hlimit
    obtain ⟨hlen', hiff'⟩ := boundRows_eq_ok (by omega) hrest
    have hmem : ∀ P : Row → Prop, (∀ r ∈ (limit :: rest).filterMap id, P r) ↔
        (∀ r ∈ limit, P r) ∧ ∀ r ∈ rest.filterMap id, P r := by
      intro P
      cases limit <;> simp
    refine ⟨(hmem _).mpr ⟨hlen, hlen'⟩, fun y hy => ?_⟩
    rw [hmem, hiff y hy, hiff' y hy, columnsFrom_cons, inBox_cons]
    rfl

/-! ### Columns for a point -/

/-- Values of the columns of a range for a value of its variable. -/
def encodeOne (b : Bounds) (v : ℚ) : List ℚ :=
  match b.lower, b.upper with
  | some l, _ => [v - l]
  | none, some u => [u - v]
  | none, none => [max v 0, max (-v) 0]

/-- Values of all columns for a point. -/
def encode : List Bounds → (ℕ → ℚ) → List ℚ
  | [], _ => []
  | b :: bs, x => encodeOne b (x 0) ++ encode bs fun i => x (i + 1)

theorem length_encodeOne (b : Bounds) (v : ℚ) : (encodeOne b v).length = columnWidth b := by
  obtain ⟨_ | l, _ | u⟩ := b <;> rfl

theorem length_encode (bs : List Bounds) (x : ℕ → ℚ) : (encode bs x).length = width bs := by
  induction bs generalizing x with
  | nil => rfl
  | cons b bs ih => rw [encode, List.length_append, length_encodeOne, ih, width_cons]

theorem encodeOne_nonneg {b : Bounds} {v : ℚ} (h : b.Contains v) : ∀ w ∈ encodeOne b v, 0 ≤ w := by
  obtain ⟨_ | l, _ | u⟩ := b
  · simp [encodeOne]
  · simpa [encodeOne] using h.2 u rfl
  · simpa [encodeOne] using h.1 l rfl
  · simpa [encodeOne] using h.1 l rfl

theorem encode_nonneg {bs : List Bounds} {x : ℕ → ℚ} (h : InBox bs x) :
    ∀ w ∈ encode bs x, 0 ≤ w := by
  induction bs generalizing x with
  | nil => simp [encode]
  | cons b bs ih =>
    rw [inBox_cons] at h
    rw [encode, List.forall_mem_append]
    exact ⟨encodeOne_nonneg h.1, ih h.2⟩

theorem value_columnOf {b : Bounds} {v : ℚ} {k : ℕ} {y : ℕ → ℚ}
    (hy : ∀ j < columnWidth b, y (k + j) = (encodeOne b v).getD j 0) :
    (columnOf k b).value y = v := by
  obtain ⟨_ | l, _ | u⟩ := b
  · have h0 := hy 0 (by simp [columnWidth])
    have h1 := hy 1 (by simp [columnWidth])
    simp only [encodeOne, add_zero, List.getD_cons_zero, List.getD_cons_succ] at h0 h1
    simp only [columnOf, Column.value, h0, h1]
    rcases le_total v 0 with hv | hv
    · rw [max_eq_right hv, max_eq_left (neg_nonneg.mpr hv), zero_sub, neg_neg]
    · rw [max_eq_left hv, max_eq_right (neg_nonpos.mpr hv), sub_zero]
  · have h0 := hy 0 (by simp [columnWidth])
    simp only [encodeOne, add_zero, List.getD_cons_zero] at h0
    simp only [columnOf, Column.value, h0, sub_sub_cancel]
  · have h0 := hy 0 (by simp [columnWidth])
    simp only [encodeOne, add_zero, List.getD_cons_zero] at h0
    simp only [columnOf, Column.value, h0, add_sub_cancel]
  · have h0 := hy 0 (by simp [columnWidth])
    simp only [encodeOne, add_zero, List.getD_cons_zero] at h0
    simp only [columnOf, Column.value, h0, add_sub_cancel]

/-- Decoding the columns of a point gives the point back. -/
theorem decode_encode : ∀ {bs : List Bounds} {x : ℕ → ℚ} {k : ℕ} {y : ℕ → ℚ},
    (∀ j < width bs, y (k + j) = (encode bs x).getD j 0) →
    ∀ i < bs.length, decode (columnsFrom k bs) y i = x i
  | [], _, _, _, _, i, hi => by simp at hi
  | b :: bs, x, k, y, hy, i, hi => by
    rw [width_cons] at hy
    rw [columnsFrom_cons]
    cases i with
    | zero =>
      refine value_columnOf fun j hj => ?_
      rw [hy j (by omega), encode, List.getD_append _ _ _ _ (by rwa [length_encodeOne])]
    | succ i =>
      rw [decode_cons_succ]
      refine decode_encode (x := fun i => x (i + 1)) (fun j hj => ?_) i (by simpa using hi)
      rw [add_assoc, hy _ (by omega), encode,
        List.getD_append_right _ _ _ _ (by rw [length_encodeOne]; omega), length_encodeOne,
        Nat.add_sub_cancel_left]

/-! ### The relaxation is solved exactly -/

theorem recover_eq_ok {y : List ℚ} {column : Column} {v : ℚ} (h : recover y column = .ok v) :
    v = column.value fun j => y.getD j 0 := by
  cases column with
  | above col lower => exact Ratio.add_eq_ok h
  | below col upper => exact Ratio.sub_eq_ok h
  | split pos neg => exact Ratio.sub_eq_ok h

/-- The rows that a relaxation hands to the simplex method. -/
structure Poses (p : Program) (box : List Bounds) (coeffs : List ℚ) (offset : ℚ)
    (rows : List Row) : Prop where
  rows_eq : ∃ constraints limits,
    p.constraints.mapM (constraintRow (columnsFrom 0 box) (width box)) = .ok constraints ∧
      (box.zip (columnsFrom 0 box)).mapM (fun (b, column) => boundRow? (width box) b column) =
        .ok limits ∧
      rows = constraints ++ limits.filterMap id
  length_coeffs : coeffs.length = width box
  length_row : ∀ r ∈ rows, r.coeffs.length = coeffs.length
  cost_eq : ∀ y, dot coeffs y + offset =
    sign p.direction * p.objective.eval (decode (columnsFrom 0 box) y)
  holds_iff : ∀ y : ℕ → ℚ, (∀ j, 0 ≤ y j) →
    ((∀ r ∈ rows, r.Holds y) ↔ p.Relaxes box (decode (columnsFrom 0 box) y))

theorem columnsFrom_zero_within (box : List Bounds) :
    ∀ column ∈ columnsFrom 0 box, column.Within (width box) := by
  simpa using columnsFrom_within 0 box

theorem poses_of_pose {p : Program} {box : List Bounds} {posed : Posed}
    (h : pose p box = .ok posed) : Poses p box posed.cost posed.offset posed.rows := by
  unfold pose at h
  obtain ⟨⟨coeffs, offset⟩, hcost, h⟩ := Checked.bind_eq_ok h
  obtain ⟨constraints, hrows, h⟩ := Checked.bind_eq_ok h
  obtain ⟨limits, hlimits, h⟩ := Checked.bind_eq_ok h
  cases h
  have hcols := columnsFrom_zero_within box
  obtain ⟨hlen, hdot⟩ := cost_eq_ok hcols hcost
  obtain ⟨hlenr, hiffr⟩ := constraintRows_eq_ok hcols hrows
  obtain ⟨hlenl, hiffl⟩ := boundRows_eq_ok (by simp) hlimits
  refine ⟨⟨constraints, limits, hrows, hlimits, rfl⟩, hlen, ?_, hdot, fun y hy => ?_⟩
  · dsimp only
    rw [hlen, List.forall_mem_append]
    exact ⟨hlenr, hlenl⟩
  · rw [List.forall_mem_append, hiffr, hiffl y hy]
    exact ⟨fun h => ⟨h.1, h.2⟩, fun h => ⟨h.1, h.2⟩⟩

/-- How a relaxation can end. -/
inductive SolveEnds (p : Program) (box : List Bounds) : Relaxed → Prop
  | crossed : box.any (·.crossed) = true → SolveEnds p box .infeasible
  | infeasible {posed : Posed} : ¬ box.any (·.crossed) = true → pose p box = .ok posed →
      Simplex.minimize posed.cost posed.rows = .ok .infeasible → SolveEnds p box .infeasible
  | unbounded {posed : Posed} : ¬ box.any (·.crossed) = true → pose p box = .ok posed →
      Simplex.minimize posed.cost posed.rows = .ok .unbounded → SolveEnds p box .unbounded
  | optimal {posed : Posed} {least objective : ℚ} {y values : List ℚ} :
      ¬ box.any (·.crossed) = true → pose p box = .ok posed →
      Simplex.minimize posed.cost posed.rows = .ok (.optimal least y) →
      (columnsFrom 0 box).mapM (recover y) = .ok values →
      Ratio.add least posed.offset = .ok objective →
      SolveEnds p box (.optimal objective values)

theorem solve_ends {p : Program} {box : List Bounds} {r : Relaxed} (h : solve p box = .ok r) :
    SolveEnds p box r := by
  unfold solve at h
  by_cases hcross : box.any (·.crossed) = true
  · rw [if_pos hcross] at h
    cases h
    exact .crossed hcross
  · rw [if_neg hcross] at h
    obtain ⟨posed, hposed, h⟩ := Checked.bind_eq_ok h
    obtain ⟨optimum, hmin, h⟩ := Checked.bind_eq_ok h
    cases optimum with
    | infeasible =>
      cases h
      exact .infeasible hcross hposed hmin
    | unbounded =>
      cases h
      exact .unbounded hcross hposed hmin
    | optimal least y =>
      obtain ⟨values, hvalues, h⟩ := Checked.bind_eq_ok h
      obtain ⟨objective, hobjective, h⟩ := Checked.bind_eq_ok h
      cases h
      exact .optimal hcross hposed hmin hvalues hobjective

theorem recover_columns {box : List Bounds} {y values : List ℚ}
    (h : (columnsFrom 0 box).mapM (recover y) = .ok values) :
    values = (columnsFrom 0 box).map (·.value fun j => y.getD j 0) :=
  Checked.mapM_eq_map (fun _ _ _ hv => recover_eq_ok hv) h

/-- The columns of a point of the relaxation satisfy the rows, and decoding them gives it back. -/
theorem Poses.holds_encode {p : Program} {box : List Bounds} {coeffs : List ℚ} {offset : ℚ}
    {rows : List Row} (h : Poses p box coeffs offset rows) (hp : p.Scoped box.length) {x : ℕ → ℚ}
    (hx : p.Relaxes box x) :
    (∀ j, 0 ≤ (encode box x).getD j 0) ∧ (∀ r ∈ rows, r.Holds fun j => (encode box x).getD j 0) ∧
      ∀ i < box.length, decode (columnsFrom 0 box) (fun j => (encode box x).getD j 0) i = x i := by
  have hy : ∀ j, 0 ≤ (encode box x).getD j 0 := by
    intro j
    rw [List.getD_eq_getElem?_getD]
    cases hv : (encode box x)[j]? with
    | none => exact le_rfl
    | some v => exact encode_nonneg hx.inBox v (List.mem_of_getElem? hv)
  have hdecode : ∀ i < box.length,
      decode (columnsFrom 0 box) (fun j => (encode box x).getD j 0) i = x i :=
    decode_encode fun j _ => by rw [zero_add]
  refine ⟨hy, (h.holds_iff _ hy).mpr ⟨fun c hc => ?_, fun i b hi => ?_⟩, hdecode⟩
  · rw [Form.eval_congr (hp.constraints c hc) hdecode]
    exact hx.constraints c hc
  · rw [hdecode i (List.getElem?_eq_some_iff.mp hi).1]
    exact hx.inBox i b hi

/-- Every point of the relaxation is the decoding of a non-negative solution of the rows. -/
theorem Poses.exists_columns {p : Program} {box : List Bounds} {coeffs : List ℚ} {offset : ℚ}
    {rows : List Row} (h : Poses p box coeffs offset rows) (hp : p.Scoped box.length) {x : ℕ → ℚ}
    (hx : p.Relaxes box x) :
    ∃ y : ℕ → ℚ, (∀ j, 0 ≤ y j) ∧ (∀ r ∈ rows, r.Holds y) ∧
      dot coeffs y + offset = sign p.direction * p.objective.eval x := by
  obtain ⟨hy, hrows, hdecode⟩ := h.holds_encode hp hx
  refine ⟨_, hy, hrows, ?_⟩
  rw [h.cost_eq, Form.eval_congr hp.objective hdecode]

/-- The values of the columns as a list. -/
theorem getD_map_value (columns : List Column) (y : ℕ → ℚ) :
    (fun i => (columns.map (·.value y)).getD i 0) = decode columns y := by
  funext i
  rw [decode, List.getD_eq_getElem?_getD, List.getElem?_map]

theorem solve_optimal {p : Program} {box : List Bounds} {objective : ℚ} {values : List ℚ}
    (hp : p.Scoped box.length) (h : solve p box = .ok (.optimal objective values)) :
    values.length = box.length ∧ p.Relaxes box (fun i => values.getD i 0) ∧
      objective = sign p.direction * p.objective.eval (fun i => values.getD i 0) ∧
      ∀ x, p.Relaxes box x → objective ≤ sign p.direction * p.objective.eval x := by
  cases solve_ends h with
  | @optimal posed _ _ _ _ _ hposed hmin hvalues hobjective =>
    have hposes := poses_of_pose hposed
    obtain ⟨-, hnonneg, hrows, hv, hbest⟩ := Simplex.minimize_optimal hposes.length_row hmin
    rw [recover_columns hvalues, Ratio.add_eq_ok hobjective, getD_map_value]
    refine ⟨by simp, (hposes.holds_iff _ hnonneg).mp hrows, ?_, fun x hx => ?_⟩
    · rw [hv, hposes.cost_eq]
    · obtain ⟨z, hz, hzrows, hzcost⟩ := hposes.exists_columns hp hx
      rw [← hzcost]
      exact add_le_add_left (hbest z hz hzrows) posed.offset

theorem solve_infeasible {p : Program} {box : List Bounds} (hp : p.Scoped box.length)
    (h : solve p box = .ok .infeasible) (x : ℕ → ℚ) : ¬ p.Relaxes box x := by
  intro hx
  cases solve_ends h with
  | crossed hcross =>
    -- no number lies in a crossed range
    obtain ⟨b, hb, hcrossed⟩ := List.any_eq_true.mp hcross
    obtain ⟨i, hi⟩ := List.getElem?_of_mem hb
    obtain ⟨hlower, hupper⟩ := hx.inBox i b hi
    unfold Bounds.crossed at hcrossed
    cases hl : b.lower with
    | none => rw [hl] at hcrossed; cases hcrossed
    | some l =>
      cases hu : b.upper with
      | none => rw [hl, hu] at hcrossed; cases hcrossed
      | some u =>
        rw [hl, hu, decide_eq_true_eq] at hcrossed
        have hle : (l : ℚ) ≤ u := (hlower l hl).trans (hupper u hu)
        exact absurd hcrossed (not_lt.mpr (by exact_mod_cast hle))
  | infeasible _ hposed hmin =>
    have hposes := poses_of_pose hposed
    obtain ⟨y, hy, hrows, -⟩ := hposes.exists_columns hp hx
    exact Simplex.minimize_infeasible hposes.length_row hmin hy hrows

end Relaxation

end LoopSched.Linear
