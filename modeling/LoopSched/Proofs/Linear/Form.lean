import LoopSched.Linear.Form
import Mathlib.Algebra.BigOperators.Group.List.Basic
import Mathlib.Algebra.Field.Rat
import Mathlib.Tactic.LinearCombination
import Mathlib.Tactic.Ring

/-!
# The value of a linear form

The value of a form is the sum of its terms plus the constant.  Adding a term adds its value, also
where it meets or cancels a term that is there, so a form collected from terms has their sum.
-/

namespace LoopSched.Linear.Form

/-- Value of a list of terms. -/
def evalTerms (terms : List (ℕ × ℤ)) (x : ℕ → ℚ) : ℚ := (terms.map fun t => t.2 * x t.1).sum

@[simp] theorem evalTerms_nil (x : ℕ → ℚ) : evalTerms [] x = 0 := rfl

@[simp] theorem evalTerms_cons (t : ℕ × ℤ) (terms : List (ℕ × ℤ)) (x : ℕ → ℚ) :
    evalTerms (t :: terms) x = t.2 * x t.1 + evalTerms terms x := by
  simp [evalTerms]

theorem eval_eq (f : Form) (x : ℕ → ℚ) : f.eval x = evalTerms f.terms x + f.constant := by
  unfold eval
  induction f.terms with
  | nil => simp
  | cons t ts ih => rw [List.foldr_cons, ih, evalTerms_cons, add_assoc]

/-- The value along a half-line changes at the rate that the terms have in its direction. -/
theorem eval_add_mul (f : Form) (x d : ℕ → ℚ) (a : ℚ) :
    f.eval (fun i => x i + a * d i) = f.eval x + a * evalTerms f.terms d := by
  rw [eval_eq, eval_eq]
  induction f.terms with
  | nil => simp
  | cons t terms ih =>
    rw [evalTerms_cons, evalTerms_cons, evalTerms_cons]
    linear_combination ih

/-- A form only depends on the variables it may mention. -/
theorem eval_congr {f : Form} {n : ℕ} (hf : f.within n = true) {x y : ℕ → ℚ}
    (h : ∀ i < n, x i = y i) : f.eval x = f.eval y := by
  simp only [within, List.all_eq_true, decide_eq_true_eq] at hf
  rw [eval_eq, eval_eq, evalTerms, evalTerms,
    List.map_congr_left fun t ht => by rw [h t.1 (hf t ht)]]

/-! ### Collecting terms -/

theorem evalTerms_consTerm (v : ℕ) (c : ℤ) (terms : List (ℕ × ℤ)) (x : ℕ → ℚ) :
    evalTerms (consTerm v c terms) x = c * x v + evalTerms terms x := by
  unfold consTerm
  by_cases hc : c = 0
  · rw [if_pos hc, hc, Int.cast_zero, zero_mul, zero_add]
  · rw [if_neg hc, evalTerms_cons]

theorem evalTerms_insertTerm? {v : ℕ} {c : ℤ} (x : ℕ → ℚ) :
    ∀ {terms terms' : List (ℕ × ℤ)}, insertTerm? v c terms = some terms' →
      evalTerms terms' x = c * x v + evalTerms terms x
  | [], _, h => by
    cases h
    exact evalTerms_consTerm v c [] x
  | (w, k) :: rest, terms', h => by
    rw [insertTerm?] at h
    by_cases hlt : v < w
    · rw [if_pos hlt] at h
      cases h
      exact evalTerms_consTerm v c _ x
    rw [if_neg hlt] at h
    by_cases heq : v = w
    · rw [if_pos heq] at h
      obtain ⟨sum, hsum, rfl⟩ := Option.map_eq_some_iff.mp h
      have hkc : k + c = sum := (Word.fit?_eq_some.mp hsum).2
      rw [evalTerms_consTerm, evalTerms_cons, ← hkc, ← heq, Int.cast_add]
      ring
    · rw [if_neg heq] at h
      obtain ⟨rest', hrest, rfl⟩ := Option.map_eq_some_iff.mp h
      rw [evalTerms_cons, evalTerms_cons, evalTerms_insertTerm? x hrest]
      ring

theorem eval_addTerm? {f g : Form} {v : ℕ} {c : ℤ} (h : f.addTerm? v c = some g) (x : ℕ → ℚ) :
    g.eval x = f.eval x + c * x v := by
  obtain ⟨terms, hterms, rfl⟩ := Option.map_eq_some_iff.mp h
  rw [eval_eq, eval_eq, evalTerms_insertTerm? x hterms]
  ring

theorem eval_foldlM_addTerm? (x : ℕ → ℚ) : ∀ {terms : List (ℕ × ℤ)} {f g : Form},
    terms.foldlM (fun f t => f.addTerm? t.1 t.2) f = some g →
      g.eval x = f.eval x + evalTerms terms x
  | [], f, g, h => by
    cases h
    rw [evalTerms_nil, add_zero]
  | t :: terms, f, g, h => by
    rw [List.foldlM_cons] at h
    obtain ⟨f', hf', h⟩ := Option.bind_eq_some_iff.mp h
    rw [eval_foldlM_addTerm? x h, eval_addTerm? hf', evalTerms_cons, add_assoc]

theorem eval_ofTerms? {terms : List (ℕ × ℤ)} {f : Form} (h : ofTerms? terms = some f)
    (x : ℕ → ℚ) : f.eval x = evalTerms terms x := by
  rw [eval_foldlM_addTerm? x h, eval_eq, zero]
  simp

/-! ### Forms that can be collected -/

theorem insertTerm?_of_lt {v : ℕ} {c : ℤ} (hc : c ≠ 0) :
    ∀ {terms : List (ℕ × ℤ)}, (∀ t ∈ terms, t.1 < v) →
      insertTerm? v c terms = some (terms ++ [(v, c)])
  | [], _ => by rw [insertTerm?, consTerm, if_neg hc, List.nil_append]
  | (w, k) :: rest, h => by
    have hw : w < v := h (w, k) List.mem_cons_self
    rw [insertTerm?, if_neg hw.not_gt, if_neg hw.ne', insertTerm?_of_lt hc fun t ht =>
      h t (List.mem_cons_of_mem _ ht)]
    rfl

/-- The sum of the first variables. -/
theorem ofTerms?_range (n : ℕ) :
    ofTerms? ((List.range n).map ((·, 1))) = some ⟨(List.range n).map ((·, 1)), 0⟩ := by
  induction n with
  | zero => rfl
  | succ n ih =>
    have hlt : ∀ t ∈ (List.range n).map ((·, (1 : ℤ))), t.1 < n := by
      simp only [List.forall_mem_map, List.mem_range, imp_self, implies_true]
    unfold ofTerms? at ih ⊢
    rw [List.range_succ, List.map_append, List.foldlM_append, ih]
    simp only [Option.bind_eq_bind, Option.bind_some, List.map_cons, List.map_nil,
      List.foldlM_cons, List.foldlM_nil, addTerm?, insertTerm?_of_lt one_ne_zero hlt]
    rfl

/-- A sum of different variables, some of them negated. -/
structure Units (f : Form) : Prop where
  constant : f.constant = 0
  nodup : (f.terms.map (·.1)).Nodup
  coefficient : ∀ t ∈ f.terms, t.2 = 1 ∨ t.2 = -1

theorem units_range (n : ℕ) : Units ⟨(List.range n).map ((·, 1)), 0⟩ where
  constant := rfl
  nodup := by simpa [Function.comp_def] using List.nodup_range
  coefficient := by simp

/-- The difference of two variables. -/
theorem exists_ofTerms?_difference {i j n : ℕ} (hi : i < n) (hj : j < n) :
    ∃ f, ofTerms? [(i, 1), (j, -1)] = some f ∧ f.within n = true ∧ f.Units := by
  rcases Nat.lt_trichotomy j i with hlt | rfl | hlt
  · refine ⟨⟨[(j, -1), (i, 1)], 0⟩, ?_, by simp [within, hi, hj], rfl, by simp [hlt.ne], by simp⟩
    simp [ofTerms?, addTerm?, zero, insertTerm?, consTerm, hlt]
  · refine ⟨⟨[], 0⟩, ?_, rfl, rfl, by simp, by simp⟩
    simp [ofTerms?, addTerm?, zero, insertTerm?, consTerm, Word.fit?, Word.Fits, Word.lo, Word.hi]
  · refine ⟨⟨[(i, 1), (j, -1)], 0⟩, ?_, by simp [within, hi, hj], rfl, by simp [hlt.ne], by simp⟩
    simp [ofTerms?, addTerm?, zero, insertTerm?, consTerm, hlt.not_gt, hlt.ne']

end LoopSched.Linear.Form
