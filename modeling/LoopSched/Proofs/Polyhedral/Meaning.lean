import LoopSched.Polyhedral.Map
import Mathlib.Algebra.BigOperators.Group.List.Basic
import Mathlib.Data.Int.Notation
import Mathlib.Tactic.Ring

/-!
# Meaning of the maps

A map relates points.  One valuation of all coordinate names gives the near and the far point, so a
name that stands on both sides has one value; the conditions say the rest.  The texts of the user,
such as extents and tile sizes, are read by a function `ρ` that is the same throughout.
-/

namespace LoopSched.Polyhedral

/-- A value for each name. -/
abbrev Valuation := String → ℤ

/-- The condition holds under the valuation `σ`, with texts read by `ρ`. -/
def Condition.Holds (ρ σ : Valuation) : Condition → Prop
  | is name value => σ name = value
  | isNot name value => σ name ≠ value
  | oneOf name values => ∃ value ∈ values, σ name = (value : ℕ)
  | same out base => σ out = σ base
  | moved out base extent => σ out = σ base + ρ extent
  | sum out terms => σ out = (terms.map σ).sum
  | tiled splits =>
    ∀ s ∈ splits, ∃ r, 0 ≤ r ∧ r < ρ s.size ∧ σ s.base = σ s.tile * ρ s.size + r

/-- A tuple of coordinates, which belongs to a statement if it has a name. -/
structure Point where
  name : String := ""
  coordinates : List ℤ
deriving DecidableEq, Repr

def Clause.Relates (ρ : Valuation) (c : Clause) (p q : Point) : Prop :=
  p.name = c.source ∧ q.name = "" ∧ ∃ σ : Valuation, c.input.map σ = p.coordinates ∧
    c.output.map σ = q.coordinates ∧ ∀ condition ∈ c.conditions, condition.Holds ρ σ

/-- A union relates what one of its clauses relates. -/
def UnionMap.Relates (ρ : Valuation) (m : UnionMap) (p q : Point) : Prop :=
  ∃ c ∈ m.clauses, c.Relates ρ p q

/-- The composition of some maps, the first one applied first. -/
def Composed (ρ : Valuation) : List UnionMap → Point → Point → Prop
  | [], p, q => q = p
  | m :: ms, p, q => ∃ r, m.Relates ρ p r ∧ Composed ρ ms r q

theorem composed_append {ρ : Valuation} {ms ms' : List UnionMap} {p q : Point} :
    Composed ρ (ms ++ ms') p q ↔ ∃ r, Composed ρ ms p r ∧ Composed ρ ms' r q := by
  induction ms generalizing p with
  | nil => simp [Composed]
  | cons m ms ih =>
    simp only [List.cons_append, Composed, ih]
    constructor
    · rintro ⟨r, hr, r', hr', hq⟩
      exact ⟨r', ⟨r, hr, hr'⟩, hq⟩
    · rintro ⟨r', ⟨r, hr, hr'⟩, hq⟩
      exact ⟨r, hr, r', hr', hq⟩

theorem composed_singleton {ρ : Valuation} {m : UnionMap} {p q : Point} :
    Composed ρ [m] p q ↔ m.Relates ρ p q := by
  simp [Composed]

/-- Dividing with a remainder below a positive size is rounding down. -/
theorem exists_remainder_iff {base tile size : ℤ} (h : 0 < size) :
    (∃ r, 0 ≤ r ∧ r < size ∧ base = tile * size + r) ↔ tile = base / size := by
  constructor
  · rintro ⟨r, hr, hlt, rfl⟩
    rw [Int.add_comm, Int.add_mul_ediv_right _ _ (Int.ne_of_gt h), Int.ediv_eq_zero_of_lt hr hlt,
      Int.zero_add]
  · rintro rfl
    refine ⟨base % size, Int.emod_nonneg _ (Int.ne_of_gt h), Int.emod_lt_of_pos _ h, ?_⟩
    rw [Int.mul_comm, Int.mul_ediv_add_emod]

end LoopSched.Polyhedral
