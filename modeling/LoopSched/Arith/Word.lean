/-!
# Words and the ways a computation stops

Numbers of a description are signed 64-bit words.  The library computes with `Int` and `Rat` and
asks `Word.Fits` where a word would be too small, so a value that is returned is always exact.

`Checked` computations end in a value or in a `Halt`.  The caller of the solver can report an
`overflow` as a status of its own; an `abort` voids the whole computation.
-/

namespace LoopSched

namespace Word

/-- The least signed 64-bit word. -/
def lo : Int := -9223372036854775808

/-- The greatest signed 64-bit word. -/
def hi : Int := 9223372036854775807

/-- The integer can be held in a signed 64-bit word. -/
def Fits (n : Int) : Prop := lo ≤ n ∧ n ≤ hi

instance (n : Int) : Decidable (Fits n) := inferInstanceAs (Decidable (_ ∧ _))

/-- The number of unsigned 64-bit words; indices and counts are below it. -/
def count : Nat := 18446744073709551616

/-- The integer, if it fits. -/
def fit? (n : Int) : Option Int := if Fits n then some n else none

theorem fit?_eq_some {n m : Int} : fit? n = some m ↔ Fits n ∧ n = m := by
  unfold fit?; split <;> simp_all

end Word

/-- Why a checked computation stopped without a value. -/
inductive Halt where
  /-- A number left the range of a word in a step that reports it. -/
  | overflow
  /-- A number left the range of a word in a step that cannot report it. -/
  | abort
  /-- The pivot budget of the simplex method ran out. -/
  | stalled
deriving DecidableEq, Repr

/-- A computation with words that may stop. -/
abbrev Checked (α : Type) := Except Halt α

/-- A sequence of two steps succeeds only if both do. -/
theorem Checked.bind_eq_ok {ε α β : Type} {x : Except ε α} {f : α → Except ε β} {b : β}
    (h : x >>= f = .ok b) : ∃ a, x = .ok a ∧ f a = .ok b := by
  cases x with
  | error e => cases h
  | ok a => exact ⟨a, rfl, h⟩

/-- Stop with an overflow unless the integer fits in a word. -/
def Word.check (n : Int) : Checked Unit := if Fits n then .ok () else .error .overflow

theorem Word.check_eq_ok {n : Int} : Word.check n = .ok () ↔ Word.Fits n := by
  unfold check; split <;> simp_all

end LoopSched
