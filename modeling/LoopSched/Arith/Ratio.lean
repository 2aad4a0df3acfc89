import LoopSched.Arith.Word

/-!
# Checked rational arithmetic

Reduced fractions whose numerator and denominator are words.  Each operation forms the products
below in word arithmetic and stops when one of them does not fit.  What it returns is the exact
rational result, which is what `add_eq_ok` and its companions say.
-/

namespace LoopSched.Ratio

/-- Sum over the least common denominator. -/
def add (a b : Rat) : Checked Rat := do
  let l := a.den / Nat.gcd a.den b.den * b.den
  Word.check l
  let x := (l / a.den : Nat) * a.num
  let y := (l / b.den : Nat) * b.num
  Word.check x
  Word.check y
  Word.check (x + y)
  return a + b

/-- Difference over the least common denominator. -/
def sub (a b : Rat) : Checked Rat := do
  let l := a.den / Nat.gcd a.den b.den * b.den
  Word.check l
  let x := (l / a.den : Nat) * a.num
  let y := (l / b.den : Nat) * b.num
  Word.check x
  Word.check y
  Word.check (x - y)
  return a - b

/-- Product after cancelling each numerator against the other denominator. -/
def mul (a b : Rat) : Checked Rat := do
  let g := Nat.gcd a.num.natAbs b.den
  let h := Nat.gcd a.den b.num.natAbs
  Word.check (a.num / g * (b.num / h))
  Word.check ((a.den / h : Nat) * (b.den / g : Nat))
  return a * b

/-- Numerator and denominator of a quotient before the last reduction.  Numerators are cancelled
against each other only when neither denominators nor numerators agree, and a greatest common
divisor of `2 ^ 63` cannot be formed. -/
def quotientParts (a b : Rat) : Checked (Int × Int) := do
  if a.den = b.den then return (a.num, b.num)
  if a.num = b.num then return (b.den, a.den)
  let g := Nat.gcd a.num.natAbs b.num.natAbs
  unless Word.Fits g do throw .abort
  let h := Nat.gcd a.den b.den
  let den := (a.den / h : Nat) * (b.num / g)
  let num := a.num / g * (b.den / h : Nat)
  Word.check den
  Word.check num
  return (num, den)

/-- Quotient; division by zero stops like an overflow.  The sign moves to the numerator last, and
both parts have to survive the change of sign. -/
def div (a b : Rat) : Checked Rat := do
  if b = 0 then throw .overflow
  let (num, den) ← quotientParts a b
  if den < 0 then
    let g := Int.gcd num den
    Word.check (-(num / g))
    Word.check (-(den / g))
  return a / b

/-- Negation; the least word has no opposite. -/
def neg (a : Rat) : Checked Rat :=
  if Word.Fits (-a.num) then .ok (-a) else .error .abort

/-- `"n"` for a whole number, `"n/d"` otherwise. -/
def render (a : Rat) : String :=
  if a.den = 1 then toString a.num else toString a.num ++ "/" ++ toString a.den

/-- The rational as an integer, if it is one. -/
def toInt? (a : Rat) : Option Int := if a.den = 1 then some a.num else none

/-! ### Results are exact -/

theorem add_zero_zero : add 0 0 = .ok 0 := congrArg Except.ok (Rat.add_zero 0)

theorem add_eq_ok {a b c : Rat} (h : add a b = .ok c) : c = a + b := by
  unfold add at h
  obtain ⟨_, _, h⟩ := Checked.bind_eq_ok h
  obtain ⟨_, _, h⟩ := Checked.bind_eq_ok h
  obtain ⟨_, _, h⟩ := Checked.bind_eq_ok h
  obtain ⟨_, _, h⟩ := Checked.bind_eq_ok h
  cases h; rfl

theorem sub_eq_ok {a b c : Rat} (h : sub a b = .ok c) : c = a - b := by
  unfold sub at h
  obtain ⟨_, _, h⟩ := Checked.bind_eq_ok h
  obtain ⟨_, _, h⟩ := Checked.bind_eq_ok h
  obtain ⟨_, _, h⟩ := Checked.bind_eq_ok h
  obtain ⟨_, _, h⟩ := Checked.bind_eq_ok h
  cases h; rfl

theorem mul_eq_ok {a b c : Rat} (h : mul a b = .ok c) : c = a * b := by
  unfold mul at h
  obtain ⟨_, _, h⟩ := Checked.bind_eq_ok h
  obtain ⟨_, _, h⟩ := Checked.bind_eq_ok h
  cases h; rfl

theorem div_eq_ok {a b c : Rat} (h : div a b = .ok c) : b ≠ 0 ∧ c = a / b := by
  unfold div at h
  by_cases hb : b = 0
  · simp only [hb, if_true] at h; cases h
  · simp only [hb, if_false] at h
    obtain ⟨⟨num, den⟩, _, h⟩ := Checked.bind_eq_ok h
    refine ⟨hb, ?_⟩
    split at h
    · obtain ⟨_, _, h⟩ := Checked.bind_eq_ok h
      obtain ⟨_, _, h⟩ := Checked.bind_eq_ok h
      cases h; rfl
    · cases h; rfl

theorem neg_eq_ok {a c : Rat} (h : neg a = .ok c) : c = -a := by
  unfold neg at h
  split at h
  · cases h; rfl
  · cases h

end LoopSched.Ratio
