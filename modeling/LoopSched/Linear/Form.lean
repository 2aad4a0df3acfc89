import LoopSched.Arith.Word

/-!
# Linear forms

A linear form is a sum of integer multiples of numbered variables plus a constant.  The terms are
kept in increasing order of the variable, each variable once, none with coefficient zero.  Sums of
coefficients have to fit in a word; a sum that does not is refused.
-/

namespace LoopSched.Linear

/-- `∑ c * v + constant`, one term `(v, c)` for each variable with a coefficient. -/
structure Form where
  terms : List (Nat × Int) := []
  constant : Int := 0
deriving DecidableEq, Repr

namespace Form

/-- The form that is zero everywhere. -/
def zero : Form := {}

/-- Put a term in front unless its coefficient is zero. -/
def consTerm (v : Nat) (c : Int) (terms : List (Nat × Int)) : List (Nat × Int) :=
  if c = 0 then terms else (v, c) :: terms

/-- Add `c * v` to ordered terms. -/
def insertTerm? (v : Nat) (c : Int) : List (Nat × Int) → Option (List (Nat × Int))
  | [] => some (consTerm v c [])
  | (w, k) :: rest =>
    if v < w then some (consTerm v c ((w, k) :: rest))
    else if v = w then (Word.fit? (k + c)).map (consTerm v · rest)
    else (insertTerm? v c rest).map ((w, k) :: ·)

/-- Add `c * v`; `none` when the coefficient of `v` no longer fits. -/
def addTerm? (f : Form) (v : Nat) (c : Int) : Option Form :=
  (insertTerm? v c f.terms).map fun terms => { f with terms }

/-- Add to the constant; `none` when the sum does not fit. -/
def addConstant? (f : Form) (c : Int) : Option Form :=
  (Word.fit? (f.constant + c)).map fun constant => { f with constant }

/-- Sum of the given terms, accumulated from left to right. -/
def ofTerms? (terms : List (Nat × Int)) : Option Form :=
  terms.foldlM (fun f t => f.addTerm? t.1 t.2) zero

/-- Coefficient of a variable, zero when it does not occur. -/
def coefficient (f : Form) (v : Nat) : Int := (f.terms.lookup v).getD 0

/-- Every variable of the form is below `n`. -/
def within (f : Form) (n : Nat) : Bool := f.terms.all (·.1 < n)

/-- Value of the form at a rational point. -/
def eval (f : Form) (x : Nat → Rat) : Rat :=
  f.terms.foldr (fun t v => (t.2 : Rat) * x t.1 + v) f.constant

end Form

end LoopSched.Linear
