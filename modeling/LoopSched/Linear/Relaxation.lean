import LoopSched.Data.Total
import LoopSched.Linear.Simplex

/-!
# The linear relaxation of a program

The simplex method wants non-negative columns.  A variable with a lower bound `l` is `l + y`, one
with only an upper bound `u` is `u - y`, and a free one is the difference of two columns.  An upper
bound beside a lower one becomes a row of its own after the constraints.
-/

namespace LoopSched.Linear

/-- How a variable is written in non-negative columns. -/
inductive Column where
  /-- `x = lower + y col` -/
  | above (col : Nat) (lower : Int)
  /-- `x = upper - y col` -/
  | below (col : Nat) (upper : Int)
  /-- `x = y pos - y neg` -/
  | split (pos neg : Nat)
deriving DecidableEq, Repr

/-- Result of a relaxation, as a minimization. -/
inductive Relaxed where
  | optimal (objective : Rat) (values : List Rat)
  | infeasible
  | unbounded
deriving DecidableEq, Repr

namespace Relaxation

/-- Columns for the ranges, numbered from `n`. -/
def columnsFrom (n : Nat) : List Bounds → List Column
  | [] => []
  | b :: bs =>
    match b.lower, b.upper with
    | some l, _ => .above n l :: columnsFrom (n + 1) bs
    | none, some u => .below n u :: columnsFrom (n + 1) bs
    | none, none => .split n (n + 1) :: columnsFrom (n + 2) bs

/-- Number of columns that a range takes. -/
def columnWidth (b : Bounds) : Nat := if b.lower.isNone && b.upper.isNone then 2 else 1

/-- Number of columns that the ranges take together. -/
def width (bounds : List Bounds) : Nat := total (bounds.map columnWidth)

/-- Add `c * x` to a row; the second component is the constant part. -/
def substitute (coeffs : List Rat) (c : Int) : Column → Checked (List Rat × Rat)
  | .above col lower => do
    let v ← Ratio.add (coeffs.getD col 0) c
    return (coeffs.set col v, ← Ratio.mul c lower)
  | .below col upper => do
    let v ← Ratio.sub (coeffs.getD col 0) c
    return (coeffs.set col v, ← Ratio.mul c upper)
  | .split pos neg => do
    let v ← Ratio.add (coeffs.getD pos 0) c
    let coeffs := coeffs.set pos v
    let w ← Ratio.sub (coeffs.getD neg 0) c
    return (coeffs.set neg w, 0)

/-- Substitute the term `t` with the coefficient times `sign`. -/
def substituteTerm (columns : List Column) (sign : Int) (coeffs : List Rat) (t : Nat × Int) :
    Checked (List Rat × Rat) := do
  let c := t.2 * sign
  Word.check c
  match columns[t.1]? with
  | none => return (coeffs, 0)
  | some column => substitute coeffs c column

/-- Sign that turns the objective into a minimization. -/
def sign : Direction → Int
  | .minimize => 1
  | .maximize => -1

/-- Cost of each column and the constant part of the cost. -/
def cost (p : Program) (columns : List Column) (n : Nat) : Checked (List Rat × Rat) := do
  let s := sign p.direction
  let constant := p.objective.constant * s
  Word.check constant
  p.objective.terms.foldlM (fun (coeffs, offset) t => do
    let (coeffs, k) ← substituteTerm columns s coeffs t
    return (coeffs, ← Ratio.add offset k)) (Simplex.zeros n, (constant : Rat))

/-- A constraint in columns. -/
def constraintRow (columns : List Column) (n : Nat) (c : Constraint) : Checked Row := do
  let rhs ← Ratio.sub c.rhs c.form.constant
  let (coeffs, rhs) ← c.form.terms.foldlM (fun (coeffs, rhs) t => do
    let (coeffs, k) ← substituteTerm columns 1 coeffs t
    return (coeffs, ← Ratio.sub rhs k)) (Simplex.zeros n, rhs)
  return ⟨coeffs, c.relation, rhs⟩

/-- The row that keeps a column below its upper end, for a range with both ends. -/
def boundRow? (n : Nat) (b : Bounds) : Column → Checked (Option Row)
  | .above col lower =>
    match b.upper with
    | none => .ok none
    | some upper => do
      return some ⟨Simplex.single n col 1, .lessEq, ← Ratio.sub upper lower⟩
  | _ => .ok none

/-- Value of a variable from the values of the columns. -/
def recover (y : List Rat) : Column → Checked Rat
  | .above col lower => Ratio.add lower (y.getD col 0)
  | .below col upper => Ratio.sub upper (y.getD col 0)
  | .split pos neg => Ratio.sub (y.getD pos 0) (y.getD neg 0)

/-- A minimization over non-negative columns; the offset is the constant part of its cost. -/
structure Posed where
  cost : List Rat
  offset : Rat
  rows : List Row
deriving DecidableEq, Repr

/-- The program in columns, its variables limited to `bounds`. -/
def pose (p : Program) (bounds : List Bounds) : Checked Posed := do
  let columns := columnsFrom 0 bounds
  let n := width bounds
  let (coeffs, offset) ← cost p columns n
  let rows ← p.constraints.mapM (constraintRow columns n)
  let limits ← (bounds.zip columns).mapM fun (b, column) => boundRow? n b column
  return ⟨coeffs, offset, rows ++ limits.filterMap id⟩

/-- Optimum of the program without integrality, its variables limited to `bounds`. -/
def solve (p : Program) (bounds : List Bounds) : Checked Relaxed := do
  if bounds.any (·.crossed) then return .infeasible
  let posed ← pose p bounds
  match ← Simplex.minimize posed.cost posed.rows with
  | .infeasible => return .infeasible
  | .unbounded => return .unbounded
  | .optimal objective y =>
    let values ← (columnsFrom 0 bounds).mapM (recover y)
    return .optimal (← Ratio.add objective posed.offset) values

end Relaxation

end LoopSched.Linear
