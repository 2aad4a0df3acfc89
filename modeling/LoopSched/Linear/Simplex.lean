import LoopSched.Linear.Program
import LoopSched.Linear.Tableau

/-!
# The two-phase simplex method

Minimizes `cost · y` over `rows` and `y ≥ 0`.  Right-hand sides are made non-negative, then each
row gets a slack column (unless it is an equation) and an artificial column (unless it is a
`≤`-row).  The first phase drives the artificial columns to zero, the second minimizes the cost
over the others.
-/

namespace LoopSched.Linear

/-- `coeffs · y relation rhs`. -/
structure Row where
  coeffs : List Rat
  relation : Relation
  rhs : Rat
deriving DecidableEq, Repr

/-- The same condition with a non-negative right-hand side. -/
def Row.normalize (r : Row) : Checked Row :=
  if r.rhs < 0 then do
    let coeffs ← r.coeffs.mapM Ratio.neg
    let rhs ← Ratio.neg r.rhs
    return ⟨coeffs, r.relation.flipped, rhs⟩
  else .ok r

/-- Result of a linear minimization. -/
inductive Optimum where
  | optimal (objective : Rat) (values : List Rat)
  | infeasible
  | unbounded
deriving DecidableEq, Repr

namespace Simplex

/-- How many rows need a slack column. -/
def slackCount (rows : List Row) : Nat := rows.countP (·.relation ≠ .eq)

/-- How many rows need an artificial column. -/
def artificialCount (rows : List Row) : Nat := rows.countP (·.relation ≠ .lessEq)

def zeros (n : Nat) : List Rat := List.replicate n 0

/-- A vector of length `n` with `v` at place `i` and zeros elsewhere. -/
def single (n i : Nat) (v : Rat) : List Rat := (zeros n).set i v

/-- The starting lines over `n` given, `s` slack and `a` artificial columns; `i` slack and `k`
artificial columns are taken already. -/
def startLines (n s a : Nat) : Nat → Nat → List Row → List Line
  | _, _, [] => []
  | i, k, r :: rows =>
    match r.relation with
    | .lessEq =>
      ⟨n + i, r.coeffs ++ single s i 1 ++ zeros a, r.rhs⟩ :: startLines n s a (i + 1) k rows
    | .greaterEq =>
      ⟨n + s + k, r.coeffs ++ single s i (-1) ++ single a k 1, r.rhs⟩ ::
        startLines n s a (i + 1) (k + 1) rows
    | .eq =>
      ⟨n + s + k, r.coeffs ++ zeros s ++ single a k 1, r.rhs⟩ :: startLines n s a i (k + 1) rows

/-- The starting tableau of normalized rows over `n` columns. -/
def start (n : Nat) (rows : List Row) : Tableau :=
  let s := slackCount rows
  let a := artificialCount rows
  ⟨n + s + a, startLines n s a 0 0 rows⟩

/-- Cost of the first phase: the sum of the artificial columns. -/
def phaseOneCost (artStart : Nat) (t : Tableau) : List Rat :=
  zeros artStart ++ List.replicate (t.width - artStart) 1

/-- Cost of the second phase: the given cost, nothing on the added columns. -/
def phaseTwoCost (cost : List Rat) (t : Tableau) : List Rat :=
  cost ++ zeros (t.width - cost.length)

/-- Replace the artificial basic column of line `i` by the first other column it can be solved
for. -/
def expel (artStart : Nat) (t : Tableau) (i : Nat) : Checked Tableau :=
  match t.lines[i]? with
  | none => .ok t
  | some l =>
    if l.basic < artStart then .ok t else
      match (List.range artStart).find? (l.cell · ≠ 0) with
      | none => .ok t
      | some j => t.pivot i j

/-- A feasible tableau, with artificial columns only in lines that say nothing else; `none` when
the rows cannot be satisfied. -/
def phaseOne (artStart : Nat) (t : Tableau) : Checked (Option Tableau) := do
  if t.width = artStart then return some t
  let cost := phaseOneCost artStart t
  let (_, t) ← t.optimize cost t.width
  if 0 < (← t.objective cost) then return none
  return some (← (List.range t.lines.length).foldlM (expel artStart) t)

/-- Minimize the cost from a feasible tableau. -/
def phaseTwo (cost : List Rat) (artStart : Nat) (t : Tableau) : Checked Optimum := do
  let full := phaseTwoCost cost t
  let (bounded, t) ← t.optimize full artStart
  if !bounded then return .unbounded
  return .optimal (← t.objective full) (t.solution cost.length)

/-- Minimize `cost · y` over the rows and `y ≥ 0`. -/
def minimize (cost : List Rat) (rows : List Row) : Checked Optimum := do
  let rows ← rows.mapM Row.normalize
  let artStart := cost.length + slackCount rows
  match ← phaseOne artStart (start cost.length rows) with
  | none => return .infeasible
  | some t => phaseTwo cost artStart t

end Simplex

end LoopSched.Linear
