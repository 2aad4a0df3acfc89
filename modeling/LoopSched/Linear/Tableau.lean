import LoopSched.Arith.Ratio

/-!
# Simplex tableaux

A tableau is a list of equations `∑ cells j * y j = rhs`, each solved for one basic column.  The
method moves from basis to basis: the entering column is the first with a negative reduced cost,
the leaving line is the one with the least ratio, and ties go to the least basic column.
-/

namespace LoopSched.Linear

/-- One equation of a tableau and the column it is solved for. -/
structure Line where
  basic : Nat
  cells : List Rat
  rhs : Rat
deriving DecidableEq, Repr

namespace Line

/-- Coefficient of a column. -/
def cell (l : Line) (j : Nat) : Rat := l.cells.getD j 0

/-- Divide the equation by a number. -/
def divide (l : Line) (p : Rat) : Checked Line := do
  let cells ← l.cells.mapM (Ratio.div · p)
  let rhs ← Ratio.div l.rhs p
  return { l with cells, rhs }

/-- `v - factor * p`, without any arithmetic when `p` is zero. -/
def reduce (factor v p : Rat) : Checked Rat :=
  if p = 0 then .ok v else do Ratio.sub v (← Ratio.mul factor p)

/-- Subtract the multiple of `lead` that clears column `c`. -/
def eliminate (lead : Line) (c : Nat) (l : Line) : Checked Line :=
  let factor := l.cell c
  if factor = 0 then .ok l else do
    let cells ← (l.cells.zip lead.cells).mapM fun (v, p) => reduce factor v p
    let rhs ← reduce factor l.rhs lead.rhs
    return { l with cells, rhs }

end Line

/-- Equations over the columns below `width`. -/
structure Tableau where
  width : Nat
  lines : List Line
deriving DecidableEq, Repr

/-- Where the simplex method goes from a tableau. -/
inductive Move where
  /-- No column has a negative reduced cost. -/
  | optimal
  /-- The entering column can grow without limit. -/
  | unbounded
  | pivot (row column : Nat)
deriving DecidableEq, Repr

/-- A line that may leave the basis, with its ratio. -/
structure Candidate where
  row : Nat
  basic : Nat
  ratio : Rat
deriving DecidableEq, Repr

/-- A smaller ratio is better, and of equal ratios the smaller basic column. -/
def Candidate.better (a b : Candidate) : Bool :=
  a.ratio < b.ratio || (a.ratio = b.ratio && a.basic < b.basic)

namespace Tableau

/-- The basic columns, line by line. -/
def basis (t : Tableau) : List Nat := t.lines.map (·.basic)

/-- Solve line `r` for column `c` and clear the column in all other lines. -/
def pivot (t : Tableau) (r c : Nat) : Checked Tableau :=
  match t.lines[r]? with
  | none => .ok t
  | some line => do
    let lead ← line.divide (line.cell c)
    let above ← (t.lines.take r).mapM (lead.eliminate c)
    let below ← (t.lines.drop (r + 1)).mapM (lead.eliminate c)
    return { t with lines := above ++ { lead with basic := c } :: below }

/-- Cost of the basic solution. -/
def objective (t : Tableau) (cost : List Rat) : Checked Rat :=
  t.lines.foldlM (fun total l => do Ratio.add total (← Ratio.mul (cost.getD l.basic 0) l.rhs)) 0

/-- The lines whose basic column has a cost, with that cost. -/
def priced (t : Tableau) (cost : List Rat) : List (Rat × Line) :=
  (t.lines.map fun l => (cost.getD l.basic 0, l)).filter (·.1 ≠ 0)

/-- What one unit of column `j` adds to the cost once the basic columns make room for it. -/
def reducedCost (priced : List (Rat × Line)) (cost : List Rat) (j : Nat) : Checked Rat :=
  priced.foldlM (fun reduced (b, l) =>
    let a := l.cell j
    if a = 0 then .ok reduced else do Ratio.sub reduced (← Ratio.mul b a)) (cost.getD j 0)

/-- The first column below `allowed` outside the basis with a negative reduced cost. -/
def entering? (t : Tableau) (cost : List Rat) (allowed : Nat) : Checked (Option Nat) :=
  let basis := t.basis
  let priced := t.priced cost
  (List.range allowed).findM? fun j =>
    if basis.contains j then .ok false else do return (← reducedCost priced cost j) < 0

/-- The line that first reaches zero when column `c` grows. -/
def leaving? (t : Tableau) (c : Nat) : Checked (Option Candidate) :=
  t.lines.zipIdx.foldlM (fun best (l, row) =>
    let a := l.cell c
    if a ≤ 0 then .ok best else do
      let next : Candidate := ⟨row, l.basic, ← Ratio.div l.rhs a⟩
      return match best with
        | none => some next
        | some b => if next.better b then some next else some b) none

/-- The next move of the simplex method. -/
def move (t : Tableau) (cost : List Rat) (allowed : Nat) : Checked Move := do
  match ← t.entering? cost allowed with
  | none => return .optimal
  | some column =>
    match ← t.leaving? column with
    | none => return .unbounded
    | some best => return .pivot best.row column

/-- More moves than there are bases: the method never returns to a basis. -/
def budget (t : Tableau) : Nat := Nat.pow t.width t.lines.length + 1

/-- Follow the moves until the method stops.  The flag tells whether the last tableau is optimal;
otherwise its cost is unbounded. -/
def follow (cost : List Rat) (allowed : Nat) : Nat → Tableau → Checked (Bool × Tableau)
  | 0, _ => .error .stalled
  | n + 1, t => do
    match ← t.move cost allowed with
    | .optimal => return (true, t)
    | .unbounded => return (false, t)
    | .pivot row column => follow cost allowed n (← t.pivot row column)

/-- Minimize the cost over the columns below `allowed`. -/
def optimize (t : Tableau) (cost : List Rat) (allowed : Nat) : Checked (Bool × Tableau) :=
  follow cost allowed t.budget t

/-- Values of the first `n` columns in the basic solution. -/
def solution (t : Tableau) (n : Nat) : List Rat :=
  (List.range n).map fun j => ((t.lines.find? (·.basic = j)).map (·.rhs)).getD 0

end Tableau

end LoopSched.Linear
