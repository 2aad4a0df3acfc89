import LoopSched.Linear.Relaxation

/-!
# Branch and bound

The search takes the relaxation of a program and splits it at the first integer variable with a
fractional value, below its floor first.  A branch whose relaxation is no better than the best
point so far is dropped.  At most `nodeLimit` relaxations are solved.
-/

namespace LoopSched.Linear

/-- How a solve ended. -/
inductive Status where
  | optimal
  | feasible
  | infeasible
  | unbounded
  | abnormal
  | modelInvalid
  | notSolved
deriving DecidableEq, Repr

def Status.text : Status → String
  | optimal => "optimal"
  | feasible => "feasible"
  | infeasible => "infeasible"
  | unbounded => "unbounded"
  | abnormal => "abnormal"
  | modelInvalid => "model invalid"
  | notSolved => "not solved"

/-- A status and, where a point was found, its objective and values. -/
structure Solution where
  status : Status
  objective : Option Rat := none
  values : List Rat := []
deriving DecidableEq, Repr

namespace Solution

def isOptimal (s : Solution) : Bool := s.status = .optimal

def value? (s : Solution) (v : Nat) : Option Rat := s.values[v]?

/-- Value of a variable, if it is a whole number. -/
def intValue? (s : Solution) (v : Nat) : Option Int := (s.value? v).bind Ratio.toInt?

end Solution

/-- Something that solves programs.  A solve gives no solution when its arithmetic aborted. -/
structure Solver where
  name : String
  solve : Program → Option Solution

namespace BranchAndBound

/-- The best integral point so far. -/
structure Incumbent where
  objective : Rat
  values : List Rat
deriving DecidableEq, Repr

/-- How the search ended. -/
inductive Verdict where
  | unbounded
  /-- Every branch was looked at, or the node limit was reached before. -/
  | finished (exhausted : Bool) (best : Option Incumbent)
deriving DecidableEq, Repr

/-- The first integer variable whose value is fractional. -/
def fractional? (vars : List Variable) (values : List Rat) : Option Nat :=
  (vars.zip values).findIdx? fun (x, v) => x.integer && v.den ≠ 1

/-- The two halves of a box on either side of a fractional value: up to its floor, and from the
next integer on. -/
def split (box : List Bounds) (i : Nat) (v : Rat) : Checked (List Bounds × List Bounds) :=
  let floor := v.floor
  if Word.Fits (floor + 1) then
    .ok (box.modify i ({ · with upper := some floor }),
      box.modify i ({ · with lower := some (floor + 1) }))
  else .error .abort

/-- Whether a relaxation with this objective can improve on the best point. -/
def improves (objective : Rat) : Option Incumbent → Bool
  | none => true
  | some best => objective < best.objective

/-- Look at the boxes in turn, solving at most the given number of relaxations. -/
def search (p : Program) : Nat → List (List Bounds) → Option Incumbent → Checked Verdict
  | _, [], best => .ok (.finished false best)
  | 0, _ :: _, best => .ok (.finished true best)
  | n + 1, box :: boxes, best => do
    match ← Relaxation.solve p box with
    | .infeasible => search p n boxes best
    | .unbounded => return .unbounded
    | .optimal objective values =>
      if improves objective best then
        match fractional? p.vars values with
        | none => search p n boxes (some ⟨objective, values⟩)
        | some i =>
          let (below, above) ← split box i (values.getD i 0)
          search p n (below :: above :: boxes) best
      else search p n boxes best

/-- The answer for the program; a maximum is the negated minimum of the negated objective. -/
def answer (p : Program) : Verdict → Checked Solution
  | .unbounded => .ok { status := .unbounded }
  | .finished exhausted none => .ok { status := if exhausted then .notSolved else .infeasible }
  | .finished exhausted (some best) => do
    let objective ← Ratio.mul best.objective (Relaxation.sign p.direction)
    return ⟨if exhausted then .feasible else .optimal, some objective, best.values⟩

/-- Search a valid program. -/
def run (nodeLimit : Nat) (p : Program) : Checked Solution := do
  answer p (← search p nodeLimit [p.vars.map (·.bounds)] none)

/-- Solve a program.  Malformed programs and overflows are statuses. -/
def solve (nodeLimit : Nat) (p : Program) : Option Solution :=
  if p.validate.isSome then some { status := .modelInvalid }
  else
    match run nodeLimit p with
    | .ok s => some s
    | .error .abort => none
    | .error _ => some { status := .abnormal }

/-- Node limit when none is given. -/
def defaultNodeLimit : Nat := 10000

/-- The exact solver with a node limit. -/
def solver (nodeLimit : Nat) : Solver := ⟨"branch-and-bound", solve nodeLimit⟩

end BranchAndBound

end LoopSched.Linear
