import LoopSched.Linear.Form

/-!
# Linear programs

Variables with optional bounds, linear constraints and a linear objective.  A variable is integer
unless it is declared continuous.  `Program.validate` refuses crossed bounds and forms that mention
a variable the program does not have.
-/

namespace LoopSched.Linear

inductive Direction where
  | minimize
  | maximize
deriving DecidableEq, Repr

inductive Relation where
  | lessEq
  | eq
  | greaterEq
deriving DecidableEq, Repr

namespace Relation

/-- The relation after both sides changed their sign. -/
def flipped : Relation → Relation
  | lessEq => greaterEq
  | eq => eq
  | greaterEq => lessEq

def symbol : Relation → String
  | lessEq => "<="
  | eq => "="
  | greaterEq => ">="

/-- `a` stands in the relation to `b`. -/
def Holds : Relation → Rat → Rat → Prop
  | lessEq, a, b => a ≤ b
  | eq, a, b => a = b
  | greaterEq, a, b => b ≤ a

end Relation

/-- Range of a variable; a missing end is unlimited. -/
structure Bounds where
  lower : Option Int := none
  upper : Option Int := none
deriving DecidableEq, Repr

/-- The lower end lies above the upper end. -/
def Bounds.crossed (b : Bounds) : Bool :=
  match b.lower, b.upper with
  | some l, some u => u < l
  | _, _ => false

/-- The number lies in the range. -/
def Bounds.Contains (b : Bounds) (x : Rat) : Prop :=
  (∀ l ∈ b.lower, (l : Rat) ≤ x) ∧ ∀ u ∈ b.upper, x ≤ (u : Rat)

structure Variable where
  name : String
  bounds : Bounds := {}
  integer : Bool := true
deriving DecidableEq, Repr

/-- `form relation rhs`. -/
structure Constraint where
  form : Form
  relation : Relation
  rhs : Int
deriving DecidableEq, Repr

/-- A linear program, some or all of whose variables are integer. -/
structure Program where
  direction : Direction
  vars : List Variable := []
  constraints : List Constraint := []
  objective : Form := .zero
deriving DecidableEq, Repr

/-- Why a program is malformed. -/
inductive ModelError where
  | crossedBounds (name : String) (lower upper : Int)
  | unknownInObjective
  | unknownInConstraint (index : Nat)
deriving DecidableEq, Repr

def ModelError.message : ModelError → String
  | crossedBounds name lower upper =>
    s!"variable {name} has lower bound {lower} above upper bound {upper}"
  | unknownInObjective => "objective references an unknown variable"
  | unknownInConstraint index => s!"constraint {index} references an unknown variable"

namespace Program

/-- The first variable whose bounds cross. -/
def crossedVariable? (p : Program) : Option ModelError :=
  p.vars.findSome? fun v =>
    match v.bounds.lower, v.bounds.upper with
    | some l, some u => if u < l then some (.crossedBounds v.name l u) else none
    | _, _ => none

/-- What is wrong with the program: bounds first, then the objective, then the constraints. -/
def validate (p : Program) : Option ModelError :=
  let known (f : Form) := f.within p.vars.length
  p.crossedVariable?.or <|
    if known p.objective then
      (p.constraints.findIdx? fun c => !known c.form).map .unknownInConstraint
    else some .unknownInObjective

/-- `c*name + …`; the constant is left out when it is zero and something else is there. -/
def renderForm? (p : Program) (f : Form) : Option String := do
  let parts ← f.terms.mapM fun (v, c) => do
    let x ← p.vars[v]?
    return s!"{c}*{x.name}"
  let tail := if f.constant ≠ 0 ∨ parts.isEmpty then [toString f.constant] else []
  return " + ".intercalate (parts ++ tail)

def renderVariable (v : Variable) : String :=
  let lower := (v.bounds.lower.map toString).getD "-inf"
  let upper := (v.bounds.upper.map toString).getD "+inf"
  s!"  {lower} <= {v.name} <= {upper}\n"

/-- The program as text: objective, constraints and ranges, a line each.  Programs with an unknown
variable have no text. -/
def render? (p : Program) : Option String := do
  let goal := match p.direction with
    | .minimize => "minimize"
    | .maximize => "maximize"
  let objective ← p.renderForm? p.objective
  let constraints ← p.constraints.mapM fun c => do
    let left ← p.renderForm? c.form
    return s!"  {left} {c.relation.symbol} {c.rhs}\n"
  return s!"{goal} {objective}\n" ++ String.join constraints ++
    String.join (p.vars.map renderVariable)

/-- The point satisfies the constraints and the ranges, and is integral where it has to be. -/
structure Feasible (p : Program) (x : Nat → Rat) : Prop where
  constraints : ∀ c ∈ p.constraints, c.relation.Holds (c.form.eval x) c.rhs
  bounds : ∀ i (v : Variable), p.vars[i]? = some v → v.bounds.Contains (x i)
  integral : ∀ i (v : Variable), p.vars[i]? = some v → v.integer = true → (x i).den = 1

end Program

end LoopSched.Linear
