import LoopSched.Chain
import LoopSched.Layout.Basic
import LoopSched.Polyhedral.Map

/-!
# Schedules

A schedule places every statement instance of a chain in one iteration vector.  It starts with the
embedding `[loops_c, i_0 …, i_c]`, which runs the nests one after another; transformations add maps
after it and may add coordinates to the layout.
-/

namespace LoopSched

open Polyhedral

structure Schedule where
  chain : Chain
  statementPrefix : String
  iteratorPrefix : String
  /-- The points of each nest. -/
  domains : List StatementSet
  /-- The maps in the order of application, the embedding first. -/
  maps : List UnionMap
  /-- Correction of the vector's length beside the layout. -/
  lengthDelta : Int := 0
  layout : Layout
  /-- Nesting of tiles in the transformation under way. -/
  depth : Nat := 0
  /-- Subspaces with a parallel iterator and how far into the subspace it is. -/
  parallel : List (Nat × Nat) := []
deriving DecidableEq, Repr

namespace Schedule

/-- Stem of the subspace that tells the nests apart. -/
def loopsStem : String := "loops"

/-- Stem of the subspace of the nests' iterators. -/
def nestStem : String := "i"

/-- Iterator prefix when none is given. -/
def defaultIteratorPrefix : String := "c"

/-- The layout of a chain before any transformation. -/
def startLayout (c : Chain) : Layout :=
  let l := Layout.make (.make loopsStem 0) (.make nestStem c.maxDimension)
  ((l.freshStem loopsStem).2.freshStem nestStem).2

/-- First part of the name of every statement. -/
def rootOf (statementPrefix : String) : String := statementPrefix ++ "statement_"

/-- Iterators of a nest. -/
def nestIterators (n : Nest) : List String := (Subspace.make nestStem n.dimensions).vars

/-- The points of nest `k`. -/
def statementSet (statementPrefix : String) (n : Nest) (k : Nat) : StatementSet where
  symbols := n.domain.symbols
  name := rootOf statementPrefix ++ toString k
  iterators := nestIterators n
  bounds := List.zipWith (fun b x => ⟨x, b.1, b.2⟩) n.domain.bounds (nestIterators n)

/-- Where nest `k` is placed: its number in front, its iterators in order, and zeros behind a nest
that is narrower than others.  Statement and vector share names, so the vector's are aliased. -/
def embeddingClause (statementPrefix : String) (l : Layout) (n : Nest) (k : Nat) : Clause :=
  let l := l.setAlias Layout.nest true
  let space := (l.get? Layout.nest).getD (.make nestStem 0)
  let names := space.variableNames
  { source := rootOf statementPrefix ++ toString k
    input := nestIterators n
    output := l.outputNames
    conditions :=
      .is (loopsStem ++ "_c") k :: .is space.constantName 0 ::
        List.zipWith .same names (nestIterators n) ++
          (names.drop n.dimensions).map (.is · 0) }

/-- The schedule that runs the chain in order. -/
def make (c : Chain) (statementPrefix iteratorPrefix : String) : Schedule :=
  let layout := startLayout c
  { chain := c
    statementPrefix
    iteratorPrefix
    domains := c.nests.zipIdx.map fun (n, k) => statementSet statementPrefix n k
    maps := [{ clauses := c.nests.zipIdx.map fun (n, k) =>
      embeddingClause statementPrefix layout n k }]
    layout }

/-- First part of the name of every statement. -/
def root (s : Schedule) : String := rootOf s.statementPrefix

/-- Name of the coordinate that tells the nests apart. -/
def loopsConstant (s : Schedule) : String :=
  ((s.layout.get? Layout.loops).map (·.constant)).getD ""

/-! ### Length of the vector -/

/-- Length of the iteration vector; `none` when the sum leaves the range of a word. -/
def length? (s : Schedule) : Option Nat :=
  (Word.fit? (s.layout.size + s.lengthDelta)).map fun n => n.toNat

/-! ### Depth and parallel iterators -/

def deeper (s : Schedule) : Schedule := { s with depth := s.depth + 1 }

def shallower (s : Schedule) : Schedule := { s with depth := s.depth - 1 }

/-- Mark the iterator `extra` places into a subspace as parallel; a subspace has one such mark. -/
def addParallel (s : Schedule) (id extra : Nat) : Schedule :=
  { s with parallel := SortedList.upsert compare (fun _ new => new) id extra s.parallel }

/-- Coordinates of the parallel iterators, a sorted set; `none` when a coordinate is too large. -/
def parallelDimensions? (s : Schedule) : Option (List Nat) := do
  let found := s.parallel.filterMap fun (id, extra) => (s.layout.offset? id).map (· + extra)
  if found.all (· < Word.count) then some (SortedList.ofList compare found) else none

end Schedule

end LoopSched
