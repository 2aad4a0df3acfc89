import LoopSched.Error

/-!
# Arithmetic on tuples

Componentwise sums, differences and opposites.  They need equal widths, and every component of the
result has to fit in a word.
-/

namespace LoopSched.Tuple

/-- Combine the components of two tuples of one width. -/
def zipWith (op : Int → Int → Int) (a b : Tuple) : Except DimensionError Tuple :=
  if a.width ≠ b.width then .error (.tupleWidths a.width b.width)
  else
    match (List.zipWith op a.values b.values).mapM Word.fit? with
    | none => .error (.combineOverflow a)
    | some values => .ok ⟨values⟩

def add (a b : Tuple) : Except DimensionError Tuple := zipWith (· + ·) a b

def sub (a b : Tuple) : Except DimensionError Tuple := zipWith (· - ·) a b

def neg (a : Tuple) : Except DimensionError Tuple :=
  match (a.values.map (- ·)).mapM Word.fit? with
  | none => .error (.negateOverflow a)
  | some values => .ok ⟨values⟩

end LoopSched.Tuple
