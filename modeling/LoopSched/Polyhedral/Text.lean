/-!
# Text of sets, maps and scripts

The notation of the polyhedral calculator, put together from pieces of text.
-/

namespace LoopSched.Polyhedral

/-- `[N,M] -> `, or nothing without symbols. -/
def paramsText (symbols : List String) : String :=
  if symbols.isEmpty then "" else "[" ++ ",".intercalate symbols ++ "] -> "

/-- `[input] -> [output] : c and d`. -/
def clauseText (input output : String) (conditions : List String) : String :=
  let arrow := "[" ++ input ++ "] -> [" ++ output ++ "]"
  if conditions.isEmpty then arrow else arrow ++ " : " ++ " and ".intercalate conditions

/-- `[params] -> { clause; clause }`. -/
def unionText (symbols clauses : List String) : String :=
  paramsText symbols ++ "\x7b " ++ "; ".intercalate clauses ++ " \x7d"

/-- `lower <= x <= upper and lower <= upper`. -/
def boundText (iterator lower upper : String) : String :=
  lower ++ " <= " ++ iterator ++ " <= " ++ upper ++ " and " ++ lower ++ " <= " ++ upper

/-- Definitions `S1 := …;`, one a line. -/
def definitions (letter : String) (values : List String) : String :=
  String.join (values.zipIdx.map fun (v, i) => s!"{letter}{i + 1} := {v};\n")

/-- `S1+S2`, for a number of definitions. -/
def references (letter separator : String) (count : Nat) : String :=
  separator.intercalate ((List.range count).map fun i => s!"{letter}{i + 1}")

/-- The script that generates code for the domains under the composition of the maps. -/
def scriptText (domains maps : List String) (input separate : String) : String :=
  "# Domains:\n" ++ definitions "S" domains ++
  "\n# Transformations:\n" ++ definitions "M" maps ++
  "\ncodegen ((" ++ references "M" "." maps.length ++ ")*(" ++
  references "S" "+" domains.length ++ ")) using \x7b [" ++ input ++ "] -> separate[" ++
  separate ++ "] \x7d;\n"

end LoopSched.Polyhedral
