import LoopSched.Arith.Word

/-!
# Decimal words

Reads a text as a signed 64-bit word: an optional sign and at least one digit, nothing else.
-/

namespace LoopSched.Text

/-- Value of decimal digits; `none` when there is none or another character. -/
def digits? (cs : List Char) : Option Nat :=
  if cs.isEmpty || !cs.all Char.isDigit then none
  else some (cs.foldl (fun n c => 10 * n + (c.toNat - '0'.toNat)) 0)

/-- The word that a text stands for. -/
def word? (s : String) : Option Int := do
  let n : Int ← match s.toList with
    | '-' :: cs => (digits? cs).map fun n => -(n : Int)
    | '+' :: cs => (digits? cs).map fun n => (n : Int)
    | cs => (digits? cs).map fun n => (n : Int)
  Word.fit? n

end LoopSched.Text
