/-!
# Rounding to doubles

A natural number is rounded to the nearest double by keeping 53 bits; a tie goes to the even
neighbour.  From `overflowBound` on the nearest double would be infinite.
-/

namespace LoopSched.Binary64

/-- Bits of the significand of a double. -/
def precision : Nat := 53

/-- The nearest number with `precision` bits and zeros after them, the even one of two. -/
def nearest (n : Nat) : Nat :=
  let unit := 1 <<< (n.log2 + 1 - precision)
  let below := n / unit
  let rest := n % unit
  if unit < 2 * rest ∨ unit = 2 * rest ∧ below % 2 = 1 then (below + 1) * unit else below * unit

/-- Half way between the greatest double and the next power of two. -/
def overflowBound : Nat := 1 <<< 1024 - 1 <<< 970

end LoopSched.Binary64
