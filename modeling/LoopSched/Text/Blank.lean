/-!
# Blank characters

The characters with the Unicode property White_Space, and trimming and splitting by them.
-/

namespace LoopSched.Text

/-- The character is white space in the sense of Unicode. -/
def isBlank (c : Char) : Bool :=
  let n := c.toNat
  (0x09 ≤ n && n ≤ 0x0D) || n = 0x20 || n = 0x85 || n = 0xA0 || n = 0x1680 ||
    (0x2000 ≤ n && n ≤ 0x200A) || n = 0x2028 || n = 0x2029 || n = 0x202F || n = 0x205F ||
    n = 0x3000

/-- Drop blanks at both ends. -/
def trimChars (cs : List Char) : List Char :=
  ((cs.dropWhile isBlank).reverse.dropWhile isBlank).reverse

/-- The text without blanks at both ends. -/
def trim (s : String) : String := String.ofList (trimChars s.toList)

/-- The last run of characters that are not blank. -/
def lastWord? (cs : List Char) : Option (List Char) :=
  match ((cs.reverse.dropWhile isBlank).takeWhile fun c => !isBlank c).reverse with
  | [] => none
  | word => some word

/-- Cut at every occurrence of a character. -/
def splitAt (sep : Char) : List Char → List (List Char)
  | [] => [[]]
  | c :: cs =>
    if c = sep then [] :: splitAt sep cs
    else
      match splitAt sep cs with
      | [] => [[c]]
      | part :: parts => (c :: part) :: parts

end LoopSched.Text
