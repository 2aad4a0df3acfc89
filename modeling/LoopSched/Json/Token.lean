import LoopSched.Arith.Binary64
import LoopSched.Arith.Word

/-!
# Tokens of JSON text

`Token.scan` cuts a text into tokens and `Token.text` writes one token.  Numbers keep their parts,
since whether a literal counts as an integer depends on how it is written: `1.0`, `1e2` and `-0`
do not.  A string literal whose `\u` escapes leave a surrogate without its partner is a token too,
but has no text: it can be skipped and cannot be read.
-/

namespace LoopSched.Json

/-- Parts of a number literal.  The fraction holds the digits after the point, and is empty without
a point. -/
structure Numeral where
  negative : Bool := false
  whole : Nat
  fraction : List Char := []
  exponent : Option Int := none
deriving DecidableEq, Repr

inductive Token where
  | openArray
  | closeArray
  | openObject
  | closeObject
  | comma
  | colon
  | null
  | bool (value : Bool)
  | number (value : Numeral)
  | string (text : Option String)
deriving DecidableEq, Repr

/-! ### Numbers -/

/-- Value of a decimal digit. -/
def digitValue (c : Char) : Nat := c.toNat - '0'.toNat

/-- Value of decimal digits, the most significant first. -/
def digitsValue (cs : List Char) : Nat := cs.foldl (fun n c => 10 * n + digitValue c) 0

namespace Numeral

def ofInt (n : Int) : Numeral := { negative := n < 0, whole := n.natAbs }

/-- The integer a literal stands for; fractions, exponents and `-0` have none. -/
def toInt? (n : Numeral) : Option Int :=
  if !n.fraction.isEmpty || n.exponent.isSome then none
  else if !n.negative then some n.whole
  else if n.whole = 0 then none
  else some (-n.whole)

/-- Leading digits of a number that fit in a word, and how many digits follow them. -/
def leading : Nat → Nat → Nat × Nat
  | 0, n => (n, 0)
  | fuel + 1, n =>
    if n < Word.count then (n, 0)
    else
      let (s, dropped) := leading fuel (n / 10)
      (s, dropped + 1)

/-- Append digits while the number fits in a word, and count those taken. -/
def append (s : Nat) : List Char → Nat × Nat
  | [] => (s, 0)
  | c :: cs =>
    let next := 10 * s + digitValue c
    if next < Word.count then
      let (s, taken) := append next cs
      (s, taken + 1)
    else (s, 0)

/-- The leading digits, as many as fit in a word, and the power of ten they are multiplied by.  A
division by ten takes at least a bit, so the bits of the number are enough fuel. -/
def scaled (n : Numeral) : Nat × Int :=
  let (s, dropped) := leading (n.whole.log2 + 1) n.whole
  let (s, taken) := append s n.fraction
  (s, n.exponent.getD 0 + dropped - taken)

/-- The greatest power of ten among the doubles. -/
def greatestPower : Int := 308

/-- The literal is in the range of a double.  Its digits and its power of ten are rounded to doubles
before they are multiplied, so literals next to the greatest double may fall out of the range. -/
def finite (n : Numeral) : Bool :=
  let (s, power) := n.scaled
  if s = 0 ∨ power ≤ 0 then true
  else if greatestPower < power then false
  else Binary64.nearest s * Binary64.nearest (Nat.pow 10 power.toNat) < Binary64.overflowBound

/-- A word without fraction and exponent is in the range. -/
theorem finite_of_lt {n : Numeral} (h : n.whole < Word.count) (hf : n.fraction = [])
    (he : n.exponent = none) : n.finite = true := by
  simp [finite, scaled, leading, append, h, hf, he]

/-- Digits up to the first other character. -/
def takeDigits (cs : List Char) : List Char × List Char := cs.span Char.isDigit

/-- The part before the point: `0`, or digits that do not start with `0`. -/
def scanWhole : List Char → Option (Nat × List Char)
  | '0' :: rest => some (0, rest)
  | c :: rest =>
    if c.isDigit then
      let (digits, rest) := takeDigits rest
      some (digitsValue (c :: digits), rest)
    else none
  | [] => none

/-- An optional point with at least one digit after it. -/
def scanFraction : List Char → Option (List Char × List Char)
  | '.' :: rest =>
    match takeDigits rest with
    | ([], _) => none
    | (digits, rest) => some (digits, rest)
  | rest => some ([], rest)

/-- Digits of an exponent after its sign. -/
def scanExponentDigits (negative : Bool) (cs : List Char) : Option (Option Int × List Char) :=
  match takeDigits cs with
  | ([], _) => none
  | (digits, rest) =>
    let n : Int := digitsValue digits
    some (some (if negative then -n else n), rest)

/-- An optional exponent. -/
def scanExponent : List Char → Option (Option Int × List Char)
  | c :: rest =>
    if c = 'e' ∨ c = 'E' then
      match rest with
      | '-' :: rest => scanExponentDigits true rest
      | '+' :: rest => scanExponentDigits false rest
      | rest => scanExponentDigits false rest
    else some (none, c :: rest)
  | [] => some (none, [])

/-- A number without its sign. -/
def scanUnsigned (negative : Bool) (cs : List Char) : Option (Numeral × List Char) := do
  let (whole, cs) ← scanWhole cs
  let (fraction, cs) ← scanFraction cs
  let (exponent, cs) ← scanExponent cs
  return (⟨negative, whole, fraction, exponent⟩, cs)

/-- A number literal at the start of the text. -/
def scan : List Char → Option (Numeral × List Char)
  | '-' :: cs => scanUnsigned true cs
  | cs => scanUnsigned false cs

def text (n : Numeral) : String :=
  let sign := if n.negative then "-" else ""
  let fraction := if n.fraction.isEmpty then "" else "." ++ String.ofList n.fraction
  let exponent := match n.exponent with
    | none => ""
    | some e => "e" ++ toString e
  sign ++ toString n.whole ++ fraction ++ exponent

end Numeral

/-! ### Strings -/

/-- Part of a string literal: a character, or a UTF-16 unit given by an escape. -/
inductive Piece where
  | char (c : Char)
  | unit (n : Nat)
deriving DecidableEq, Repr

def hexValue? (c : Char) : Option Nat :=
  if c.isDigit then some (c.toNat - '0'.toNat)
  else if 'a' ≤ c ∧ c ≤ 'f' then some (c.toNat - 'a'.toNat + 10)
  else if 'A' ≤ c ∧ c ≤ 'F' then some (c.toNat - 'A'.toNat + 10)
  else none

/-- Value of four hexadecimal digits. -/
def hexUnit? (a b c d : Char) : Option Nat := do
  return (((← hexValue? a) * 16 + (← hexValue? b)) * 16 + (← hexValue? c)) * 16 + (← hexValue? d)

/-- What a one-letter escape stands for. -/
def shortEscape? : Char → Option Char
  | '"' => some '"'
  | '\\' => some '\\'
  | '/' => some '/'
  | 'b' => some '\x08'
  | 'f' => some '\x0c'
  | 'n' => some '\n'
  | 'r' => some '\r'
  | 't' => some '\t'
  | _ => none

/-- Pieces of a string literal up to its closing quote. -/
def scanPieces : List Char → Option (List Piece × List Char)
  | [] => none
  | '"' :: rest => some ([], rest)
  | '\\' :: 'u' :: a :: b :: c :: d :: rest => do
    let n ← hexUnit? a b c d
    let (pieces, rest) ← scanPieces rest
    return (.unit n :: pieces, rest)
  | '\\' :: e :: rest => do
    let c ← shortEscape? e
    let (pieces, rest) ← scanPieces rest
    return (.char c :: pieces, rest)
  | c :: rest =>
    if c = '\\' ∨ c.toNat < 32 then none
    else do
      let (pieces, rest) ← scanPieces rest
      return (.char c :: pieces, rest)

def isLead (n : Nat) : Bool := 0xD800 ≤ n && n < 0xDC00

def isTrail (n : Nat) : Bool := 0xDC00 ≤ n && n < 0xE000

/-- The character of a surrogate pair. -/
def pairChar (lead trail : Nat) : Char :=
  Char.ofNat (0x10000 + (lead - 0xD800) * 0x400 + (trail - 0xDC00))

/-- Characters of the pieces; a surrogate needs its partner right after it. -/
def assemble : List Piece → Option (List Char)
  | [] => some []
  | .char c :: rest => (assemble rest).map (c :: ·)
  | .unit n :: rest =>
    if isTrail n then none
    else if isLead n then
      match rest with
      | .unit m :: rest => if isTrail m then (assemble rest).map (pairChar n m :: ·) else none
      | _ => none
    else (assemble rest).map (Char.ofNat n :: ·)

/-- A string literal after its opening quote. -/
def scanString (cs : List Char) : Option (Option String × List Char) := do
  let (pieces, rest) ← scanPieces cs
  return ((assemble pieces).map String.ofList, rest)

def hexDigit (n : Nat) : Char :=
  if n < 10 then Char.ofNat ('0'.toNat + n) else Char.ofNat ('a'.toNat + (n - 10))

/-- How a character is written inside a string literal: quotes, backslashes and control characters
are escaped. -/
def escapeChar (c : Char) : List Char :=
  if c = '"' then ['\\', '"']
  else if c = '\\' then ['\\', '\\']
  else if c = '\n' then ['\\', 'n']
  else if c = '\r' then ['\\', 'r']
  else if c = '\t' then ['\\', 't']
  else if c = '\x08' then ['\\', 'b']
  else if c = '\x0c' then ['\\', 'f']
  else if c.toNat < 32 then
    ['\\', 'u', '0', '0', hexDigit (c.toNat / 16), hexDigit (c.toNat % 16)]
  else [c]

/-- A string literal; without text it is a single surrogate. -/
def stringText : Option String → String
  | some s => "\"" ++ String.ofList (s.toList.flatMap escapeChar) ++ "\""
  | none => "\"\\ud800\""

/-! ### Tokens -/

def isBlank (c : Char) : Bool := c = ' ' || c = '\n' || c = '\t' || c = '\r'

namespace Token

/-- The token at the start of a text that starts with no blank. -/
def next : List Char → Option (Token × List Char)
  | '[' :: rest => some (.openArray, rest)
  | ']' :: rest => some (.closeArray, rest)
  | '{' :: rest => some (.openObject, rest)
  | '}' :: rest => some (.closeObject, rest)
  | ',' :: rest => some (.comma, rest)
  | ':' :: rest => some (.colon, rest)
  | '"' :: rest => (scanString rest).map fun (s, rest) => (.string s, rest)
  | 'n' :: 'u' :: 'l' :: 'l' :: rest => some (.null, rest)
  | 't' :: 'r' :: 'u' :: 'e' :: rest => some (.bool true, rest)
  | 'f' :: 'a' :: 'l' :: 's' :: 'e' :: rest => some (.bool false, rest)
  | cs => (Numeral.scan cs).map fun (n, rest) => (.number n, rest)

/-- At most `fuel` tokens of a text. -/
def scanAux : Nat → List Char → Option (List Token)
  | 0, cs => if (cs.dropWhile isBlank).isEmpty then some [] else none
  | fuel + 1, cs =>
    match cs.dropWhile isBlank with
    | [] => some []
    | cs => do
      let (t, rest) ← next cs
      return t :: (← scanAux fuel rest)

/-- All tokens of a text.  Every token takes a character, so the length of the text is enough. -/
def scan (cs : List Char) : Option (List Token) := scanAux cs.length cs

def text : Token → String
  | openArray => "["
  | closeArray => "]"
  | openObject => "\x7b"
  | closeObject => "\x7d"
  | comma => ","
  | colon => ":"
  | null => "null"
  | bool b => if b then "true" else "false"
  | number n => n.text
  | string s => stringText s

end Token

end LoopSched.Json
