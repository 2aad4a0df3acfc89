import LoopSched.Text.Hidden

/-!
# Quoted text

A text in double quotes on one line: what would end the text or the line, and what would not show,
is escaped.
-/

namespace LoopSched.Text

/-- The letter after the backslash, for characters with an escape of their own. -/
def escapeLetter? : Char → Option Char
  | '"' => some '"'
  | '\\' => some '\\'
  | '\n' => some 'n'
  | '\t' => some 't'
  | '\r' => some 'r'
  | '\x00' => some '0'
  | _ => none

/-- The code point in hexadecimal digits and braces. -/
def codeEscape (c : Char) : List Char :=
  '\\' :: 'u' :: '{' :: Nat.toDigits 16 c.toNat ++ ['}']

/-- How a character is written in quotes. -/
def quotedChar (c : Char) : List Char :=
  match escapeLetter? c with
  | some letter => ['\\', letter]
  | none => if isHidden c then codeEscape c else [c]

/-- A text in double quotes. -/
def quoted (s : String) : String :=
  "\"" ++ String.ofList (s.toList.flatMap quotedChar) ++ "\""

end LoopSched.Text
