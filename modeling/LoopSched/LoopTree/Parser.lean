import LoopSched.Error
import LoopSched.LoopTree.Basic
import LoopSched.Text.Blank

/-!
# Reading loop code

Reads loop code as the polyhedral engine prints it: `for` and `if` with one statement as body,
blocks in braces, `//` comments in front of a statement, and calls that end in `;`.

A parser takes the characters that are left and returns what it read and the rest.  A fault is
reported with the characters that were left then, from which the line follows.
-/

namespace LoopSched.LoopTree

namespace Parser

/-- A result, or a fault with the characters left at it. -/
abbrev Result := Except (SyntaxFault × List Char)

/-- Space, tab, line feed, form feed and carriage return. -/
def isSpace (c : Char) : Bool :=
  c = ' ' || c = '\t' || c = '\n' || c = '\x0c' || c = '\r'

def skipSpace (cs : List Char) : List Char := cs.dropWhile isSpace

/-- The text of some characters, without blanks at its ends. -/
def textOf (cs : List Char) : String := String.ofList (Text.trimChars cs)

/-- The rest after a keyword, if it is there and no word goes on behind it. -/
def keyword? (word cs : List Char) : Option (List Char) :=
  match word, cs with
  | [], [] => some []
  | [], c :: cs => if isWordChar c then none else some (c :: cs)
  | w :: ws, c :: cs => if w = c then keyword? ws cs else none
  | _ :: _, [] => none

/-- Skip an expected character. -/
def expect (c : Char) (cs : List Char) : Result (List Char) :=
  match skipSpace cs with
  | [] => .error (.expected c, [])
  | d :: rest => if d = c then .ok rest else .error (.expected c, d :: rest)

/-- Characters up to the closing parenthesis, with `depth` further ones open. -/
def enclosed : Nat → List Char → Result (List Char × List Char)
  | _, [] => .error (.unbalancedParenthesis, [])
  | depth, c :: cs =>
    let go (depth : Nat) : Result (List Char × List Char) := do
      let (inner, rest) ← enclosed depth cs
      return (c :: inner, rest)
    if c = '(' then go (depth + 1)
    else if c = ')' then
      match depth with
      | 0 => .ok ([], cs)
      | depth + 1 => go depth
    else go depth

/-- Text in parentheses. -/
def parenthesized (cs : List Char) : Result (List Char × List Char) := do
  let cs ← expect '(' cs
  enclosed 0 cs

/-- The two parts around the first occurrence of a character. -/
def cutAt? (sep : Char) : List Char → Option (List Char × List Char)
  | [] => none
  | c :: cs => if c = sep then some ([], cs) else (cutAt? sep cs).map fun (a, b) => (c :: a, b)

/-- A header from the text in its parentheses: declaration, guard and step. -/
def header (inner : List Char) : Except SyntaxFault Header :=
  match Text.splitAt ';' inner with
  | [declaration, guard, step] =>
    match cutAt? '=' declaration with
    | none => .error .noInitializer
    | some (name, start) =>
      match Text.lastWord? name with
      | none => .error .noIterator
      | some iterator =>
        .ok ⟨String.ofList iterator, textOf start, textOf guard, textOf step⟩
  | _ => .error .malformedHeader

/-- Characters of a call up to the `;` outside all parentheses.  It is assumed that a call has fewer
than 2^31 parentheses, so that the depth has 32 bits. -/
def callText : Int → List Char → Result (List Char × List Char)
  | _, [] => .error (.unterminatedStatement, [])
  | depth, c :: cs =>
    if depth = 0 && c = ';' then .ok ([], cs)
    else if depth = 0 && (c = '{' || c = '}') then .error (.unterminatedStatement, c :: cs)
    else do
      let depth := if c = '(' then depth + 1 else if c = ')' then depth - 1 else depth
      let (text, rest) ← callText depth cs
      return (c :: text, rest)

/-- What a statement starts with. -/
inductive Opening where
  | nothing
  | brace (rest : List Char)
  | comment (rest : List Char)
  | loop (rest : List Char)
  | condition (rest : List Char)
  | other (rest : List Char)

def opening (cs : List Char) : Opening :=
  match skipSpace cs with
  | [] => .nothing
  | '{' :: rest => .brace rest
  | '/' :: '/' :: rest => .comment rest
  | cs =>
    match keyword? ['f', 'o', 'r'] cs with
    | some rest => .loop rest
    | none =>
      match keyword? ['i', 'f'] cs with
      | some rest => .condition rest
      | none => .other cs

mutual

/-- One statement, nested at most `fuel` deep. -/
def statement : Nat → List Char → Result (LoopTree × List Char)
  | 0, cs => .error (.unexpectedEnd, cs)
  | fuel + 1, cs =>
    match opening cs with
    | .nothing => .error (.unexpectedEnd, [])
    | .brace rest => do
      let (children, rest) ← statements true fuel rest
      return (.block children, rest)
    | .comment rest => do
      let (body, rest') ← statement fuel (rest.dropWhile (· ≠ '\n'))
      return (.mark (textOf (rest.takeWhile (· ≠ '\n'))) body, rest')
    | .loop rest => do
      let (inner, rest) ← parenthesized rest
      match header inner with
      | .error fault => .error (fault, rest)
      | .ok h =>
        let (body, rest) ← statement fuel rest
        return (.loop h false body, rest)
    | .condition rest => do
      let (inner, rest) ← parenthesized rest
      let (body, rest) ← statement fuel rest
      match keyword? ['e', 'l', 's', 'e'] (skipSpace rest) with
      | none => return (.ifThen (textOf inner) body, skipSpace rest)
      | some rest =>
        let (otherwise, rest) ← statement fuel rest
        return (.ifElse (textOf inner) body otherwise, rest)
    | .other rest => do
      let (text, rest) ← callText 0 rest
      return (.call (textOf text), rest)

/-- Statements up to the end of the text, or up to the brace that closes a block. -/
def statements (inBlock : Bool) : Nat → List Char → Result (List LoopTree × List Char)
  | 0, cs => .error (.unexpectedEnd, cs)
  | fuel + 1, cs =>
    match skipSpace cs, inBlock with
    | [], false => .ok ([], [])
    | [], true => .error (.unterminatedBlock, [])
    | '}' :: rest, true => .ok ([], rest)
    | cs, _ => do
      let (t, rest) ← statement fuel cs
      let (ts, rest) ← statements inBlock fuel rest
      return (t :: ts, rest)

end

/-- Nesting that no text of this length exceeds. -/
def fuelFor (cs : List Char) : Nat := 2 * cs.length + 2

/-- The line of a fault: one more than the line feeds before it. -/
def lineOf (text rest : List Char) : Nat := text.count '\n' - rest.count '\n' + 1

end Parser

/-- Read a whole text.  A single statement stands for itself, any other number makes a block. -/
def parse (text : String) : Except EngineError LoopTree :=
  let cs := text.toList
  match Parser.statements false (Parser.fuelFor cs) cs with
  | .error (fault, rest) => .error (.syntaxError fault (Parser.lineOf cs rest))
  | .ok ([t], _) => .ok t
  | .ok (ts, _) => .ok (.block ts)

end LoopSched.LoopTree
