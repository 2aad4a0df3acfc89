/-!
# Indented text

A formatter collects text and puts the indentation of the current level in front of every line that
is not empty.
-/

namespace LoopSched

structure Formatter where
  /-- Text of one level of indentation. -/
  unit : String
  level : Nat := 0
  /-- Nothing is written on the current line yet. -/
  lineStart : Bool := true
  output : String := ""
deriving DecidableEq, Repr

namespace Formatter

/-- Indentation when none is given. -/
def defaultUnit : String := "  "

def indent (f : Formatter) : Formatter := { f with level := f.level + 1 }

def dedent (f : Formatter) : Formatter := { f with level := f.level - 1 }

/-- The indentation of the current level. -/
def margin (f : Formatter) : String := String.join (List.replicate f.level f.unit)

def writeChar (f : Formatter) (c : Char) : Formatter :=
  if c = '\n' then { f with output := f.output.push '\n', lineStart := true }
  else if f.lineStart then
    { f with output := (f.output ++ f.margin).push c, lineStart := false }
  else { f with output := f.output.push c }

def write (f : Formatter) (s : String) : Formatter := s.toList.foldl writeChar f

def writeLine (f : Formatter) (s : String) : Formatter := (f.write s).write "\n"

/-- A header, an opening brace, the indented body, and a closing brace. -/
def block (f : Formatter) (header : String) (body : Formatter → Formatter) : Formatter :=
  let opened := if header.isEmpty then f.writeLine "\x7b" else (f.write header).writeLine " \x7b"
  (body opened.indent).dedent.writeLine "\x7d"

end Formatter

end LoopSched
