import LoopSched.LoopTree.Basic
import LoopSched.Text.Formatter

/-!
# Writing loop code

Bodies stand in braces, which a body that is a block shares with its header.  A parallel loop has a
pragma in front of it.
-/

namespace LoopSched

structure PrintOptions where
  indent : String := Formatter.defaultUnit
  /-- Line in front of parallel loops; nothing is written when it is empty. -/
  pragma : String := "#pragma omp parallel for"
deriving DecidableEq, Repr

namespace LoopTree

def headerText (h : Header) : String :=
  s!"for (int {h.iterator} = {h.start}; {h.guard}; {h.step})"

mutual

/-- Write a tree; as the body of something, a block has no braces of its own. -/
def printTo (options : PrintOptions) (asBody : Bool) : LoopTree → Formatter → Formatter
  | block children, f =>
    if asBody then printEach options children f else f.block "" (printEach options children)
  | loop header parallel body, f =>
    let f := if parallel && !options.pragma.isEmpty then f.writeLine options.pragma else f
    f.block (headerText header) (body.printTo options true)
  | ifThen test body, f => f.block s!"if ({test})" (body.printTo options true)
  | ifElse test body otherwise, f =>
    (f.block s!"if ({test})" (body.printTo options true)).block "else"
      (otherwise.printTo options true)
  | call text, f => f.writeLine (text ++ ";")
  | mark label body, f => body.printTo options false (f.writeLine ("// " ++ label))

def printEach (options : PrintOptions) : List LoopTree → Formatter → Formatter
  | [], f => f
  | t :: ts, f => printEach options ts (t.printTo options false f)

end

/-- The tree as code. -/
def print (t : LoopTree) (options : PrintOptions) : String :=
  (t.printTo options false { unit := options.indent }).output

end LoopTree

end LoopSched
