import LoopSched.Text.Formatter
import Mathlib.Data.List.Basic

/-!
# Whole lines and blocks

A formatter at the start of a line puts a line or a block behind what it holds, with the margin of
its level in front of every line, and is at the start of a line again.
-/

namespace LoopSched

namespace Formatter

variable {f : Formatter} {s : String}

/-- Text that is put behind what there is, as it is. -/
def append (f : Formatter) (cs : List Char) : Formatter :=
  { f with output := f.output ++ String.ofList cs }

@[simp] theorem append_append (f : Formatter) (a b : List Char) :
    (f.append a).append b = f.append (a ++ b) := by
  simp [append, String.append_assoc]

@[simp] theorem append_nil (f : Formatter) : f.append [] = f := by
  simp [append]

@[simp] theorem lineStart_append (f : Formatter) (cs : List Char) :
    (f.append cs).lineStart = f.lineStart := rfl

@[simp] theorem level_append (f : Formatter) (cs : List Char) : (f.append cs).level = f.level := rfl

@[simp] theorem margin_append (f : Formatter) (cs : List Char) : (f.append cs).margin = f.margin :=
  rfl

@[simp] theorem dedent_append_indent (f : Formatter) (cs : List Char) :
    (f.indent.append cs).dedent = f.append cs := rfl

/-- Text with the margin in front of every line that is not empty; `start` says that the first
character starts a line. -/
def indented (margin : List Char) : Bool → List Char → List Char
  | _, [] => []
  | start, c :: cs =>
    if c = '\n' then '\n' :: indented margin true cs
    else (if start then margin else []) ++ c :: indented margin false cs

theorem indented_of_not_mem (margin : List Char) {cs : List Char} (hcs : '\n' ∉ cs) :
    indented margin false cs = cs := by
  induction cs with
  | nil => rfl
  | cons c cs ih =>
    rw [List.mem_cons, not_or] at hcs
    rw [indented, if_neg (Ne.symm hcs.1), ih hcs.2]
    rfl

/-- A line without line feeds comes behind the margin. -/
theorem indented_line (margin : List Char) {cs : List Char} (hne : cs ≠ []) (hcs : '\n' ∉ cs) :
    indented margin true cs = margin ++ cs := by
  obtain ⟨c, cs, rfl⟩ := List.exists_cons_of_ne_nil hne
  rw [List.mem_cons, not_or] at hcs
  rw [indented, if_neg (Ne.symm hcs.1), indented_of_not_mem margin hcs.2, if_pos rfl]

/-- A text ends with the same character when it is indented. -/
theorem getLast?_indented (margin : List Char) (start : Bool) (cs : List Char) :
    (indented margin start cs).getLast? = cs.getLast? := by
  induction cs generalizing start with
  | nil => rfl
  | cons c cs ih =>
    rw [indented, List.getLast?_cons]
    split
    · rw [List.getLast?_cons, ih, ‹c = '\n'›]
    · rw [List.getLast?_append_cons, List.getLast?_cons, ih]

theorem foldl_writeChar (f : Formatter) (cs : List Char) :
    (cs ++ ['\n']).foldl writeChar f =
      { f.append (indented f.margin.toList f.lineStart cs ++ ['\n']) with lineStart := true } := by
  induction cs generalizing f with
  | nil => simp [writeChar, indented, append, ← String.toList_inj]
  | cons c cs ih =>
    rw [List.cons_append, List.foldl_cons, ih, indented]
    by_cases hc : c = '\n'
    · simp [writeChar, hc, append, margin, ← String.toList_inj]
    · by_cases hstart : f.lineStart = true <;>
        simp [writeChar, hc, hstart, append, margin, ← String.toList_inj]

theorem writeLine_eq (hf : f.lineStart = true) (s : String) :
    f.writeLine s = f.append (indented f.margin.toList true s.toList ++ ['\n']) := by
  have hline : f.writeLine s = (s.toList ++ ['\n']).foldl writeChar f := by
    simp [writeLine, write, List.foldl_append]
  rw [hline, foldl_writeChar, hf]
  simp [append, hf]

theorem writeLine_of_lineStart (hf : f.lineStart = true) (hne : s ≠ "") (hs : '\n' ∉ s.toList) :
    f.writeLine s = f.append (f.margin.toList ++ (s.toList ++ ['\n'])) := by
  rw [writeLine_eq hf, indented_line _ (by simpa using hne) hs, List.append_assoc]

theorem writeLine_append (f : Formatter) (a b : String) :
    f.writeLine (a ++ b) = (f.write a).writeLine b := by
  simp [writeLine, write, List.foldl_append]

/-- The line that opens a block. -/
def opener (header : String) : String := if header.isEmpty then "\x7b" else header ++ " \x7b"

theorem block_eq (f : Formatter) (header : String) (body : Formatter → Formatter) :
    f.block header body = (body (f.writeLine (opener header)).indent).dedent.writeLine "\x7d" := by
  unfold block opener
  split
  · rfl
  · rw [writeLine_append]

theorem opener_ne_empty (header : String) : opener header ≠ "" := by
  unfold opener
  split
  · decide
  · exact fun h => by simpa using congrArg String.toList h

theorem newline_not_mem_opener (hs : '\n' ∉ s.toList) : '\n' ∉ (opener s).toList := by
  unfold opener
  split <;> simp [hs]

/-- A block, once it is known what the body writes one level further in. -/
theorem block_of_body (hf : f.lineStart = true) {body : Formatter → Formatter} {cs : List Char}
    (hbody : ∀ g : Formatter, g.unit = f.unit → g.level = f.level + 1 → g.lineStart = true →
      body g = g.append cs) :
    f.block s body = f.append (indented f.margin.toList true (opener s).toList ++
      '\n' :: (cs ++ (f.margin.toList ++ ['\x7d', '\n']))) := by
  rw [block_eq, writeLine_eq hf, hbody (f.append _).indent rfl rfl hf, dedent_append_indent,
    append_append, writeLine_of_lineStart (by simpa using hf) (by decide) (by decide)]
  simp

theorem block_of_lineStart (hf : f.lineStart = true) (hs : '\n' ∉ s.toList)
    {body : Formatter → Formatter} {cs : List Char}
    (hbody : ∀ g : Formatter, g.unit = f.unit → g.level = f.level + 1 → g.lineStart = true →
      body g = g.append cs) :
    f.block s body = f.append (f.margin.toList ++ ((opener s).toList ++
      '\n' :: (cs ++ (f.margin.toList ++ ['\x7d', '\n'])))) := by
  rw [block_of_body hf hbody, indented_line _ (by simpa using opener_ne_empty s)
    (newline_not_mem_opener hs), List.append_assoc]

end Formatter

end LoopSched
