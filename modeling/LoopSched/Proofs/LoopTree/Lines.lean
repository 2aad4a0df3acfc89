import LoopSched.Proofs.LoopTree.Scan

/-!
# Lines of printed code

Printed code is a list of lines, each at a level of indentation: headers of loops and conditions,
calls, comments, closing braces, and a pragma in front of each parallel loop.  In the text a pragma
cannot be taken for another line, whatever the names in the code are.
-/

namespace LoopSched.LoopTree

/-! ### Lines -/

/-- What stands on a line of code. -/
inductive Content where
  | pragma
  | brace
  | loop (header : Header)
  | test (text : String)
  | alternative
  | closing
  | call (text : String)
  | comment (label : String)

structure Line where
  level : ℕ
  content : Content

/-- The text of a line behind its indentation. -/
def Content.text (options : PrintOptions) : Content → String
  | pragma => options.pragma
  | brace => "\x7b"
  | loop header => headerText header ++ " \x7b"
  | test text => testText text ++ " \x7b"
  | alternative => "else \x7b"
  | closing => "\x7d"
  | call text => text ++ ";"
  | comment label => "// " ++ label

/-- A line in the printed text.  Should a name have line feeds, then each part is indented. -/
def Line.written (options : PrintOptions) (l : Line) : List Char :=
  Formatter.indented (indentation options.indent l.level) true (l.content.text options).toList ++
    ['\n']

def written (options : PrintOptions) (ls : List Line) : List Char :=
  ls.flatMap (Line.written options)

/-- Lines between a header and the brace that closes it. -/
def enclosing (level : ℕ) (header : Content) (inner : List Line) : List Line :=
  ⟨level, header⟩ :: (inner ++ [⟨level, .closing⟩])

mutual

/-- The lines of a tree; as the body of something, a block has no braces of its own. -/
def lines (options : PrintOptions) (level : ℕ) (asBody : Bool) : LoopTree → List Line
  | block children =>
    if asBody then linesEach options level children
    else enclosing level .brace (linesEach options (level + 1) children)
  | loop header parallel body =>
    (if parallel && !options.pragma.isEmpty then [⟨level, .pragma⟩] else []) ++
      enclosing level (.loop header) (body.lines options (level + 1) true)
  | ifThen test body => enclosing level (.test test) (body.lines options (level + 1) true)
  | ifElse test body otherwise =>
    enclosing level (.test test) (body.lines options (level + 1) true) ++
      enclosing level .alternative (otherwise.lines options (level + 1) true)
  | call text => [⟨level, .call text⟩]
  | mark label body => ⟨level, .comment label⟩ :: body.lines options level false

def linesEach (options : PrintOptions) (level : ℕ) : List LoopTree → List Line
  | [] => []
  | t :: ts => t.lines options level false ++ linesEach options level ts

end

section

variable {options : PrintOptions} {f : Formatter} {text : String}

@[simp] theorem written_nil : written options [] = [] := rfl

@[simp] theorem written_cons (l : Line) (ls : List Line) :
    written options (l :: ls) = l.written options ++ written options ls := rfl

@[simp] theorem written_append (ls ms : List Line) :
    written options (ls ++ ms) = written options ls ++ written options ms := List.flatMap_append

theorem Ready.writeLine_eq (h : Ready options f) (content : Content) :
    f.writeLine (content.text options) = f.append (Line.written options ⟨f.level, content⟩) := by
  rw [Formatter.writeLine_eq h.lineStart, h.margin_eq, Line.written]

theorem written_closing (level : ℕ) : Line.written options ⟨level, .closing⟩ =
    indentation options.indent level ++ ['\x7d', '\n'] := by
  have htext : (Content.closing.text options).toList = ['\x7d'] := by simp [Content.text]
  rw [Line.written, htext, Formatter.indented_line _ (by decide) (by decide), List.append_assoc]
  rfl

/-- A block, once it is known which lines its body has. -/
theorem Ready.block_eq (h : Ready options f) {content : Content}
    (htext : content.text options = Formatter.opener text) {body : Formatter → Formatter}
    {ls : List Line} (hbody : ∀ g, Ready options g → g.level = f.level + 1 →
      body g = g.append (written options ls)) :
    f.block text body = f.append (written options (enclosing f.level content ls)) := by
  have hinner : ∀ g : Formatter, g.unit = f.unit → g.level = f.level + 1 → g.lineStart = true →
      body g = g.append (written options ls) :=
    fun g hunit hlevel hstart => hbody g ⟨hstart, hunit.trans h.unit_eq⟩ hlevel
  rw [Formatter.block_of_body h.lineStart hinner, h.margin_eq, enclosing, written_cons,
    written_append, written_cons, written_nil, written_closing, Line.written, htext]
  simp

theorem text_loop (header : Header) :
    (Content.loop header).text options = Formatter.opener (headerText header) := by
  simp [Content.text, Formatter.opener, headerText_ne_empty]

theorem text_test (test : String) :
    (Content.test test).text options = Formatter.opener (testText test) := by
  simp [Content.text, Formatter.opener, testText_ne_empty]

theorem text_brace : Content.brace.text options = Formatter.opener "" := rfl

theorem text_alternative : Content.alternative.text options = Formatter.opener "else" := by
  simp [Content.text, Formatter.opener]

mutual

/-- The printer writes the lines of the tree. -/
theorem printTo_eq_lines : ∀ (t : LoopTree) (asBody : Bool) {f : Formatter}, Ready options f →
    t.printTo options asBody f = f.append (written options (t.lines options f.level asBody))
  | block children, true, f, hf => printEach_eq_lines children hf
  | block children, false, f, hf =>
    hf.block_eq text_brace fun _ hg hlevel => hlevel ▸ printEach_eq_lines children hg
  | loop header parallel body, asBody, f, hf => by
    have hblock : ∀ {g : Formatter}, Ready options g → g.level = f.level →
        g.block (headerText header) (body.printTo options true) = g.append (written options
          (enclosing f.level (.loop header) (body.lines options (f.level + 1) true))) := by
      rintro g hg hlevel
      rw [← hlevel]
      exact hg.block_eq (text_loop header) fun _ hg' hin => hin ▸ printTo_eq_lines body true hg'
    rw [printTo, lines, written_append, ← Formatter.append_append]
    split
    · rw [← hblock (hf.append _) rfl]
      exact congrArg (Formatter.block · _ _) ((hf.writeLine_eq .pragma).trans (by simp))
    · exact (hblock hf rfl).trans (by simp)
  | ifThen test body, asBody, f, hf =>
    hf.block_eq (text_test test) fun _ hg hlevel => hlevel ▸ printTo_eq_lines body true hg
  | ifElse test body otherwise, asBody, f, hf => by
    have hthen : f.block (testText test) (body.printTo options true) = _ :=
      hf.block_eq (text_test test) fun _ hg hlevel => hlevel ▸ printTo_eq_lines body true hg
    have helse : ∀ g : Formatter, Ready options g → g.level = f.level + 1 →
        otherwise.printTo options true g =
          g.append (written options (otherwise.lines options (f.level + 1) true)) :=
      fun _ hg hlevel => hlevel ▸ printTo_eq_lines otherwise true hg
    show (f.block (testText test) (body.printTo options true)).block "else" _ = _
    rw [hthen, (hf.append _).block_eq text_alternative helse]
    simp [lines]
  | call text, asBody, f, hf => (hf.writeLine_eq (.call text)).trans (by simp [lines])
  | mark label body, asBody, f, hf => by
    have hline : f.writeLine ("// " ++ label) = _ := hf.writeLine_eq (.comment label)
    rw [printTo, hline, printTo_eq_lines body false (hf.append _)]
    simp [lines]

theorem printEach_eq_lines : ∀ (ts : List LoopTree) {f : Formatter}, Ready options f →
    printEach options ts f = f.append (written options (linesEach options f.level ts))
  | [], f, hf => by simp [printEach, linesEach]
  | t :: ts, f, hf => by
    rw [printEach, printTo_eq_lines t false hf, printEach_eq_lines ts (hf.append _)]
    simp [linesEach]

end

theorem toList_print_eq_lines (t : LoopTree) :
    (t.print options).toList = written options (t.lines options 0 false) := by
  rw [print, printTo_eq_lines t false ⟨rfl, rfl⟩]
  simp [Formatter.append]

end

/-! ### What is on the lines -/

/-- The text on the line keeps the rules. -/
def Content.Follows (rules : TextRules) : Content → Prop
  | loop header => rules.header header
  | test text => rules.test text
  | call text => rules.call text
  | comment label => rules.label label
  | _ => True

theorem forall_mem_enclosing {rules : TextRules} {level : ℕ} {header : Content} {inner : List Line}
    (hheader : header.Follows rules) (hinner : ∀ l ∈ inner, l.content.Follows rules) :
    ∀ l ∈ enclosing level header inner, l.content.Follows rules := by
  refine List.forall_mem_cons.mpr ⟨hheader, List.forall_mem_append.mpr ⟨hinner, ?_⟩⟩
  exact List.forall_mem_singleton.mpr trivial

mutual

theorem Follows.lines {rules : TextRules} (options : PrintOptions) :
    ∀ {t : LoopTree}, t.Follows rules → ∀ (level : ℕ) (asBody : Bool),
      ∀ l ∈ t.lines options level asBody, l.content.Follows rules
  | block _, h, level, true => FollowsEach.lines options h level
  | block _, h, level, false =>
    forall_mem_enclosing trivial (FollowsEach.lines options h (level + 1))
  | loop header parallel body, h, level, asBody => by
    rw [LoopTree.lines]
    refine List.forall_mem_append.mpr
      ⟨?_, forall_mem_enclosing h.1 (Follows.lines options h.2 (level + 1) true)⟩
    split
    · exact List.forall_mem_singleton.mpr trivial
    · exact List.forall_mem_nil _
  | ifThen _ _, h, level, asBody =>
    forall_mem_enclosing h.1 (Follows.lines options h.2 (level + 1) true)
  | ifElse _ _ _, h, level, asBody => List.forall_mem_append.mpr
      ⟨forall_mem_enclosing h.1 (Follows.lines options h.2.1 (level + 1) true),
        forall_mem_enclosing trivial (Follows.lines options h.2.2 (level + 1) true)⟩
  | call _, h, level, asBody => List.forall_mem_singleton.mpr h
  | mark _ _, h, level, asBody =>
    List.forall_mem_cons.mpr ⟨h.1, Follows.lines options h.2 level false⟩

theorem FollowsEach.lines {rules : TextRules} (options : PrintOptions) :
    ∀ {ts : List LoopTree}, FollowsEach rules ts → ∀ (level : ℕ),
      ∀ l ∈ linesEach options level ts, l.content.Follows rules
  | [], _, _ => List.forall_mem_nil _
  | _ :: _, h, level => List.forall_mem_append.mpr
      ⟨Follows.lines options h.1 level false, FollowsEach.lines options h.2 level⟩

end

/-! ### Pragmas and loops -/

/-- The header on the line, if it is one of a loop. -/
def Line.header? (l : Line) : Option Header :=
  match l.content with
  | .loop header => some header
  | _ => none

/-- There is a flag for each loop, and just the loops with a flag that is set have a pragma in front
of them; no other line has. -/
inductive Marks : List Bool → List Line → Prop
  | nil : Marks [] []
  | other {flags : List Bool} {ls : List Line} {l : Line} : l.header? = none →
      l.content ≠ .pragma → Marks flags ls → Marks flags (l :: ls)
  | plain {flags : List Bool} {ls : List Line} {level : ℕ} {header : Header} :
      Marks flags ls → Marks (false :: flags) (⟨level, .loop header⟩ :: ls)
  | marked {flags : List Bool} {ls : List Line} {level : ℕ} {header : Header} :
      Marks flags ls →
      Marks (true :: flags) (⟨level, .pragma⟩ :: ⟨level, .loop header⟩ :: ls)

/-- A loop at this level comes right behind a pragma, or not. -/
def InFront (level : ℕ) : Bool → List Line → Prop
  | true, before => before.getLast? = some ⟨level, .pragma⟩
  | false, before => ∀ l ∈ before.getLast?, l.content ≠ .pragma

theorem InFront.cons_cons {level : ℕ} {flag : Bool} {l m : Line} {before : List Line}
    (h : InFront level flag (m :: before)) : InFront level flag (l :: m :: before) := by
  cases flag <;> rwa [InFront, List.getLast?_cons_cons]

theorem InFront.cons {level : ℕ} {flag : Bool} {m : Line} {before : List Line}
    (h : InFront level flag before) (hm : m.content ≠ .pragma) :
    InFront level flag (m :: before) := by
  cases before with
  | cons l before => exact h.cons_cons
  | nil =>
    cases flag with
    | true => cases h
    | false => exact fun l hl => Option.some.inj hl ▸ hm

namespace Marks

variable {flags flags' : List Bool} {ls ms : List Line}

theorem append (h : Marks flags ls) (h' : Marks flags' ms) :
    Marks (flags ++ flags') (ls ++ ms) := by
  induction h with
  | nil => exact h'
  | other hheader hpragma _ ih => exact .other hheader hpragma ih
  | plain _ ih => exact .plain ih
  | marked _ ih => exact .marked ih

theorem closed (h : Marks flags ls) (level : ℕ) : Marks flags (ls ++ [⟨level, .closing⟩]) := by
  have hclosing : Marks [] [⟨level, .closing⟩] := .other rfl (fun h => by cases h) .nil
  simpa using h.append hclosing

theorem enclosing (h : Marks flags ls) (level : ℕ) {content : Content}
    (hheader : Line.header? ⟨level, content⟩ = none) (hpragma : content ≠ .pragma) :
    Marks flags (enclosing level content ls) :=
  .other hheader hpragma (h.closed level)

/-- The flag of a loop tells what is right in front of it. -/
theorem of_split (h : Marks flags ls) {before after : List Line} {level : ℕ} {header : Header}
    (hsplit : ls = before ++ ⟨level, .loop header⟩ :: after) :
    ∃ flag, flags[(before.filterMap Line.header?).length]? = some flag ∧
      InFront level flag before := by
  induction h generalizing before with
  | nil => simp at hsplit
  | @other flags ls l hheader hpragma _ ih =>
    cases before with
    | nil =>
      rw [(List.cons.inj hsplit).1] at hheader
      cases hheader
    | cons m before =>
      obtain ⟨rfl, hls⟩ := List.cons.inj hsplit
      obtain ⟨flag, hflag, hfront⟩ := ih hls
      rw [List.filterMap_cons_none hheader]
      exact ⟨flag, hflag, hfront.cons hpragma⟩
  | plain _ ih =>
    cases before with
    | nil => exact ⟨false, rfl, fun l hl => by cases hl⟩
    | cons m before =>
      obtain ⟨rfl, hls⟩ := List.cons.inj hsplit
      obtain ⟨flag, hflag, hfront⟩ := ih hls
      exact ⟨flag, hflag, hfront.cons fun h => by cases h⟩
  | marked _ ih =>
    cases before with
    | nil => cases (List.cons.inj hsplit).1
    | cons m before =>
      obtain ⟨rfl, hrest⟩ := List.cons.inj hsplit
      cases before with
      | nil =>
        obtain ⟨hloop, -⟩ := List.cons.inj hrest
        cases hloop
        exact ⟨true, rfl, rfl⟩
      | cons m before =>
        obtain ⟨rfl, hls⟩ := List.cons.inj hrest
        obtain ⟨flag, hflag, hfront⟩ := ih hls
        exact ⟨flag, hflag, (hfront.cons fun h => by cases h).cons_cons⟩

end Marks

mutual

theorem marks_lines {options : PrintOptions} (hpragma : options.pragma ≠ "") :
    ∀ (t : LoopTree) (level : ℕ) (asBody : Bool),
      Marks (t.loops.map Prod.snd) (t.lines options level asBody)
  | block children, level, true => marks_linesEach hpragma children level
  | block children, level, false =>
    (marks_linesEach hpragma children (level + 1)).enclosing level rfl fun h => by cases h
  | loop header true body, level, asBody => by
    rw [lines, if_pos (by simpa using hpragma)]
    exact .marked ((marks_lines hpragma body (level + 1) true).closed level)
  | loop header false body, level, asBody =>
    .plain ((marks_lines hpragma body (level + 1) true).closed level)
  | ifThen test body, level, asBody =>
    (marks_lines hpragma body (level + 1) true).enclosing level rfl fun h => by cases h
  | ifElse test body otherwise, level, asBody => by
    rw [loops, List.map_append]
    exact ((marks_lines hpragma body (level + 1) true).enclosing level rfl
        fun h => by cases h).append
      ((marks_lines hpragma otherwise (level + 1) true).enclosing level rfl fun h => by cases h)
  | call text, level, asBody => .other rfl (fun h => by cases h) .nil
  | mark label body, level, asBody =>
    .other rfl (fun h => by cases h) (marks_lines hpragma body level false)

theorem marks_linesEach {options : PrintOptions} (hpragma : options.pragma ≠ "") :
    ∀ (ts : List LoopTree) (level : ℕ),
      Marks ((loopsEach ts).map Prod.snd) (linesEach options level ts)
  | [], _ => .nil
  | t :: ts, level => by
    rw [loopsEach, List.map_append]
    exact (marks_lines hpragma t level false).append (marks_linesEach hpragma ts level)

end

/-! ### Pragmas in the text -/

/-- The text ends with this line. -/
def EndsInLine (text line : List Char) : Prop :=
  ∃ front, text = front ++ (line ++ ['\n']) ∧ (front = [] ∨ front.getLast? = some '\n')

theorem endsInLine_iff {text line : List Char} : EndsInLine (text ++ ['\n']) line ↔
    ∃ front, text = front ++ line ∧ (front = [] ∨ front.getLast? = some '\n') := by
  simp only [EndsInLine, ← List.append_assoc, List.append_cancel_right_eq]

/-- Indentation is blank, and the pragma is one line that starts with `#` and ends neither like a
call nor like a header. -/
structure Legible (options : PrintOptions) : Prop where
  indent : ∀ c ∈ options.indent.toList, c = ' ' ∨ c = '\t'
  head : options.pragma.toList.head? = some '#'
  newline : '\n' ∉ options.pragma.toList
  semicolon : options.pragma.toList.getLast? ≠ some ';'
  brace : options.pragma.toList.getLast? ≠ some '\x7b'

theorem written_eq_nil_or (options : PrintOptions) (ls : List Line) :
    written options ls = [] ∨ (written options ls).getLast? = some '\n' := by
  rcases List.eq_nil_or_concat ls with rfl | ⟨init, l, rfl⟩
  · exact .inl rfl
  · exact .inr (by simp [Line.written])

/-- The last line of a text is what follows the last line feed. -/
theorem eq_of_append_eq {front front' line line' : List Char} (h : front ++ line = front' ++ line')
    (hfront : front = [] ∨ front.getLast? = some '\n')
    (hfront' : front' = [] ∨ front'.getLast? = some '\n') (hline : '\n' ∉ line)
    (hline' : '\n' ∉ line') : line = line' := by
  -- the longer of the two beginnings has a line feed in a line
  have key : ∀ {a extra : List Char}, (a ++ extra = [] ∨ (a ++ extra).getLast? = some '\n') →
      '\n' ∉ extra → extra = [] := by
    intro a extra hend hextra
    rcases List.eq_nil_or_concat extra with rfl | ⟨init, c, rfl⟩
    · rfl
    · refine absurd ?_ hextra
      rcases hend with hend | hend
      · simp at hend
      · simp_all
  rcases List.append_eq_append_iff.mp h with ⟨extra, rfl, rfl⟩ | ⟨extra, rfl, rfl⟩
  · rw [key hfront' fun hmem => hline (List.mem_append_left _ hmem), List.nil_append]
  · rw [key hfront fun hmem => hline' (List.mem_append_left _ hmem), List.nil_append]

/-- Two equal lines start with the same character behind their indentation. -/
theorem head_eq_of_append_eq {margin margin' : List Char} {c d : Char} {cs ds : List Char}
    (hmargin : ∀ c ∈ margin, c = ' ' ∨ c = '\t') (hmargin' : ∀ c ∈ margin', c = ' ' ∨ c = '\t')
    (hc : ¬ (c = ' ' ∨ c = '\t')) (hd : ¬ (d = ' ' ∨ d = '\t'))
    (h : margin ++ c :: cs = margin' ++ d :: ds) : c = d := by
  have hdrop : ∀ {m : List Char} {x : Char} (xs : List Char), (∀ c ∈ m, c = ' ' ∨ c = '\t') →
      ¬ (x = ' ' ∨ x = '\t') → (m ++ x :: xs).dropWhile (fun c => c = ' ' ∨ c = '\t') = x :: xs := by
    intro m x xs hm hx
    rw [List.dropWhile_append_of_pos (by simpa using hm), List.dropWhile_cons_of_neg (by simpa using hx)]
  have heq := congrArg (List.dropWhile fun c => c = ' ' ∨ c = '\t') h
  rw [hdrop cs hmargin hc, hdrop ds hmargin' hd] at heq
  exact (List.cons.inj heq).1

/-- Labels are single lines. -/
def labelLine : TextRules where
  header _ := True
  test _ := True
  call _ := True
  label text := '\n' ∉ text.toList

theorem text_cases (options : PrintOptions) (content : Content) :
    content = .pragma ∨ content = .closing ∨ (∃ label, content = .comment label) ∨
      (content.text options).toList.getLast? = some ';' ∨
      (content.text options).toList.getLast? = some '\x7b' := by
  cases content <;> simp [Content.text]

namespace Legible

variable {options : PrintOptions}

theorem blank (h : Legible options) (level : ℕ) :
    ∀ c ∈ indentation options.indent level, c = ' ' ∨ c = '\t' :=
  fun c hc => h.indent c (mem_of_mem_indentation hc)

theorem newline_not_mem_indentation (h : Legible options) (level : ℕ) :
    '\n' ∉ indentation options.indent level :=
  fun hmem => by simpa using h.blank level '\n' hmem

theorem exists_cons (h : Legible options) : ∃ cs, options.pragma.toList = '#' :: cs :=
  List.head?_eq_some_iff.mp h.head

theorem pragma_ne_empty (h : Legible options) : options.pragma ≠ "" := by
  obtain ⟨cs, hcs⟩ := h.exists_cons
  exact fun hempty => by simp [hempty] at hcs

/-- The line of a pragma at this level. -/
def pragmaLine (options : PrintOptions) (level : ℕ) : List Char :=
  indentation options.indent level ++ options.pragma.toList

theorem newline_not_mem_pragmaLine (h : Legible options) (level : ℕ) :
    '\n' ∉ pragmaLine options level := by
  simp [pragmaLine, h.newline_not_mem_indentation, h.newline]

theorem written_pragma (h : Legible options) (level : ℕ) :
    Line.written options ⟨level, .pragma⟩ = pragmaLine options level ++ ['\n'] := by
  have hne : options.pragma.toList ≠ [] := by simpa using h.pragma_ne_empty
  rw [Line.written, Content.text, Formatter.indented_line _ hne h.newline, pragmaLine]

/-- A line that starts with another character than a pragma. -/
theorem not_endsInLine_of_head (h : Legible options) {front : List Char}
    (hfront : front = [] ∨ front.getLast? = some '\n') (level level' : ℕ) {c : Char}
    {cs : List Char} (hc : c ≠ '#' ∧ c ≠ ' ' ∧ c ≠ '\t') (hcs : '\n' ∉ c :: cs) :
    ¬ EndsInLine (front ++ (indentation options.indent level' ++ c :: cs) ++ ['\n'])
      (pragmaLine options level) := by
  rw [endsInLine_iff]
  rintro ⟨front', heq, hfront'⟩
  have hline := eq_of_append_eq heq hfront hfront'
    (by simpa [h.newline_not_mem_indentation] using hcs) (h.newline_not_mem_pragmaLine level)
  obtain ⟨ds, hds⟩ := h.exists_cons
  rw [pragmaLine, hds] at hline
  exact hc.1 (head_eq_of_append_eq (h.blank level') (h.blank level)
    (not_or.mpr hc.2) (by decide) hline)

/-- A text that ends with another character than a pragma. -/
theorem not_endsInLine_of_getLast? (h : Legible options) {text : List Char} {c : Char}
    (htext : text.getLast? = some c) (hc : options.pragma.toList.getLast? ≠ some c) (level : ℕ) :
    ¬ EndsInLine (text ++ ['\n']) (pragmaLine options level) := by
  rw [endsInLine_iff]
  rintro ⟨front, rfl, -⟩
  obtain ⟨ds, hds⟩ := h.exists_cons
  refine hc (Eq.trans ?_ htext)
  rw [pragmaLine, hds, ← List.append_assoc, List.getLast?_append_cons]

/-- No other line of the code is taken for a pragma. -/
theorem not_endsInLine (h : Legible options) (ls : List Line) {l : Line}
    (hpragma : l.content ≠ .pragma) (hlabel : l.content.Follows labelLine) (level : ℕ) :
    ¬ EndsInLine (written options (ls ++ [l])) (pragmaLine options level) := by
  obtain ⟨level', content⟩ := l
  have hfront := written_eq_nil_or options ls
  rw [written_append, written_cons, written_nil, List.append_nil, Line.written, ← List.append_assoc]
  rcases text_cases options content with rfl | rfl | ⟨label, rfl⟩ | hlast
  · exact absurd rfl hpragma
  · have htext : (Content.closing.text options).toList = ['\x7d'] := by simp [Content.text]
    rw [htext, Formatter.indented_line _ (by decide) (by decide)]
    exact h.not_endsInLine_of_head hfront level level' (by decide) (by decide)
  · have hlabel' : '\n' ∉ label.toList := hlabel
    have hline : '\n' ∉ '/' :: '/' :: ' ' :: label.toList := by simpa using hlabel'
    have htext : ((Content.comment label).text options).toList =
        '/' :: '/' :: ' ' :: label.toList := by simp [Content.text]
    rw [htext, Formatter.indented_line _ (by simp) hline]
    exact h.not_endsInLine_of_head hfront level level' (by decide) hline
  · -- the text may have several lines, so the end of the last one has to tell
    have hend : ∀ {c : Char}, (content.text options).toList.getLast? = some c →
        (written options ls ++ Formatter.indented (indentation options.indent level') true
          (content.text options).toList).getLast? = some c := by
      intro c hc
      rw [List.getLast?_append, Formatter.getLast?_indented, hc, Option.some_or]
    rcases hlast with hlast | hlast
    · exact h.not_endsInLine_of_getLast? (hend hlast) h.semicolon level
    · exact h.not_endsInLine_of_getLast? (hend hlast) h.brace level

/-- In the text there is a pragma in front of a loop just where there is one among the lines. -/
theorem endsInLine_iff_of_inFront (h : Legible options) {level : ℕ} {flag : Bool}
    {before : List Line} (hfront : InFront level flag before)
    (hlabels : ∀ l ∈ before, l.content.Follows labelLine) :
    EndsInLine (written options before) (pragmaLine options level) ↔ flag = true := by
  rcases List.eq_nil_or_concat before with rfl | ⟨init, l, rfl⟩
  · cases flag with
    | true => cases hfront
    | false => simp [EndsInLine]
  · rw [List.concat_eq_append] at hfront hlabels ⊢
    cases flag with
    | true =>
      rw [InFront, List.getLast?_concat, Option.some.injEq] at hfront
      rw [hfront, written_append, written_cons, written_nil, List.append_nil, h.written_pragma]
      exact iff_of_true ⟨_, rfl, written_eq_nil_or options init⟩ rfl
    | false =>
      refine iff_of_false (h.not_endsInLine init ?_ (hlabels l (by simp)) level) (by decide)
      exact hfront l (by simp)

end Legible

/-! ### Lines of the text -/

/-- The characters of a line. -/
def Line.chars (options : PrintOptions) (l : Line) : List Char :=
  indentation options.indent l.level ++ (l.content.text options).toList

/-- Behind blanks the line starts and ends like the header of a loop. -/
def IsLoopLine (line : List Char) : Prop :=
  ∃ margin text : List Char, line = margin ++ ("for (int ".toList ++ (text ++ " \x7b".toList)) ∧
    ∀ c ∈ margin, c = ' ' ∨ c = '\t'

namespace Legible

variable {options : PrintOptions}

theorem text_ne_nil (h : Legible options) (content : Content) :
    (content.text options).toList ≠ [] := by
  obtain ⟨cs, hcs⟩ := h.exists_cons
  cases content <;> simp [Content.text, hcs]

theorem newline_not_mem_text (h : Legible options) {content : Content}
    (hcontent : content.Follows singleLine) : '\n' ∉ (content.text options).toList := by
  cases content with
  | pragma => exact h.newline
  | loop header =>
    have hheader : '\n' ∉ (headerText header).toList := hcontent
    simp [Content.text, hheader]
  | test text => simp [Content.text, newline_not_mem_testText hcontent]
  | call text =>
    have htext : '\n' ∉ text.toList := hcontent
    simp [Content.text, htext]
  | comment label =>
    have hlabel : '\n' ∉ label.toList := hcontent
    simp [Content.text, hlabel]
  | _ => simp [Content.text]

/-- Where no text has line feeds, the lines are those of the text, which ends with a line feed. -/
theorem splitAt_written (h : Legible options) {ls : List Line}
    (hls : ∀ l ∈ ls, l.content.Follows singleLine) :
    Text.splitAt '\n' (written options ls) = ls.map (Line.chars options) ++ [[]] := by
  induction ls with
  | nil => rfl
  | cons l ls ih =>
    obtain ⟨hl, hls⟩ := List.forall_mem_cons.mp hls
    have htext := h.newline_not_mem_text hl
    have hline : '\n' ∉ l.chars options := by
      simp [Line.chars, h.newline_not_mem_indentation, htext]
    have hwritten : l.written options = l.chars options ++ ['\n'] := by
      rw [Line.written, Formatter.indented_line _ (h.text_ne_nil _) htext, Line.chars]
    rw [written_cons, hwritten, List.append_assoc, List.singleton_append,
      Text.splitAt_append hline, ih hls]
    rfl

/-- The headers of loops can be told from all other lines. -/
theorem isLoopLine_iff (h : Legible options) (l : Line) :
    IsLoopLine (l.chars options) ↔ ∃ header, l.content = .loop header := by
  obtain ⟨level, content⟩ := l
  constructor
  · rintro ⟨margin, text, heq, hmargin⟩
    rw [Line.chars] at heq
    have hhead : ∀ {c : Char}, (content.text options).toList.head? = some c →
        c ≠ ' ' ∧ c ≠ '\t' → c = 'f' := by
      intro c htext hc
      obtain ⟨cs, hcs⟩ := List.head?_eq_some_iff.mp htext
      rw [hcs] at heq
      exact head_eq_of_append_eq (h.blank level) hmargin (not_or.mpr hc) (by decide) heq
    cases content with
    | loop header => exact ⟨header, rfl⟩
    | pragma => exact absurd (hhead h.head (by decide)) (by decide)
    | brace => exact absurd (hhead (c := '\x7b') (by simp [Content.text]) (by decide)) (by decide)
    | test text =>
      exact absurd (hhead (c := 'i') (by simp [Content.text, toList_testText]) (by decide))
        (by decide)
    | alternative => exact absurd (hhead (c := 'e') (by simp [Content.text]) (by decide)) (by decide)
    | closing => exact absurd (hhead (c := '\x7d') (by simp [Content.text]) (by decide)) (by decide)
    | comment label =>
      exact absurd (hhead (c := '/') (by simp [Content.text]) (by decide)) (by decide)
    | call text =>
      -- a call may start like a header, but ends with another character
      have hlast := congrArg List.getLast? heq
      rw [← List.append_assoc margin, ← List.append_assoc (margin ++ _), List.getLast?_append,
        List.getLast?_append] at hlast
      simp [Content.text] at hlast
  · rintro ⟨header, rfl⟩
    refine ⟨indentation options.indent level, (headerInner header).drop 4 ++ [')'], ?_, h.blank level⟩
    simp [Line.chars, Content.text, toList_headerText, headerInner]

end Legible

end LoopSched.LoopTree
