import LoopSched.LoopTree.Printer
import LoopSched.Proofs.Text.Formatter

/-!
# Printed code

What the printer writes, as one list of characters.  Every body stands in braces and the braces of a
body that is a block are its own, so the code depends only on the tree with a block around every
body that is none.
-/

namespace LoopSched

/-! ### Braces around bodies -/

namespace LoopTree

/-- The tree in braces, unless it has braces already. -/
def braced : LoopTree → LoopTree
  | block children => .block children
  | t => .block [t]

mutual

/-- Braces around the bodies of all loops and conditions, and no loop marked as parallel. -/
def normalize : LoopTree → LoopTree
  | block children => .block (normalizeEach children)
  | loop header _ body => .loop header false body.normalize.braced
  | ifThen test body => .ifThen test body.normalize.braced
  | ifElse test body otherwise =>
    .ifElse test body.normalize.braced otherwise.normalize.braced
  | call text => .call text
  | mark label body => .mark label body.normalize

def normalizeEach : List LoopTree → List LoopTree
  | [] => []
  | t :: ts => t.normalize :: normalizeEach ts

end

theorem braced_braced (t : LoopTree) : t.braced.braced = t.braced := by
  cases t <;> rfl

theorem normalize_braced (t : LoopTree) : t.braced.normalize = t.normalize.braced := by
  cases t <;> simp [braced, normalize, normalizeEach]

mutual

theorem normalize_normalize : ∀ t : LoopTree, t.normalize.normalize = t.normalize
  | block children => by simp [normalize, normalizeEach_normalizeEach children]
  | loop header parallel body => by
    simp [normalize, normalize_braced, braced_braced, normalize_normalize body]
  | ifThen test body => by
    simp [normalize, normalize_braced, braced_braced, normalize_normalize body]
  | ifElse test body otherwise => by
    simp [normalize, normalize_braced, braced_braced, normalize_normalize body,
      normalize_normalize otherwise]
  | call text => rfl
  | mark label body => by simp [normalize, normalize_normalize body]

theorem normalizeEach_normalizeEach : ∀ ts : List LoopTree,
    normalizeEach (normalizeEach ts) = normalizeEach ts
  | [] => rfl
  | t :: ts => by simp [normalizeEach, normalize_normalize t, normalizeEach_normalizeEach ts]

end

theorem loops_braced (t : LoopTree) : t.braced.loops = t.loops := by
  cases t <;> simp [braced, loops, loopsEach]

mutual

/-- The loops of the normal form in order, with no marks. -/
theorem loops_normalize : ∀ t : LoopTree,
    t.normalize.loops = t.loops.map fun l => (l.1, false)
  | block children => by simp [normalize, loops, loopsEach_normalizeEach children]
  | loop header parallel body => by
    simp [normalize, loops, loops_braced, loops_normalize body]
  | ifThen test body => by simp [normalize, loops, loops_braced, loops_normalize body]
  | ifElse test body otherwise => by
    simp [normalize, loops, loops_braced, loops_normalize body, loops_normalize otherwise]
  | call text => rfl
  | mark label body => by simp [normalize, loops, loops_normalize body]

theorem loopsEach_normalizeEach : ∀ ts : List LoopTree,
    loopsEach (normalizeEach ts) = (loopsEach ts).map fun l => (l.1, false)
  | [] => rfl
  | t :: ts => by
    simp [normalizeEach, loopsEach, loops_normalize t, loopsEach_normalizeEach ts]

end

/-! ### The characters of a tree -/

/-- The indentation of a level. -/
def indentation (unit : String) (level : ℕ) : List Char :=
  (String.join (List.replicate level unit)).toList

theorem mem_of_mem_indentation {unit : String} {level : ℕ} {c : Char}
    (h : c ∈ indentation unit level) : c ∈ unit.toList := by
  rw [indentation, String.toList_join, List.mem_flatMap] at h
  obtain ⟨s, hs, hc⟩ := h
  rwa [List.eq_of_mem_replicate hs] at hc

/-- What is in front of the body of a condition. -/
def testText (test : String) : String := s!"if ({test})"

mutual

/-- The code of a tree from its first character on. -/
def code (unit : String) (level : ℕ) : LoopTree → List Char
  | block children =>
    '\x7b' :: '\n' :: (codeEach unit (level + 1) children ++
      (indentation unit level ++ ['\x7d', '\n']))
  | loop header _ body => (headerText header).toList ++ ' ' :: body.code unit level
  | ifThen test body => (testText test).toList ++ ' ' :: body.code unit level
  | ifElse test body otherwise =>
    (testText test).toList ++ ' ' :: (body.code unit level ++
      (indentation unit level ++ ("else".toList ++ ' ' :: otherwise.code unit level)))
  | call text => text.toList ++ [';', '\n']
  | mark label body =>
    "// ".toList ++ (label.toList ++ '\n' :: (indentation unit level ++ body.code unit level))

/-- The code of several trees, one below the other. -/
def codeEach (unit : String) (level : ℕ) : List LoopTree → List Char
  | [] => []
  | t :: ts => indentation unit level ++ (t.code unit level ++ codeEach unit level ts)

end

/-- What is between the braces of a body; elsewhere a block is one statement. -/
def parts : Bool → LoopTree → List LoopTree
  | true, block children => children
  | _, t => [t]

theorem braced_eq (t : LoopTree) : t.braced = .block (t.parts true) := by
  cases t <;> rfl

theorem codeEach_singleton (unit : String) (level : ℕ) (t : LoopTree) :
    codeEach unit level [t] = indentation unit level ++ t.code unit level := by
  simp [codeEach]

/-- What is between the parentheses of a loop. -/
def headerInner (h : Header) : List Char :=
  "int ".toList ++ (h.iterator.toList ++ (" = ".toList ++ (h.start.toList ++
    ("; ".toList ++ (h.guard.toList ++ ("; ".toList ++ h.step.toList))))))

theorem toList_headerText (h : Header) :
    (headerText h).toList = "for (".toList ++ (headerInner h ++ [')']) := by
  show ("for (int " ++ h.iterator ++ " = " ++ h.start ++ "; " ++ h.guard ++ "; " ++ h.step ++
    ")").toList = _
  simp only [String.toList_append, List.append_assoc, headerInner]
  rfl

theorem toList_testText (test : String) :
    (testText test).toList = "if (".toList ++ (test.toList ++ [')']) := by
  show ("if (" ++ test ++ ")").toList = _
  simp only [String.toList_append, List.append_assoc]
  rfl

/-! ### Conditions on the texts of a tree -/

/-- What is asked of headers, tests, calls and labels. -/
structure TextRules where
  header : Header → Prop
  test : String → Prop
  call : String → Prop
  label : String → Prop

mutual

/-- All texts of the tree keep the rules. -/
def Follows (rules : TextRules) : LoopTree → Prop
  | block children => FollowsEach rules children
  | loop header _ body => rules.header header ∧ body.Follows rules
  | ifThen test body => rules.test test ∧ body.Follows rules
  | ifElse test body otherwise =>
    rules.test test ∧ body.Follows rules ∧ otherwise.Follows rules
  | call text => rules.call text
  | mark label body => rules.label label ∧ body.Follows rules

def FollowsEach (rules : TextRules) : List LoopTree → Prop
  | [] => True
  | t :: ts => t.Follows rules ∧ FollowsEach rules ts

end

section

variable {rules : TextRules} [DecidablePred rules.header] [DecidablePred rules.test]
  [DecidablePred rules.call] [DecidablePred rules.label]

mutual

/-- Rules that can be checked for each text can be checked for trees. -/
def decidableFollows : (t : LoopTree) → Decidable (t.Follows rules)
  | block children => decidableFollowsEach children
  | loop header _ body =>
    have := decidableFollows body
    inferInstanceAs (Decidable (rules.header header ∧ body.Follows rules))
  | ifThen test body =>
    have := decidableFollows body
    inferInstanceAs (Decidable (rules.test test ∧ body.Follows rules))
  | ifElse test body otherwise =>
    have := decidableFollows body
    have := decidableFollows otherwise
    inferInstanceAs (Decidable (rules.test test ∧ body.Follows rules ∧ otherwise.Follows rules))
  | call text => inferInstanceAs (Decidable (rules.call text))
  | mark label body =>
    have := decidableFollows body
    inferInstanceAs (Decidable (rules.label label ∧ body.Follows rules))

def decidableFollowsEach : (ts : List LoopTree) → Decidable (FollowsEach rules ts)
  | [] => isTrue trivial
  | t :: ts =>
    have := decidableFollows t
    have := decidableFollowsEach ts
    inferInstanceAs (Decidable (t.Follows rules ∧ FollowsEach rules ts))

end

end

/-- One set of rules is stronger than another. -/
structure TextRules.Imply (p q : TextRules) : Prop where
  header : ∀ h, p.header h → q.header h
  test : ∀ s, p.test s → q.test s
  call : ∀ s, p.call s → q.call s
  label : ∀ s, p.label s → q.label s

mutual

theorem Follows.mono {p q : TextRules} (h : p.Imply q) :
    ∀ {t : LoopTree}, t.Follows p → t.Follows q
  | block _, ht => FollowsEach.mono h ht
  | loop _ _ _, ht => ⟨h.header _ ht.1, Follows.mono h ht.2⟩
  | ifThen _ _, ht => ⟨h.test _ ht.1, Follows.mono h ht.2⟩
  | ifElse _ _ _, ht => ⟨h.test _ ht.1, Follows.mono h ht.2.1, Follows.mono h ht.2.2⟩
  | call _, ht => h.call _ ht
  | mark _ _, ht => ⟨h.label _ ht.1, Follows.mono h ht.2⟩

theorem FollowsEach.mono {p q : TextRules} (h : p.Imply q) :
    ∀ {ts : List LoopTree}, FollowsEach p ts → FollowsEach q ts
  | [], _ => trivial
  | _ :: _, hts => ⟨Follows.mono h hts.1, FollowsEach.mono h hts.2⟩

end

theorem follows_braced {rules : TextRules} {t : LoopTree} :
    t.braced.Follows rules ↔ t.Follows rules := by
  cases t <;> simp [braced, Follows, FollowsEach]

mutual

/-- The normal form has the same texts. -/
theorem follows_normalize {rules : TextRules} : ∀ {t : LoopTree},
    t.normalize.Follows rules ↔ t.Follows rules
  | block children => by simp [normalize, Follows, followsEach_normalizeEach]
  | loop header parallel body => by simp [normalize, Follows, follows_braced, follows_normalize]
  | ifThen test body => by simp [normalize, Follows, follows_braced, follows_normalize]
  | ifElse test body otherwise => by
    simp [normalize, Follows, follows_braced, follows_normalize]
  | call text => Iff.rfl
  | mark label body => by simp [normalize, Follows, follows_normalize]

theorem followsEach_normalizeEach {rules : TextRules} : ∀ {ts : List LoopTree},
    FollowsEach rules (normalizeEach ts) ↔ FollowsEach rules ts
  | [] => Iff.rfl
  | t :: ts => by
    simp [normalizeEach, FollowsEach, follows_normalize, followsEach_normalizeEach]

end

/-- No text has a line feed. -/
def singleLine : TextRules where
  header h := '\n' ∉ (headerText h).toList
  test text := '\n' ∉ text.toList
  call text := '\n' ∉ text.toList
  label text := '\n' ∉ text.toList

/-! ### What the printer writes -/

/-- No pragma is written. -/
def Plain (options : PrintOptions) (loops : List (String × Bool)) : Prop :=
  options.pragma = "" ∨ ∀ l ∈ loops, l.2 = false

theorem Plain.mono {options : PrintOptions} {a b : List (String × Bool)} (h : Plain options b)
    (hsub : a ⊆ b) : Plain options a :=
  h.imp_right fun h l hl => h l (hsub hl)

/-- The formatter is at the start of a line. -/
structure Ready (options : PrintOptions) (f : Formatter) : Prop where
  lineStart : f.lineStart = true
  unit_eq : f.unit = options.indent

namespace Ready

variable {options : PrintOptions} {f : Formatter} {text : String}

theorem append (h : Ready options f) (cs : List Char) : Ready options (f.append cs) :=
  ⟨h.lineStart, h.unit_eq⟩

theorem margin_eq (h : Ready options f) : f.margin.toList = indentation options.indent f.level := by
  rw [Formatter.margin, h.unit_eq, indentation]

theorem writeLine (h : Ready options f) (hne : text ≠ "") (htext : '\n' ∉ text.toList) :
    f.writeLine text =
      f.append (indentation options.indent f.level ++ (text.toList ++ ['\n'])) := by
  rw [Formatter.writeLine_of_lineStart h.lineStart hne htext, h.margin_eq]

/-- What is written for a block, once it is known what its body writes. -/
theorem opened (h : Ready options f) (htext : '\n' ∉ text.toList) {body : Formatter → Formatter}
    {ts : List LoopTree} (hbody : ∀ g, Ready options g → g.level = f.level + 1 →
      body g = g.append (codeEach options.indent g.level ts)) :
    f.block text body = f.append (indentation options.indent f.level ++
      ((Formatter.opener text).toList ++ '\n' :: (codeEach options.indent (f.level + 1) ts ++
        (indentation options.indent f.level ++ ['\x7d', '\n'])))) := by
  have hlevel : ∀ g : Formatter, g.unit = f.unit → g.level = f.level + 1 → g.lineStart = true →
      body g = g.append (codeEach options.indent (f.level + 1) ts) := by
    intro g hunit hlevel hstart
    rw [hbody g ⟨hstart, hunit.trans h.unit_eq⟩ hlevel, hlevel]
  rw [Formatter.block_of_lineStart h.lineStart htext hlevel, h.margin_eq]

/-- A body behind some text has braces. -/
theorem block (h : Ready options f) (hne : text ≠ "") (htext : '\n' ∉ text.toList)
    {body : Formatter → Formatter} {t : LoopTree}
    (hbody : ∀ g, Ready options g → g.level = f.level + 1 →
      body g = g.append (codeEach options.indent g.level (t.parts true))) :
    f.block text body = f.append (indentation options.indent f.level ++
      (text.toList ++ ' ' :: t.braced.code options.indent f.level)) := by
  have hopener : (Formatter.opener text).toList = text.toList ++ [' ', '\x7b'] := by
    simp [Formatter.opener, hne]
  rw [h.opened htext hbody, hopener, braced_eq, code]
  simp

/-- A block that is no body has braces of its own. -/
theorem braces (h : Ready options f) {body : Formatter → Formatter} {ts : List LoopTree}
    (hbody : ∀ g, Ready options g → g.level = f.level + 1 →
      body g = g.append (codeEach options.indent g.level ts)) :
    f.block "" body = f.append (indentation options.indent f.level ++
      (LoopTree.block ts).code options.indent f.level) := by
  rw [h.opened (by simp) hbody, code]
  rfl

end Ready

section

variable {options : PrintOptions}

theorem newline_not_mem_testText {test : String} (h : '\n' ∉ test.toList) :
    '\n' ∉ (testText test).toList := by
  simp [toList_testText, h]

theorem headerText_ne_empty (h : Header) : headerText h ≠ "" := fun he => by
  simpa [toList_headerText] using congrArg String.toList he

theorem testText_ne_empty (test : String) : testText test ≠ "" := fun he => by
  simpa [toList_testText] using congrArg String.toList he

mutual

/-- A tree is written with the braces of its normal form. -/
theorem printTo_eq : ∀ (t : LoopTree) (asBody : Bool) {f : Formatter}, t.Follows singleLine →
    Plain options t.loops → Ready options f → t.printTo options asBody f =
      f.append (codeEach options.indent f.level (t.normalize.parts asBody))
  | block children, true, f, htexts, hplain, hf => by
    rw [printTo, if_pos rfl, normalize, printEach_eq children htexts hplain hf]
    rfl
  | block children, false, f, htexts, hplain, hf => by
    rw [printTo, if_neg (by decide), normalize,
      hf.braces fun g hg _ => printEach_eq children htexts hplain hg]
    exact congrArg f.append (codeEach_singleton _ _ _).symm
  | loop header parallel body, asBody, f, htexts, hplain, hf => by
    have hpragma : (parallel && !options.pragma.isEmpty) = false := by
      rcases hplain with hempty | hloops
      · simp [hempty]
      · have hparallel : parallel = false := hloops (header.iterator, parallel) List.mem_cons_self
        rw [hparallel, Bool.false_and]
    have hbody := hplain.mono (List.subset_cons_self _ _)
    rw [printTo, hpragma, if_neg (by decide), normalize,
      hf.block (headerText_ne_empty header) htexts.1
        fun g hg _ => printTo_eq body true htexts.2 hbody hg]
    simp [parts, codeEach, code]
  | ifThen test body, asBody, f, htexts, hplain, hf => by
    rw [printTo, normalize]
    show f.block (testText test) _ = _
    rw [hf.block (testText_ne_empty test) (newline_not_mem_testText htexts.1)
      fun g hg _ => printTo_eq body true htexts.2 hplain hg]
    simp [parts, codeEach, code]
  | ifElse test body otherwise, asBody, f, htexts, hplain, hf => by
    have hbody := hplain.mono (List.subset_append_left body.loops otherwise.loops)
    have hotherwise := hplain.mono (List.subset_append_right body.loops otherwise.loops)
    rw [printTo, normalize]
    show (f.block (testText test) _).block "else" _ = _
    rw [hf.block (testText_ne_empty test) (newline_not_mem_testText htexts.1)
        fun g hg _ => printTo_eq body true htexts.2.1 hbody hg,
      (hf.append _).block (by decide) (by decide)
        fun g hg _ => printTo_eq otherwise true htexts.2.2 hotherwise hg]
    simp [parts, codeEach, code]
  | call text, asBody, f, htexts, hplain, hf => by
    have htext : '\n' ∉ text.toList := htexts
    rw [printTo, normalize, hf.writeLine (by simp) (by simpa using htext)]
    simp [parts, codeEach, code]
  | mark label body, asBody, f, htexts, hplain, hf => by
    have hlabel : '\n' ∉ label.toList := htexts.1
    rw [printTo, normalize, hf.writeLine (by simp) (by simpa using hlabel),
      printTo_eq body false htexts.2 hplain (hf.append _)]
    simp [parts, codeEach, code]

theorem printEach_eq : ∀ (ts : List LoopTree) {f : Formatter}, FollowsEach singleLine ts →
    Plain options (loopsEach ts) → Ready options f →
      printEach options ts f = f.append (codeEach options.indent f.level (normalizeEach ts))
  | [], f, _, _, _ => by simp [printEach, normalizeEach, codeEach, Formatter.append]
  | t :: ts, f, htexts, hplain, hf => by
    obtain ⟨ht, hts⟩ := htexts
    rw [printEach, printTo_eq t false ht (hplain.mono (by simp [loopsEach])) hf,
      printEach_eq ts hts (hplain.mono (by simp [loopsEach])) (hf.append _)]
    simp [normalizeEach, codeEach, parts]

end

/-- The printed text is the code of the normal form. -/
theorem toList_print {t : LoopTree} (htexts : t.Follows singleLine)
    (hplain : Plain options t.loops) :
    (t.print options).toList = t.normalize.code options.indent 0 := by
  rw [print, printTo_eq t false htexts hplain ⟨rfl, rfl⟩]
  simp [Formatter.append, parts, codeEach, indentation]

theorem plain_normalize (t : LoopTree) : Plain options t.normalize.loops := by
  refine Or.inr ?_
  simp [loops_normalize]

/-- The normal form is printed like the tree itself. -/
theorem print_normalize {t : LoopTree} (htexts : t.Follows singleLine)
    (hplain : Plain options t.loops) : t.normalize.print options = t.print options := by
  apply String.toList_inj.mp
  rw [toList_print (follows_normalize.mpr htexts) (plain_normalize t), toList_print htexts hplain,
    normalize_normalize]

end

end LoopTree

end LoopSched
