import LoopSched.Proofs.LoopTree.Lines
import LoopSched.Proofs.LoopTree.Progress
import LoopSched.Proofs.LoopTree.Renaming
import LoopSched.Proofs.LoopTree.RoundTrip
import LoopSched.Proofs.Schedule.Annotations
import LoopSched.Schedule.Code

/-!
# Pragmas of parallel loops

Code is made in three passes over the tree that was read: loops over parallel coordinates are
marked, iterators get other names, and the tree is printed.  Loops and calls stay in their order all
the way, so the loops with a pragma in the code are those that scanned a parallel coordinate when
they were read, under whatever name they are printed.  A coordinate that is too large for a word is
found when the loops are marked, and there is no code then.
-/

namespace LoopSched

namespace LoopTree

/-! ### Loops and calls of a tree -/

inductive Item where
  | loop (header : Header)
  | call (text : String)

mutual

/-- Loops and calls in the order of the text, each with the iterators of the loops around it,
innermost first. -/
def items (scope : List String) : LoopTree → List (List String × Item)
  | block children => itemsEach scope children
  | loop header _ body => (scope, .loop header) :: body.items (header.iterator :: scope)
  | ifThen _ body => body.items scope
  | ifElse _ body otherwise => body.items scope ++ otherwise.items scope
  | call text => [(scope, .call text)]
  | mark _ body => body.items scope

def itemsEach (scope : List String) : List LoopTree → List (List String × Item)
  | [] => []
  | t :: ts => t.items scope ++ itemsEach scope ts

end

def Item.iterator? : Item → Option String
  | loop header => some header.iterator
  | call _ => none

def Item.call? : Item → Option String
  | loop _ => none
  | call text => some text

mutual

theorem iterators_items : ∀ (t : LoopTree) (scope : List String),
    (t.items scope).filterMap (fun p => p.2.iterator?) = t.loops.map Prod.fst
  | block children, scope => iterators_itemsEach children scope
  | loop header parallel body, scope =>
    congrArg (header.iterator :: ·) (iterators_items body (header.iterator :: scope))
  | ifThen test body, scope => iterators_items body scope
  | ifElse test body otherwise, scope => by
    simp only [items, loops, List.filterMap_append, List.map_append]
    rw [iterators_items body scope, iterators_items otherwise scope]
  | call text, scope => rfl
  | mark label body, scope => iterators_items body scope

theorem iterators_itemsEach : ∀ (ts : List LoopTree) (scope : List String),
    (itemsEach scope ts).filterMap (fun p => p.2.iterator?) = (loopsEach ts).map Prod.fst
  | [], scope => rfl
  | t :: ts, scope => by
    simp only [itemsEach, loopsEach, List.filterMap_append, List.map_append]
    rw [iterators_items t scope, iterators_itemsEach ts scope]

end

mutual

theorem calls_items : ∀ (t : LoopTree) (scope : List String),
    (t.items scope).filterMap (fun p => p.2.call?) = t.calls
  | block children, scope => calls_itemsEach children scope
  | loop header parallel body, scope => calls_items body (header.iterator :: scope)
  | ifThen test body, scope => calls_items body scope
  | ifElse test body otherwise, scope => by
    simp only [items, calls, List.filterMap_append]
    rw [calls_items body scope, calls_items otherwise scope]
  | call text, scope => rfl
  | mark label body, scope => calls_items body scope

theorem calls_itemsEach : ∀ (ts : List LoopTree) (scope : List String),
    (itemsEach scope ts).filterMap (fun p => p.2.call?) = callsEach ts
  | [], scope => rfl
  | t :: ts, scope => by
    simp only [itemsEach, callsEach, List.filterMap_append]
    rw [calls_items t scope, calls_itemsEach ts scope]

end

/-- The loop or the call on a line. -/
def Line.item? (l : Line) : Option Item :=
  match l.content with
  | .loop header => some (.loop header)
  | .call text => some (.call text)
  | _ => none

theorem filterMap_item?_enclosing (level : ℕ) (content : Content) (inner : List Line) :
    (enclosing level content inner).filterMap Line.item? =
      (Line.item? ⟨level, content⟩).toList ++ inner.filterMap Line.item? := by
  have hclosing : Line.item? ⟨level, .closing⟩ = none := rfl
  rw [enclosing, List.filterMap_cons, List.filterMap_append, List.filterMap_cons_none hclosing]
  cases Line.item? ⟨level, content⟩ <;> simp

mutual

/-- The lines have the loops and calls of the tree in order. -/
theorem items_lines (options : PrintOptions) : ∀ (t : LoopTree) (level : ℕ) (asBody : Bool)
    (scope : List String),
    (t.lines options level asBody).filterMap Line.item? = (t.items scope).map Prod.snd
  | block children, level, true, scope => items_linesEach options children level scope
  | block children, level, false, scope =>
    (filterMap_item?_enclosing _ _ _).trans (items_linesEach options children (level + 1) scope)
  | loop header parallel body, level, asBody, scope => by
    have hpragma : (if parallel && !options.pragma.isEmpty then [Line.mk level .pragma]
        else []).filterMap Line.item? = [] := by
      split <;> rfl
    rw [lines, List.filterMap_append, hpragma, filterMap_item?_enclosing,
      items_lines options body (level + 1) true (header.iterator :: scope)]
    rfl
  | ifThen test body, level, asBody, scope =>
    (filterMap_item?_enclosing _ _ _).trans (items_lines options body (level + 1) true scope)
  | ifElse test body otherwise, level, asBody, scope => by
    rw [lines, List.filterMap_append, filterMap_item?_enclosing, filterMap_item?_enclosing,
      items_lines options body (level + 1) true scope,
      items_lines options otherwise (level + 1) true scope, items, List.map_append]
    rfl
  | call text, level, asBody, scope => rfl
  | mark label body, level, asBody, scope => items_lines options body level false scope

theorem items_linesEach (options : PrintOptions) : ∀ (ts : List LoopTree) (level : ℕ)
    (scope : List String),
    (linesEach options level ts).filterMap Line.item? = (itemsEach scope ts).map Prod.snd
  | [], level, scope => rfl
  | t :: ts, level, scope => by
    rw [linesEach, List.filterMap_append, items_lines options t level false scope,
      items_linesEach options ts level scope, itemsEach, List.map_append]

end

/-! ### Marking -/

theorem scans_iff (dimensions : List ℕ) (iterator : String) :
    scans dimensions iterator = true ↔ ∃ d ∈ dimensions, IsCoordinate iterator.toList d := by
  unfold scans
  simp only [← coordinate?_eq_some]
  cases coordinate? iterator.toList <;> simp

mutual

theorem items_markParallel (dimensions : List ℕ) : ∀ (t : LoopTree) (scope : List String),
    (t.markParallel dimensions).items scope = t.items scope
  | block children, scope => items_markParallelEach dimensions children scope
  | loop header _ body, scope => congrArg ((scope, Item.loop header) :: ·)
      (items_markParallel dimensions body (header.iterator :: scope))
  | ifThen _ body, scope => items_markParallel dimensions body scope
  | ifElse _ body otherwise, scope => congrArg₂ (· ++ ·)
      (items_markParallel dimensions body scope) (items_markParallel dimensions otherwise scope)
  | call _, _ => rfl
  | mark _ body, scope => items_markParallel dimensions body scope

theorem items_markParallelEach (dimensions : List ℕ) : ∀ (ts : List LoopTree) (scope : List String),
    itemsEach scope (markParallelEach dimensions ts) = itemsEach scope ts
  | [], _ => rfl
  | t :: ts, scope => congrArg₂ (· ++ ·) (items_markParallel dimensions t scope)
      (items_markParallelEach dimensions ts scope)

end

mutual

theorem loops_markParallel (dimensions : List ℕ) : ∀ t : LoopTree,
    (t.markParallel dimensions).loops = t.loops.map fun l => (l.1, l.2 || scans dimensions l.1)
  | block children => loops_markParallelEach dimensions children
  | loop header parallel body =>
    congrArg ((header.iterator, parallel || scans dimensions header.iterator) :: ·)
      (loops_markParallel dimensions body)
  | ifThen test body => loops_markParallel dimensions body
  | ifElse test body otherwise => by
    rw [markParallel, loops, loops, loops_markParallel dimensions body,
      loops_markParallel dimensions otherwise, List.map_append]
  | call text => rfl
  | mark label body => loops_markParallel dimensions body

theorem loops_markParallelEach (dimensions : List ℕ) : ∀ ts : List LoopTree,
    loopsEach (markParallelEach dimensions ts) =
      (loopsEach ts).map fun l => (l.1, l.2 || scans dimensions l.1)
  | [] => rfl
  | t :: ts => by
    rw [markParallelEach, loopsEach, loopsEach, loops_markParallel dimensions t,
      loops_markParallelEach dimensions ts, List.map_append]

end

mutual

theorem Follows.markParallel {rules : TextRules} (dimensions : List ℕ) : ∀ {t : LoopTree},
    t.Follows rules → (t.markParallel dimensions).Follows rules
  | block _, h => FollowsEach.markParallel dimensions h
  | loop _ _ _, h => ⟨h.1, Follows.markParallel dimensions h.2⟩
  | ifThen _ _, h => ⟨h.1, Follows.markParallel dimensions h.2⟩
  | ifElse _ _ _, h =>
    ⟨h.1, Follows.markParallel dimensions h.2.1, Follows.markParallel dimensions h.2.2⟩
  | call _, h => h
  | mark _ _, h => ⟨h.1, Follows.markParallel dimensions h.2⟩

theorem FollowsEach.markParallel {rules : TextRules} (dimensions : List ℕ) :
    ∀ {ts : List LoopTree}, FollowsEach rules ts →
      FollowsEach rules (markParallelEach dimensions ts)
  | [], _ => trivial
  | _ :: _, h => ⟨Follows.markParallel dimensions h.1, FollowsEach.markParallel dimensions h.2⟩

end

/-! ### Renaming -/

/-- A loop or a call with other names for the iterators in its scope. -/
def Item.renamed (stem : String) (scope : List String) : Item → Item
  | loop header =>
    let inner := header.iterator :: scope
    .loop ⟨renameText stem inner header.iterator, renameText stem scope header.start,
      renameText stem inner header.guard, renameText stem inner header.step⟩
  | call text => .call (renameText stem scope text)

/-- A loop or a call as it is printed; the letter of the engine is kept as it is. -/
def Item.printed (stem : String) (p : List String × Item) : Item :=
  if stem = "c" then p.2 else p.2.renamed stem p.1

mutual

theorem items_renameIn (stem : String) : ∀ (t : LoopTree) (scope s : List String),
    ((t.renameIn stem scope).items s).map Prod.snd =
      (t.items scope).map fun p => p.2.renamed stem p.1
  | block children, scope, s => items_renameInEach stem children scope s
  | loop header parallel body, scope, s => by
    simp only [renameIn, items, List.map_cons]
    rw [items_renameIn stem body]
    rfl
  | ifThen test body, scope, s => items_renameIn stem body scope s
  | ifElse test body otherwise, scope, s => by
    simp only [renameIn, items, List.map_append]
    rw [items_renameIn stem body, items_renameIn stem otherwise]
  | call text, scope, s => rfl
  | mark label body, scope, s => items_renameIn stem body scope s

theorem items_renameInEach (stem : String) : ∀ (ts : List LoopTree) (scope s : List String),
    (itemsEach s (renameInEach stem scope ts)).map Prod.snd =
      (itemsEach scope ts).map fun p => p.2.renamed stem p.1
  | [], scope, s => rfl
  | t :: ts, scope, s => by
    simp only [renameInEach, itemsEach, List.map_append]
    rw [items_renameIn stem t, items_renameInEach stem ts]

end

theorem items_renameIterators (stem : String) (t : LoopTree) :
    ((t.renameIterators stem).items []).map Prod.snd = (t.items []).map (Item.printed stem) := by
  have hletter : coordinateLetter.toString = "c" := rfl
  rw [renameIterators, hletter]
  split
  · next h => exact List.map_congr_left fun p _ => by rw [Item.printed, if_pos h]
  · next h =>
    rw [items_renameIn stem t [] []]
    exact List.map_congr_left fun p _ => by rw [Item.printed, if_neg h]

mutual

theorem marks_renameIn (stem : String) : ∀ (t : LoopTree) (scope : List String),
    (t.renameIn stem scope).loops.map Prod.snd = t.loops.map Prod.snd
  | block children, scope => marks_renameInEach stem children scope
  | loop header parallel body, scope =>
    congrArg (parallel :: ·) (marks_renameIn stem body (header.iterator :: scope))
  | ifThen _ body, scope => marks_renameIn stem body scope
  | ifElse _ body otherwise, scope => by
    rw [renameIn, loops, loops, List.map_append, List.map_append, marks_renameIn stem body,
      marks_renameIn stem otherwise]
  | call _, _ => rfl
  | mark _ body, scope => marks_renameIn stem body scope

theorem marks_renameInEach (stem : String) : ∀ (ts : List LoopTree) (scope : List String),
    (loopsEach (renameInEach stem scope ts)).map Prod.snd = (loopsEach ts).map Prod.snd
  | [], _ => rfl
  | t :: ts, scope => by
    rw [renameInEach, loopsEach, loopsEach, List.map_append, List.map_append,
      marks_renameIn stem t, marks_renameInEach stem ts]

end

theorem marks_renameIterators (stem : String) (t : LoopTree) :
    (t.renameIterators stem).loops.map Prod.snd = t.loops.map Prod.snd := by
  unfold renameIterators
  split
  · rfl
  · exact marks_renameIn stem t []

/-- The new texts keep the rules `q` where the old ones keep `p`. -/
structure RenamesTo (stem : String) (p q : TextRules) : Prop where
  header : ∀ (scope : List String) (h : Header), p.header h →
    q.header ⟨renameText stem (h.iterator :: scope) h.iterator, renameText stem scope h.start,
      renameText stem (h.iterator :: scope) h.guard, renameText stem (h.iterator :: scope) h.step⟩
  test : ∀ (scope : List String) (s : String), p.test s → q.test (renameText stem scope s)
  call : ∀ (scope : List String) (s : String), p.call s → q.call (renameText stem scope s)
  label : ∀ s : String, p.label s → q.label s

mutual

theorem Follows.renameIn {stem : String} {p q : TextRules} (hpq : RenamesTo stem p q) :
    ∀ {t : LoopTree} (scope : List String), t.Follows p → (t.renameIn stem scope).Follows q
  | block _, scope, h => FollowsEach.renameIn hpq scope h
  | loop _ _ _, scope, h => ⟨hpq.header scope _ h.1, Follows.renameIn hpq _ h.2⟩
  | ifThen _ _, scope, h => ⟨hpq.test scope _ h.1, Follows.renameIn hpq scope h.2⟩
  | ifElse _ _ _, scope, h =>
    ⟨hpq.test scope _ h.1, Follows.renameIn hpq scope h.2.1, Follows.renameIn hpq scope h.2.2⟩
  | call _, scope, h => hpq.call scope _ h
  | mark _ _, scope, h => ⟨hpq.label _ h.1, Follows.renameIn hpq scope h.2⟩

theorem FollowsEach.renameIn {stem : String} {p q : TextRules} (hpq : RenamesTo stem p q) :
    ∀ {ts : List LoopTree} (scope : List String), FollowsEach p ts →
      FollowsEach q (renameInEach stem scope ts)
  | [], _, _ => trivial
  | _ :: _, scope, h => ⟨Follows.renameIn hpq scope h.1, FollowsEach.renameIn hpq scope h.2⟩

end

theorem singleLine_imply_labelLine : singleLine.Imply labelLine :=
  ⟨fun _ _ => trivial, fun _ _ => trivial, fun _ _ => trivial, fun _ h => h⟩

theorem labelLine_renameIterators (stem : String) {t : LoopTree} (h : t.Follows singleLine) :
    (t.renameIterators stem).Follows labelLine := by
  unfold renameIterators
  split
  · exact h.mono singleLine_imply_labelLine
  · have hrenames : RenamesTo stem singleLine labelLine :=
      ⟨fun _ _ _ => trivial, fun _ _ _ => trivial, fun _ _ _ => trivial, fun _ h => h⟩
    exact h.renameIn hrenames []

theorem newline_not_mem_renameText {stem : String} (hstem : '\n' ∉ stem.toList)
    (scope : List String) {text : String} (htext : '\n' ∉ text.toList) :
    '\n' ∉ (renameText stem scope text).toList := by
  intro hmem
  rw [renameText_eq, String.toList_ofList, mapWords, List.mem_flatMap] at hmem
  obtain ⟨run, hrun, hmem⟩ := hmem
  have hold : '\n' ∉ run := fun h =>
    htext (flatten_runs text.toList ▸ List.mem_flatten_of_mem hrun h)
  split at hmem
  · rcases renameWord_cases stem scope run with ⟨d, -, hword⟩ | hword
    · rw [hword, List.mem_append] at hmem
      rcases hmem with hmem | hmem
      · exact hstem hmem
      · have hdigit := Nat.isDigit_of_mem_toDigits (b := 10) (by decide) le_rfl hmem
        exact absurd hdigit (by decide)
    · exact hold (hword ▸ hmem)
  · exact hold hmem

theorem singleLine_renamesTo {stem : String} (hstem : '\n' ∉ stem.toList) :
    RenamesTo stem singleLine singleLine where
  header scope h hheader := by
    simp only [singleLine, toList_headerText, headerInner, List.mem_append, not_or] at hheader ⊢
    simp only [newline_not_mem_renameText hstem, hheader, not_false_eq_true, and_self]
  test scope s h := newline_not_mem_renameText hstem scope h
  call scope s h := newline_not_mem_renameText hstem scope h
  label s h := h

theorem singleLine_renameIterators {stem : String} (hstem : '\n' ∉ stem.toList) {t : LoopTree}
    (h : t.Follows singleLine) : (t.renameIterators stem).Follows singleLine := by
  unfold renameIterators
  split
  · exact h
  · exact h.renameIn (singleLine_renamesTo hstem) []

/-! ### Trees that were read -/

namespace Parser

/-- The loops of what a call has read, with their marks. -/
def Call.loops : (call : Call) → call.Out → List (String × Bool)
  | statement, t => t.loops
  | statements _, ts => loopsEach ts

def Unmarked (call : Call) (r : Result (call.Out × List Char)) : Prop :=
  ∀ p, r = .ok p → ∀ l ∈ call.loops p.1, l.2 = false

namespace Unmarked

variable {call call' : Call} {r : Result (call.Out × List Char)}

theorem of_error (call : Call) (e : SyntaxFault × List Char) : Unmarked call (.error e) :=
  fun _ h => by cases h

theorem map (h : Unmarked call r) {f : call.Out × List Char → call'.Out × List Char}
    (hf : ∀ p, (∀ l ∈ call.loops p.1, l.2 = false) → ∀ l ∈ call'.loops (f p).1, l.2 = false) :
    Unmarked call' (r.map f) := by
  rintro q hq
  cases r with
  | error e => cases hq
  | ok p =>
    cases hq
    exact hf p (h p rfl)

end Unmarked

/-- No loop is marked when it is read. -/
theorem Runs.unmarked {call : Call} {n : ℕ} {cs : List Char} {r : Result (call.Out × List Char)}
    (h : Runs call n cs r) : Unmarked call r := by
  induction h with
  | nothing => exact .of_error .statement _
  | brace _ _ ih => exact ih.map fun p hp => hp
  | comment _ _ ih => exact ih.map fun p hp => hp
  | loopUnbalanced => exact .of_error .statement _
  | loopMalformed => exact .of_error .statement _
  | loop _ _ _ _ ih => exact ih.map fun p hp => List.forall_mem_cons.mpr ⟨rfl, hp⟩
  | testUnbalanced => exact .of_error .statement _
  | bodyFails => exact .of_error .statement _
  | @ifThen _ _ _ _ behind _ body _ _ _ _ ih =>
    rintro _ ⟨⟩
    exact ih (body, behind) rfl
  | ifElse _ _ _ _ _ ih ih' =>
    exact ih'.map fun p hp => List.forall_mem_append.mpr ⟨ih _ rfl, hp⟩
  | @call _ rest _ =>
    intro p hp
    cases hr : callText 0 rest with
    | error e =>
      rw [hr] at hp
      cases hp
    | ok q =>
      rw [hr] at hp
      cases hp
      exact List.forall_mem_nil _
  | textEnds =>
    rintro _ ⟨⟩
    exact List.forall_mem_nil _
  | blockUnterminated => exact .of_error (.statements true) _
  | blockEnds =>
    rintro _ ⟨⟩
    exact List.forall_mem_nil _
  | @statementFails _ inBlock => exact .of_error (.statements inBlock) _
  | cons _ _ _ ih ih' => exact ih'.map fun p hp => List.forall_mem_append.mpr ⟨ih _ rfl, hp⟩

end Parser

open LoopSched.LoopTree.Parser

theorem loops_whole (ts : List LoopTree) : (whole ts).loops = loopsEach ts := by
  unfold whole
  split
  · simp [loopsEach]
  · rfl

theorem unmarked_of_parse {text : String} {t : LoopTree} (h : parse text = .ok t) :
    ∀ l ∈ t.loops, l.2 = false := by
  obtain ⟨n, hn⟩ := exists_runs_text text
  cases hr : statements false (fuelFor text.toList) text.toList with
  | error e => cases (parse_of_error hr).symm.trans h
  | ok p =>
    cases (parse_of_ok hr).symm.trans h
    rw [loops_whole]
    exact hn.unmarked p hr

end LoopTree

/-! ### Code -/

open LoopTree

/-- Code of a tree that was read, as lines: which loops and calls it shows, in which order and under
which names, and which of the loops have a pragma. -/
structure ShowsPragmas (t : LoopTree) (stem : String) (dimensions : List ℕ)
    (options : PrintOptions) (code : String) (ls : List Line) : Prop where
  text : code.toList = written options ls
  items : ls.filterMap Line.item? = (t.items []).map (Item.printed stem)
  /-- The pragma is right in front of a loop, at the same level, just if the loop at its place in
  the tree scans one of the coordinates. -/
  pragmas : ∀ (before after : List Line) (level : ℕ) (header : Header),
    ls = before ++ ⟨level, .loop header⟩ :: after →
    ∃ iterator, (t.loops.map Prod.fst)[(before.filterMap Line.header?).length]? = some iterator ∧
      (EndsInLine (written options before)
          (indentation options.indent level ++ options.pragma.toList) ↔
        ∃ d ∈ dimensions, IsCoordinate iterator.toList d)
  /-- If the new names have no line feeds, then the lines are those of the text, and the headers of
  loops are found by how they look. -/
  lines : '\n' ∉ stem.toList →
    Text.splitAt '\n' code.toList = ls.map (Line.chars options) ++ [[]] ∧
    ∀ l ∈ ls, IsLoopLine (l.chars options) ↔ ∃ header, l.content = .loop header

theorem showsPragmas_print {t : LoopTree} (hunmarked : ∀ l ∈ t.loops, l.2 = false)
    (htexts : t.Follows singleLine) {options : PrintOptions} (hoptions : Legible options)
    (stem : String) (dimensions : List ℕ) :
    ∃ ls, ShowsPragmas t stem dimensions options
      (((t.markParallel dimensions).renameIterators stem).print options) ls := by
  have hmarked := htexts.markParallel dimensions
  have hflags : ((t.markParallel dimensions).renameIterators stem).loops.map Prod.snd =
      t.loops.map fun l => scans dimensions l.1 := by
    rw [marks_renameIterators, loops_markParallel, List.map_map]
    exact List.map_congr_left fun l hl => by simp [hunmarked l hl]
  have hmarks := marks_lines hoptions.pragma_ne_empty
    ((t.markParallel dimensions).renameIterators stem) 0 false
  rw [hflags] at hmarks
  refine ⟨((t.markParallel dimensions).renameIterators stem).lines options 0 false,
    toList_print_eq_lines _, ?_, ?_, ?_⟩
  · rw [items_lines options _ 0 false [], items_renameIterators, items_markParallel]
  · intro before after level header hsplit
    have hlabels : ∀ l ∈ before, l.content.Follows labelLine := by
      intro l hl
      refine (labelLine_renameIterators stem hmarked).lines options 0 false l ?_
      rw [hsplit]
      exact List.mem_append_left _ hl
    obtain ⟨flag, hflag, hfront⟩ := hmarks.of_split hsplit
    rw [List.getElem?_map, Option.map_eq_some_iff] at hflag
    obtain ⟨l, hl, rfl⟩ := hflag
    refine ⟨l.1, by rw [List.getElem?_map, hl]; rfl, ?_⟩
    rw [← scans_iff]
    exact hoptions.endsInLine_iff_of_inFront hfront hlabels
  · intro hstem
    rw [toList_print_eq_lines]
    exact ⟨hoptions.splitAt_written
      ((singleLine_renameIterators hstem hmarked).lines options 0 false),
      fun l _ => hoptions.isLoopLine_iff l⟩

theorem legible_default : Legible {} := by
  have hindent : ∀ c ∈ Formatter.defaultUnit.toList, c = ' ' ∨ c = '\t' := by
    simp [Formatter.defaultUnit]
  exact ⟨hindent, by decide, by decide, by decide, by decide⟩

namespace Schedule

/-- The loops and calls of the engine's output are printed in their order, and the loops with a
pragma in front of them are those over the parallel coordinates, whatever the iterators are called
in the code.  There is code exactly if all parallel coordinates are words. -/
theorem codeOf_pragmas {s : Schedule} {output : String} {options : PrintOptions} {t : LoopTree}
    (hparse : LoopTree.parse output = .ok t) (htexts : t.Follows singleLine)
    (hoptions : Legible options) :
    ((∀ p ∈ coordinatesOf s.layout s.parallel, p < Word.count) →
      ∃ dimensions code ls, s.parallelDimensions? = some dimensions ∧
        s.codeOf output options = .ok code ∧
        ShowsPragmas t s.iteratorPrefix dimensions options code ls ∧
        (t.items []).filterMap (fun p => p.2.iterator?) = t.loops.map Prod.fst ∧
        (t.items []).filterMap (fun p => p.2.call?) = t.calls) ∧
    ((∃ p ∈ coordinatesOf s.layout s.parallel, Word.count ≤ p) →
      s.parallelDimensions? = none ∧ s.codeOf output options = .error .aborted) := by
  constructor
  · intro hwords
    have hsome : s.parallelDimensions? ≠ none := by
      rw [Ne, parallelDimensions?_eq_none]
      rintro ⟨p, hp, hlarge⟩
      exact absurd (hwords p hp) (not_lt.mpr hlarge)
    obtain ⟨dimensions, hdimensions⟩ := Option.ne_none_iff_exists'.mp hsome
    have htree : s.treeOf output = .ok (t.markParallel dimensions) := by
      rw [treeOf, hparse, hdimensions]
      rfl
    obtain ⟨ls, hls⟩ := showsPragmas_print (unmarked_of_parse hparse) htexts hoptions
      s.iteratorPrefix dimensions
    exact ⟨dimensions, _, ls, hdimensions, by rw [codeOf, htree]; rfl, hls, iterators_items t [],
      calls_items t []⟩
  · intro hlarge
    have hnone := parallelDimensions?_eq_none.mpr hlarge
    have htree : s.treeOf output = .error .aborted := by
      rw [treeOf, hparse, hnone]
      rfl
    exact ⟨hnone, by rw [codeOf, htree]; rfl⟩

/-- Coordinate 1 is parallel, and the inner loop scans it under a name with a zero in front. -/
theorem codeOf_pragmas_inner :
    let s : Schedule := { Schedule.make ⟨[]⟩ "" "t" with parallel := [(Layout.nest, 0)] }
    let output := "for(int c2=0;c2<N;c2+=1)//b\nfor(int c01=c2;c01<N;c01+=1)S(c01);"
    let t : LoopTree := .loop ⟨"c2", "0", "c2<N", "c2+=1"⟩ false
      (.mark "b" (.loop ⟨"c01", "c2", "c01<N", "c01+=1"⟩ false (.call "S(c01)")))
    LoopTree.parse output = .ok t ∧ t.Follows singleLine ∧ Legible {} ∧
      s.parallelDimensions? = some [1] ∧ ∃ code ls, s.codeOf output {} = .ok code ∧
        ShowsPragmas t "t" [1] {} code ls := by
  intro s output t
  have hparse : LoopTree.parse output = .ok t := by
    simp only [output]
    rfl
  have htexts : t.Follows wellFormed := by decide +kernel
  have hlines := htexts.mono wellFormed_imply_singleLine
  have hdimensions : s.parallelDimensions? = some [1] := by rfl
  have hwords : ∀ p ∈ coordinatesOf s.layout s.parallel, p < Word.count := by
    intro p hp
    rw [← mem_parallelDimensions? hdimensions, List.mem_singleton] at hp
    rw [hp]
    decide
  obtain ⟨dimensions, code, ls, hsome, hcode, hls, -⟩ :=
    (codeOf_pragmas (s := s) hparse hlines legible_default).1 hwords
  cases hdimensions.symm.trans hsome
  exact ⟨hparse, hlines, legible_default, hdimensions, code, ls, hcode, hls⟩

/-- An annotation of the greatest word is accepted, and its coordinate is one more than that: the
loop that was read is not printed. -/
theorem exists_code_aborted :
    let s₀ := make ⟨[⟨⟨[("0", "9")], []⟩, []⟩]⟩ "" "c"
    let s := s₀.perform [.apply (.parallel 18446744073709551615)]
    let output := "for(int c1=0;c1<=9;c1+=1)S(c1);"
    let t : LoopTree := .loop ⟨"c1", "0", "c1<=9", "c1+=1"⟩ false (.call "S(c1)")
    LoopTree.parse output = .ok t ∧ t.Follows singleLine ∧ Legible {} ∧
      apply (.parallel 18446744073709551615) s₀ = .ok () s ∧
      s.codeOf output {} = .error .aborted := by
  intro s₀ s output t
  have hparse : LoopTree.parse output = .ok t := by
    simp only [output]
    rfl
  have htexts : t.Follows wellFormed := by decide +kernel
  have hnone : s.parallelDimensions? = none := by decide +kernel
  refine ⟨hparse, htexts.mono wellFormed_imply_singleLine, legible_default, rfl, ?_⟩
  rw [codeOf, treeOf, hparse, hnone]
  rfl

end Schedule

end LoopSched
