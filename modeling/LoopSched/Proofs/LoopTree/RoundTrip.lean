import LoopSched.Proofs.LoopTree.Scan

/-!
# Printed code is read back

A tree whose texts are well formed is read back from its code with braces around every body.  For
each kind of tree the parser reads its code if it reads the code of its parts, whatever comes behind
it; only behind a condition without an alternative there must be no `else`.
-/

namespace LoopSched.LoopTree

open LoopSched.LoopTree.Parser

/-! ### Space in front of a statement -/

theorem skipSpace_skipSpace (cs : List Char) : skipSpace (skipSpace cs) = skipSpace cs := by
  induction cs with
  | nil => rfl
  | cons c cs ih =>
    cases hc : isSpace c with
    | true =>
      have hskip : skipSpace (c :: cs) = skipSpace cs := List.dropWhile_cons_of_pos hc
      rw [hskip, ih]
    | false => rw [skipSpace_cons hc, skipSpace_cons hc]

theorem opening_congr {a b : List Char} (h : skipSpace a = skipSpace b) :
    opening a = opening b := by
  rw [opening, opening, h]

theorem statement_congr {a b : List Char} (h : skipSpace a = skipSpace b) {fuel : ℕ}
    (hfuel : 0 < fuel) : statement fuel a = statement fuel b := by
  obtain ⟨fuel, rfl⟩ := Nat.exists_eq_add_of_lt hfuel
  rw [statement, statement, opening_congr h]

theorem statements_congr {a b : List Char} (h : skipSpace a = skipSpace b) {fuel : ℕ}
    (hfuel : 0 < fuel) (inBlock : Bool) :
    Parser.statements inBlock fuel a = Parser.statements inBlock fuel b := by
  obtain ⟨fuel, rfl⟩ := Nat.exists_eq_add_of_lt hfuel
  rw [Parser.statements.eq_def _ _ a, Parser.statements.eq_def _ _ b]
  dsimp only
  rw [h]

theorem isSpace_of_mem_indentation {unit : String} (h : ∀ c ∈ unit.toList, isSpace c = true)
    (level : ℕ) : ∀ c ∈ indentation unit level, isSpace c = true :=
  fun c hc => h c (mem_of_mem_indentation hc)

/-! ### What may come behind a statement -/

/-- There is no `else` at the start. -/
def NoElse (cs : List Char) : Prop := keyword? "else".toList (skipSpace cs) = none

/-- The text starts like a statement: neither with space, nor with the brace that ends a block, nor
with an `else`. -/
structure Starts (cs : List Char) : Prop where
  cons : ∃ c r, cs = c :: r ∧ isSpace c = false ∧ c ≠ '\x7d'
  noElse : keyword? "else".toList cs = none

theorem Starts.skipSpace_eq {cs : List Char} (h : Starts cs) : skipSpace cs = cs := by
  obtain ⟨c, r, rfl, hspace, -⟩ := h.cons
  exact skipSpace_cons hspace r

theorem starts_code {t : LoopTree} (h : t.Follows wellFormed) (unit : String) (level : ℕ)
    (rest : List Char) : Starts (t.code unit level ++ rest) := by
  cases t with
  | block children => exact ⟨⟨_, _, rfl, by decide, by decide⟩, rfl⟩
  | loop header parallel body =>
    rw [code, toList_headerText]
    exact ⟨⟨_, _, rfl, by decide, by decide⟩, rfl⟩
  | ifThen test body =>
    rw [code, toList_testText]
    exact ⟨⟨_, _, rfl, by decide, by decide⟩, rfl⟩
  | ifElse test body otherwise =>
    rw [code, toList_testText]
    exact ⟨⟨_, _, rfl, by decide, by decide⟩, rfl⟩
  | call text =>
    have h : CallRule text := h
    obtain ⟨c, cs, hcs, hspace, -, hclose, -⟩ := h.exists_cons ('\n' :: rest)
    have hcode : (call text).code unit level ++ rest = text.toList ++ ';' :: '\n' :: rest := by
      simp [code]
    rw [hcode]
    exact ⟨⟨c, cs, hcs, hspace, hclose⟩, h.keyword?_eq_none (by simp) _⟩
  | mark label body => exact ⟨⟨_, _, rfl, by decide, by decide⟩, rfl⟩

theorem NoElse.of_starts {cs : List Char} (h : Starts cs) {space : List Char}
    (hspace : ∀ c ∈ space, isSpace c = true) : NoElse (space ++ cs) := by
  rw [NoElse, skipSpace_append hspace, h.skipSpace_eq]
  exact h.noElse

/-- A statement in front of others. -/
theorem statements_of_starts {cs : List Char} (h : Starts cs) (inBlock : Bool) {fuel : ℕ}
    {t : LoopTree} {ts : List LoopTree} {r rest : List Char}
    (ht : statement fuel cs = .ok (t, r))
    (hts : Parser.statements inBlock fuel r = .ok (ts, rest)) :
    Parser.statements inBlock (fuel + 1) cs = .ok (t :: ts, rest) := by
  obtain ⟨c, cs, rfl, hspace, hclose⟩ := h.cons
  rw [Parser.statements.eq_def]
  dsimp only
  rw [skipSpace_cons hspace]
  split
  · next heq => exact absurd heq (by simp)
  · next heq => exact absurd heq (by simp)
  · next heq => exact absurd (List.cons.inj heq).1 hclose
  · rw [ht]
    show (Parser.statements _ fuel r >>= _) = _
    rw [hts]
    rfl

/-! ### Reading the code of a tree -/

section

variable {unit : String}

/-- The code of the tree is read as the tree.  The condition on the rest is not needed for a block,
which ends with its brace. -/
def Reads (unit : String) (t : LoopTree) : Prop :=
  ∀ (level fuel : ℕ) (rest : List Char), (t.code unit level).length ≤ fuel →
    (∃ ts, t = .block ts) ∨ NoElse rest →
      ∃ r, statement fuel (t.code unit level ++ rest) = .ok (t, r) ∧ skipSpace r = skipSpace rest

/-- The code of the trees is read as the trees, up to the brace behind them. -/
def ReadsEach (unit : String) (ts : List LoopTree) : Prop :=
  ∀ (level fuel : ℕ) (space rest : List Char), (∀ c ∈ space, isSpace c = true) →
    (codeEach unit level ts).length < fuel →
      Parser.statements true fuel (codeEach unit level ts ++ (space ++ '\x7d' :: rest)) =
        .ok (ts, rest)

theorem readsEach_nil (unit : String) : ReadsEach unit [] := by
  intro level fuel space rest hspace hfuel
  obtain ⟨fuel, rfl⟩ := Nat.exists_eq_add_of_lt hfuel
  rw [codeEach, List.nil_append, Parser.statements.eq_def]
  dsimp only
  rw [skipSpace_append hspace]
  rfl

theorem length_code_pos (unit : String) (t : LoopTree) (level : ℕ) :
    0 < (t.code unit level).length := by
  cases t <;> simp only [code, List.length_append, List.length_cons] <;> omega

theorem noElse_codeEach (hunit : ∀ c ∈ unit.toList, isSpace c = true) {ts : List LoopTree}
    (hts : FollowsEach wellFormed ts) (level : ℕ) {space : List Char}
    (hspace : ∀ c ∈ space, isSpace c = true) (rest : List Char) :
    NoElse (codeEach unit level ts ++ (space ++ '\x7d' :: rest)) := by
  cases ts with
  | nil =>
    rw [codeEach, List.nil_append, NoElse, skipSpace_append hspace]
    rfl
  | cons t ts =>
    rw [codeEach, List.append_assoc, List.append_assoc]
    exact .of_starts (starts_code hts.1 unit level _) (isSpace_of_mem_indentation hunit level)

theorem ReadsEach.cons (hunit : ∀ c ∈ unit.toList, isSpace c = true) {t : LoopTree}
    {ts : List LoopTree} (ht : t.Follows wellFormed) (hts : FollowsEach wellFormed ts)
    (hread : Reads unit t) (hreads : ReadsEach unit ts) : ReadsEach unit (t :: ts) := by
  intro level fuel space rest hspace hfuel
  obtain ⟨fuel, rfl⟩ : ∃ n, fuel = n + 1 := ⟨fuel - 1, by omega⟩
  rw [codeEach, List.length_append, List.length_append] at hfuel
  have hpos := length_code_pos unit t level
  let tail := codeEach unit level ts ++ (space ++ '\x7d' :: rest)
  have hcode : codeEach unit level (t :: ts) ++ (space ++ '\x7d' :: rest) =
      indentation unit level ++ (t.code unit level ++ tail) := by
    simp [codeEach, tail]
  have hskip := skipSpace_append (isSpace_of_mem_indentation hunit level)
    (t.code unit level ++ tail)
  -- the statement may leave some of the space behind it, which the next one skips
  obtain ⟨r, hr, hrest⟩ := hread level fuel tail (by omega)
    (.inr (noElse_codeEach hunit hts level hspace rest))
  rw [hcode, statements_congr hskip (by omega)]
  refine statements_of_starts (starts_code ht unit level tail) true hr ?_
  rw [statements_congr hrest (by omega)]
  exact hreads level fuel space rest hspace (by omega)

theorem Reads.block (hunit : ∀ c ∈ unit.toList, isSpace c = true) {ts : List LoopTree}
    (h : ReadsEach unit ts) : Reads unit (.block ts) := by
  intro level fuel rest hfuel _
  rw [code, List.length_cons, List.length_cons, List.length_append] at hfuel
  obtain ⟨fuel, rfl⟩ : ∃ n, fuel = n + 1 := ⟨fuel - 1, by omega⟩
  let inner := codeEach unit (level + 1) ts ++ (indentation unit level ++ '\x7d' :: '\n' :: rest)
  have hcode : (LoopTree.block ts).code unit level ++ rest = '\x7b' :: '\n' :: inner := by
    simp [code, inner]
  have hskip : skipSpace ('\n' :: inner) = skipSpace inner := rfl
  refine ⟨'\n' :: rest, ?_, rfl⟩
  rw [hcode, statement, opening_brace]
  show (Parser.statements true fuel ('\n' :: inner) >>= _) = _
  rw [statements_congr hskip (by omega),
    h (level + 1) fuel _ _ (isSpace_of_mem_indentation hunit level) (by omega)]
  rfl

/-- Braces do not change that a tree is read. -/
theorem Reads.braced (hunit : ∀ c ∈ unit.toList, isSpace c = true) {t : LoopTree}
    (ht : t.Follows wellFormed) (h : Reads unit t) : Reads unit t.braced := by
  cases t with
  | block children => exact h
  | _ => exact .block hunit (.cons hunit ht trivial h (readsEach_nil unit))

theorem parenthesized_append {text : List Char} (h : balanced 0 text = true) (rest : List Char) :
    parenthesized (" (".toList ++ (text ++ ')' :: rest)) = .ok (text, rest) :=
  enclosed_append h rest

/-- A body behind its header. -/
theorem Reads.body {t : LoopTree} (h : Reads unit t.braced) (level : ℕ) {fuel : ℕ}
    (hfuel : (t.braced.code unit level).length ≤ fuel) (rest : List Char) :
    ∃ r, statement fuel (' ' :: (t.braced.code unit level ++ rest)) = .ok (t.braced, r) ∧
      skipSpace r = skipSpace rest := by
  have hpos := length_code_pos unit t.braced level
  have hskip : skipSpace (' ' :: (t.braced.code unit level ++ rest)) =
      skipSpace (t.braced.code unit level ++ rest) := rfl
  rw [statement_congr hskip (by omega)]
  exact h level fuel rest hfuel (.inl ⟨_, braced_eq t⟩)

theorem Reads.loop {h : Header} (hh : HeaderRule h) {body : LoopTree}
    (hbody : Reads unit body.braced) : Reads unit (.loop h false body.braced) := by
  intro level fuel rest hfuel _
  rw [code, List.length_append, List.length_cons] at hfuel
  obtain ⟨fuel, rfl⟩ : ∃ n, fuel = n + 1 := ⟨fuel - 1, by omega⟩
  obtain ⟨r, hr, hrest⟩ := hbody.body level (show _ ≤ fuel by omega) rest
  refine ⟨r, ?_, hrest⟩
  have hcode : (LoopTree.loop h false body.braced).code unit level ++ rest = "for (".toList ++
      (headerInner h ++ ')' :: ' ' :: (body.braced.code unit level ++ rest)) := by
    simp [code, toList_headerText]
  rw [hcode, statement, opening_loop]
  dsimp only
  rw [parenthesized_append hh.balanced_inner]
  dsimp only [bind, Except.bind]
  rw [hh.header_inner]
  dsimp only
  rw [hr]
  rfl

/-- The text and the body of a condition. -/
theorem statement_condition {test : String} (htest : balanced 0 test.toList = true)
    {body : LoopTree} {fuel : ℕ} {cs r : List Char} (hbody : statement fuel cs = .ok (body, r)) :
    statement (fuel + 1) ((testText test).toList ++ cs) =
      match keyword? ['e', 'l', 's', 'e'] (skipSpace r) with
      | none => .ok (.ifThen (textOf test.toList) body, skipSpace r)
      | some rest => (statement fuel rest).map fun (otherwise, rest) =>
        (.ifElse (textOf test.toList) body otherwise, rest) := by
  have hcode : (testText test).toList ++ cs = "if (".toList ++ (test.toList ++ ')' :: cs) := by
    simp [toList_testText]
  rw [hcode, statement, opening_condition]
  dsimp only
  rw [parenthesized_append htest]
  dsimp only [bind, Except.bind]
  rw [hbody]
  dsimp only
  cases keyword? ['e', 'l', 's', 'e'] (skipSpace r) with
  | none => rfl
  | some rest => rfl

theorem Reads.ifThen {test : String} (htidy : Tidy test) (htest : balanced 0 test.toList = true)
    {body : LoopTree} (hbody : Reads unit body.braced) : Reads unit (.ifThen test body.braced) := by
  intro level fuel rest hfuel hrest
  replace hrest : NoElse rest := hrest.resolve_left fun ⟨_, h⟩ => nomatch h
  rw [code, List.length_append, List.length_cons] at hfuel
  obtain ⟨fuel, rfl⟩ : ∃ n, fuel = n + 1 := ⟨fuel - 1, by omega⟩
  obtain ⟨r, hr, hskip⟩ := hbody.body level (show _ ≤ fuel by omega) rest
  have helse : keyword? ['e', 'l', 's', 'e'] (skipSpace r) = none := hskip ▸ hrest
  refine ⟨skipSpace r, ?_, by rw [skipSpace_skipSpace, hskip]⟩
  rw [code, List.append_assoc, List.cons_append, statement_condition htest hr, helse,
    textOf_toList htidy.2]

theorem Reads.ifElse (hunit : ∀ c ∈ unit.toList, isSpace c = true) {test : String}
    (htidy : Tidy test) (htest : balanced 0 test.toList = true) {body otherwise : LoopTree}
    (hbody : Reads unit body.braced) (hotherwise : Reads unit otherwise.braced) :
    Reads unit (.ifElse test body.braced otherwise.braced) := by
  intro level fuel rest hfuel _
  simp only [code, List.length_append, List.length_cons] at hfuel
  obtain ⟨fuel, rfl⟩ : ∃ n, fuel = n + 1 := ⟨fuel - 1, by omega⟩
  -- the body ends with its brace, so the `else` behind it is this one's
  obtain ⟨r', hr', hrest⟩ := hotherwise.body level (show _ ≤ fuel by omega) rest
  obtain ⟨r, hr, hskip⟩ := hbody.body level (show _ ≤ fuel by omega) (indentation unit level ++
    ("else".toList ++ ' ' :: (otherwise.braced.code unit level ++ rest)))
  have helse : keyword? ['e', 'l', 's', 'e'] (skipSpace r) =
      some (' ' :: (otherwise.braced.code unit level ++ rest)) := by
    rw [hskip, skipSpace_append (isSpace_of_mem_indentation hunit level)]
    rfl
  have hcode : (LoopTree.ifElse test body.braced otherwise.braced).code unit level ++ rest =
      (testText test).toList ++ ' ' :: (body.braced.code unit level ++ (indentation unit level ++
        ("else".toList ++ ' ' :: (otherwise.braced.code unit level ++ rest)))) := by
    simp [code]
  refine ⟨r', ?_, hrest⟩
  rw [hcode, statement_condition htest hr, helse]
  dsimp only
  rw [hr', textOf_toList htidy.2]
  rfl

theorem Reads.call {text : String} (h : CallRule text) : Reads unit (.call text) := by
  intro level fuel rest hfuel _
  have hcode : (LoopTree.call text).code unit level ++ rest =
      text.toList ++ ';' :: '\n' :: rest := by
    simp [code]
  obtain ⟨fuel, rfl⟩ : ∃ n, fuel = n + 1 :=
    ⟨fuel - 1, by have := length_code_pos unit (.call text) level; omega⟩
  have hplain : ∀ c ∈ outside 0 text.toList, c ≠ ';' ∧ c ≠ '\x7b' ∧ c ≠ '\x7d' := by
    simpa using h.plain
  have htext : callText 0 (text.toList ++ ';' :: '\n' :: rest) = .ok (text.toList, '\n' :: rest) :=
    callText_append h.balanced hplain _
  refine ⟨'\n' :: rest, ?_, rfl⟩
  rw [hcode, statement, opening_call h]
  dsimp only
  rw [htext]
  show Except.ok (LoopTree.call (textOf text.toList), '\n' :: rest) = _
  rw [textOf_toList h.tidy.2]

/-- The first line and what is behind it. -/
theorem line_append {l : List Char} (h : '\n' ∉ l) (rest : List Char) :
    (l ++ '\n' :: rest).takeWhile (· ≠ '\n') = l ∧
      (l ++ '\n' :: rest).dropWhile (· ≠ '\n') = '\n' :: rest := by
  have hline : ∀ c ∈ l, decide (c ≠ '\n') = true := by
    intro c hc
    simpa using fun heq : c = '\n' => h (heq ▸ hc)
  rw [List.takeWhile_append_of_pos hline, List.dropWhile_append_of_pos hline]
  simp

theorem Reads.mark (hunit : ∀ c ∈ unit.toList, isSpace c = true) {label : String}
    (hlabel : Tidy label) {body : LoopTree} (hbody : Reads unit body) :
    Reads unit (.mark label body) := by
  intro level fuel rest hfuel hrest
  replace hrest : NoElse rest := hrest.resolve_left fun ⟨_, h⟩ => nomatch h
  simp only [code, List.length_append, List.length_cons] at hfuel
  obtain ⟨fuel, rfl⟩ : ∃ n, fuel = n + 1 := ⟨fuel - 1, by omega⟩
  have hpos := length_code_pos unit body level
  let below := indentation unit level ++ (body.code unit level ++ rest)
  have hcode : (LoopTree.mark label body).code unit level ++ rest =
      "//".toList ++ ((' ' :: label.toList) ++ '\n' :: below) := by
    simp [code, below]
  obtain ⟨htake, hdrop⟩ := line_append (l := ' ' :: label.toList) (by simp [hlabel.1]) below
  have hskip : skipSpace ('\n' :: below) = skipSpace (body.code unit level ++ rest) :=
    skipSpace_append (isSpace_of_mem_indentation hunit level) _
  obtain ⟨r, hr, hrest⟩ := hbody level fuel rest (by omega) (.inr hrest)
  refine ⟨r, ?_, hrest⟩
  rw [hcode, statement, opening_comment]
  dsimp only
  rw [hdrop, htake, statement_congr hskip (by omega), hr]
  show Except.ok (LoopTree.mark (textOf (' ' :: label.toList)) body, r) = _
  rw [textOf_cons (by decide), textOf_toList hlabel.2]

mutual

/-- The normal form of a tree with well-formed texts is read back from its code. -/
theorem reads_normalize (hunit : ∀ c ∈ unit.toList, isSpace c = true) :
    ∀ {t : LoopTree}, t.Follows wellFormed → Reads unit t.normalize
  | block _, h => .block hunit (readsEach_normalizeEach hunit h)
  | loop _ _ _, h =>
    .loop h.1 ((reads_normalize hunit h.2).braced hunit (follows_normalize.mpr h.2))
  | ifThen _ _, h =>
    .ifThen h.1.1 h.1.2 ((reads_normalize hunit h.2).braced hunit (follows_normalize.mpr h.2))
  | ifElse _ _ _, h =>
    .ifElse hunit h.1.1 h.1.2
      ((reads_normalize hunit h.2.1).braced hunit (follows_normalize.mpr h.2.1))
      ((reads_normalize hunit h.2.2).braced hunit (follows_normalize.mpr h.2.2))
  | call _, h => .call h
  | mark _ _, h => .mark hunit h.1 (reads_normalize hunit h.2)

theorem readsEach_normalizeEach (hunit : ∀ c ∈ unit.toList, isSpace c = true) :
    ∀ {ts : List LoopTree}, FollowsEach wellFormed ts → ReadsEach unit (normalizeEach ts)
  | [], _ => readsEach_nil unit
  | _ :: _, h => .cons hunit (follows_normalize.mpr h.1) (followsEach_normalizeEach.mpr h.2)
      (reads_normalize hunit h.1) (readsEach_normalizeEach hunit h.2)

end

end

theorem wellFormed_imply_singleLine : wellFormed.Imply singleLine where
  header _ h := h.newline_not_mem
  test _ h := h.1.1
  call _ h := h.tidy.1
  label _ h := h.1

theorem plain_of_parallelIterators {options : PrintOptions} {t : LoopTree}
    (h : options.pragma = "" ∨ t.parallelIterators = []) : Plain options t.loops := by
  refine h.imp_right fun h l hl => ?_
  simp only [parallelIterators, List.map_eq_nil_iff, List.filter_eq_nil_iff] at h
  simpa using h l hl

/-- Printing a tree and reading the text gives the tree with braces around all bodies, which is
printed the same way. -/
theorem parse_print (t : LoopTree) (options : PrintOptions) (htexts : t.Follows wellFormed)
    (hindent : ∀ c ∈ options.indent.toList, isSpace c = true)
    (hpragma : options.pragma = "" ∨ t.parallelIterators = []) :
    parse (t.print options) = .ok t.normalize ∧ t.normalize.print options = t.print options := by
  have hlines := htexts.mono wellFormed_imply_singleLine
  have hplain := plain_of_parallelIterators hpragma
  refine ⟨?_, print_normalize hlines hplain⟩
  -- the code is longer than any nesting in it, so the fuel for its length is enough
  let cs := t.normalize.code options.indent 0
  have hstarts : Starts cs := by
    simpa using starts_code (follows_normalize.mpr htexts) options.indent 0 []
  obtain ⟨r, hr, hrest⟩ := reads_normalize hindent htexts 0 (2 * cs.length + 1) []
    (show cs.length ≤ 2 * cs.length + 1 by omega) (.inr rfl)
  have hend : Parser.statements false (2 * cs.length + 1) r = .ok ([], []) := by
    rw [statements_congr hrest (by omega)]
    rfl
  have hall : Parser.statements false (fuelFor cs) cs = .ok ([t.normalize], []) :=
    statements_of_starts hstarts false (by simpa using hr) hend
  rw [parse, toList_print hlines hplain, hall]

/-- A parallel loop with a comment and an alternative, whose bodies are partly without braces. -/
theorem parse_print_alternative :
    let first : LoopTree := .call "S0(c0; \x7bc0\x7d)"
    let second : LoopTree := .call "format(c0, (1))"
    let h : Header := ⟨"c0", "max(0, a)", "c0 <= N", "c0 += 1"⟩
    let t : LoopTree := .block [.mark "even and odd" (.loop h true
      (.ifElse "c0 % 2 == 0" first (.block [.ifThen "f(c0)" second, .call ""])))]
    let u : LoopTree := .block [.mark "even and odd" (.loop h false (.block
      [.ifElse "c0 % 2 == 0" (.block [first])
        (.block [.ifThen "f(c0)" (.block [second]), .call ""])]))]
    t.Follows wellFormed ∧ parse (t.print ⟨"\t", ""⟩) = .ok u ∧
      u.print ⟨"\t", ""⟩ = t.print ⟨"\t", ""⟩ := by
  intro first second h t u
  have htexts : t.Follows wellFormed := by decide +kernel
  have hindent : ∀ c ∈ "\t".toList, isSpace c = true := List.forall_mem_singleton.mpr rfl
  exact ⟨htexts, parse_print t ⟨"\t", ""⟩ htexts hindent (.inl rfl)⟩

end LoopSched.LoopTree
