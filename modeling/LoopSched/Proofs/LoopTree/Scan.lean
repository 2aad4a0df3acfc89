import LoopSched.Proofs.LoopTree.Code
import LoopSched.LoopTree.Parser

/-!
# Reading the texts of loop code

What is asked of headers, tests, calls and labels so that they are found again in printed code, and
that the scanning functions of the parser cut them out of it as they were.
-/

namespace LoopSched

/-! ### Blanks -/

namespace Text

theorem trimChars_cons {c : Char} (h : isBlank c = true) (cs : List Char) :
    trimChars (c :: cs) = trimChars cs := by
  rw [trimChars, List.dropWhile_cons_of_pos h, ← trimChars]

theorem length_trimChars_le (cs : List Char) : (trimChars cs).length ≤ cs.length := by
  have hleft := (List.dropWhile_sublist isBlank (l := cs)).length_le
  have hright := (List.dropWhile_sublist isBlank (l := (cs.dropWhile isBlank).reverse)).length_le
  rw [List.length_reverse] at hright
  rw [trimChars, List.length_reverse]
  omega

/-- A trimmed text starts with no blank. -/
theorem isBlank_eq_false_of_trim {s : String} (h : trim s = s) {c : Char} {cs : List Char}
    (hs : s.toList = c :: cs) : isBlank c = false := by
  by_contra hblank
  have htrim : trimChars (c :: cs) = c :: cs := by
    rw [← hs, ← String.toList_ofList (l := trimChars s.toList)]
    exact congrArg String.toList h
  rw [trimChars_cons (by simpa using hblank)] at htrim
  have hle := length_trimChars_le cs
  rw [htrim, List.length_cons] at hle
  omega

/-- The last word in front of a blank. -/
theorem lastWord?_append {a w : List Char} {c d : Char} (hc : isBlank c = true)
    (hd : isBlank d = true) (hne : w ≠ []) (hw : ∀ x ∈ w, isBlank x = false) :
    lastWord? (a ++ c :: (w ++ [d])) = some w := by
  have hreverse : (a ++ c :: (w ++ [d])).reverse = d :: (w.reverse ++ c :: a.reverse) := by simp
  have hdrop : (w.reverse ++ c :: a.reverse).dropWhile isBlank = w.reverse ++ c :: a.reverse := by
    obtain ⟨x, v, hv⟩ := List.exists_cons_of_ne_nil (List.reverse_ne_nil_iff.mpr hne)
    have hx : isBlank x = false := hw x (List.mem_reverse.mp (hv ▸ List.mem_cons_self))
    rw [hv, List.cons_append, List.dropWhile_cons_of_neg (by simp [hx])]
  have htake : (w.reverse ++ c :: a.reverse).takeWhile (fun x => !isBlank x) = w.reverse := by
    rw [List.takeWhile_append_of_pos fun x hx => by simp [hw x (List.mem_reverse.mp hx)],
      List.takeWhile_cons_of_neg (by simp [hc]), List.append_nil]
  rw [lastWord?, hreverse, List.dropWhile_cons_of_pos hd, hdrop, htake, List.reverse_reverse]
  cases w with
  | nil => exact absurd rfl hne
  | cons x w => rfl

theorem splitAt_of_not_mem {sep : Char} {cs : List Char} (h : sep ∉ cs) :
    splitAt sep cs = [cs] := by
  induction cs with
  | nil => rfl
  | cons c cs ih =>
    rw [List.mem_cons, not_or] at h
    rw [splitAt, if_neg (Ne.symm h.1), ih h.2]

theorem splitAt_append {sep : Char} {a : List Char} (h : sep ∉ a) (b : List Char) :
    splitAt sep (a ++ sep :: b) = a :: splitAt sep b := by
  induction a with
  | nil => simp [splitAt]
  | cons c a ih =>
    rw [List.mem_cons, not_or] at h
    rw [List.cons_append, splitAt, if_neg (Ne.symm h.1), ih h.2]

end Text

namespace LoopTree

open Text

/-! ### Parentheses -/

/-- Parentheses are balanced when `depth` are open before the text. -/
def balanced : ℕ → List Char → Bool
  | depth, [] => depth == 0
  | depth, c :: cs =>
    if c = '(' then balanced (depth + 1) cs
    else if c = ')' then depth != 0 && balanced (depth - 1) cs
    else balanced depth cs

/-- The characters outside all parentheses. -/
def outside : ℕ → List Char → List Char
  | _, [] => []
  | depth, c :: cs =>
    if c = '(' then outside (depth + 1) cs
    else if c = ')' then outside (depth - 1) cs
    else if depth = 0 then c :: outside depth cs
    else outside depth cs

theorem balanced_append {a b : List Char} {depth : ℕ} (ha : balanced depth a = true)
    (hb : balanced 0 b = true) : balanced depth (a ++ b) = true := by
  induction a generalizing depth with
  | nil =>
    have hdepth : depth = 0 := by simpa [balanced] using ha
    rwa [hdepth]
  | cons c a ih =>
    rw [balanced] at ha
    rw [List.cons_append, balanced]
    split_ifs at ha ⊢ with hopen hclose
    · exact ih ha
    · rw [Bool.and_eq_true] at ha ⊢
      exact ⟨ha.1, ih ha.2⟩
    · exact ih ha

theorem balanced_of_not_mem {cs : List Char} (ho : '(' ∉ cs) (hc : ')' ∉ cs) :
    balanced 0 cs = true := by
  induction cs with
  | nil => rfl
  | cons c cs ih =>
    rw [List.mem_cons, not_or] at ho hc
    rw [balanced, if_neg (Ne.symm ho.1), if_neg (Ne.symm hc.1), ih ho.2 hc.2]

namespace Parser

/-- The closing parenthesis is found behind a balanced text. -/
theorem enclosed_append {text : List Char} {depth : ℕ} (h : balanced depth text = true)
    (rest : List Char) : enclosed depth (text ++ ')' :: rest) = .ok (text, rest) := by
  induction text generalizing depth with
  | nil =>
    have hdepth : depth = 0 := by simpa [balanced] using h
    subst hdepth
    rfl
  | cons c text ih =>
    rw [balanced] at h
    rw [List.cons_append, enclosed.eq_def]
    dsimp only
    split_ifs at h ⊢ with hopen hclose
    · rw [ih h]
      rfl
    · cases depth with
      | zero => simp at h
      | succ depth =>
        rw [Bool.and_eq_true] at h
        exact congrArg (· >>= _) (ih h.2)
    · rw [ih h]
      rfl

/-- A character of a call that does not end it. -/
theorem callText_cons {depth : Int} {c : Char} {cs text rest : List Char}
    (hc : depth = 0 → c ≠ ';' ∧ c ≠ '\x7b' ∧ c ≠ '\x7d')
    (hcs : callText (if c = '(' then depth + 1 else if c = ')' then depth - 1 else depth) cs =
      .ok (text, rest)) : callText depth (c :: cs) = .ok (c :: text, rest) := by
  rw [callText, if_neg, if_neg]
  · exact congrArg (· >>= _) hcs
  · simp only [Bool.and_eq_true, Bool.or_eq_true, decide_eq_true_eq]
    rintro ⟨hdepth, hbrace⟩
    rcases hbrace with hbrace | hbrace
    · exact (hc hdepth).2.1 hbrace
    · exact (hc hdepth).2.2 hbrace
  · simp only [Bool.and_eq_true, decide_eq_true_eq]
    rintro ⟨hdepth, hend⟩
    exact (hc hdepth).1 hend

/-- The end of a call is found behind its text. -/
theorem callText_append {text : List Char} {depth : ℕ} (h : balanced depth text = true)
    (hout : ∀ c ∈ outside depth text, c ≠ ';' ∧ c ≠ '\x7b' ∧ c ≠ '\x7d') (rest : List Char) :
    callText depth (text ++ ';' :: rest) = .ok (text, rest) := by
  induction text generalizing depth with
  | nil =>
    have hdepth : depth = 0 := by simpa [balanced] using h
    subst hdepth
    rfl
  | cons c text ih =>
    rw [balanced] at h
    rw [outside] at hout
    by_cases hopen : c = '('
    · rw [if_pos hopen] at h hout
      refine callText_cons (fun _ => by subst hopen; decide) ?_
      rw [if_pos hopen]
      exact_mod_cast ih h hout
    rw [if_neg hopen] at h hout
    by_cases hclose : c = ')'
    · rw [if_pos hclose] at hout
      rw [if_pos hclose, Bool.and_eq_true, bne_iff_ne] at h
      refine callText_cons (fun _ => by subst hclose; decide) ?_
      have hpred : (depth : Int) - 1 = ((depth - 1 : ℕ) : Int) := by omega
      rw [if_neg hopen, if_pos hclose, hpred]
      exact ih h.2 hout
    rw [if_neg hclose] at h hout
    refine callText_cons (fun hdepth => ?_) ?_
    · have hdepth : depth = 0 := by exact_mod_cast hdepth
      rw [if_pos hdepth] at hout
      exact hout c List.mem_cons_self
    · rw [if_neg hopen, if_neg hclose]
      refine ih h fun d hd => hout d ?_
      split_ifs
      · exact List.mem_cons_of_mem c hd
      · exact hd

theorem cutAt?_append {sep : Char} {a : List Char} (h : sep ∉ a) (b : List Char) :
    cutAt? sep (a ++ sep :: b) = some (a, b) := by
  induction a with
  | nil => simp [cutAt?]
  | cons c a ih =>
    rw [List.mem_cons, not_or] at h
    rw [List.cons_append, cutAt?, if_neg (Ne.symm h.1), ih h.2]
    rfl

/-- No keyword comes up when a text goes on with a character that is not in it. -/
theorem keyword?_append {word text : List Char} {c : Char} (h : keyword? word text = none)
    (hc : c ∉ word) (rest : List Char) : keyword? word (text ++ c :: rest) = none := by
  induction word generalizing text with
  | nil =>
    cases text with
    | nil => simp [keyword?] at h
    | cons d text => simpa [keyword?] using h
  | cons w word ih =>
    rw [List.mem_cons, not_or] at hc
    cases text with
    | nil => rw [List.nil_append, keyword?, if_neg (Ne.symm hc.1)]
    | cons d text =>
      rw [keyword?] at h
      rw [List.cons_append, keyword?]
      split_ifs at h ⊢ with hwd
      · exact ih h hc.2
      · rfl

theorem textOf_toList {s : String} (h : trim s = s) : textOf s.toList = s := h

theorem textOf_cons {c : Char} (h : isBlank c = true) (cs : List Char) :
    textOf (c :: cs) = textOf cs := by
  rw [textOf, trimChars_cons h, ← textOf]

theorem isBlank_of_isSpace {c : Char} (h : isSpace c = true) : isBlank c = true := by
  simp only [isSpace, Bool.or_eq_true, decide_eq_true_eq] at h
  rcases h with (((rfl | rfl) | rfl) | rfl) | rfl <;> decide

theorem skipSpace_append {a : List Char} (h : ∀ c ∈ a, isSpace c = true) (b : List Char) :
    skipSpace (a ++ b) = skipSpace b :=
  List.dropWhile_append_of_pos h

theorem skipSpace_cons {c : Char} (h : isSpace c = false) (cs : List Char) :
    skipSpace (c :: cs) = c :: cs :=
  List.dropWhile_cons_of_neg (by simp [h])

end Parser

/-! ### Texts that are read back -/

/-- The text is on one line, without blanks at its ends. -/
def Tidy (s : String) : Prop := '\n' ∉ s.toList ∧ trim s = s

/-- A header whose iterator is a single word and whose other parts end where they should. -/
structure HeaderRule (h : Header) : Prop where
  ne_empty : h.iterator ≠ ""
  iterator : ∀ c ∈ h.iterator.toList, isBlank c = false ∧ c ∉ ['=', ';', '(', ')']
  parts : ∀ s ∈ [h.start, h.guard, h.step],
    Tidy s ∧ balanced 0 s.toList = true ∧ ';' ∉ s.toList

/-- A call that ends where it should and is not taken for another statement. -/
structure CallRule (s : String) : Prop where
  tidy : Tidy s
  balanced : balanced 0 s.toList = true
  plain : ∀ c ∈ outside 0 s.toList, c ∉ [';', '\x7b', '\x7d']
  comment : ¬ "//".toList <+: s.toList
  keyword : ∀ word ∈ ["for", "if", "else"], Parser.keyword? word.toList s.toList = none

/-- Texts that can be told apart in printed code. -/
def wellFormed : TextRules where
  header := HeaderRule
  test s := Tidy s ∧ balanced 0 s.toList = true
  call := CallRule
  label := Tidy

instance (s : String) : Decidable (Tidy s) := inferInstanceAs (Decidable (_ ∧ _))

-- The characters are checked one by one along the text: `Char` as a whole is finite, too.
instance : DecidablePred wellFormed.header := fun h =>
  have : Decidable (∀ c ∈ h.iterator.toList, isBlank c = false ∧ c ∉ ['=', ';', '(', ')']) :=
    List.decidableBAll _ _
  decidable_of_iff (_ ∧ _ ∧ _) ⟨fun ⟨a, b, c⟩ => ⟨a, b, c⟩, fun ⟨a, b, c⟩ => ⟨a, b, c⟩⟩

instance : DecidablePred wellFormed.test := fun _ => inferInstanceAs (Decidable (_ ∧ _))

instance : DecidablePred wellFormed.call := fun s =>
  have : Decidable (∀ c ∈ outside 0 s.toList, c ∉ [';', '\x7b', '\x7d']) := List.decidableBAll _ _
  decidable_of_iff (_ ∧ _ ∧ _ ∧ _ ∧ _)
    ⟨fun ⟨a, b, c, d, e⟩ => ⟨a, b, c, d, e⟩, fun ⟨a, b, c, d, e⟩ => ⟨a, b, c, d, e⟩⟩

instance : DecidablePred wellFormed.label := fun s => inferInstanceAs (Decidable (Tidy s))

/-- Whether a tree is well formed can be computed. -/
instance (t : LoopTree) : Decidable (t.Follows wellFormed) := decidableFollows t

namespace HeaderRule

variable {h : Header}

theorem not_mem_iterator (hh : HeaderRule h) {c : Char}
    (hc : isBlank c = true ∨ c ∈ ['=', ';', '(', ')']) : c ∉ h.iterator.toList := by
  intro hmem
  obtain ⟨hblank, hmark⟩ := hh.iterator c hmem
  rcases hc with hc | hc
  · exact absurd hc (by simp [hblank])
  · exact hmark hc

theorem start (hh : HeaderRule h) :
    Tidy h.start ∧ LoopTree.balanced 0 h.start.toList = true ∧ ';' ∉ h.start.toList :=
  hh.parts _ (by simp)

theorem guard (hh : HeaderRule h) :
    Tidy h.guard ∧ LoopTree.balanced 0 h.guard.toList = true ∧ ';' ∉ h.guard.toList :=
  hh.parts _ (by simp)

theorem step (hh : HeaderRule h) :
    Tidy h.step ∧ LoopTree.balanced 0 h.step.toList = true ∧ ';' ∉ h.step.toList :=
  hh.parts _ (by simp)

theorem newline_not_mem (hh : HeaderRule h) : '\n' ∉ (headerText h).toList := by
  have hiterator : '\n' ∉ h.iterator.toList := hh.not_mem_iterator (.inl (by decide))
  simp [toList_headerText, headerInner, hiterator, hh.start.1.1, hh.guard.1.1, hh.step.1.1]

theorem balanced_inner (hh : HeaderRule h) : LoopTree.balanced 0 (headerInner h) = true := by
  have hiterator : LoopTree.balanced 0 h.iterator.toList = true :=
    balanced_of_not_mem (hh.not_mem_iterator (.inr (by decide)))
      (hh.not_mem_iterator (.inr (by decide)))
  have hsemicolon : LoopTree.balanced 0 "; ".toList = true := by decide
  refine balanced_append (by decide) (balanced_append hiterator (balanced_append (by decide) ?_))
  exact balanced_append hh.start.2.1 (balanced_append hsemicolon
    (balanced_append hh.guard.2.1 (balanced_append hsemicolon hh.step.2.1)))

/-- The parts of a header are found again. -/
theorem header_inner (hh : HeaderRule h) : Parser.header (headerInner h) = .ok h := by
  let name := "int".toList ++ ' ' :: (h.iterator.toList ++ [' '])
  have hinner : headerInner h = (name ++ '=' :: ' ' :: h.start.toList) ++
      ';' :: ((' ' :: h.guard.toList) ++ ';' :: ' ' :: h.step.toList) := by
    simp [headerInner, name]
  have hname : ∀ c ∈ ['=', ';'], c ∉ name := by
    intro c hc
    have hiterator : c ∉ h.iterator.toList :=
      hh.not_mem_iterator (.inr (by simp at hc ⊢; tauto))
    simp only [List.mem_cons, List.not_mem_nil, or_false] at hc
    rcases hc with rfl | rfl <;> simp [name, hiterator]
  have hword : lastWord? name = some h.iterator.toList :=
    lastWord?_append (by decide) (by decide) (by simpa using hh.ne_empty)
      fun c hc => (hh.iterator c hc).1
  rw [Parser.header, hinner, splitAt_append, splitAt_append, splitAt_of_not_mem]
  · simp only [Parser.cutAt?_append (hname '=' (by simp)), hword]
    simp only [Parser.textOf_cons (show isBlank ' ' = true by decide),
      Parser.textOf_toList hh.start.1.2, Parser.textOf_toList hh.guard.1.2,
      Parser.textOf_toList hh.step.1.2, String.ofList_toList]
  · simp [hh.step.2.2]
  · simp [hh.guard.2.2]
  · simp [hname ';' (by simp), hh.start.2.2]

end HeaderRule

namespace CallRule

variable {s : String}

/-- A call starts like no other statement. -/
theorem exists_cons (h : CallRule s) (rest : List Char) :
    ∃ c cs, s.toList ++ ';' :: rest = c :: cs ∧ Parser.isSpace c = false ∧
      c ≠ '\x7b' ∧ c ≠ '\x7d' ∧ (c = '/' → ∀ r, cs ≠ '/' :: r) := by
  cases hs : s.toList with
  | nil => exact ⟨';', rest, rfl, by decide, by decide, by decide, fun h => absurd h (by decide)⟩
  | cons c cs =>
    refine ⟨c, cs ++ ';' :: rest, rfl, ?_, ?_, ?_, ?_⟩
    · by_contra hspace
      have hblank := Parser.isBlank_of_isSpace (Bool.not_eq_false _ ▸ hspace)
      exact absurd hblank (by simp [isBlank_eq_false_of_trim h.tidy.2 hs])
    · rintro rfl
      exact h.plain '\x7b' (by simp [hs, outside]) (by simp)
    · rintro rfl
      exact h.plain '\x7d' (by simp [hs, outside]) (by simp)
    · rintro rfl r hr
      cases cs with
      | nil => exact absurd hr (by simp)
      | cons d cs =>
        obtain ⟨rfl, -⟩ := List.cons.inj hr
        exact h.comment ⟨cs, hs.symm⟩

theorem keyword?_eq_none (h : CallRule s) {w : String} (hw : w ∈ ["for", "if", "else"])
    (rest : List Char) : Parser.keyword? w.toList (s.toList ++ ';' :: rest) = none := by
  refine Parser.keyword?_append (h.keyword w hw) ?_ rest
  simp only [List.mem_cons, List.not_mem_nil, or_false] at hw
  rcases hw with rfl | rfl | rfl <;> decide

end CallRule

/-! ### The first characters of a statement -/

namespace Parser

theorem opening_loop (rest : List Char) :
    opening ("for (".toList ++ rest) = .loop (" (".toList ++ rest) := rfl

theorem opening_condition (rest : List Char) :
    opening ("if (".toList ++ rest) = .condition (" (".toList ++ rest) := rfl

theorem opening_comment (rest : List Char) : opening ("//".toList ++ rest) = .comment rest := rfl

theorem opening_brace (rest : List Char) : opening ('\x7b' :: rest) = .brace rest := rfl

theorem opening_call {s : String} (h : CallRule s) (rest : List Char) :
    opening (s.toList ++ ';' :: rest) = .other (s.toList ++ ';' :: rest) := by
  have hfor : keyword? ['f', 'o', 'r'] (s.toList ++ ';' :: rest) = none :=
    h.keyword?_eq_none (w := "for") (by simp) rest
  have hif : keyword? ['i', 'f'] (s.toList ++ ';' :: rest) = none :=
    h.keyword?_eq_none (w := "if") (by simp) rest
  obtain ⟨c, cs, hcs, hspace, hopen, -, hcomment⟩ := h.exists_cons rest
  rw [hcs] at hfor hif ⊢
  rw [opening, skipSpace_cons hspace]
  split
  · next heq => exact absurd heq (by simp)
  · next heq => exact absurd (List.cons.inj heq).1 hopen
  · next heq => exact absurd (List.cons.inj heq).2 (hcomment (List.cons.inj heq).1 _)
  · rw [hfor, hif]

end Parser

end LoopTree

end LoopSched
