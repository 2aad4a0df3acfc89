import LoopSched.LoopTree.Parser
import Mathlib.Data.List.Infix
import Mathlib.Data.Nat.Notation

/-!
# Runs of the parser

The calls the parser makes, without a bound on their number: `Runs` relates a call to the characters
it starts at, to the number of calls that it takes with all calls in it, and to its result.  A run is
a finite tree, so a text on which the parser went on forever would have none.

What a run leaves is an end of its text.  Every statement takes at least one character, so there are
at most two calls for each character, and two more.
-/

namespace LoopSched.LoopTree.Parser

/-! ### Characters that are left -/

section

variable {α β : Type}

/-- The characters left behind a result, or at a fault. -/
def left : Result (α × List Char) → List Char
  | .ok (_, rest) => rest
  | .error (_, rest) => rest

/-- What is left is an end of the text, and shorter than the text if there is a result. -/
structure Advances (cs : List Char) (r : Result (α × List Char)) : Prop where
  suffix : left r <:+ cs
  lt : ∀ x rest, r = .ok (x, rest) → rest.length < cs.length

namespace Advances

variable {cs ds : List Char} {r : Result (α × List Char)}

theorem of_error {fault : SyntaxFault} {rest : List Char} (h : rest <:+ cs) :
    Advances cs (.error (fault, rest) : Result (α × List Char)) :=
  ⟨h, fun _ _ h => nomatch h⟩

theorem of_ok {x : α} {rest : List Char} (h : rest <:+ cs) (hlt : rest.length < cs.length) :
    Advances cs (.ok (x, rest)) :=
  ⟨h, fun _ _ heq => by cases heq; exact hlt⟩

theorem map (h : Advances cs r) (f : α × List Char → β) :
    Advances cs (r.map fun p => (f p, p.2)) := by
  cases r with
  | error e => exact of_error h.suffix
  | ok p => exact of_ok h.suffix (h.lt p.1 p.2 rfl)

theorem mono (h : Advances ds r) (hds : ds <:+ cs) : Advances cs r :=
  ⟨h.suffix.trans hds, fun x rest hr => (h.lt x rest hr).trans_le hds.length_le⟩

end Advances

/-- A result is handed on with other data. -/
theorem bind_ok_eq_map (r : Result (α × List Char)) (f : α × List Char → β) :
    (r >>= fun p => Except.ok (f p, p.2)) = r.map fun p => (f p, p.2) := by
  cases r <;> rfl

end

theorem skipSpace_suffix (cs : List Char) : skipSpace cs <:+ cs := List.dropWhile_suffix _

theorem eq_append_of_keyword? {word cs rest : List Char} (h : keyword? word cs = some rest) :
    cs = word ++ rest := by
  fun_induction keyword? word cs with
  | case1 => simpa using h
  | case2 => cases h
  | case3 c cs hc => simpa using h
  | case4 ws c cs ih => rw [ih h, List.cons_append]
  | case5 => cases h
  | case6 => cases h

/-- A character that is found is taken, and a fault is reported where it was looked for. -/
theorem expect_cases (c : Char) (cs : List Char) :
    (∃ rest, expect c cs = .ok rest ∧ c :: rest <:+ cs) ∨
      ∃ fault rest, expect c cs = .error (fault, rest) ∧ rest <:+ cs := by
  have hsuffix := skipSpace_suffix cs
  unfold expect
  cases hskip : skipSpace cs with
  | nil => exact .inr ⟨_, _, rfl, List.nil_suffix⟩
  | cons d rest =>
    rw [hskip] at hsuffix
    by_cases hd : d = c
    · subst hd
      exact .inl ⟨rest, if_pos rfl, hsuffix⟩
    · exact .inr ⟨_, _, if_neg hd, hsuffix⟩

theorem advances_enclosed (depth : ℕ) (cs : List Char) : Advances cs (enclosed depth cs) := by
  induction cs generalizing depth with
  | nil => exact .of_error List.nil_suffix
  | cons c cs ih =>
    have hgo : ∀ d, Advances (c :: cs) (enclosed d cs >>= fun p => Except.ok (c :: p.1, p.2)) := by
      intro d
      rw [bind_ok_eq_map]
      exact ((ih d).mono (List.suffix_cons c cs)).map fun p => c :: p.1
    rw [enclosed.eq_def]
    dsimp only
    split_ifs
    · exact hgo (depth + 1)
    · cases depth with
      | zero => exact .of_ok (List.suffix_cons c cs) (Nat.lt_succ_self _)
      | succ depth => exact hgo depth
    · exact hgo depth

theorem advances_parenthesized (cs : List Char) : Advances cs (parenthesized cs) := by
  unfold parenthesized
  rcases expect_cases '(' cs with ⟨rest, hrest, hsuffix⟩ | ⟨fault, rest, hrest, hsuffix⟩
  · rw [hrest]
    exact (advances_enclosed 0 rest).mono ((List.suffix_cons _ _).trans hsuffix)
  · rw [hrest]
    exact .of_error hsuffix

theorem advances_callText (depth : Int) (cs : List Char) : Advances cs (callText depth cs) := by
  induction cs generalizing depth with
  | nil => exact .of_error List.nil_suffix
  | cons c cs ih =>
    rw [callText]
    split_ifs
    · exact .of_ok (List.suffix_cons c cs) (Nat.lt_succ_self _)
    · exact .of_error (List.suffix_refl _)
    all_goals
      exact (bind_ok_eq_map _ fun p => c :: p.1) ▸
        ((ih _).mono (List.suffix_cons c cs)).map fun p => c :: p.1

/-! ### The start of a statement -/

/-- The characters that tell what a statement is; a call has none. -/
def Opening.word : Opening → List Char
  | .brace _ => ['\x7b']
  | .comment _ => ['/', '/']
  | .loop _ => ['f', 'o', 'r']
  | .condition _ => ['i', 'f']
  | _ => []

/-- The characters behind them. -/
def Opening.rest : Opening → List Char
  | .nothing => []
  | .brace rest => rest
  | .comment rest => rest
  | .loop rest => rest
  | .condition rest => rest
  | .other rest => rest

theorem opening_append (cs : List Char) :
    (opening cs).word ++ (opening cs).rest = skipSpace cs := by
  unfold opening
  split
  · next h => rw [h]; rfl
  · next h => rw [h]; rfl
  · next h => rw [h]; rfl
  · cases hfor : keyword? ['f', 'o', 'r'] (skipSpace cs) with
    | some rest => exact (eq_append_of_keyword? hfor).symm
    | none =>
      cases hif : keyword? ['i', 'f'] (skipSpace cs) with
      | some rest => exact (eq_append_of_keyword? hif).symm
      | none => rfl

theorem suffix_of_opening {cs : List Char} {o : Opening} (h : opening cs = o) : o.rest <:+ cs :=
  (List.suffix_append _ _).trans (h ▸ opening_append cs ▸ skipSpace_suffix cs)

theorem length_of_opening {cs : List Char} {o : Opening} (h : opening cs = o) :
    o.word.length + o.rest.length ≤ cs.length := by
  rw [← List.length_append, ← h, opening_append]
  exact (skipSpace_suffix cs).length_le

/-- The body of a loop or a condition is behind the text in parentheses. -/
theorem behind_parenthesized {cs inner rest : List Char} {o : Opening} (h : opening cs = o)
    (hinner : parenthesized o.rest = .ok (inner, rest)) :
    rest <:+ cs ∧ rest.length < cs.length := by
  have hadvances := hinner ▸ advances_parenthesized o.rest
  have hlt := hadvances.lt inner rest rfl
  have hlength := length_of_opening h
  exact ⟨hadvances.suffix.trans (suffix_of_opening h), by omega⟩

/-! ### Calls without fuel -/

theorem statement_zero (cs : List Char) : statement 0 cs = .error (.unexpectedEnd, cs) := by
  rw [statement]

theorem statements_zero (inBlock : Bool) (cs : List Char) :
    statements inBlock 0 cs = .error (.unexpectedEnd, cs) := by
  rw [statements.eq_def]

/-! ### Runs of the parser -/

/-- The two functions that call each other. -/
inductive Call where
  | statement
  | statements (inBlock : Bool)

/-- What a call reads. -/
abbrev Call.Out : Call → Type
  | statement => LoopTree
  | statements _ => List LoopTree

/-- Neither the text nor the block ends here. -/
def GoesOn (inBlock : Bool) (cs : List Char) : Prop :=
  skipSpace cs ≠ [] ∧ (inBlock = true → (skipSpace cs).head? ≠ some '\x7d')

/-- A call at some characters takes so many calls and has this result. -/
inductive Runs : (call : Call) → ℕ → List Char → Result (call.Out × List Char) → Prop
  | nothing {cs : List Char} : opening cs = .nothing →
      Runs .statement 1 cs (.error (.unexpectedEnd, []))
  | brace {cs rest : List Char} {n : ℕ} {r : Result (List LoopTree × List Char)} :
      opening cs = .brace rest → Runs (.statements true) n rest r →
      Runs .statement (n + 1) cs (r.map fun p => (.block p.1, p.2))
  | comment {cs rest : List Char} {n : ℕ} {r : Result (LoopTree × List Char)} :
      opening cs = .comment rest → Runs .statement n (rest.dropWhile (· ≠ '\n')) r →
      Runs .statement (n + 1) cs
        (r.map fun p => (.mark (textOf (rest.takeWhile (· ≠ '\n'))) p.1, p.2))
  | loopUnbalanced {cs rest : List Char} {e : SyntaxFault × List Char} :
      opening cs = .loop rest → parenthesized rest = .error e → Runs .statement 1 cs (.error e)
  | loopMalformed {cs rest inner rest' : List Char} {fault : SyntaxFault} :
      opening cs = .loop rest → parenthesized rest = .ok (inner, rest') →
      header inner = .error fault → Runs .statement 1 cs (.error (fault, rest'))
  | loop {cs rest inner rest' : List Char} {h : Header} {n : ℕ}
      {r : Result (LoopTree × List Char)} :
      opening cs = .loop rest → parenthesized rest = .ok (inner, rest') → header inner = .ok h →
      Runs .statement n rest' r →
      Runs .statement (n + 1) cs (r.map fun p => (.loop h false p.1, p.2))
  | testUnbalanced {cs rest : List Char} {e : SyntaxFault × List Char} :
      opening cs = .condition rest → parenthesized rest = .error e →
      Runs .statement 1 cs (.error e)
  | bodyFails {cs rest inner rest' : List Char} {n : ℕ} {e : SyntaxFault × List Char} :
      opening cs = .condition rest → parenthesized rest = .ok (inner, rest') →
      Runs .statement n rest' (.error e) → Runs .statement (n + 1) cs (.error e)
  | ifThen {cs rest inner rest' behind : List Char} {n : ℕ} {body : LoopTree} :
      opening cs = .condition rest → parenthesized rest = .ok (inner, rest') →
      Runs .statement n rest' (.ok (body, behind)) →
      keyword? ['e', 'l', 's', 'e'] (skipSpace behind) = none →
      Runs .statement (n + 1) cs (.ok (.ifThen (textOf inner) body, skipSpace behind))
  | ifElse {cs rest inner rest' behind after : List Char} {n m : ℕ} {body : LoopTree}
      {r : Result (LoopTree × List Char)} :
      opening cs = .condition rest → parenthesized rest = .ok (inner, rest') →
      Runs .statement n rest' (.ok (body, behind)) →
      keyword? ['e', 'l', 's', 'e'] (skipSpace behind) = some after → Runs .statement m after r →
      Runs .statement (n + m + 1) cs (r.map fun p => (.ifElse (textOf inner) body p.1, p.2))
  | call {cs rest : List Char} : opening cs = .other rest →
      Runs .statement 1 cs ((callText 0 rest).map fun p => (.call (textOf p.1), p.2))
  | textEnds {cs : List Char} : skipSpace cs = [] → Runs (.statements false) 1 cs (.ok ([], []))
  | blockUnterminated {cs : List Char} : skipSpace cs = [] →
      Runs (.statements true) 1 cs (.error (.unterminatedBlock, []))
  | blockEnds {cs rest : List Char} : skipSpace cs = '\x7d' :: rest →
      Runs (.statements true) 1 cs (.ok ([], rest))
  | statementFails {cs : List Char} {inBlock : Bool} {n : ℕ} {e : SyntaxFault × List Char} :
      GoesOn inBlock cs → Runs .statement n (skipSpace cs) (.error e) →
      Runs (.statements inBlock) (n + 1) cs (.error e)
  | cons {cs behind : List Char} {inBlock : Bool} {n m : ℕ} {t : LoopTree}
      {r : Result (List LoopTree × List Char)} :
      GoesOn inBlock cs → Runs .statement n (skipSpace cs) (.ok (t, behind)) →
      Runs (.statements inBlock) m behind r →
      Runs (.statements inBlock) (n + m + 1) cs (r.map fun p => (t :: p.1, p.2))

/-! ### What a run takes -/

/-- Calls that need no character: the last one in a text. -/
def Call.spare : Call → ℕ
  | statements false => 2
  | _ => 0

/-- Calls that may follow the last character when there is a fault. -/
def Call.extra : Call → ℕ
  | statement => 1
  | statements _ => 2

/-- What is left is an end of the text, and there are at most two calls for each character that is
taken. -/
structure Bounded (call : Call) (n : ℕ) (cs : List Char) (r : Result (call.Out × List Char)) :
    Prop where
  suffix : left r <:+ cs
  ok : ∀ x rest, r = .ok (x, rest) → n + 1 + 2 * rest.length ≤ 2 * cs.length + call.spare
  error : ∀ e, r = .error e → n ≤ 2 * cs.length + call.extra

namespace Bounded

variable {call : Call} {n : ℕ} {cs ds : List Char}

theorem of_ok {x : call.Out} {rest : List Char} (h : rest <:+ cs)
    (hn : n + 1 + 2 * rest.length ≤ 2 * cs.length + call.spare) :
    Bounded call n cs (.ok (x, rest)) :=
  ⟨h, fun _ _ heq => by cases heq; exact hn, fun _ heq => nomatch heq⟩

theorem of_error {fault : SyntaxFault} {rest : List Char} (h : rest <:+ cs)
    (hn : n ≤ 2 * cs.length + call.extra) : Bounded call n cs (.error (fault, rest)) :=
  ⟨h, fun _ _ heq => (nomatch heq), fun _ _ => hn⟩

/-- A call that scans the text and calls nothing. -/
theorem of_advances {r : Result (LoopTree × List Char)} (h : Advances cs r) :
    Bounded .statement 1 cs r := by
  cases r with
  | error e => exact of_error h.suffix (by simp [Call.extra])
  | ok p =>
    have hlt := h.lt p.1 p.2 rfl
    exact of_ok h.suffix (by simp only [Call.spare]; omega)

/-- A statement that ends with the result of a call.  What is before it takes `k` calls. -/
theorem after {r : Result (call.Out × List Char)} (h : Bounded call n ds r)
    (hspare : call.spare = 0) (hds : ds <:+ cs) {k : ℕ} (hk : k + 2 + 2 * ds.length ≤ 2 * cs.length)
    (f : call.Out × List Char → LoopTree) :
    Bounded .statement (k + n + 1) cs (r.map fun p => (f p, p.2)) := by
  cases r with
  | error e =>
    have hn := h.error e rfl
    have hextra : call.extra ≤ 2 := by cases call <;> simp [Call.extra]
    exact of_error (h.suffix.trans hds) (by simp only [Call.extra]; omega)
  | ok p =>
    have hn := h.ok p.1 p.2 rfl
    exact of_ok (h.suffix.trans hds) (by simp only [Call.spare]; omega)

/-- The same without calls before it. -/
theorem pass {r : Result (call.Out × List Char)} (h : Bounded call n ds r) (hspare : call.spare = 0)
    (hds : ds <:+ cs) (hlt : ds.length < cs.length) (f : call.Out × List Char → LoopTree) :
    Bounded .statement (n + 1) cs (r.map fun p => (f p, p.2)) := by
  have hafter := h.after (k := 0) hspare hds (by omega) f
  rwa [Nat.zero_add] at hafter

end Bounded

theorem Runs.bounded {call : Call} {n : ℕ} {cs : List Char} {r : Result (call.Out × List Char)}
    (h : Runs call n cs r) : Bounded call n cs r := by
  induction h with
  | nothing hopen => exact .of_error List.nil_suffix (by simp [Call.extra])
  | @brace cs rest n r hopen _ ih =>
    have hlength : 1 + rest.length ≤ cs.length := length_of_opening hopen
    exact ih.pass rfl (suffix_of_opening hopen) (by omega) _
  | @comment cs rest n r hopen _ ih =>
    have hlength : 2 + rest.length ≤ cs.length := length_of_opening hopen
    have hline : rest.dropWhile (· ≠ '\n') <:+ rest := List.dropWhile_suffix _
    have hle := hline.length_le
    exact ih.pass rfl (hline.trans (suffix_of_opening hopen)) (by omega) _
  | loopUnbalanced hopen hinner =>
    have hadvances := hinner ▸ advances_parenthesized _
    exact .of_error (hadvances.suffix.trans (suffix_of_opening hopen)) (by simp [Call.extra])
  | loopMalformed hopen hinner hheader =>
    obtain ⟨hsuffix, -⟩ := behind_parenthesized hopen hinner
    exact .of_error hsuffix (by simp [Call.extra])
  | loop hopen hinner hheader _ ih =>
    obtain ⟨hsuffix, hlt⟩ := behind_parenthesized hopen hinner
    exact ih.pass rfl hsuffix hlt _
  | testUnbalanced hopen hinner =>
    have hadvances := hinner ▸ advances_parenthesized _
    exact .of_error (hadvances.suffix.trans (suffix_of_opening hopen)) (by simp [Call.extra])
  | bodyFails hopen hinner _ ih =>
    obtain ⟨hsuffix, hlt⟩ := behind_parenthesized hopen hinner
    exact ih.pass rfl hsuffix hlt fun p => p.1
  | @ifThen cs rest inner rest' behind n body hopen hinner _ helse ih =>
    obtain ⟨hsuffix, hlt⟩ := behind_parenthesized hopen hinner
    have hn : n + 1 + 2 * behind.length ≤ 2 * rest'.length := ih.ok body behind rfl
    have hskip := skipSpace_suffix behind
    have hle := hskip.length_le
    exact .of_ok ((hskip.trans ih.suffix).trans hsuffix) (by simp only [Call.spare]; omega)
  | @ifElse cs rest inner rest' behind after n m body r hopen hinner _ helse _ ih ih' =>
    obtain ⟨hsuffix, hlt⟩ := behind_parenthesized hopen hinner
    have hn : n + 1 + 2 * behind.length ≤ 2 * rest'.length := ih.ok body behind rfl
    have hafter : after <:+ behind :=
      (eq_append_of_keyword? helse ▸ List.suffix_append _ after).trans (skipSpace_suffix behind)
    have hle := hafter.length_le
    exact ih'.after rfl ((hafter.trans ih.suffix).trans hsuffix) (by omega) _
  | call hopen =>
    exact .of_advances (((advances_callText 0 _).mono (suffix_of_opening hopen)).map _)
  | @textEnds cs hend => exact .of_ok List.nil_suffix (by simp [Call.spare])
  | blockUnterminated hend => exact .of_error List.nil_suffix (by simp [Call.extra])
  | @blockEnds cs rest hend =>
    have hsuffix : '\x7d' :: rest <:+ cs := hend ▸ skipSpace_suffix cs
    have hle := hsuffix.length_le
    rw [List.length_cons] at hle
    exact .of_ok ((List.suffix_cons _ _).trans hsuffix) (by omega)
  | @statementFails cs inBlock n e hgo _ ih =>
    have hskip := skipSpace_suffix cs
    have hle := hskip.length_le
    have hn : n ≤ 2 * (skipSpace cs).length + 1 := ih.error e rfl
    exact .of_error (ih.suffix.trans hskip) (by simp only [Call.extra]; omega)
  | @cons cs behind inBlock n m t r hgo _ _ ih ih' =>
    have hskip := skipSpace_suffix cs
    have hle := hskip.length_le
    have hn : n + 1 + 2 * behind.length ≤ 2 * (skipSpace cs).length := ih.ok t behind rfl
    have hbehind : behind <:+ cs := ih.suffix.trans hskip
    cases r with
    | error e =>
      have hm := ih'.error e rfl
      exact .of_error (ih'.suffix.trans hbehind) (by simp only [Call.extra] at hm ⊢; omega)
    | ok p =>
      have hm := ih'.ok p.1 p.2 rfl
      exact .of_ok (ih'.suffix.trans hbehind) (by omega)

end LoopSched.LoopTree.Parser
