import LoopSched.Proofs.LoopTree.Renaming
import LoopSched.Proofs.LoopTree.Execution
import LoopSched.LoopTree.Parser

/-!
# Renaming and the runs of a tree

Renaming may give a loop the name of a parameter, or two loops one name.  An occurrence is captured
if a loop inside its binder gets the name that the occurrence gets.  Where the new names are
identifiers, each occurrence keeps its binder exactly if none is captured, and then the tree runs as
before.
-/

namespace LoopSched.LoopTree

/-- The stem and a number are a name, and not a number. -/
def isIdentifier (stem : String) : Bool :=
  stem.toList.all isWordChar && stem.toList.head?.any fun c => !c.isDigit

def words (text : String) : List (List Char) := (runs text.toList).filter fun run =>
  run.all isWordChar

/-- The new names of the iterators around a text. -/
def renamedScope (stem : String) : List String → List String
  | [] => []
  | iterator :: outer => renameText stem (iterator :: outer) iterator :: renamedScope stem outer

/-- A loop that is closer than the binder, or any loop around a name without one, gets the new name
of the occurrence. -/
def Captured (stem : String) (scope : List String) (w : List Char) : Prop :=
  w.all Char.isDigit = false ∧ String.ofList (renameWord stem scope w) ∈
    (renamedScope stem scope).take (scope.idxOf (String.ofList w))

instance (stem : String) (scope : List String) (w : List Char) :
    Decidable (Captured stem scope w) := inferInstanceAs (Decidable (_ ∧ _))

/-! ### New words -/

theorem isWordChar_of_isDigit {c : Char} (h : c.isDigit = true) : isWordChar c = true := by
  simp [isWordChar, Char.isAlphanum, h]

theorem renameWord_of_not_mem {stem : String} {scope : List String} {w : List Char}
    (h : String.ofList w ∉ scope) : renameWord stem scope w = w :=
  ((replaces_iff stem scope w w).mp (.inr ⟨.inl h, rfl⟩)).symm

theorem renameWord_of_mem {stem : String} {scope scope' : List String} {w : List Char}
    (h : String.ofList w ∈ scope) (h' : String.ofList w ∈ scope') :
    renameWord stem scope w = renameWord stem scope' w := by
  simp [renameWord, h, h']

variable {stem : String}

theorem isRun_renameWord (hstem : isIdentifier stem = true) (scope : List String) {w : List Char}
    (hw : IsRun true w) :
    IsRun true (renameWord stem scope w) := by
  simp only [isIdentifier, Bool.and_eq_true, List.all_eq_true, Option.any_eq_true] at hstem
  obtain ⟨hall, c, hc, -⟩ := hstem
  rcases renameWord_cases stem scope w with ⟨d, -, hd⟩ | hd
  · rw [hd]
    refine ⟨?_, fun e he => ?_⟩
    · intro hnil
      rw [(List.append_eq_nil_iff.mp hnil).1] at hc
      cases hc
    · rcases List.mem_append.mp he with he | he
      · exact hall e he
      · exact isWordChar_of_isDigit (Nat.isDigit_of_mem_toDigits (b := 10) (by decide) le_rfl he)
  · rwa [hd]

theorem all_isDigit_renameWord (hstem : isIdentifier stem = true) (scope : List String)
    (w : List Char) :
    (renameWord stem scope w).all Char.isDigit = w.all Char.isDigit := by
  simp only [isIdentifier, Bool.and_eq_true, Option.any_eq_true] at hstem
  obtain ⟨-, c, hc, hdigit⟩ := hstem
  rcases renameWord_cases stem scope w with ⟨d, ⟨digits, rfl, -⟩, hd⟩ | hd
  · -- neither starts with a digit
    obtain ⟨cs, hcs⟩ := List.head?_eq_some_iff.mp hc
    rw [hd, hcs]
    rw [List.cons_append, List.all_cons, List.all_cons, (Bool.not_eq_true' _).mp hdigit]
    rfl
  · rw [hd]

theorem renameWord_of_digits (scope : List String) {w : List Char}
    (h : w.all Char.isDigit = true) : renameWord stem scope w = w := by
  rcases renameWord_cases stem scope w with ⟨d, ⟨digits, rfl, -⟩, -⟩ | hsame
  · cases h
  · exact hsame

/-- The words of a renamed text are the new words of the text. -/
theorem runs_renameText (hstem : isIdentifier stem = true) (scope : List String) (text : String) :
    runs (renameText stem scope text).toList = (runs text.toList).map fun run =>
      if run.all isWordChar then renameWord stem scope run else run := by
  rw [renameText_eq, String.toList_ofList]
  exact runs_mapWords fun w _ hw => isRun_renameWord hstem scope hw

theorem renameText_word (scope : List String) {w : List Char} (hw : IsRun true w) :
    renameText stem scope (String.ofList w) = String.ofList (renameWord stem scope w) := by
  have hone : mapWords (renameWord stem scope) (w ++ []) = renameWord stem scope w ++ [] :=
    mapWords_word _ hw (by simp)
  rw [List.append_nil, List.append_nil] at hone
  rw [renameText_eq, String.toList_ofList, hone]

/-! ### Binders -/

theorem length_renamedScope (stem : String) (scope : List String) :
    (renamedScope stem scope).length = scope.length := by
  induction scope with
  | nil => rfl
  | cons iterator outer ih => rw [renamedScope, List.length_cons, List.length_cons, ih]

/-- The binder of a word gets the new name of the word. -/
theorem getElem?_renamedScope (stem : String) {scope : List String} {w : List Char}
    (hw : IsRun true w) (h : String.ofList w ∈ scope) :
    (renamedScope stem scope)[scope.idxOf (String.ofList w)]? =
      some (String.ofList (renameWord stem scope w)) := by
  induction scope with
  | nil => cases h
  | cons iterator outer ih =>
    by_cases heq : iterator = String.ofList w
    · subst heq
      rw [List.idxOf_cons_self, renamedScope, List.getElem?_cons_zero, renameText_word _ hw]
    · have hmem := (List.mem_cons.mp h).resolve_left (Ne.symm heq)
      rw [List.idxOf_cons_ne _ heq, renamedScope, List.getElem?_cons_succ, ih hmem,
        renameWord_of_mem hmem h]

theorem idxOf_eq_iff {l : List String} {k : ℕ} {a : String} (h : l[k]? = some a) :
    l.idxOf a = k ↔ a ∉ l.take k := by
  have hmem : a ∈ l := List.mem_of_getElem? h
  have hle : a ∈ l.take (k + 1) :=
    List.mem_of_getElem? ((List.getElem?_take_of_lt (Nat.lt_succ_self k)).trans h)
  rw [List.mem_take_iff_idxOf_lt hmem] at hle ⊢
  omega

/-- A word keeps its binder, or stays without one, exactly if it is not captured. -/
theorem lexeme_renamedScope_iff (hstem : isIdentifier stem = true) (scope : List String)
    {w : List Char} (hw : IsRun true w) :
    lexeme (renamedScope stem scope) (renameWord stem scope w) = lexeme scope w ↔
      ¬ Captured stem scope w := by
  have hall := all_isDigit_renameWord hstem scope w
  by_cases hdigits : w.all Char.isDigit = true
  · simp [lexeme, Captured, renameWord_of_digits scope hdigits, hdigits]
  rw [Bool.not_eq_true] at hdigits
  rw [hdigits] at hall
  simp only [lexeme, Captured, hall, hdigits, Bool.false_eq_true, if_false, true_and,
    length_renamedScope]
  by_cases hmem : String.ofList w ∈ scope
  · -- the binder has the new name, and so it is found unless a loop inside it has that name too
    have hbinder := getElem?_renamedScope stem hw hmem
    have hlt := List.idxOf_lt_length_iff.mpr (List.mem_of_getElem? hbinder)
    rw [length_renamedScope] at hlt
    rw [if_pos hlt, if_pos (List.idxOf_lt_length_iff.mpr hmem), Lexeme.bound.injEq,
      idxOf_eq_iff hbinder]
  · -- a name without a binder stays, and must not become the name of any loop around it
    rw [renameWord_of_not_mem hmem, List.idxOf_eq_length hmem, if_neg (lt_irrefl _),
      List.take_of_length_le (length_renamedScope stem scope).le, ← length_renamedScope stem scope,
      ← List.idxOf_lt_length_iff]
    split <;> simp_all

theorem lexemes_renamedScope_iff (hstem : isIdentifier stem = true) (scope : List String)
    (text : String) :
    lexemes (renamedScope stem scope) (renameText stem scope text) = lexemes scope text ↔
      ∀ w ∈ words text, ¬ Captured stem scope w := by
  have hkinds := (alternating_runs text.toList).isRun
  unfold lexemes words
  rw [runs_renameText hstem]
  generalize runs text.toList = rs at hkinds
  induction rs with
  | nil => simp
  | cons run rest ih =>
    obtain ⟨⟨named, hrun⟩, hrest⟩ := List.forall_mem_cons.mp hkinds
    rw [List.map_cons, List.flatMap_cons, List.flatMap_cons, List.filter_cons, hrun.all_eq]
    cases named with
    | true =>
      have hnew := (isRun_renameWord hstem scope hrun).all_eq
      simp only [if_true, hnew, List.singleton_append, List.cons.injEq, List.forall_mem_cons,
        ih hrest, lexeme_renamedScope_iff hstem scope hrun]
    | false =>
      simp only [Bool.false_eq_true, if_false, hrun.all_eq, List.append_cancel_left_eq, ih hrest]

mutual

/-- All names of a tree keep their binders exactly if none is captured. -/
theorem nameless_renameIn_iff (hstem : isIdentifier stem = true) :
    ∀ (t : LoopTree) (scope : List String),
    (t.renameIn stem scope).nameless (renamedScope stem scope) = t.nameless scope ↔
      ∀ p ∈ t.texts scope, ∀ w ∈ words p.2, ¬ Captured stem p.1 w
  | block children, scope => by
    rw [renameIn, nameless, nameless, Nameless.block.injEq, texts]
    exact nameless_renameInEach_iff hstem children scope
  | loop header parallel body, scope => by
    have hbody := nameless_renameIn_iff hstem body (header.iterator :: scope)
    simp only [renamedScope] at hbody
    have hinner := lexemes_renamedScope_iff hstem (header.iterator :: scope)
    simp only [renamedScope] at hinner
    simp only [renameIn, nameless, Nameless.loop.injEq, texts, List.forall_mem_cons, hbody,
      hinner, lexemes_renamedScope_iff hstem]
  | ifThen test body, scope => by
    simp only [renameIn, nameless, Nameless.ifThen.injEq, texts, List.forall_mem_cons,
      nameless_renameIn_iff hstem body, lexemes_renamedScope_iff hstem]
  | ifElse test body otherwise, scope => by
    simp only [renameIn, nameless, Nameless.ifElse.injEq, texts, List.forall_mem_cons,
      List.forall_mem_append, nameless_renameIn_iff hstem body,
      nameless_renameIn_iff hstem otherwise, lexemes_renamedScope_iff hstem]
  | call text, scope => by
    simp only [renameIn, nameless, Nameless.call.injEq, texts, List.forall_mem_singleton,
      lexemes_renamedScope_iff hstem]
  | mark label body, scope => by
    rw [renameIn, nameless, nameless, texts]
    exact nameless_renameIn_iff hstem body scope

theorem nameless_renameInEach_iff (hstem : isIdentifier stem = true) :
    ∀ (ts : List LoopTree) (scope : List String),
    namelessEach (renamedScope stem scope) (renameInEach stem scope ts) = namelessEach scope ts ↔
      ∀ p ∈ textsEach scope ts, ∀ w ∈ words p.2, ¬ Captured stem p.1 w
  | [], scope => by simp [renameInEach, namelessEach, textsEach]
  | t :: ts, scope => by
    simp only [renameInEach, namelessEach, List.cons.injEq, textsEach, List.forall_mem_append,
      nameless_renameIn_iff hstem t, nameless_renameInEach_iff hstem ts]

end

/-- Renaming with an identifier keeps all binders exactly if no occurrence is captured, and then
every run is as before. -/
theorem execute_renameIterators (hstem : isIdentifier stem = true) (t : LoopTree) :
    ((t.renameIterators stem).nameless [] = t.nameless [] ↔
      stem = "c" ∨ ∀ p ∈ t.texts [], ∀ w ∈ words p.2, ¬ Captured stem p.1 w) ∧
    ((stem = "c" ∨ ∀ p ∈ t.texts [], ∀ w ∈ words p.2, ¬ Captured stem p.1 w) →
      ∀ (parameters : String → Option ℤ) (limit : ℕ),
        (t.renameIterators stem).execute parameters limit = t.execute parameters limit) := by
  have hiff : (t.renameIterators stem).nameless [] = t.nameless [] ↔
      stem = "c" ∨ ∀ p ∈ t.texts [], ∀ w ∈ words p.2, ¬ Captured stem p.1 w := by
    have hletter : coordinateLetter.toString = "c" := rfl
    rw [renameIterators, hletter]
    by_cases hc : stem = "c"
    · rw [if_pos hc]
      exact iff_of_true rfl (.inl hc)
    · rw [if_neg hc, or_iff_right hc]
      exact nameless_renameIn_iff hstem t []
  refine ⟨hiff, fun h parameters limit => ?_⟩
  rw [execute, execute, hiff.mpr h]

/-- A parameter that looks like an iterator, and an inner loop that hides the outer one. -/
theorem execute_renameIterators_hidden :
    let t : LoopTree := .loop ⟨"c1", "c2", "c1 <= N", "c1 += 1"⟩ true
      (.loop ⟨"c1", "2 * c1", "c1 <= 3", "c1 += c2"⟩ false (.call "S(c1, c2)"))
    isIdentifier "t" = true ∧
      t.execute (fun name => if name = "c2" then some 1 else some 2) 5 =
        ⟨[("S", [2, 1]), ("S", [3, 1])], .finished⟩ ∧
      ∀ (parameters : String → Option ℤ) (limit : ℕ),
        (t.renameIterators "t").execute parameters limit = t.execute parameters limit := by
  intro t
  refine ⟨by decide, by decide +kernel, ?_⟩
  exact (execute_renameIterators (by decide) t).2 (.inr (by decide +kernel))

/-- A loop that gets the name of a parameter hides it, and a number is no name. -/
theorem exists_captured_parameter :
    ∃ t : LoopTree, parse "for (int c1 = 0; c1 <= 2; c1 += 1)\n  S(c1, N1);" = .ok t ∧
      t.execute (fun _ => some 5) 4 = ⟨[("S", [0, 5]), ("S", [1, 5]), ("S", [2, 5])], .finished⟩ ∧
      (t.renameIterators "N").execute (fun _ => some 5) 4 =
        ⟨[("S", [0, 0]), ("S", [1, 1]), ("S", [2, 2])], .finished⟩ ∧
      (t.renameIterators "").execute (fun _ => some 5) 4 = ⟨[], .stuck⟩ := by
  refine ⟨.loop ⟨"c1", "0", "c1 <= 2", "c1 += 1"⟩ false (.call "S(c1, N1)"), by rfl, ?_, ?_, ?_⟩
  · decide +kernel
  · decide +kernel
  · decide +kernel

end LoopSched.LoopTree
