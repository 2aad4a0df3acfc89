import LoopSched.Proofs.LoopTree.Words
import LoopSched.Proofs.LoopTree.Code

/-!
# What renaming changes

The texts of a tree come with the iterators of the loops in whose scope they stand, and a tree is
determined by its texts and by its shape, which is all the rest of it.  Renaming keeps the shape and
rewrites the words of each text that are coordinates of its scope.
-/

namespace LoopSched.LoopTree

/-! ### Words that stand for a coordinate -/

/-- The name of coordinate `d`: the letter and the digits of `d`, with or without zeros in front.
An index that does not fit a machine word is no coordinate. -/
def IsCoordinate (w : List Char) (d : ℕ) : Prop :=
  ∃ digits : List Char, w = 'c' :: digits ∧ digits ≠ [] ∧ (∀ c ∈ digits, c.isDigit = true) ∧
    Nat.ofDigitChars 10 digits 0 = d ∧ d < Word.count

theorem coordinate?_eq_some {w : List Char} {d : ℕ} :
    coordinate? w = some d ↔ IsCoordinate w d := by
  cases w with
  | nil => simp [coordinate?, IsCoordinate]
  | cons letter digits =>
    simp only [coordinate?, coordinateLetter, IsCoordinate, List.cons.injEq, Nat.ofDigitChars]
    grind

/-- A word of a text in the scope of some iterators and the word that stands in its place. -/
def Replaces (stem : String) (scope : List String) (w w' : List Char) : Prop :=
  (String.ofList w ∈ scope ∧ ∃ d, IsCoordinate w d ∧ w' = stem.toList ++ Nat.toDigits 10 d) ∨
    ((String.ofList w ∉ scope ∨ ∀ d, ¬ IsCoordinate w d) ∧ w' = w)

theorem replaces_iff (stem : String) (scope : List String) (w w' : List Char) :
    Replaces stem scope w w' ↔ w' = renameWord stem scope w := by
  unfold Replaces renameWord
  simp only [← coordinate?_eq_some]
  cases coordinate? w with
  | none => simp
  | some d =>
    by_cases h : String.ofList w ∈ scope <;> simp [h]

theorem renameWord_cases (stem : String) (scope : List String) (w : List Char) :
    (∃ d, IsCoordinate w d ∧ renameWord stem scope w = stem.toList ++ Nat.toDigits 10 d) ∨
      renameWord stem scope w = w := by
  rcases (replaces_iff stem scope w _).mpr rfl with ⟨-, hd⟩ | ⟨-, hw⟩
  · exact .inl hd
  · exact .inr hw

theorem rewrites_renameText (stem : String) (scope : List String) (text text' : String) :
    Rewrites (Replaces stem scope) text.toList text'.toList ↔
      text' = renameText stem scope text := by
  rw [rewrites_iff (replaces_iff stem scope), renameText_eq, String.ext_iff, String.toList_ofList]

/-! ### Texts and shape -/

mutual

/-- Each text with the iterators of the loops around it, innermost first.  A start value is outside
the scope of its own loop. -/
def texts (scope : List String) : LoopTree → List (List String × String)
  | block children => textsEach scope children
  | loop header _ body =>
    let inner := header.iterator :: scope
    (inner, header.iterator) :: (scope, header.start) :: (inner, header.guard) ::
      (inner, header.step) :: body.texts inner
  | ifThen test body => (scope, test) :: body.texts scope
  | ifElse test body otherwise => (scope, test) :: (body.texts scope ++ otherwise.texts scope)
  | call text => [(scope, text)]
  | mark _ body => body.texts scope

def textsEach (scope : List String) : List LoopTree → List (List String × String)
  | [] => []
  | t :: ts => t.texts scope ++ textsEach scope ts

end

mutual

/-- The tree without its texts. -/
def shape : LoopTree → LoopTree
  | block children => .block (shapeEach children)
  | loop _ parallel body => .loop ⟨"", "", "", ""⟩ parallel body.shape
  | ifThen _ body => .ifThen "" body.shape
  | ifElse _ body otherwise => .ifElse "" body.shape otherwise.shape
  | call _ => .call ""
  | mark label body => .mark label body.shape

def shapeEach : List LoopTree → List LoopTree
  | [] => []
  | t :: ts => t.shape :: shapeEach ts

end

mutual

theorem length_texts : ∀ (t : LoopTree) (s s' : List String),
    (t.texts s).length = (t.shape.texts s').length
  | block children, s, s' => length_textsEach children s s'
  | loop header parallel body, s, s' => by
    simp only [texts, shape, List.length_cons]
    rw [length_texts body]
  | ifThen test body, s, s' => by
    simp only [texts, shape, List.length_cons]
    rw [length_texts body s s']
  | ifElse test body otherwise, s, s' => by
    simp only [texts, shape, List.length_cons, List.length_append]
    rw [length_texts body s s', length_texts otherwise s s']
  | call text, s, s' => rfl
  | mark label body, s, s' => length_texts body s s'

theorem length_textsEach : ∀ (ts : List LoopTree) (s s' : List String),
    (textsEach s ts).length = (textsEach s' (shapeEach ts)).length
  | [], s, s' => rfl
  | t :: ts, s, s' => by
    simp only [textsEach, shapeEach, List.length_append]
    rw [length_texts t s s', length_textsEach ts s s']

end

theorem length_texts_of_shape {t t' : LoopTree} (h : t.shape = t'.shape) (s s' : List String) :
    ((t.texts s).map Prod.snd).length = ((t'.texts s').map Prod.snd).length := by
  rw [List.length_map, List.length_map, length_texts t s [], h, ← length_texts t' s' []]

mutual

/-- A tree is determined by its shape and its texts. -/
theorem eq_of_shape : ∀ {t t' : LoopTree} {s s' : List String}, t.shape = t'.shape →
    (t.texts s).map Prod.snd = (t'.texts s').map Prod.snd → t = t'
  | block children, t', s, s', hshape, htexts => by
    cases t' <;> simp only [shape, reduceCtorEq, block.injEq] at hshape
    simp only [texts] at htexts
    rw [eq_of_shapeEach hshape htexts]
  | loop header parallel body, t', s, s', hshape, htexts => by
    cases t' <;> simp only [shape, reduceCtorEq, loop.injEq, true_and] at hshape
    case loop header' parallel' body' =>
      simp only [texts, List.map_cons, List.cons.injEq] at htexts
      obtain ⟨hi, hs, hg, hst, hbody⟩ := htexts
      rw [hshape.1, eq_of_shape hshape.2 hbody]
      cases header
      cases header'
      simp_all
  | ifThen test body, t', s, s', hshape, htexts => by
    cases t' <;> simp only [shape, reduceCtorEq, ifThen.injEq, true_and] at hshape
    simp only [texts, List.map_cons, List.cons.injEq] at htexts
    rw [htexts.1, eq_of_shape hshape htexts.2]
  | ifElse test body otherwise, t', s, s', hshape, htexts => by
    cases t' <;> simp only [shape, reduceCtorEq, ifElse.injEq, true_and] at hshape
    simp only [texts, List.map_cons, List.cons.injEq, List.map_append] at htexts
    obtain ⟨htest, hbranches⟩ := htexts
    obtain ⟨hbody, hother⟩ := List.append_inj hbranches (length_texts_of_shape hshape.1 s s')
    rw [htest, eq_of_shape hshape.1 hbody, eq_of_shape hshape.2 hother]
  | call text, t', s, s', hshape, htexts => by
    cases t' <;> simp only [shape, reduceCtorEq] at hshape
    simp only [texts, List.map_cons, List.cons.injEq] at htexts
    rw [htexts.1]
  | mark label body, t', s, s', hshape, htexts => by
    cases t' <;> simp only [shape, reduceCtorEq, mark.injEq] at hshape
    simp only [texts] at htexts
    rw [hshape.1, eq_of_shape hshape.2 htexts]

theorem eq_of_shapeEach : ∀ {ts ts' : List LoopTree} {s s' : List String},
    shapeEach ts = shapeEach ts' →
    (textsEach s ts).map Prod.snd = (textsEach s' ts').map Prod.snd → ts = ts'
  | [], ts', s, s', hshape, htexts => by
    cases ts' with
    | nil => rfl
    | cons t' ts' => simp only [shapeEach, reduceCtorEq] at hshape
  | t :: ts, ts', s, s', hshape, htexts => by
    cases ts' with
    | nil => simp only [shapeEach, reduceCtorEq] at hshape
    | cons t' ts' =>
      simp only [shapeEach, List.cons.injEq] at hshape
      simp only [textsEach, List.map_append] at htexts
      obtain ⟨hhead, htail⟩ := List.append_inj htexts (length_texts_of_shape hshape.1 s s')
      rw [eq_of_shape hshape.1 hhead, eq_of_shapeEach hshape.2 htail]

end

/-! ### Renaming -/

mutual

theorem shape_renameIn (stem : String) : ∀ (t : LoopTree) (scope : List String),
    (t.renameIn stem scope).shape = t.shape
  | block children, scope => by
    rw [renameIn, shape, shape, shape_renameInEach stem children scope]
  | loop header parallel body, scope => by
    rw [renameIn, shape, shape, shape_renameIn stem body]
  | ifThen test body, scope => by
    rw [renameIn, shape, shape, shape_renameIn stem body]
  | ifElse test body otherwise, scope => by
    rw [renameIn, shape, shape, shape_renameIn stem body, shape_renameIn stem otherwise]
  | call text, scope => rfl
  | mark label body, scope => by rw [renameIn, shape, shape, shape_renameIn stem body]

theorem shape_renameInEach (stem : String) : ∀ (ts : List LoopTree) (scope : List String),
    shapeEach (renameInEach stem scope ts) = shapeEach ts
  | [], scope => rfl
  | t :: ts, scope => by
    rw [renameInEach, shapeEach, shapeEach, shape_renameIn stem t, shape_renameInEach stem ts]

end

mutual

/-- Each text is renamed in its own scope. -/
theorem texts_renameIn (stem : String) : ∀ (t : LoopTree) (scope s : List String),
    ((t.renameIn stem scope).texts s).map Prod.snd =
      (t.texts scope).map fun p => renameText stem p.1 p.2
  | block children, scope, s => texts_renameInEach stem children scope s
  | loop header parallel body, scope, s => by
    simp only [renameIn, texts, List.map_cons]
    rw [texts_renameIn stem body]
  | ifThen test body, scope, s => by
    simp only [renameIn, texts, List.map_cons]
    rw [texts_renameIn stem body]
  | ifElse test body otherwise, scope, s => by
    simp only [renameIn, texts, List.map_cons, List.map_append]
    rw [texts_renameIn stem body, texts_renameIn stem otherwise]
  | call text, scope, s => rfl
  | mark label body, scope, s => texts_renameIn stem body scope s

theorem texts_renameInEach (stem : String) : ∀ (ts : List LoopTree) (scope s : List String),
    (textsEach s (renameInEach stem scope ts)).map Prod.snd =
      (textsEach scope ts).map fun p => renameText stem p.1 p.2
  | [], scope, s => rfl
  | t :: ts, scope, s => by
    simp only [renameInEach, textsEach, List.map_append]
    rw [texts_renameIn stem t, texts_renameInEach stem ts]

end

/-- Renaming keeps the shape of a tree and rewrites in each text the words that are coordinates and
iterators of a loop around it, and nothing else. -/
theorem eq_renameIterators_iff {stem : String} (hstem : stem ≠ "c") (t t' : LoopTree) :
    t' = t.renameIterators stem ↔ t'.shape = t.shape ∧
      List.Forall₂ (fun old new : List String × String =>
        Rewrites (Replaces stem old.1) old.2.toList new.2.toList) (t.texts []) (t'.texts []) := by
  have hletter : stem ≠ coordinateLetter.toString := hstem
  have htexts : List.Forall₂ (fun old new : List String × String =>
      Rewrites (Replaces stem old.1) old.2.toList new.2.toList) (t.texts []) (t'.texts []) ↔
      (t'.texts []).map Prod.snd = (t.texts []).map fun p => renameText stem p.1 p.2 := by
    simp only [rewrites_renameText]
    rw [← List.forall₂_eq_eq_eq, List.forall₂_map_left_iff, List.forall₂_map_right_iff]
    exact ⟨List.Forall₂.flip, List.Forall₂.flip⟩
  rw [renameIterators, if_neg hletter, htexts]
  constructor
  · rintro rfl
    exact ⟨shape_renameIn stem t [], texts_renameIn stem t [] []⟩
  · rintro ⟨hshape, hnew⟩
    rw [← shape_renameIn stem t []] at hshape
    rw [← texts_renameIn stem t [] []] at hnew
    exact eq_of_shape hshape hnew

/-- The inner loop starts at the value of the outer one; `c2`, `xc1` and `c1_` are not bound. -/
theorem eq_renameIterators_iff_hidden :
    "t" ≠ "c" ∧
      List.Forall₂ (fun old new : List String × String =>
          Rewrites (Replaces "t" old.1) old.2.toList new.2.toList)
        (texts [] (.loop ⟨"c1", "c1 + c2", "c1 <= xc1", "c1 += 1"⟩ true
          (.loop ⟨"c007", "2*c1", "c007<=c1_", "c007 += 1"⟩ false (.call "S(c1, c007, 3)"))))
        (texts [] (.loop ⟨"t1", "c1 + c2", "t1 <= xc1", "t1 += 1"⟩ true
          (.loop ⟨"t7", "2*t1", "t7<=c1_", "t7 += 1"⟩ false (.call "S(t1, t7, 3)")))) :=
  ⟨by decide, ((eq_renameIterators_iff (by decide) _ _).mp (by rfl)).2⟩

end LoopSched.LoopTree
