import LoopSched.LoopTree.Basic
import Mathlib.Data.List.SplitBy
import Mathlib.Data.Nat.Notation

/-!
# Words of a text

A text is cut into runs: words, which are as long as their characters allow, and the gaps between
them.  Words and gaps take turns, and any list of words and gaps that take turns is the list of runs
of its text.  So a text in which words are replaced by words has the new words for its words and the
old gaps for its gaps.
-/

namespace LoopSched.LoopTree

/-- All characters are of one kind: those of names, or those between names. -/
def IsRun (named : Bool) (cs : List Char) : Prop := cs ≠ [] ∧ ∀ c ∈ cs, isWordChar c = named

/-- Words and gaps that take turns. -/
inductive Alternating : List (List Char) → Prop
  | nil : Alternating []
  | cons {named : Bool} {run : List Char} {rest : List (List Char)} : IsRun named run →
      (∀ next ∈ rest.head?, IsRun (!named) next) → Alternating rest → Alternating (run :: rest)

def runs (cs : List Char) : List (List Char) :=
  cs.splitBy fun a b => isWordChar a == isWordChar b

theorem flatten_runs (cs : List Char) : (runs cs).flatten = cs := List.flatten_splitBy _ cs

theorem isRun_of_isChain {run : List Char}
    (h : run.IsChain fun a b => (isWordChar a == isWordChar b) = true) (hne : run ≠ []) :
    IsRun (isWordChar (run.head hne)) run := by
  refine ⟨hne, ?_⟩
  induction run with
  | nil => exact absurd rfl hne
  | cons c cs ih =>
    intro d hd
    rcases List.mem_cons.mp hd with rfl | hd
    · rfl
    · cases cs with
      | nil => cases hd
      | cons e cs =>
        obtain ⟨hce, hrest⟩ := List.isChain_cons_cons.mp h
        have hde := ih hrest (List.cons_ne_nil e cs) d hd
        rw [List.head_cons] at hde ⊢
        rw [hde, beq_iff_eq.mp hce]

theorem alternating_runs (cs : List Char) : Alternating (runs cs) := by
  obtain ⟨-, hne, hchain, hturns⟩ := List.splitBy_eq_iff.mp (rfl : runs cs = runs cs)
  generalize runs cs = rs at hne hchain hturns
  induction rs with
  | nil => exact .nil
  | cons run rest ih =>
    have hrun : run ≠ [] := fun h => hne (h ▸ List.mem_cons_self)
    have hsame := isRun_of_isChain (hchain run List.mem_cons_self) hrun
    have hrest := ih (fun h => hne (List.mem_cons_of_mem _ h))
      (fun m hm => hchain m (List.mem_cons_of_mem _ hm)) hturns.tail
    refine .cons hsame (fun next hnext => ?_) hrest
    obtain ⟨hlast, hhead, hturn⟩ := (List.isChain_cons.mp hturns).1 next hnext
    have hmem : next ∈ run :: rest := List.mem_cons_of_mem _ (List.mem_of_mem_head? hnext)
    have hkind : isWordChar (next.head hhead) = !isWordChar (run.head hrun) := by
      rw [hsame.2 _ (List.getLast_mem hlast)] at hturn
      cases hw : isWordChar (run.head hrun) <;> simp [hw] at hturn ⊢ <;> exact hturn
    rw [← hkind]
    exact isRun_of_isChain (hchain next hmem) hhead

theorem Alternating.isRun {rs : List (List Char)} (h : Alternating rs) :
    ∀ run ∈ rs, ∃ named, IsRun named run := by
  induction h with
  | nil => simp
  | cons hrun _ _ ih => exact List.forall_mem_cons.mpr ⟨⟨_, hrun⟩, ih⟩

/-- Words and gaps that take turns are the runs of their text. -/
theorem runs_flatten {rs : List (List Char)} (h : Alternating rs) : runs rs.flatten = rs := by
  refine List.splitBy_flatten ?_ ?_ ?_
  · intro hnil
    obtain ⟨_, hne, -⟩ := h.isRun [] hnil
    exact hne rfl
  · intro run hrun
    obtain ⟨_, -, hsame⟩ := h.isRun run hrun
    refine (List.pairwise_of_forall_mem_list fun a ha b hb => ?_).isChain
    rw [hsame a ha, hsame b hb, BEq.rfl]
  · induction h with
    | nil => exact List.isChain_nil
    | @cons named run rest hrun hnext hrest ih =>
      refine List.isChain_cons.mpr ⟨fun next hmem => ?_, ih⟩
      have hkind := hnext next hmem
      refine ⟨hrun.1, hkind.1, ?_⟩
      rw [hrun.2 _ (List.getLast_mem hrun.1), hkind.2 _ (List.head_mem hkind.1)]
      cases named <;> rfl

/-! ### Texts with other words -/

/-- Replace the words of a text and keep what is between them. -/
def mapWords (f : List Char → List Char) (cs : List Char) : List Char :=
  (runs cs).flatMap fun run => if run.all isWordChar then f run else run

theorem renameText_eq (stem : String) (bound : List String) (text : String) :
    renameText stem bound text = String.ofList (mapWords (renameWord stem bound) text.toList) := rfl

theorem IsRun.all_eq {named : Bool} {run : List Char} (h : IsRun named run) :
    run.all isWordChar = named := by
  cases named with
  | true => exact List.all_eq_true.mpr h.2
  | false =>
    obtain ⟨c, cs, rfl⟩ := List.exists_cons_of_ne_nil h.1
    exact List.all_eq_false.mpr ⟨c, List.mem_cons_self, by simp [h.2 c List.mem_cons_self]⟩

theorem mapWords_flatten (f : List Char → List Char) {rs : List (List Char)}
    (h : Alternating rs) :
    mapWords f rs.flatten = rs.flatMap fun run => if run.all isWordChar then f run else run := by
  rw [mapWords, runs_flatten h]

theorem mapWords_nil (f : List Char → List Char) : mapWords f [] = [] := rfl

theorem exists_alternating (cs : List Char) : ∃ rs, Alternating rs ∧ rs.flatten = cs :=
  ⟨runs cs, alternating_runs cs, flatten_runs cs⟩

/-- A word ends where a gap or the end of the text comes next. -/
theorem alternating_word {w : List Char} {rs : List (List Char)} (hw : IsRun true w)
    (hrs : Alternating rs) (hnext : ∀ c ∈ rs.flatten.head?, isWordChar c = false) :
    Alternating (w :: rs) := by
  refine .cons hw (fun next hmem => ?_) hrs
  cases hrs with
  | nil => cases hmem
  | @cons named run rest hrun hturn hrest =>
    obtain rfl : run = next := Option.some.inj hmem
    obtain ⟨c, run, rfl⟩ := List.exists_cons_of_ne_nil hrun.1
    have hc : isWordChar c = false := hnext c rfl
    rw [hrun.2 c List.mem_cons_self] at hc
    rwa [hc] at hrun

theorem mapWords_word (f : List Char → List Char) {w cs : List Char} (hw : IsRun true w)
    (hcs : ∀ c ∈ cs.head?, isWordChar c = false) : mapWords f (w ++ cs) = f w ++ mapWords f cs := by
  obtain ⟨rs, hrs, rfl⟩ := exists_alternating cs
  have hall := mapWords_flatten f (alternating_word hw hrs hcs)
  rw [List.flatten_cons, List.flatMap_cons, hw.all_eq, if_pos rfl] at hall
  rw [hall, mapWords_flatten f hrs]

theorem mapWords_gap (f : List Char → List Char) {c : Char} (hc : isWordChar c = false)
    (cs : List Char) : mapWords f (c :: cs) = c :: mapWords f cs := by
  obtain ⟨rs, hrs, rfl⟩ := exists_alternating cs
  have hone : IsRun false [c] := ⟨List.cons_ne_nil c [], by simpa using hc⟩
  rw [mapWords_flatten f hrs]
  cases hrs with
  | nil =>
    have hall := mapWords_flatten f (.cons hone (by simp) .nil)
    rwa [List.flatMap_cons, hone.all_eq] at hall
  | @cons named run rest hrun hturn hrest =>
    cases named with
    | true =>
      -- a new gap in front of a word
      have hturn' : ∀ next ∈ (run :: rest).head?, IsRun (!false) next := fun next hnext =>
        Option.some.inj hnext ▸ hrun
      have hall := mapWords_flatten f (.cons hone hturn' (.cons hrun hturn hrest))
      rwa [List.flatMap_cons, hone.all_eq] at hall
    | false =>
      -- the gap gets longer
      have hlonger : IsRun false (c :: run) :=
        ⟨List.cons_ne_nil c run, List.forall_mem_cons.mpr ⟨hc, hrun.2⟩⟩
      have hall := mapWords_flatten f (.cons hlonger hturn hrest)
      rw [List.flatMap_cons, hlonger.all_eq] at hall
      rw [List.flatMap_cons, hrun.all_eq]
      exact hall

/-- Words that are replaced by words are the words of the new text. -/
theorem runs_mapWords {f : List Char → List Char} {cs : List Char}
    (hf : ∀ w ∈ runs cs, IsRun true w → IsRun true (f w)) :
    runs (mapWords f cs) =
      (runs cs).map fun run => if run.all isWordChar then f run else run := by
  have hkind : ∀ {named : Bool} {run : List Char}, run ∈ runs cs → IsRun named run →
      IsRun named (if run.all isWordChar then f run else run) := by
    intro named run hmem hrun
    rw [hrun.all_eq]
    cases named with
    | true => exact hf run hmem hrun
    | false => exact hrun
  have hturns : Alternating
      ((runs cs).map fun run => if run.all isWordChar then f run else run) := by
    have hruns := alternating_runs cs
    generalize runs cs = rs at hruns hkind
    induction hruns with
    | nil => exact .nil
    | @cons named run rest hrun hturn hrest ih =>
      refine .cons (hkind List.mem_cons_self hrun) (fun next hnext => ?_)
        (ih fun hmem => hkind (List.mem_cons_of_mem _ hmem))
      rw [List.head?_map, Option.mem_def, Option.map_eq_some_iff] at hnext
      obtain ⟨old, hold, rfl⟩ := hnext
      exact hkind (List.mem_cons_of_mem _ (List.mem_of_mem_head? hold)) (hturn old hold)
  rw [mapWords, List.flatMap_def, runs_flatten hturns]

/-! ### Rewriting from left to right -/

/-- The second text is the first with each word replaced as `R` says.  A word is followed by a
character of another kind or by nothing, so it is never a part of a longer one. -/
inductive Rewrites (R : List Char → List Char → Prop) : List Char → List Char → Prop
  | nil : Rewrites R [] []
  | gap {c : Char} {cs cs' : List Char} : isWordChar c = false → Rewrites R cs cs' →
      Rewrites R (c :: cs) (c :: cs')
  | word {w w' cs cs' : List Char} : IsRun true w → (∀ c ∈ cs.head?, isWordChar c = false) →
      R w w' → Rewrites R cs cs' → Rewrites R (w ++ cs) (w' ++ cs')

theorem Rewrites.gaps {R : List Char → List Char → Prop} {cs cs' : List Char}
    (h : Rewrites R cs cs') {g : List Char} (hg : ∀ c ∈ g, isWordChar c = false) :
    Rewrites R (g ++ cs) (g ++ cs') := by
  induction g with
  | nil => exact h
  | cons c g ih =>
    obtain ⟨hc, hg⟩ := List.forall_mem_cons.mp hg
    exact .gap hc (ih hg)

theorem rewrites_mapWords {R : List Char → List Char → Prop} {f : List Char → List Char}
    (hR : ∀ w, R w (f w)) (cs : List Char) : Rewrites R cs (mapWords f cs) := by
  obtain ⟨rs, hrs, rfl⟩ := exists_alternating cs
  rw [mapWords_flatten f hrs]
  induction hrs with
  | nil => exact .nil
  | @cons named run rest hrun hturn hrest ih =>
    rw [List.flatten_cons, List.flatMap_cons, hrun.all_eq]
    cases named with
    | false => exact ih.gaps hrun.2
    | true =>
      refine .word hrun (fun c hc => ?_) (hR run) ih
      cases hrest with
      | nil => cases hc
      | @cons _ next rest hnext _ _ =>
        -- the text after the word starts with the first character of the next gap
        have hgap := hturn next rfl
        obtain ⟨d, ds, rfl⟩ := List.exists_cons_of_ne_nil hgap.1
        obtain rfl : d = c := Option.some.inj hc
        exact hgap.2 d List.mem_cons_self

/-- Rewriting word by word from left to right has one result. -/
theorem rewrites_iff {R : List Char → List Char → Prop} {f : List Char → List Char}
    (hR : ∀ w w', R w w' ↔ w' = f w) {cs cs' : List Char} :
    Rewrites R cs cs' ↔ cs' = mapWords f cs := by
  constructor
  · intro h
    induction h with
    | nil => rw [mapWords_nil]
    | gap hc _ ih => rw [mapWords_gap f hc, ih]
    | word hw hnext hR' _ ih => rw [mapWords_word f hw hnext, ih, (hR _ _).mp hR']
  · rintro rfl
    exact rewrites_mapWords (fun w => (hR w (f w)).mpr rfl) cs

end LoopSched.LoopTree
