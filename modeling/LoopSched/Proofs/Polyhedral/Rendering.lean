import LoopSched.Proofs.Polyhedral.Reading
import Mathlib.Data.List.Forall2

/-!
# Maps and their texts

The text of a map is read as the parameters, tuples and conditions that it was written from, as long
as every name is one token.  So a map whose symbols are no coordinates relates the points that its
text relates, and the text gives a value to the coordinates that the map gives a value to.
-/

namespace LoopSched.Polyhedral

variable {E S : String → Expression} {ρ σ τ π : Valuation}

/-! ### Conditions -/

namespace Condition

/-- The coordinates whose value the condition gives. -/
def fixes : Condition → List String
  | is name _ => [name]
  | same out _ => [out]
  | moved out _ _ => [out]
  | sum out _ => [out]
  | tiled splits => splits.map (·.tile)
  | isNot .. | oneOf .. => []

/-- The coordinates that the condition depends on. -/
def uses : Condition → List String
  | is .. => []
  | isNot name _ => [name]
  | oneOf name _ => [name]
  | same _ base => [base]
  | moved _ base _ => [base]
  | sum _ terms => terms
  | tiled splits => splits.map (·.base)

/-- The texts of the user that coordinates are moved by. -/
def extents : Condition → List String
  | moved _ _ extent => [extent]
  | is .. | isNot .. | oneOf .. | same .. | sum .. | tiled .. => []

/-- The texts of the user that coordinates are divided by. -/
def sizes : Condition → List String
  | tiled splits => splits.map (·.size)
  | is .. | isNot .. | oneOf .. | same .. | moved .. | sum .. => []

/-- The name stands in a text of the user. -/
def Mentions (c : Condition) (n : String) : Prop :=
  ∃ text ∈ c.extents ++ c.sizes, .name n ∈ tokens text

/-- No list in the condition is empty. -/
def Filled : Condition → Prop
  | oneOf _ values => values ≠ []
  | sum _ terms => terms ≠ []
  | tiled splits => splits ≠ []
  | is .. | isNot .. | same .. | moved .. => True

/-- The text of the condition is the formula, and both say the same.  Extents are read by `E` and
sizes by `S`; a size is multiplied with a coordinate, so it has no names. -/
structure ReadAs (E S : String → Expression) (c : Condition) (f : Formula) : Prop where
  tokens : f.tokens = tokens c.render
  apart : f.Apart
  fixes : f.fixes.map Prod.fst = c.fixes
  made : ∀ d ∈ f.fixes, ∀ n, .name n ∈ d.2 → n ∈ c.uses ∨ n ∈ f.binds ∨ c.Mentions n
  names : ∀ n, .name n ∈ f.tokens → n ∈ c.fixes ∨ n ∈ c.uses ∨ n ∈ f.binds ∨ c.Mentions n
  affine : (∀ text ∈ c.extents, (E text).Affine) → (∀ text ∈ c.sizes, (S text).Closed) → f.Affine
  holds : ∀ {ρ σ : Valuation}, (∀ text ∈ c.extents, (E text).value σ = ρ text) →
    (∀ text ∈ c.sizes, (S text).Closed ∧ ∀ τ, (S text).lead τ = ρ text ∧ (S text).rest τ = 0) →
    (f.Holds σ ↔ c.Holds ρ σ)

/-- An equation for the one coordinate that the condition gives a value. -/
theorem readAs_equation {c : Condition} {x : String} {b : Expression}
    (htokens : Polyhedral.tokens c.render = .name x :: .compare .equal :: b.tokens)
    (hfixes : c.fixes = [x])
    (hnames : ∀ n, .name n ∈ b.tokens → n ∈ c.uses ∨ c.Mentions n)
    (haffine : (∀ text ∈ c.extents, (E text).Affine) → b.Affine)
    (hholds : ∀ {ρ σ : Valuation}, (∀ text ∈ c.extents, (E text).value σ = ρ text) →
      (σ x = b.value σ ↔ c.Holds ρ σ)) :
    c.ReadAs E S (.ofPair (.ofName x) .equal b) where
  tokens := (Formula.tokens_ofPair _ _ _).trans htokens.symm
  apart := rfl
  fixes := hfixes.symm
  made := by
    intro d hd n hn
    obtain rfl : d = (x, b.tokens) := List.mem_singleton.mp hd
    exact (hnames n hn).imp_right Or.inr
  names := by
    intro n hn
    rw [Formula.tokens_ofPair, List.mem_append, List.mem_cons] at hn
    rcases hn with hn | hn | hn
    · exact Or.inl (by simpa [hfixes, Expression.ofName, Expression.tokens, Product.tokens,
        Factor.tokens] using hn)
    · cases hn
    · exact Or.inr ((hnames n hn).imp_right Or.inr)
  affine := fun h _ => Formula.affine_ofPair trivial (haffine h)
  holds := fun h _ => Formula.holds_ofPair.trans (hholds h)

theorem readAs_is {x : String} (hx : Identifier x) (n : ℕ) :
    (is x n).ReadAs E S (.ofPair (.ofName x) .equal (.ofNumber n)) :=
  readAs_equation ((tokens_isText hx n).trans (Comparison.tokens_pair _ _ _)) rfl
    (by simp [Expression.ofNumber, Expression.tokens, Product.tokens, Factor.tokens])
    (fun _ => trivial) fun _ => Iff.rfl

theorem readAs_same {x y : String} (hx : Identifier x) (hy : Identifier y) :
    (same x y).ReadAs E S (.ofPair (.ofName x) .equal (.ofName y)) := by
  refine readAs_equation ((tokens_equal x y).trans ?_) rfl (fun n hn => Or.inl ?_)
    (fun _ => trivial) fun _ => Iff.rfl
  · rw [tokens_of_identifier hx, tokens_of_identifier hy]
    rfl
  · simpa [uses, Expression.ofName, Expression.tokens, Product.tokens, Factor.tokens] using hn

/-- An extent is moved by as a unit, whatever expression it is. -/
theorem readAs_moved {x y extent : String} (hx : Identifier x) (hy : Identifier y)
    (he : (E extent).tokens = Polyhedral.tokens extent) :
    (moved x y extent).ReadAs E S
      (.ofPair (.ofName x) .equal (.plus (.ofName y) (.single (.enclosed (E extent))))) := by
  have htext : (moved x y extent).render = x ++ " = " ++ y ++ "+(" ++ extent ++ ")" := rfl
  have hsigns : Polyhedral.tokens "+(" = [.plus, .opening] := by decide
  have hclosing : Polyhedral.tokens ")" = [.closing] := by decide
  have hsum : (Expression.plus (.ofName y) (.single (.enclosed (E extent)))).tokens =
      .name y :: .plus :: .opening :: ((E extent).tokens ++ [.closing]) := rfl
  refine readAs_equation ?_ rfl (fun n hn => ?_)
    (fun h => ⟨trivial, h extent (List.mem_singleton_self extent)⟩) fun {ρ σ} h => ?_
  · rw [htext, tokens_append_of_starts (by decide), tokens_between (by decide) (by decide),
      tokens_equal, tokens_of_identifier hx, tokens_of_identifier hy, hsigns, hclosing, hsum, he]
    simp
  · rw [hsum] at hn
    have hn : n = y ∨ .name n ∈ (E extent).tokens := by simpa using hn
    rcases hn with rfl | hn
    · exact Or.inl (List.mem_singleton_self n)
    · exact Or.inr ⟨extent, List.mem_singleton_self extent, he ▸ hn⟩
  · show σ x = σ y + (E extent).value σ ↔ σ x = σ y + ρ extent
    rw [h extent (List.mem_singleton_self extent)]

theorem textHolds_is {x : String} (hx : Identifier x) (n : ℕ) :
    TextHolds σ (is x n).render ↔ σ x = n := by
  rw [textHolds_iff (readAs_is (E := fun _ => .ofNumber 0) (S := fun _ => .ofNumber 0) hx n).tokens]
  exact Formula.holds_ofPair

theorem textHolds_same {x y : String} (hx : Identifier x) (hy : Identifier y) :
    TextHolds σ (same x y).render ↔ σ x = σ y := by
  rw [textHolds_iff
    (readAs_same (E := fun _ => .ofNumber 0) (S := fun _ => .ofNumber 0) hx hy).tokens]
  exact Formula.holds_ofPair

theorem textHolds_moved {x y extent : String} (hx : Identifier x) (hy : Identifier y)
    {e : Expression} (he : e.tokens = Polyhedral.tokens extent) :
    TextHolds σ (moved x y extent).render ↔ σ x = σ y + e.value σ := by
  have hread := readAs_moved (E := fun _ => e) (S := fun _ => e) hx hy he
  rw [textHolds_iff hread.tokens]
  exact hread.holds (ρ := fun _ => e.value σ) (fun _ _ => rfl) fun _ h => absurd h List.not_mem_nil

theorem readAs_sum {x y : String} {ys : List String} (hx : Identifier x)
    (hys : ∀ z ∈ y :: ys, Identifier z) :
    (sum x (y :: ys)).ReadAs E S (.ofPair (.ofName x) .equal (.ofNames y ys)) := by
  have htexts : (y :: ys).map Polyhedral.tokens = (y :: ys).map ([Token.name ·]) :=
    List.map_congr_left fun z hz => tokens_of_identifier (hys z hz)
  have hsign : Polyhedral.tokens " + " = [.plus] := by decide
  refine readAs_equation ?_ rfl (fun n hn => Or.inl ?_) (fun _ => ?_) fun _ => ?_
  · rw [render, tokens_equal, tokens_of_identifier hx, tokens_intercalate (by decide) (by decide),
      htexts, hsign, Expression.tokens_ofNames]
    rfl
  · rw [Expression.tokens_ofNames, intercalate_plus] at hn
    simpa [uses] using hn
  · exact affine_foldl_plus ys trivial
  · rw [Expression.value_ofNames]
    rfl

theorem readAs_isNot {x : String} (hx : Identifier x) (n : ℕ) :
    (isNot x n).ReadAs E S (.ofPair (.ofName x) .unequal (.ofNumber n)) where
  tokens := by
    refine (Formula.tokens_ofPair _ _ _).trans (Eq.symm ((tokens_unequal x (toString n)).trans ?_))
    rw [tokens_of_identifier hx, tokens_repr]
    rfl
  apart := rfl
  fixes := rfl
  made := fun d hd => absurd hd List.not_mem_nil
  names := by
    intro m hm
    rw [Formula.tokens_ofPair] at hm
    exact Or.inr (Or.inl (by simpa [uses, Expression.ofName, Expression.ofNumber, Expression.tokens,
      Product.tokens, Factor.tokens] using hm))
  affine := fun _ _ => Formula.affine_ofPair trivial trivial
  holds := fun _ _ => Formula.holds_ofPair

theorem exists_readAs_oneOf {x : String} (hx : Identifier x) {values : List ℕ} (h : values ≠ []) :
    ∃ f, (oneOf x values).ReadAs E S f := by
  let c (n : ℕ) : Comparison := .pair (.ofName x) .equal (.ofNumber n)
  have hcs : values.map c ≠ [] := by simpa using h
  have htexts : (values.map (isText x)).map Polyhedral.tokens =
      (values.map c).map Comparison.tokens := by
    rw [List.map_map, List.map_map]
    exact List.map_congr_left fun n _ => tokens_isText hx n
  have htokens : (Formula.disjunction (values.map c) hcs).tokens =
      Polyhedral.tokens (oneOf x values).render := by
    rw [render, tokens_append_of_starts (by decide), tokens_append_of_ends (by decide),
      tokens_intercalate (by decide) (by decide), htexts]
    rfl
  refine ⟨.disjunction (values.map c) hcs, htokens, trivial, rfl, fun d hd => absurd hd
    List.not_mem_nil, fun n hn => ?_, fun _ _ => ?_, fun _ _ => ?_⟩
  · have hn : .name n ∈ Formula.joined .disj (values.map c) := by simpa [Formula.tokens] using hn
    obtain ⟨_, hc, hn⟩ := Formula.exists_mem_of_mem_joined (by simp) hn
    obtain ⟨m, -, rfl⟩ := List.mem_map.mp hc
    rw [Comparison.tokens_pair] at hn
    exact Or.inr (Or.inl (by simpa [uses, Expression.ofName, Expression.ofNumber, Expression.tokens,
      Product.tokens, Factor.tokens] using hn))
  · exact List.forall_mem_map.mpr fun n _ => ⟨trivial, List.forall_mem_singleton.mpr trivial⟩
  · simp only [Formula.Holds, List.mem_map, exists_exists_and_eq_and, c, Comparison.holds_pair]
    rfl

theorem exists_readAs_tiled {splits : List Split} (hne : splits ≠ [])
    (hnames : ∀ s ∈ splits, Coordinate s.base ∧ Coordinate s.tile)
    (hS : ∀ s ∈ splits, (S s.size).tokens = Polyhedral.tokens s.size) :
    ∃ f, (tiled splits).ReadAs E S f := by
  -- a name in a size is one in a text of the user
  have hmentions : ∀ s ∈ splits, ∀ n, .name n ∈ (S s.size).tokens → (tiled splits).Mentions n :=
    fun s hs n hn => ⟨s.size, List.mem_map_of_mem hs, hS s hs ▸ hn⟩
  refine ⟨tilingFormula (fun s => S s.size) splits hne, tokens_tiled hne hnames hS, trivial, ?_,
    fun d hd n hn => ?_, fun n hn => ?_, fun _ h => ?_, fun _ h => ?_⟩
  · have htiles := congrArg (List.map fun s : Split => s.tile) (List.zipIdx_map_fst 0 splits)
    rw [List.map_map] at htiles
    rw [fixes_tilingFormula, List.map_map]
    exact htiles
  · rw [fixes_tilingFormula] at hd
    obtain ⟨⟨s, i⟩, hs, rfl⟩ := List.mem_map.mp hd
    have hs := List.mem_zipIdx_iff_getElem?.mp hs
    have hmem := List.mem_of_getElem? hs
    have hn : n = s.base ∨ .name n ∈ (S s.size).tokens ∨ n = remainder i := by simpa using hn
    rcases hn with rfl | hn | rfl
    · exact Or.inl (List.mem_map_of_mem hmem)
    · exact Or.inr (Or.inr (hmentions s hmem n hn))
    · exact Or.inr (Or.inl (remainder_mem hs))
  · rcases name_mem_tilingFormula hne hn with hn | ⟨s, hs, rfl | rfl | hn⟩
    · exact Or.inr (Or.inr (Or.inl hn))
    · exact Or.inl (List.mem_map_of_mem hs)
    · exact Or.inr (Or.inl (List.mem_map_of_mem hs))
    · exact Or.inr (Or.inr (Or.inr (hmentions s hs n hn)))
  · exact affine_tilingFormula hne fun s hs => h s.size (List.mem_map_of_mem hs)
  · have h := List.forall_mem_map.mp h
    rw [holds_tilingFormula hne hnames fun s hs => (h s hs).1]
    refine forall₂_congr fun s hs => exists_congr fun r => ?_
    rw [Split.Fits, ← Expression.lead_add_rest, ((h s hs).2 _).1, ((h s hs).2 _).2, Int.add_zero,
      Int.add_zero, and_assoc]

/-- The text of a condition is a formula. -/
theorem exists_readAs {c : Condition} (hfilled : c.Filled)
    (hnames : ∀ n, n ∈ c.fixes ∨ n ∈ c.uses → Coordinate n)
    (hextents : ∀ text ∈ c.extents, (E text).tokens = Polyhedral.tokens text)
    (hsizes : ∀ text ∈ c.sizes, (S text).tokens = Polyhedral.tokens text) :
    ∃ f, c.ReadAs E S f := by
  have hidentifier : ∀ n, n ∈ c.fixes ∨ n ∈ c.uses → Identifier n := fun n hn =>
    (hnames n hn).toIdentifier
  cases c with
  | is x n => exact ⟨_, readAs_is (hidentifier x (by simp [fixes])) n⟩
  | isNot x n => exact ⟨_, readAs_isNot (hidentifier x (by simp [uses])) n⟩
  | oneOf x values => exact exists_readAs_oneOf (hidentifier x (by simp [uses])) hfilled
  | same x y =>
    exact ⟨_, readAs_same (hidentifier x (by simp [fixes])) (hidentifier y (by simp [uses]))⟩
  | moved x y extent =>
    exact ⟨_, readAs_moved (hidentifier x (by simp [fixes])) (hidentifier y (by simp [uses]))
      (hextents extent (List.mem_singleton_self extent))⟩
  | sum x terms =>
    obtain ⟨y, ys, rfl⟩ := List.exists_cons_of_ne_nil hfilled
    exact ⟨_, readAs_sum (hidentifier x (by simp [fixes])) fun z hz => hidentifier z (Or.inr hz)⟩
  | tiled splits =>
    refine exists_readAs_tiled hfilled (fun s hs => ?_) fun s hs => ?_
    · exact ⟨hnames s.base (Or.inr (List.mem_map_of_mem hs)),
        hnames s.tile (Or.inl (List.mem_map_of_mem hs))⟩
    · exact hsizes s.size (List.mem_map_of_mem hs)

/-- A condition speaks of the coordinates that it gives a value or depends on. -/
theorem holds_congr {c : Condition} (hfixes : ∀ n ∈ c.fixes, σ n = τ n)
    (huses : ∀ n ∈ c.uses, σ n = τ n) : c.Holds ρ σ ↔ c.Holds ρ τ := by
  cases c with
  | is name value =>
    show σ name = _ ↔ τ name = _
    rw [hfixes name (by simp [fixes])]
  | isNot name value =>
    show σ name ≠ _ ↔ τ name ≠ _
    rw [huses name (by simp [uses])]
  | oneOf name values =>
    show (∃ value ∈ values, σ name = _) ↔ ∃ value ∈ values, τ name = _
    rw [huses name (by simp [uses])]
  | same out base =>
    show σ out = σ base ↔ τ out = τ base
    rw [hfixes out (by simp [fixes]), huses base (by simp [uses])]
  | moved out base extent =>
    show σ out = σ base + _ ↔ τ out = τ base + _
    rw [hfixes out (by simp [fixes]), huses base (by simp [uses])]
  | sum out terms =>
    show σ out = (terms.map σ).sum ↔ τ out = (terms.map τ).sum
    have hterms : terms.map σ = terms.map τ := List.map_congr_left huses
    rw [hfixes out (by simp [fixes]), hterms]
  | tiled splits =>
    refine forall₂_congr fun s hs => exists_congr fun r => ?_
    rw [huses s.base (List.mem_map_of_mem hs), hfixes s.tile (List.mem_map_of_mem hs)]

end Condition

/-! ### Lists that go along with each other -/

section Forall₂

variable {α β : Type*} {R : α → β → Prop} {as : List α} {bs : List β}

theorem exists_forall₂ (h : ∀ a ∈ as, ∃ b, R a b) : ∃ bs, List.Forall₂ R as bs := by
  induction as with
  | nil => exact ⟨[], .nil⟩
  | cons a as ih =>
    obtain ⟨⟨b, hb⟩, hrest⟩ := List.forall_mem_cons.mp h
    obtain ⟨bs, hbs⟩ := ih hrest
    exact ⟨b :: bs, .cons hb hbs⟩

theorem exists_iff_of_forall₂ {P : α → Prop} {Q : β → Prop} (h : List.Forall₂ R as bs)
    (hPQ : ∀ a ∈ as, ∀ b, R a b → (Q b ↔ P a)) : (∃ b ∈ bs, Q b) ↔ ∃ a ∈ as, P a := by
  induction h with
  | nil => simp
  | cons hab _ ih =>
    obtain ⟨hhead, hrest⟩ := List.forall_mem_cons.mp hPQ
    simp only [List.mem_cons, exists_eq_or_imp, hhead _ hab, ih hrest]

theorem forall_iff_of_forall₂ {P : α → Prop} {Q : β → Prop} (h : List.Forall₂ R as bs)
    (hPQ : ∀ a ∈ as, ∀ b, R a b → (Q b ↔ P a)) : (∀ b ∈ bs, Q b) ↔ ∀ a ∈ as, P a := by
  have hnot := exists_iff_of_forall₂ h fun a ha b hab => not_congr (hPQ a ha b hab)
  simpa using not_congr hnot

theorem exists_of_forall₂ (h : List.Forall₂ R as bs) {b : β} (hb : b ∈ bs) : ∃ a ∈ as, R a b := by
  induction h with
  | nil => exact absurd hb List.not_mem_nil
  | cons hab _ ih =>
    rcases List.mem_cons.mp hb with rfl | hb
    · exact ⟨_, List.mem_cons_self, hab⟩
    · obtain ⟨a, ha, hr⟩ := ih hb
      exact ⟨a, List.mem_cons_of_mem _ ha, hr⟩

theorem map_eq_of_forall₂ {γ : Type*} {f : α → γ} {g : β → γ} (h : List.Forall₂ R as bs)
    (hfg : ∀ a b, R a b → g b = f a) : bs.map g = as.map f := by
  induction h with
  | nil => rfl
  | cons hab _ ih => rw [List.map_cons, List.map_cons, hfg _ _ hab, ih]

theorem isChain_of_forall₂ {S : α → α → Prop} {T : β → β → Prop} (h : List.Forall₂ R as bs)
    (hST : ∀ {a a' b b'}, R a b → R a' b' → S a a' → T b b') (hchain : as.IsChain S) :
    bs.IsChain T := by
  induction h with
  | nil => exact .nil
  | cons hab hrest ih =>
    cases hrest with
    | nil => exact .singleton _
    | cons hab' _ =>
      obtain ⟨hfirst, hchain⟩ := List.isChain_cons_cons.mp hchain
      exact .cons_cons (hST hab hab' hfirst) (ih hchain)

theorem getLast?_of_forall₂ (h : List.Forall₂ R as bs) {a : α} (ha : as.getLast? = some a) :
    ∃ b, bs.getLast? = some b ∧ R a b := by
  induction h with
  | nil => cases ha
  | @cons a' b' _ _ hab hrest ih =>
    cases hrest with
    | nil => exact ⟨b', rfl, Option.some.inj ha ▸ hab⟩
    | cons hab' hrest =>
      rw [List.getLast?_cons_cons] at ha ⊢
      exact ih ha

end Forall₂

/-! ### Clauses -/

namespace Clause

/-- Every far coordinate that is not a near one is given a value once, from near coordinates. -/
structure WellScoped (c : Clause) : Prop where
  fixed : ∀ n ∈ c.output, n ∉ c.input → (c.conditions.flatMap Condition.fixes).count n = 1
  uses : ∀ condition ∈ c.conditions, ∀ n ∈ condition.uses, n ∈ c.input
  scope : ∀ condition ∈ c.conditions, ∀ n ∈ condition.fixes, n ∈ c.input ∨ n ∈ c.output

/-- The clause is well scoped, every name in it is one token, and no list in a condition is empty. -/
structure Legible (c : Clause) : Prop where
  source : c.source = "" ∨ Identifier c.source
  names : ∀ n, n ∈ c.input ∨ n ∈ c.output → Coordinate n
  wellScoped : c.WellScoped
  filled : ∀ condition ∈ c.conditions, condition.Filled

def extents (c : Clause) : List String := c.conditions.flatMap Condition.extents

def sizes (c : Clause) : List String := c.conditions.flatMap Condition.sizes

/-- The text of the clause is what was read, condition by condition. -/
structure ReadAs (E S : String → Expression) (c : Clause) (d : ParsedClause) : Prop where
  source : d.source = c.source
  input : d.input = c.input
  output : d.output = c.output
  conditions : List.Forall₂ (Condition.ReadAs E S) c.conditions d.conditions

variable {c : Clause} {d : ParsedClause}

theorem Legible.exists_readAs (h : c.Legible)
    (hextents : ∀ text ∈ c.extents, (E text).tokens = tokens text)
    (hsizes : ∀ text ∈ c.sizes, (S text).tokens = tokens text) : ∃ d, c.ReadAs E S d := by
  obtain ⟨fs, hfs⟩ : ∃ fs, List.Forall₂ (Condition.ReadAs E S) c.conditions fs := by
    refine exists_forall₂ fun condition hcondition => ?_
    refine Condition.exists_readAs (h.filled condition hcondition) (fun n hn => ?_)
      (fun text htext => ?_) fun text htext => ?_
    · refine h.names n ?_
      rcases hn with hn | hn
      · exact h.wellScoped.scope condition hcondition n hn
      · exact Or.inl (h.wellScoped.uses condition hcondition n hn)
    · exact hextents text (List.mem_flatMap.mpr ⟨condition, hcondition, htext⟩)
    · exact hsizes text (List.mem_flatMap.mpr ⟨condition, hcondition, htext⟩)
  refine ⟨⟨c.source, c.input, c.output, fs, fun f hf => ?_⟩, rfl, rfl, rfl, hfs⟩
  obtain ⟨condition, -, hread⟩ := exists_of_forall₂ hfs hf
  exact hread.apart

theorem tokens_tuple {names : List String} (h : ∀ n ∈ names, Identifier n) :
    tokens (",".intercalate names) = listed names := by
  have hcomma : tokens "," = [.comma] := by decide
  have htexts : names.map tokens = names.map ([Token.name ·]) :=
    List.map_congr_left fun n hn => tokens_of_identifier (h n hn)
  rw [tokens_intercalate (by decide) (by decide), htexts, hcomma]
  rfl

/-- The brackets and the arrow keep two tuples apart. -/
theorem tokens_arrow (near far : String) : tokens ("[" ++ near ++ "] -> [" ++ far ++ "]") =
    .openBracket :: (tokens near ++ .closeBracket :: .arrow :: .openBracket ::
      (tokens far ++ [.closeBracket])) := by
  have hopen : tokens "[" = [.openBracket] := by decide
  have harrow : tokens "] -> [" = [.closeBracket, .arrow, .openBracket] := by decide
  have hclose : tokens "]" = [.closeBracket] := by decide
  rw [tokens_append_of_starts (by decide), tokens_between (by decide) (by decide),
    tokens_append_of_ends (by decide), hopen, harrow, hclose]
  simp

theorem tokens_clauseText (near far : String) (conditions : List String) :
    tokens (clauseText near far conditions) =
      .openBracket :: (tokens near ++ .closeBracket :: .arrow :: .openBracket ::
        (tokens far ++ .closeBracket ::
          if conditions = [] then [] else .colon :: [.conj].intercalate (conditions.map tokens))) := by
  have hcolon : tokens " : " = [.colon] := by decide
  have hand : tokens " and " = [.conj] := by decide
  cases conditions with
  | nil => simp [clauseText, tokens_arrow]
  | cons condition rest =>
    have htext : clauseText near far (condition :: rest) = "[" ++ near ++ "] -> [" ++ far ++ "]" ++
        " : " ++ " and ".intercalate (condition :: rest) := rfl
    rw [htext, tokens_between (by decide) (by decide), tokens_arrow, hcolon,
      tokens_intercalate (by decide) (by decide), hand]
    simp

theorem startsApart_clauseText (near far : String) (conditions : List String) :
    startsApart (clauseText near far conditions) := by
  have hopen : startsApart "[" := by decide
  have harrow : startsApart ("[" ++ near ++ "] -> [" ++ far ++ "]") :=
    startsApart_append (startsApart_append (startsApart_append (startsApart_append hopen _) _) _) _
  cases conditions with
  | nil => exact harrow
  | cons condition rest => exact startsApart_append (startsApart_append harrow _) _

theorem sourceTokens_eq {source : String} (h : source = "" ∨ Identifier source) :
    ParsedClause.sourceTokens source = tokens source := by
  rcases h with rfl | h
  · rfl
  · have hne : source ≠ "" := by
      rintro rfl
      exact absurd h (by decide)
    rw [ParsedClause.sourceTokens, if_neg hne, tokens_of_identifier h]

theorem ReadAs.tokens_eq (hread : c.ReadAs E S d) (h : c.Legible) :
    d.tokens = tokens c.render := by
  have hconditions : d.conditions.map Formula.tokens =
      (c.conditions.map (·.render)).map tokens := by
    rw [List.map_map]
    exact map_eq_of_forall₂ hread.conditions fun _ _ hcondition => hcondition.tokens
  have hnil : d.conditions = [] ↔ c.conditions.map (·.render) = [] := by
    rw [← List.map_eq_nil_iff (f := Formula.tokens), hconditions, List.map_eq_nil_iff]
  have hinput := tokens_tuple fun n hn => (h.names n (Or.inl hn)).toIdentifier
  have houtput := tokens_tuple fun n hn => (h.names n (Or.inr hn)).toIdentifier
  rw [render, tokens_append_of_starts (startsApart_clauseText _ _ _), tokens_clauseText, hinput,
    houtput, ParsedClause.tokens, hread.source, hread.input, hread.output, sourceTokens_eq h.source,
    ParsedClause.guardTokens, conjoined, hconditions]
  simp only [hnil]

/-- A condition of a clause that was read comes from one of the clause. -/
theorem ReadAs.exists_condition (hread : c.ReadAs E S d) {f : Formula} (hf : f ∈ d.conditions) :
    ∃ condition ∈ c.conditions, condition.ReadAs E S f :=
  exists_of_forall₂ hread.conditions hf

/-- What is read of a well scoped clause is well scoped. -/
theorem ReadAs.wellScoped (hread : c.ReadAs E S d) (h : c.WellScoped) {U : List String}
    (hU : ∀ text ∈ c.extents ++ c.sizes, ∀ n, .name n ∈ tokens text → n ∈ U) :
    d.WellScoped U := by
  have hmentions : ∀ condition ∈ c.conditions, ∀ n, condition.Mentions n → n ∈ U := by
    rintro condition hcondition n ⟨text, htext, hn⟩
    refine hU text ?_ n hn
    rcases List.mem_append.mp htext with htext | htext
    · exact List.mem_append_left _ (List.mem_flatMap.mpr ⟨condition, hcondition, htext⟩)
    · exact List.mem_append_right _ (List.mem_flatMap.mpr ⟨condition, hcondition, htext⟩)
  constructor
  · have hfixes : (d.conditions.flatMap Formula.fixes).map Prod.fst =
        c.conditions.flatMap Condition.fixes := by
      rw [List.map_flatMap, List.flatMap_def, List.flatMap_def,
        map_eq_of_forall₂ hread.conditions fun _ _ hcondition => hcondition.fixes]
    rw [hfixes, hread.input, hread.output]
    exact h.fixed
  · intro f hf d hd n hn
    obtain ⟨condition, hcondition, hf⟩ := hread.exists_condition hf
    rw [hread.input]
    rcases hf.made d hd n hn with hn | hn | hn
    · exact Or.inl (h.uses condition hcondition n hn)
    · exact Or.inr (Or.inl hn)
    · exact Or.inr (Or.inr (hmentions condition hcondition n hn))
  · rintro f hf n ⟨hn, hfree⟩
    obtain ⟨condition, hcondition, hf⟩ := hread.exists_condition hf
    rw [hread.input, hread.output]
    rcases hf.names n hn with hn | hn | hn | hn
    · exact (h.scope condition hcondition n hn).imp_right Or.inl
    · exact Or.inl (h.uses condition hcondition n hn)
    · exact absurd hn hfree
    · exact Or.inr (Or.inr (hmentions condition hcondition n hn))

/-- A clause relates what is read of it relates, if its texts have the values that `ρ` gives them
and no symbol is a coordinate. -/
theorem ReadAs.relates_iff (hread : c.ReadAs E S d) (h : c.WellScoped) {symbols : List String}
    (hapart : ∀ n ∈ symbols, n ∉ c.input ∧ n ∉ c.output)
    (hextents : ∀ text ∈ c.extents, ∀ σ : Valuation, (∀ n ∈ symbols, σ n = π n) →
      (E text).value σ = ρ text)
    (hsizes : ∀ text ∈ c.sizes, (S text).Closed ∧
      ∀ τ, (S text).lead τ = ρ text ∧ (S text).rest τ = 0) {p q : Point} :
    d.Relates symbols π p q ↔ c.Relates ρ p q := by
  have hholds : ∀ σ : Valuation, (∀ n ∈ symbols, σ n = π n) →
      ((∀ f ∈ d.conditions, f.Holds σ) ↔ ∀ condition ∈ c.conditions, condition.Holds ρ σ) := by
    intro σ hσ
    refine forall_iff_of_forall₂ hread.conditions fun condition hcondition f hf =>
      hf.holds (fun text htext => ?_) fun text htext => ?_
    · exact hextents text (List.mem_flatMap.mpr ⟨condition, hcondition, htext⟩) σ hσ
    · exact hsizes text (List.mem_flatMap.mpr ⟨condition, hcondition, htext⟩)
  unfold ParsedClause.Relates Relates
  rw [hread.source, hread.input, hread.output]
  refine and_congr_right fun _ => and_congr_right fun _ => ?_
  constructor
  · rintro ⟨σ, hσ, hp, hq, hall⟩
    exact ⟨σ, hp, hq, (hholds σ hσ).mp hall⟩
  · rintro ⟨σ, hp, hq, hall⟩
    -- conditions speak of coordinates, so the symbols may have any value
    let τ : Valuation := fun n => if n ∈ c.input ∨ n ∈ c.output then σ n else π n
    have hcoordinate : ∀ n, n ∈ c.input ∨ n ∈ c.output → τ n = σ n := fun n hn => if_pos hn
    have hsymbol : ∀ n ∈ symbols, τ n = π n := fun n hn =>
      if_neg (not_or.mpr (hapart n hn))
    refine ⟨τ, hsymbol, ?_, ?_, (hholds τ hsymbol).mpr fun condition hcondition => ?_⟩
    · rw [← hp]
      exact List.map_congr_left fun n hn => hcoordinate n (Or.inl hn)
    · rw [← hq]
      exact List.map_congr_left fun n hn => hcoordinate n (Or.inr hn)
    · refine (Condition.holds_congr ?_ ?_).mpr (hall condition hcondition)
      · exact fun n hn => hcoordinate n (h.scope condition hcondition n hn)
      · exact fun n hn => hcoordinate n (Or.inl (h.uses condition hcondition n hn))

end Clause

/-! ### Maps -/

/-- The text is an expression over the names in `U`. -/
def ExpressedIn (U : List String) (text : String) : Prop :=
  ∃ e : Expression, e.tokens = tokens text ∧ ∀ n, .name n ∈ e.tokens → n ∈ U

/-- The text is an affine expression over the names in `U` that has this value. -/
def Denotes (U : List String) (π : Valuation) (text : String) (value : ℤ) : Prop :=
  ∃ e : Expression, e.tokens = tokens text ∧ e.Affine ∧ (∀ n, .name n ∈ e.tokens → n ∈ U) ∧
    e.value π = value

/-- A number is an expression without names. -/
theorem denotes_int (U : List String) (π : Valuation) (z : ℤ) : Denotes U π (toString z) z := by
  cases z with
  | ofNat n =>
    refine ⟨.ofNumber n, (tokens_repr n).symm, trivial, ?_, rfl⟩
    simp [Expression.ofNumber, Expression.tokens, Product.tokens, Factor.tokens]
  | negSucc n =>
    refine ⟨.single (.single (.negated (.number (n + 1)))), (tokens_neg (n + 1)).symm, trivial, ?_,
      rfl⟩
    simp [Expression.tokens, Product.tokens, Factor.tokens]

theorem expressedIn_int (U : List String) (z : ℤ) : ExpressedIn U (toString z) := by
  obtain ⟨e, htokens, -, hnames, -⟩ := denotes_int U (fun _ => 0) z
  exact ⟨e, htokens, hnames⟩

/-- The text is an expression without names that has this value, and all of it in the first
product. -/
def DenotesUnit (text : String) (value : ℤ) : Prop :=
  ∃ e : Expression, e.tokens = tokens text ∧ e.Closed ∧ ∀ σ, e.lead σ = value ∧ e.rest σ = 0

theorem denotesUnit_of_tokens {text : String} {n : ℕ} (h : tokens text = [.number n]) :
    DenotesUnit text n := by
  refine ⟨.ofNumber n, h.symm, fun x hx => ?_, fun σ => ⟨rfl, rfl⟩⟩
  cases List.mem_singleton.mp hx

theorem DenotesUnit.denotes {text : String} {value : ℤ} (h : DenotesUnit text value)
    (U : List String) (π : Valuation) : Denotes U π text value := by
  obtain ⟨e, htokens, hclosed, hparts⟩ := h
  refine ⟨e, htokens, e.affine_of_closed hclosed, fun n hn => absurd hn (hclosed n), ?_⟩
  rw [← e.lead_add_rest, (hparts π).1, (hparts π).2, Int.add_zero]

/-- Readers for all texts that can be read. -/
theorem exists_reader (U : List String) : ∃ E : String → Expression, ∀ text, ExpressedIn U text →
    (E text).tokens = tokens text ∧ ∀ n, .name n ∈ tokens text → n ∈ U := by
  have : Nonempty Expression := ⟨.ofNumber 0⟩
  have hread : ∀ text, ∃ e : Expression, ExpressedIn U text →
      e.tokens = tokens text ∧ ∀ n, .name n ∈ tokens text → n ∈ U := by
    intro text
    by_cases h : ExpressedIn U text
    · obtain ⟨e, htokens, hnames⟩ := h
      exact ⟨e, fun _ => ⟨htokens, htokens ▸ hnames⟩⟩
    · exact ⟨.ofNumber 0, fun h' => absurd h' h⟩
  choose E hE using hread
  exact ⟨E, hE⟩

namespace UnionMap

/-- Every symbol and every clause of the map can be read. -/
structure Legible (m : UnionMap) : Prop where
  symbols : ∀ n ∈ m.symbols, Identifier n
  clauses : ∀ c ∈ m.clauses, c.Legible

def extents (m : UnionMap) : List String := m.clauses.flatMap Clause.extents

def sizes (m : UnionMap) : List String := m.clauses.flatMap Clause.sizes

structure ReadAs (E S : String → Expression) (m : UnionMap) (u : ParsedMap) : Prop where
  parameters : u.parameters = m.symbols
  clauses : List.Forall₂ (Clause.ReadAs E S) m.clauses u.clauses

variable {m : UnionMap} {u : ParsedMap}

theorem Legible.exists_readAs (h : m.Legible)
    (hextents : ∀ text ∈ m.extents, (E text).tokens = tokens text)
    (hsizes : ∀ text ∈ m.sizes, (S text).tokens = tokens text) : ∃ u, m.ReadAs E S u := by
  obtain ⟨ds, hds⟩ : ∃ ds, List.Forall₂ (Clause.ReadAs E S) m.clauses ds := by
    refine exists_forall₂ fun c hc => (h.clauses c hc).exists_readAs (fun text htext => ?_)
      fun text htext => ?_
    · exact hextents text (List.mem_flatMap.mpr ⟨c, hc, htext⟩)
    · exact hsizes text (List.mem_flatMap.mpr ⟨c, hc, htext⟩)
  exact ⟨⟨m.symbols, ds⟩, rfl, hds⟩

theorem tokens_paramsText {symbols : List String} (h : ∀ n ∈ symbols, Identifier n) :
    tokens (paramsText symbols) = ParsedMap.parameterTokens symbols := by
  have hopen : tokens "[" = [.openBracket] := by decide
  have harrow : tokens "] -> " = [.closeBracket, .arrow] := by decide
  unfold paramsText ParsedMap.parameterTokens
  cases symbols with
  | nil => rfl
  | cons n ns =>
    rw [List.isEmpty_cons, if_neg (by simp), if_neg (by simp), tokens_append_of_starts (by decide),
      tokens_append_of_ends (by decide), Clause.tokens_tuple h, hopen, harrow]
    rfl

theorem ReadAs.tokens_eq (hread : m.ReadAs E S u) (h : m.Legible) : u.tokens = tokens m.render := by
  have hopen : tokens "\x7b " = [.openBrace] := by decide
  have hclose : tokens " \x7d" = [.closeBrace] := by decide
  have hsemicolon : tokens "; " = [.semicolon] := by decide
  have hclauses : u.clauses.map ParsedClause.tokens = (m.clauses.map (·.render)).map tokens := by
    rw [List.map_map]
    exact map_eq_of_forall₂ ((List.forall₂_and_left _ _).mpr ⟨h.clauses, hread.clauses⟩)
      fun _ _ hclause => hclause.2.tokens_eq hclause.1
  rw [render, unionText, tokens_append_of_starts (by decide),
    tokens_append_of_ends (endsApart_append (by decide) _), tokens_append_of_starts (by decide),
    tokens_paramsText h.symbols, tokens_intercalate (by decide) (by decide), hopen, hclose,
    hsemicolon, ← hclauses, ParsedMap.tokens, hread.parameters]
  simp

theorem ReadAs.wellScoped (hread : m.ReadAs E S u) (h : m.Legible) {U : List String}
    (hU : ∀ text ∈ m.extents ++ m.sizes, ∀ n, .name n ∈ tokens text → n ∈ U) :
    ∀ d ∈ u.clauses, d.WellScoped U := by
  intro d hd
  obtain ⟨c, hc, hclause⟩ := exists_of_forall₂ hread.clauses hd
  refine hclause.wellScoped (h.clauses c hc).wellScoped fun text htext => hU text ?_
  rcases List.mem_append.mp htext with htext | htext
  · exact List.mem_append_left _ (List.mem_flatMap.mpr ⟨c, hc, htext⟩)
  · exact List.mem_append_right _ (List.mem_flatMap.mpr ⟨c, hc, htext⟩)

theorem ReadAs.accepted (hread : m.ReadAs E S u) (h : m.Legible) (hdistinct : m.symbols.Nodup)
    (hnames : ∀ text ∈ m.extents ++ m.sizes, ∀ n, .name n ∈ tokens text → n ∈ m.symbols)
    (hextents : ∀ text ∈ m.extents, (E text).Affine)
    (hsizes : ∀ text ∈ m.sizes, (S text).Closed) : u.Accepted where
  distinct := hread.parameters ▸ hdistinct
  declared := by
    intro d hd f hf n hn
    rw [hread.parameters]
    exact (hread.wellScoped h hnames d hd).scope f hf n hn
  affine := by
    intro d hd f hf
    obtain ⟨c, hc, hclause⟩ := exists_of_forall₂ hread.clauses hd
    obtain ⟨condition, hcondition, hf⟩ := hclause.exists_condition hf
    refine hf.affine (fun text htext => hextents text ?_) fun text htext => hsizes text ?_
    · exact List.mem_flatMap.mpr ⟨c, hc, List.mem_flatMap.mpr ⟨condition, hcondition, htext⟩⟩
    · exact List.mem_flatMap.mpr ⟨c, hc, List.mem_flatMap.mpr ⟨condition, hcondition, htext⟩⟩

theorem Legible.exists_accepted (h : m.Legible) (hdistinct : m.symbols.Nodup)
    (hextents : ∀ text ∈ m.extents, (E text).tokens = tokens text ∧ (E text).Affine ∧
      ∀ n, .name n ∈ (E text).tokens → n ∈ m.symbols)
    (hsizes : ∀ text ∈ m.sizes, (S text).tokens = tokens text ∧ (S text).Closed) :
    ∃ u, m.ReadAs E S u ∧ u.tokens = tokens m.render ∧ u.Accepted := by
  obtain ⟨u, hread⟩ := h.exists_readAs (fun text htext => (hextents text htext).1)
    fun text htext => (hsizes text htext).1
  refine ⟨u, hread, hread.tokens_eq h, hread.accepted h hdistinct (fun text htext n hn => ?_)
    (fun text htext => (hextents text htext).2.1) fun text htext => (hsizes text htext).2⟩
  rcases List.mem_append.mp htext with htext | htext
  · obtain ⟨htokens, -, hnames⟩ := hextents text htext
    exact hnames n (htokens ▸ hn)
  · obtain ⟨htokens, hclosed⟩ := hsizes text htext
    exact absurd (htokens ▸ hn) (hclosed n)

/-- The text of a map relates the points that the texts of its conditions relate, if the texts of
the user in it are all this expression without names. -/
theorem Legible.textRelates_iff_textHolds (h : m.Legible) (hdistinct : m.symbols.Nodup)
    {e : Expression} (hclosed : e.Closed)
    (htexts : ∀ text ∈ m.extents ++ m.sizes, e.tokens = tokens text) {p q : Point} :
    TextRelates π m.render p q ↔ ∃ c ∈ m.clauses, p.name = c.source ∧ q.name = "" ∧
      ∃ σ : Valuation, (∀ n ∈ m.symbols, σ n = π n) ∧ c.input.map σ = p.coordinates ∧
      c.output.map σ = q.coordinates ∧ ∀ condition ∈ c.conditions, TextHolds σ condition.render := by
  obtain ⟨u, hread, htokens, hu⟩ := h.exists_accepted (E := fun _ => e) (S := fun _ => e) hdistinct
    (fun text htext => ⟨htexts text (List.mem_append_left _ htext), e.affine_of_closed hclosed,
      fun n hn => absurd hn (hclosed n)⟩)
    fun text htext => ⟨htexts text (List.mem_append_right _ htext), hclosed⟩
  rw [Polyhedral.textRelates_iff htokens hu]
  refine exists_iff_of_forall₂ hread.clauses fun c _ d hd => ?_
  unfold ParsedClause.Relates
  rw [hd.source, hd.input, hd.output, hread.parameters]
  refine and_congr_right fun _ => and_congr_right fun _ => exists_congr fun σ => ?_
  refine and_congr_right fun _ => and_congr_right fun _ => and_congr_right fun _ => ?_
  exact forall_iff_of_forall₂ hd.conditions fun _ _ _ hf => (textHolds_iff hf.tokens).symm

/-- A map whose symbols are no coordinates relates what its text relates, if the texts of the user
in it have the values that `ρ` gives them. -/
theorem Legible.textRelates_iff (h : m.Legible) (hdistinct : m.symbols.Nodup)
    (hapart : ∀ c ∈ m.clauses, ∀ n ∈ m.symbols, n ∉ c.input ∧ n ∉ c.output)
    (hextents : ∀ text ∈ m.extents, Denotes m.symbols π text (ρ text))
    (hsizes : ∀ text ∈ m.sizes, DenotesUnit text (ρ text)) {p q : Point} :
    TextRelates π m.render p q ↔ m.Relates ρ p q := by
  have : Nonempty Expression := ⟨.ofNumber 0⟩
  choose! E hEtokens hEaffine hEnames hEvalue using hextents
  choose! S hStokens hSclosed hSparts using hsizes
  obtain ⟨u, hread, htokens, hu⟩ := h.exists_accepted hdistinct
    (fun text htext => ⟨hEtokens text htext, hEaffine text htext, hEnames text htext⟩)
    fun text htext => ⟨hStokens text htext, hSclosed text htext⟩
  rw [Polyhedral.textRelates_iff htokens hu]
  refine exists_iff_of_forall₂ hread.clauses fun c hc d hclause => ?_
  rw [hread.parameters]
  refine hclause.relates_iff (h.clauses c hc).wellScoped (hapart c hc) (fun text htext σ hσ => ?_)
    fun text htext => ?_
  · have htext : text ∈ m.extents := List.mem_flatMap.mpr ⟨c, hc, htext⟩
    rw [← hEvalue text htext]
    exact (E text).value_congr fun n hn => hσ n (hEnames text htext n hn)
  · have htext : text ∈ m.sizes := List.mem_flatMap.mpr ⟨c, hc, htext⟩
    exact ⟨hSclosed text htext, hSparts text htext⟩

/-- A map without symbols and texts of the user relates what its text relates. -/
theorem Legible.textRelates_iff_of_eq_nil (h : m.Legible) (hsymbols : m.symbols = [])
    (hextents : m.extents = []) (hsizes : m.sizes = []) {p q : Point} :
    TextRelates π m.render p q ↔ m.Relates ρ p q :=
  h.textRelates_iff (by simp [hsymbols]) (by simp [hsymbols]) (by simp [hextents])
    (by simp [hsizes])

end UnionMap

/-- Maps that relate what their texts relate do so when they are composed. -/
theorem textsRelate_iff {ms : List UnionMap} (h : ∀ m ∈ ms, ∀ p q : Point,
    TextRelates π m.render p q ↔ m.Relates ρ p q) {p q : Point} :
    TextsRelate π (ms.map UnionMap.render) p q ↔ Composed ρ ms p q := by
  induction ms generalizing p with
  | nil => rfl
  | cons m ms ih =>
    obtain ⟨hm, hms⟩ := List.forall_mem_cons.mp h
    exact exists_congr fun r => and_congr (hm p r) (ih hms)

end LoopSched.Polyhedral
