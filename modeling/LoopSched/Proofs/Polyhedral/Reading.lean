import LoopSched.Proofs.Polyhedral.MapText
import Mathlib.Data.List.Nodup

/-!
# What the text of a condition says

Texts of the user are pasted into conditions, so a condition means what its text says.  It says what
the condition stands for when each pasted text is read as a unit.  An extent stands in parentheses
and always is one.  A tile size does not: of a sum, only the first product is multiplied with the
tile coordinate.
-/

namespace LoopSched.Polyhedral

variable {ρ σ : Valuation}

/-! ### Expressions in other expressions -/

namespace Expression

def ofName (x : String) : Expression := .single (.single (.name x))

def ofNumber (n : ℕ) : Expression := .single (.single (.number n))

/-- The value of the first product of a sum. -/
def lead (σ : Valuation) : Expression → ℤ
  | single p => p.value σ
  | plus e _ => e.lead σ
  | minus e _ => e.lead σ

/-- The value of what follows the first product of a sum. -/
def rest (σ : Valuation) : Expression → ℤ
  | single _ => 0
  | plus e p => e.rest σ + p.value σ
  | minus e p => e.rest σ - p.value σ

theorem lead_add_rest (e : Expression) : e.lead σ + e.rest σ = e.value σ := by
  fun_induction rest σ e with
  | case1 p => exact Int.add_zero _
  | case2 e p ih => rw [lead, value, ← ih, Int.add_assoc]
  | case3 e p ih => rw [lead, value, ← ih, Int.add_sub_assoc]

theorem lead_congr {τ : Valuation} {e : Expression}
    (h : ∀ x, Token.name x ∈ e.tokens → σ x = τ x) : e.lead σ = e.lead τ := by
  fun_induction lead σ e with
  | case1 p => exact p.value_congr h
  | case2 e p ih => exact ih fun x hx => h x (by simp [tokens, hx])
  | case3 e p ih => exact ih fun x hx => h x (by simp [tokens, hx])

/-- The parts of an expression without names have the same values everywhere. -/
theorem Closed.eq {e : Expression} (h : e.Closed) (σ τ : Valuation) :
    e.value σ = e.value τ ∧ e.lead σ = e.lead τ ∧ e.rest σ = e.rest τ := by
  have hvalue : e.value σ = e.value τ := e.value_congr fun x hx => absurd hx (h x)
  have hlead : e.lead σ = e.lead τ := lead_congr fun x hx => absurd hx (h x)
  refine ⟨hvalue, hlead, ?_⟩
  rw [← lead_add_rest e, ← lead_add_rest e, hlead] at hvalue
  exact Int.add_left_cancel hvalue

end Expression

/-- A factor written in front of a product. -/
def Product.scaled (f : Factor) : Product → Product
  | .single g => .times (.single f) g
  | .times p g => .times (p.scaled f) g

/-- A factor written in front of a sum, as in `f * a + b`. -/
def Expression.scaled (f : Factor) : Expression → Expression
  | .single p => .single (p.scaled f)
  | .plus e p => .plus (e.scaled f) p
  | .minus e p => .minus (e.scaled f) p

theorem Product.tokens_scaled (f : Factor) (p : Product) :
    (p.scaled f).tokens = f.tokens ++ .times :: p.tokens := by
  fun_induction scaled f p with
  | case1 g => rfl
  | case2 p g ih => rw [tokens, ih, tokens, List.append_assoc, List.cons_append]

theorem Product.value_scaled (f : Factor) (p : Product) :
    (p.scaled f).value σ = f.value σ * p.value σ := by
  fun_induction scaled f p with
  | case1 g => rfl
  | case2 p g ih => rw [value, ih, value, Int.mul_assoc]

namespace Expression

theorem tokens_scaled (f : Factor) (e : Expression) :
    (e.scaled f).tokens = f.tokens ++ .times :: e.tokens := by
  fun_induction scaled f e with
  | case1 p => exact p.tokens_scaled f
  | case2 e p ih => rw [tokens, ih, tokens, List.append_assoc, List.cons_append]
  | case3 e p ih => rw [tokens, ih, tokens, List.append_assoc, List.cons_append]

/-- Only the first product of a sum is multiplied. -/
theorem value_scaled (f : Factor) (e : Expression) :
    (e.scaled f).value σ = f.value σ * e.lead σ + e.rest σ := by
  fun_induction scaled f e with
  | case1 p => rw [value, p.value_scaled f, lead, rest, Int.add_zero]
  | case2 e p ih => rw [value, ih, lead, rest, Int.add_assoc]
  | case3 e p ih => rw [value, ih, lead, rest, Int.add_sub_assoc]

end Expression

/-- What a coordinate is multiplied with has no names. -/
theorem Product.affine_scaled {f : Factor} (hf : f.Affine) {p : Product}
    (hp : ∀ x, .name x ∉ p.tokens) : (p.scaled f).Affine := by
  fun_induction scaled f p with
  | case1 g => exact ⟨⟨hf, g.affine_of_closed hp⟩, Or.inr hp⟩
  | case2 p g ih =>
    have hg : ∀ x, .name x ∉ g.tokens := fun x hx => hp x (by simp [tokens, hx])
    exact ⟨⟨ih fun x hx => hp x (by simp [tokens, hx]), g.affine_of_closed hg⟩, Or.inr hg⟩

theorem Expression.affine_scaled {f : Factor} (hf : f.Affine) {e : Expression} (he : e.Closed) :
    (e.scaled f).Affine := by
  fun_induction scaled f e with
  | case1 p => exact p.affine_scaled hf he
  | case2 e p ih =>
    exact ⟨ih fun x hx => he x (by simp [tokens, hx]),
      p.affine_of_closed fun x hx => he x (by simp [tokens, hx])⟩
  | case3 e p ih =>
    exact ⟨ih fun x hx => he x (by simp [tokens, hx]),
      p.affine_of_closed fun x hx => he x (by simp [tokens, hx])⟩

/-! ### Texts of conditions -/

/-- A name that a layout gives to a coordinate; remainders of tilings have other names. -/
structure Coordinate (text : String) : Prop where
  chars : ∀ c ∈ text.toList, Token.isNameChar c = true
  underscore : '_' ∈ text.toList
  head : text.toList.head?.any Char.isAlpha = true
  unbound : text.toList.head? ≠ some 'r'

theorem coordinate_iff {text : String} : Coordinate text ↔
    text.toList.all Token.isNameChar = true ∧ '_' ∈ text.toList ∧
      text.toList.head?.any Char.isAlpha = true ∧ text.toList.head? ≠ some 'r' := by
  rw [List.all_eq_true]
  constructor
  · intro h
    exact ⟨h.chars, h.underscore, h.head, h.unbound⟩
  · rintro ⟨hchars, hunderscore, hhead, hunbound⟩
    exact ⟨hchars, hunderscore, hhead, hunbound⟩

instance (text : String) : Decidable (Coordinate text) := decidable_of_iff' _ coordinate_iff

theorem Coordinate.toIdentifier {text : String} (h : Coordinate text) : Identifier text where
  chars := h.chars
  head := by
    have hhead := h.head
    cases hc : text.toList.head? with
    | none => simp [hc] at hhead
    | some c =>
      rw [hc, Option.any_some] at hhead
      simp [Token.isFirstChar, hhead]
  free := keyword?_of_underscore h.underscore

namespace Comparison

/-- Two expressions that are compared. -/
def pair (a : Expression) (r : Comparator) (b : Expression) : Comparison where
  first := a
  links := [(r, b)]
  linked := List.cons_ne_nil _ _

theorem tokens_pair (a b : Expression) (r : Comparator) :
    (pair a r b).tokens = a.tokens ++ .compare r :: b.tokens := by
  rw [tokens, pair, linkTokens, linkTokens, List.append_nil]

theorem holds_pair {a b : Expression} {r : Comparator} :
    (pair a r b).Holds σ ↔ r.Holds (a.value σ) (b.value σ) := by
  rw [Holds, pair, Linked, Linked, and_true]

end Comparison

namespace Formula

/-- One comparison of two expressions. -/
def ofPair (a : Expression) (r : Comparator) (b : Expression) : Formula :=
  .conjunction [.pair a r b] (List.cons_ne_nil _ _)

theorem tokens_ofPair (a b : Expression) (r : Comparator) :
    (ofPair a r b).tokens = a.tokens ++ .compare r :: b.tokens := by
  rw [ofPair, tokens, joined, List.map_singleton, List.intercalate_singleton,
    Comparison.tokens_pair]

theorem holds_ofPair {a b : Expression} {r : Comparator} :
    (ofPair a r b).Holds σ ↔ r.Holds (a.value σ) (b.value σ) := by
  rw [ofPair, Holds, List.forall_mem_singleton, Comparison.holds_pair]

theorem affine_ofPair {a b : Expression} {r : Comparator} (ha : a.Affine) (hb : b.Affine) :
    (ofPair a r b).Affine :=
  List.forall_mem_singleton.mpr ⟨ha, List.forall_mem_singleton.mpr hb⟩

end Formula

theorem tokens_equal (a b : String) :
    tokens (a ++ " = " ++ b) = tokens a ++ .compare .equal :: tokens b :=
  tokens_between (by decide) (by decide) a b

theorem tokens_unequal (a b : String) :
    tokens (a ++ " != " ++ b) = tokens a ++ .compare .unequal :: tokens b :=
  tokens_between (by decide) (by decide) a b

theorem tokens_atMost (a b : String) :
    tokens (a ++ " <= " ++ b) = tokens a ++ .compare .atMost :: tokens b :=
  tokens_between (by decide) (by decide) a b

theorem tokens_less (a b : String) :
    tokens (a ++ " < " ++ b) = tokens a ++ .compare .less :: tokens b :=
  tokens_between (by decide) (by decide) a b

theorem tokens_and (a b : String) :
    tokens (a ++ " and " ++ b) = tokens a ++ .conj :: tokens b :=
  tokens_between (by decide) (by decide) a b

theorem tokens_isText {x : String} (hx : Identifier x) (n : ℕ) :
    tokens (Condition.isText x n) =
      (Comparison.pair (.ofName x) .equal (.ofNumber n)).tokens := by
  rw [Comparison.tokens_pair]
  refine (tokens_equal x (toString n)).trans ?_
  rw [tokens_of_identifier hx, tokens_repr]
  rfl

/-! ### Sums -/

/-- Names with plus signs between them. -/
def Expression.ofNames (x : String) (xs : List String) : Expression :=
  xs.foldl (fun e y => .plus e (.single (.name y))) (.ofName x)

theorem tokens_foldl_plus (xs : List String) : ∀ e : Expression,
    (xs.foldl (fun e y => .plus e (.single (.name y))) e).tokens =
      e.tokens ++ xs.flatMap fun y => [.plus, .name y] := by
  induction xs with
  | nil => simp
  | cons y xs ih =>
    intro e
    rw [List.foldl_cons, ih, Expression.tokens, List.append_assoc]
    rfl

theorem value_foldl_plus (xs : List String) : ∀ e : Expression,
    (xs.foldl (fun e y => .plus e (.single (.name y))) e).value σ =
      e.value σ + (xs.map σ).sum := by
  induction xs with
  | nil => simp
  | cons y xs ih =>
    intro e
    rw [List.foldl_cons, ih, Expression.value, List.map_cons, List.sum_cons, Int.add_assoc]
    rfl

theorem affine_foldl_plus (xs : List String) : ∀ {e : Expression}, e.Affine →
    (xs.foldl (fun e y => .plus e (.single (.name y))) e).Affine := by
  induction xs with
  | nil => exact fun h => h
  | cons y xs ih => exact fun h => ih ⟨h, trivial⟩

theorem intercalate_plus (x : String) (xs : List String) :
    [Token.plus].intercalate ((x :: xs).map ([Token.name ·])) =
      .name x :: xs.flatMap fun y => [.plus, .name y] := by
  induction xs generalizing x with
  | nil => rfl
  | cons y xs ih =>
    have hrest := ih y
    rw [List.map_cons] at hrest
    rw [List.map_cons, List.map_cons, List.intercalate_cons_cons, hrest]
    rfl

theorem Expression.value_ofNames (y : String) (ys : List String) :
    (Expression.ofNames y ys).value σ = ((y :: ys).map σ).sum :=
  value_foldl_plus ys (.ofName y)

theorem Expression.tokens_ofNames (y : String) (ys : List String) :
    (Expression.ofNames y ys).tokens = [Token.plus].intercalate ((y :: ys).map ([Token.name ·])) := by
  rw [intercalate_plus, Expression.ofNames, tokens_foldl_plus]
  rfl

/-! ### Tilings -/

/-- The remainder lies between zero and the size. -/
def remainderBounds (r : String) (e : Expression) : Comparison where
  first := .ofNumber 0
  links := [(.atMost, .ofName r), (.less, e)]
  linked := List.cons_ne_nil _ _

/-- The coordinate is the tile coordinate, times the text of the size, plus the remainder. -/
def decomposition (r : String) (s : Split) (e : Expression) : Comparison :=
  .pair (.ofName s.base) .equal (.plus (e.scaled (.name s.tile)) (.single (.name r)))

theorem holds_remainderBounds {r : String} {e : Expression} :
    (remainderBounds r e).Holds σ ↔ 0 ≤ σ r ∧ σ r < e.value σ := by
  simp [remainderBounds, Comparison.Holds, Linked, Comparator.Holds, Expression.ofName,
    Expression.ofNumber, Expression.value, Product.value, Factor.value]

theorem holds_decomposition {r : String} {s : Split} {e : Expression} :
    (decomposition r s e).Holds σ ↔
      σ s.base = σ s.tile * e.lead σ + e.rest σ + σ r := by
  rw [decomposition, Comparison.holds_pair, Expression.value, Expression.value_scaled]
  rfl

theorem tokens_remainderBounds (r : String) (e : Expression) : (remainderBounds r e).tokens =
    .number 0 :: .compare .atMost :: .name r :: .compare .less :: e.tokens := by
  simp [remainderBounds, Comparison.tokens, linkTokens, Expression.ofName, Expression.ofNumber,
    Expression.tokens, Product.tokens, Factor.tokens]

/-- The right side of a decomposition. -/
theorem tokens_scaled_plus (r x : String) (e : Expression) :
    (Expression.plus (e.scaled (.name x)) (.single (.name r))).tokens =
      .name x :: .times :: (e.tokens ++ [.plus, .name r]) := by
  rw [Expression.tokens, Expression.tokens_scaled]
  rfl

theorem tokens_decomposition (r : String) (s : Split) (e : Expression) :
    (decomposition r s e).tokens = .name s.base :: .compare .equal :: .name s.tile :: .times ::
      (e.tokens ++ [.plus, .name r]) := by
  rw [decomposition, Comparison.tokens_pair, tokens_scaled_plus]
  rfl

theorem divided?_decomposition (r : String) (s : Split) (e : Expression) :
    (decomposition r s e).divided? =
      some (s.tile, .name s.base :: .times :: (e.tokens ++ [.plus, .name r])) := by
  have hsides : (decomposition r s e).sides? = some ([.name s.base],
      (Expression.plus (e.scaled (.name s.tile)) (.single (.name r))).tokens) := rfl
  rw [Comparison.divided?, hsides, tokens_scaled_plus]

/-- What a tiling says of one coordinate. -/
theorem tokens_splitText {r : String} {s : Split} (hr : Identifier r) (hbase : Identifier s.base)
    (htile : Identifier s.tile) {e : Expression} (he : e.tokens = tokens s.size) :
    tokens (Condition.splitText r s) =
      Formula.joined .conj [remainderBounds r e, decomposition r s e] := by
  have htext : Condition.splitText r s = "0" ++ " <= " ++ r ++ " < " ++ s.size ++ " and " ++
      s.base ++ " = " ++ s.tile ++ " * " ++ s.size ++ " + " ++ r := rfl
  have htimes : ∀ a b : String, tokens (a ++ " * " ++ b) = tokens a ++ .times :: tokens b :=
    tokens_between (by decide) (by decide)
  have hplus : ∀ a b : String, tokens (a ++ " + " ++ b) = tokens a ++ .plus :: tokens b :=
    tokens_between (by decide) (by decide)
  have hzero : tokens "0" = [.number 0] := by decide
  rw [htext, hplus, htimes, tokens_equal, tokens_and, tokens_less, tokens_atMost,
    tokens_of_identifier hr, tokens_of_identifier hbase, tokens_of_identifier htile, ← he, hzero]
  simp [Formula.joined, List.intercalate_cons_cons, tokens_remainderBounds, tokens_decomposition]

theorem textHolds_splitText {r : String} {s : Split} (hr : Identifier r)
    (hbase : Identifier s.base) (htile : Identifier s.tile) {e : Expression}
    (he : e.tokens = tokens s.size) :
    TextHolds σ (Condition.splitText r s) ↔ (0 ≤ σ r ∧ σ r < e.value σ) ∧
      σ s.base = σ s.tile * e.lead σ + e.rest σ + σ r := by
  rw [textHolds_iff (f := .conjunction [remainderBounds r e, decomposition r s e] (by simp))
    (tokens_splitText hr hbase htile he).symm, Formula.Holds, List.forall_mem_cons,
    List.forall_mem_singleton, holds_remainderBounds, holds_decomposition]

/-- The name of the remainder in dimension `d`. -/
def remainder (d : ℕ) : String := s!"r_{d}"

theorem toList_remainder (d : ℕ) : (remainder d).toList = 'r' :: '_' :: Nat.toDigits 10 d := by
  have htext : remainder d = "r_" ++ Nat.repr d := rfl
  rw [htext, String.toList_append, Nat.toList_repr]
  rfl

theorem remainder_injective : Function.Injective remainder := by
  intro d d' h
  have hdigits := congrArg String.toList h
  rw [toList_remainder, toList_remainder, List.cons_inj_right, List.cons_inj_right] at hdigits
  rw [← Nat.ofDigitChars_ten_toDigits (n := d), hdigits, Nat.ofDigitChars_ten_toDigits]

theorem identifier_remainder (d : ℕ) : Identifier (remainder d) where
  chars := by
    rw [toList_remainder]
    intro c hc
    have hc : c = 'r' ∨ c = '_' ∨ c ∈ Nat.toDigits 10 d := by simpa using hc
    rcases hc with rfl | rfl | hc
    · decide
    · decide
    · exact isNameChar_of_mem_toDigits hc
  head := by
    rw [toList_remainder]
    rfl
  free := keyword?_of_underscore (by simp [toList_remainder])

theorem Coordinate.ne_remainder {x : String} (hx : Coordinate x) (d : ℕ) : x ≠ remainder d := by
  rintro rfl
  exact hx.unbound (by rw [toList_remainder]; rfl)

theorem zipWith_splitText (splits : List Split) :
    List.zipWith Condition.splitText (Condition.remainders splits.length) splits =
      splits.zipIdx.map fun s => Condition.splitText (remainder s.2) s.1 := by
  refine List.ext_getElem (by simp [Condition.remainders]) fun d hd hd' => ?_
  simp [Condition.remainders, remainder]

theorem joined_append (word : Token) : ∀ {cs ds : List Comparison}, cs ≠ [] → ds ≠ [] →
    Formula.joined word (cs ++ ds) = Formula.joined word cs ++ word :: Formula.joined word ds
  | [], _, hcs, _ => absurd rfl hcs
  | _, [], _, hds => absurd rfl hds
  | [c], d :: ds, _, _ => by simp [Formula.joined, List.intercalate_cons_cons]
  | c :: c' :: cs, d :: ds, _, hds => by
    have ih := joined_append word (List.cons_ne_nil c' cs) hds
    simp only [Formula.joined, List.cons_append, List.map_cons, List.intercalate_cons_cons] at ih ⊢
    rw [ih]
    simp only [List.append_assoc]

/-- Comparisons that are joined in groups are joined. -/
theorem joined_flatten (word : Token) : ∀ {css : List (List Comparison)}, (∀ cs ∈ css, cs ≠ []) →
    Formula.joined word css.flatten = [word].intercalate (css.map (Formula.joined word))
  | [], _ => rfl
  | [cs], _ => by simp
  | cs :: ds :: css, h => by
    obtain ⟨hcs, hrest⟩ := List.forall_mem_cons.mp h
    have hne : (ds :: css).flatten ≠ [] := by
      simp [(List.forall_mem_cons.mp hrest).1]
    rw [List.flatten_cons, joined_append word hcs hne, joined_flatten word hrest]
    simp only [List.map_cons, List.intercalate_cons_cons, List.append_assoc, List.singleton_append]

theorem nodup_remainders (count : ℕ) : (Condition.remainders count).Nodup :=
  List.nodup_range.map remainder_injective

theorem getElem_remainders {count d : ℕ} (hd : d < (Condition.remainders count).length) :
    (Condition.remainders count)[d] = remainder d := by
  simp [Condition.remainders, remainder]

theorem Coordinate.not_mem_remainders {x : String} (hx : Coordinate x) (count : ℕ) :
    x ∉ Condition.remainders count := by
  intro hmem
  obtain ⟨d, -, rfl⟩ := List.mem_map.mp hmem
  exact hx.ne_remainder d rfl

section Tiling

variable {splits : List Split} {E : Split → Expression}

/-- The comparisons of a tiling, two for each of its dimensions. -/
def tilingParts (E : Split → Expression) (splits : List Split) : List Comparison :=
  (splits.zipIdx.map fun s => [remainderBounds (remainder s.2) (E s.1),
    decomposition (remainder s.2) s.1 (E s.1)]).flatten

theorem tilingParts_ne_nil (E : Split → Expression) (h : splits ≠ []) :
    tilingParts E splits ≠ [] := by
  obtain ⟨s, rest, rfl⟩ := List.exists_cons_of_ne_nil h
  simp [tilingParts]

theorem remainders_ne_nil (h : splits ≠ []) : Condition.remainders splits.length ≠ [] := by
  simpa [Condition.remainders] using h

/-- All dimensions of a tiling stand under one quantifier. -/
def tilingFormula (E : Split → Expression) (splits : List Split) (h : splits ≠ []) : Formula :=
  .quantified (Condition.remainders splits.length) (tilingParts E splits) (remainders_ne_nil h)
    (tilingParts_ne_nil E h)

theorem tokens_remainders (count : ℕ) :
    tokens (", ".intercalate (Condition.remainders count)) = listed (Condition.remainders count) := by
  have hremainders : (Condition.remainders count).map tokens =
      (Condition.remainders count).map ([Token.name ·]) := by
    refine List.map_congr_left fun r hr => ?_
    obtain ⟨d, -, rfl⟩ := List.mem_map.mp hr
    exact tokens_of_identifier (identifier_remainder d)
  have hcomma : tokens ", " = [.comma] := by decide
  rw [tokens_intercalate (by decide) (by decide), hremainders, hcomma]
  rfl

theorem tokens_tiled (hne : splits ≠ [])
    (hnames : ∀ s ∈ splits, Coordinate s.base ∧ Coordinate s.tile)
    (hE : ∀ s ∈ splits, (E s).tokens = tokens s.size) :
    (tilingFormula E splits hne).tokens = tokens (Condition.tiled splits).render := by
  have hopening : tokens "exists (" = [.quantifier, .opening] := by decide
  have hclosing : tokens ")" = [.closing] := by decide
  have hcolon : tokens " : " = [.colon] := by decide
  have hand : tokens " and " = [.conj] := by decide
  have hparts : (splits.zipIdx.map fun s => Condition.splitText (remainder s.2) s.1).map tokens =
      (splits.zipIdx.map fun s => [remainderBounds (remainder s.2) (E s.1),
        decomposition (remainder s.2) s.1 (E s.1)]).map (Formula.joined .conj) := by
    rw [List.map_map, List.map_map]
    refine List.map_congr_left fun s hs => ?_
    obtain ⟨hbase, htile⟩ := hnames s.1 (List.fst_mem_of_mem_zipIdx hs)
    simp only [Function.comp_apply]
    exact tokens_splitText (identifier_remainder s.2) hbase.toIdentifier htile.toIdentifier
      (hE s.1 (List.fst_mem_of_mem_zipIdx hs))
  have htext : ∀ a b : String, tokens ("exists (" ++ a ++ " : " ++ b ++ ")") =
      .quantifier :: .opening :: (tokens a ++ .colon :: (tokens b ++ [.closing])) := by
    intro a b
    rw [tokens_append_of_starts (by decide), tokens_between (by decide) (by decide),
      tokens_append_of_ends (by decide), hopening, hclosing, hcolon]
    simp
  refine Eq.symm ((htext _ _).trans ?_)
  rw [tokens_remainders, zipWith_splitText, tokens_intercalate (by decide) (by decide), hparts, hand,
    ← joined_flatten .conj (List.forall_mem_map.mpr fun _ _ => List.cons_ne_nil _ _)]
  rfl

/-- One dimension of a tiling with the remainder `r`, when the size is the expression `e`. -/
def Split.Fits (σ : Valuation) (s : Split) (e : Expression) (r : ℤ) : Prop :=
  (0 ≤ r ∧ r < e.value σ) ∧ σ s.base = σ s.tile * e.lead σ + e.rest σ + r

theorem holds_tilingFormula (hne : splits ≠ [])
    (hnames : ∀ s ∈ splits, Coordinate s.base ∧ Coordinate s.tile)
    (hclosed : ∀ s ∈ splits, (E s).Closed) :
    (tilingFormula E splits hne).Holds σ ↔ ∀ s ∈ splits, ∃ r, s.Fits σ (E s) r := by
  set rs := Condition.remainders splits.length with hrs
  have hlength : rs.length = splits.length := by simp [hrs, Condition.remainders]
  -- values that differ in the remainders only
  have hdims : ∀ τ : Valuation, (∀ n, n ∉ rs → τ n = σ n) →
      ((∀ c ∈ tilingParts E splits, c.Holds τ) ↔
        ∀ (d : ℕ) (s : Split), splits[d]? = some s → s.Fits σ (E s) (τ (remainder d))) := by
    intro τ hτ
    rw [tilingParts, ← List.flatMap_def, List.forall_mem_flatMap]
    simp only [List.forall_mem_cons, List.not_mem_nil, false_implies, implies_true, and_true,
      Prod.forall, List.mem_zipIdx_iff_getElem?, holds_remainderBounds, holds_decomposition]
    rw [forall_comm]
    refine forall₂_congr fun d s => forall_congr' fun hs => ?_
    have hmem := List.mem_of_getElem? hs
    obtain ⟨hbase, htile⟩ := hnames s hmem
    obtain ⟨hvalue, hlead, hrest⟩ := (hclosed s hmem).eq τ σ
    rw [Split.Fits, hvalue, hlead, hrest, hτ _ (hbase.not_mem_remainders _),
      hτ _ (htile.not_mem_remainders _)]
  rw [tilingFormula, Formula.Holds]
  constructor
  · rintro ⟨τ, hτ, hall⟩ s hs
    obtain ⟨d, hd⟩ := List.mem_iff_getElem?.mp hs
    exact ⟨_, (hdims τ hτ).mp hall d s hd⟩
  · intro hall
    -- there is one remainder that fits
    let τ : Valuation := fun n => (splits[rs.idxOf n]?).elim (σ n) fun s =>
      σ s.base - (σ s.tile * (E s).lead σ + (E s).rest σ)
    have hτ : ∀ n, n ∉ rs → τ n = σ n := by
      intro n hn
      have hnone : splits[rs.idxOf n]? = none := by
        rw [List.idxOf_eq_length hn, hlength, List.getElem?_eq_none (Nat.le_refl _)]
      simp only [τ, hnone, Option.elim_none]
    refine ⟨τ, hτ, (hdims τ hτ).mpr fun d s hs => ?_⟩
    have hd : d < rs.length := hlength ▸ (List.getElem?_eq_some_iff.mp hs).1
    obtain ⟨r, hbounds, hbase⟩ := hall s (List.mem_of_getElem? hs)
    have hr : τ (remainder d) = r := by
      have hidx : rs.idxOf (remainder d) = d := by
        rw [← getElem_remainders hd]
        exact (nodup_remainders _).idxOf_getElem d hd
      simp only [τ, hidx, hs, Option.elim_some, hbase]
      ring
    exact hr ▸ ⟨hbounds, hbase⟩

theorem fixes_tilingFormula (hne : splits ≠ []) : (tilingFormula E splits hne).fixes =
    splits.zipIdx.map fun s => (s.1.tile, .name s.1.base :: .times ::
      ((E s.1).tokens ++ [.plus, .name (remainder s.2)])) := by
  show (tilingParts E splits).filterMap _ = _
  rw [tilingParts]
  induction splits.zipIdx with
  | nil => rfl
  | cons s ss ih =>
    have hbounds : ∀ r e, (remainderBounds r e).divided? = none := fun _ _ => rfl
    rw [List.map_cons, List.flatten_cons, List.filterMap_append, ih,
      List.filterMap_cons_none (hbounds _ _),
      List.filterMap_cons_some (divided?_decomposition _ _ _)]
    rfl

/-- Every comparison of a tiling belongs to one of its dimensions. -/
theorem mem_tilingParts {c : Comparison} : c ∈ tilingParts E splits ↔ ∃ s d, splits[d]? = some s ∧
    (c = remainderBounds (remainder d) (E s) ∨ c = decomposition (remainder d) s (E s)) := by
  simp [tilingParts, List.mem_zipIdx_iff_getElem?]

theorem remainder_mem {s : Split} {d : ℕ} (h : splits[d]? = some s) :
    remainder d ∈ Condition.remainders splits.length :=
  List.mem_map_of_mem (List.mem_range.mpr (List.getElem?_eq_some_iff.mp h).1)

/-- The names in the text of a tiling. -/
theorem name_mem_tilingFormula (hne : splits ≠ []) {n : String}
    (h : .name n ∈ (tilingFormula E splits hne).tokens) :
    n ∈ Condition.remainders splits.length ∨
      ∃ s ∈ splits, n = s.tile ∨ n = s.base ∨ .name n ∈ (E s).tokens := by
  have hn : .name n ∈ listed (Condition.remainders splits.length) ∨
      .name n ∈ Formula.joined .conj (tilingParts E splits) := by
    simpa [tilingFormula, Formula.tokens] using h
  rcases hn with hn | hn
  · exact Or.inl (Formula.mem_of_mem_listed hn)
  obtain ⟨c, hc, hn⟩ := Formula.exists_mem_of_mem_joined (by simp) hn
  obtain ⟨s, d, hs, hc⟩ := mem_tilingParts.mp hc
  have hn : n = remainder d ∨ n = s.tile ∨ n = s.base ∨ .name n ∈ (E s).tokens := by
    rcases hc with rfl | rfl
    · have hn : n = remainder d ∨ .name n ∈ (E s).tokens := by
        simpa [tokens_remainderBounds] using hn
      tauto
    · have hn : n = s.base ∨ n = s.tile ∨ .name n ∈ (E s).tokens ∨ n = remainder d := by
        simpa [tokens_decomposition] using hn
      tauto
  rcases hn with rfl | hn
  · exact Or.inl (remainder_mem hs)
  · exact Or.inr ⟨s, List.mem_of_getElem? hs, hn⟩

theorem affine_tilingFormula (hne : splits ≠ []) (hclosed : ∀ s ∈ splits, (E s).Closed) :
    (tilingFormula E splits hne).Affine := by
  intro c hc
  have hc : c ∈ tilingParts E splits := hc
  obtain ⟨s, d, hs, hc⟩ := mem_tilingParts.mp hc
  have hsize := hclosed s (List.mem_of_getElem? hs)
  rcases hc with rfl | rfl
  · refine ⟨trivial, List.forall_mem_cons.mpr ⟨trivial, List.forall_mem_singleton.mpr ?_⟩⟩
    exact Expression.affine_of_closed _ hsize
  · have hscaled := Expression.affine_scaled (f := .name s.tile) trivial hsize
    exact ⟨trivial, List.forall_mem_singleton.mpr ⟨hscaled, trivial⟩⟩

end Tiling

/-- The text of dimension `d` of a tiling holds for some remainder. -/
def Split.Reads (σ : Valuation) (s : Split) (d : ℕ) : Prop :=
  ∃ r : ℤ, TextHolds (Function.update σ (remainder d) r) (Condition.splitText (remainder d) s)

theorem Split.reads_iff {s : Split} (hbase : Coordinate s.base) (htile : Coordinate s.tile)
    {e : Expression} (he : e.tokens = tokens s.size) (hclosed : e.Closed) (d : ℕ) :
    s.Reads σ d ↔ ∃ r, s.Fits σ e r := by
  refine exists_congr fun r => ?_
  obtain ⟨hvalue, hlead, hrest⟩ := hclosed.eq (Function.update σ (remainder d) r) σ
  rw [textHolds_splitText (identifier_remainder d) hbase.toIdentifier htile.toIdentifier he, hvalue,
    hlead, hrest, Function.update_self, Function.update_of_ne (hbase.ne_remainder d),
    Function.update_of_ne (htile.ne_remainder d)]
  rfl

/-- A tiling holds if each of its dimensions does. -/
theorem textHolds_tiled_iff_reads {splits : List Split} (hne : splits ≠ [])
    (hnames : ∀ s ∈ splits, Coordinate s.base ∧ Coordinate s.tile) {E : Split → Expression}
    (hE : ∀ s ∈ splits, (E s).tokens = tokens s.size) (hclosed : ∀ s ∈ splits, (E s).Closed) :
    TextHolds σ (Condition.tiled splits).render ↔
      ∀ (d : ℕ) (s : Split), splits[d]? = some s → s.Reads σ d := by
  rw [textHolds_iff (tokens_tiled hne hnames hE), holds_tilingFormula hne hnames hclosed]
  have hreads : ∀ s ∈ splits, ∀ d, s.Reads σ d ↔ ∃ r, s.Fits σ (E s) r := fun s hs d =>
    s.reads_iff (hnames s hs).1 (hnames s hs).2 (hE s hs) (hclosed s hs) d
  constructor
  · intro hall d s hs
    have hmem := List.mem_of_getElem? hs
    exact (hreads s hmem d).mpr (hall s hmem)
  · intro hall s hs
    obtain ⟨d, hd⟩ := List.mem_iff_getElem?.mp hs
    exact (hreads s hs d).mp (hall d s hd)

/-- A dimension is divided into tiles of the size exactly if the size is one product, up to products
that cancel. -/
theorem Split.fits_iff_ediv {s : Split} (hne : s.base ≠ s.tile) {e : Expression}
    (hclosed : e.Closed) (hpositive : ∀ σ, 0 < e.value σ) :
    (∀ σ, (∃ r, s.Fits σ e r) ↔ σ s.tile = σ s.base / e.value σ) ↔ ∀ σ, e.rest σ = 0 := by
  constructor
  · intro hfits σ
    set n := e.value σ with hn
    have hvalue : ∀ τ, e.value τ = n := fun τ => (hclosed.eq τ σ).1
    have hrest : ∀ τ, e.rest τ = e.rest σ := fun τ => (hclosed.eq τ σ).2.2
    have hn : 0 < n := hpositive σ
    -- the first and the last coordinate of the tile at zero
    have hzero : ∀ x, 0 ≤ x → x < n → ∃ r, (0 ≤ r ∧ r < n) ∧ x = e.rest σ + r := by
      intro x hx hlt
      let τ : Valuation := Function.update (fun _ => 0) s.base x
      have hbase : τ s.base = x := Function.update_self _ _ _
      have htile : τ s.tile = 0 := Function.update_of_ne hne.symm _ _
      obtain ⟨r, hr, hx⟩ := (hfits τ).mpr (by
        rw [htile, hbase, hvalue, Int.ediv_eq_zero_of_lt hx hlt])
      rw [hbase, htile, Int.zero_mul, Int.zero_add, hrest] at hx
      exact ⟨r, hvalue τ ▸ hr, hx⟩
    obtain ⟨r, hr, hfirst⟩ := hzero 0 (Int.le_refl 0) hn
    obtain ⟨r', hr', hlast⟩ := hzero (n - 1) (by omega) (by omega)
    omega
  · intro hrest σ
    rw [← exists_remainder_iff (hpositive σ)]
    refine exists_congr fun r => ?_
    have hlead := e.lead_add_rest (σ := σ)
    rw [hrest, Int.add_zero] at hlead
    rw [Split.Fits, hlead, hrest, Int.add_zero, and_assoc]

end LoopSched.Polyhedral
