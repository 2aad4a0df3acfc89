import LoopSched.Proofs.Polyhedral.Meaning
import LoopSched.Proofs.Polyhedral.Token

/-!
# Grammar of conditions

An expression is a sum of products of factors, so a product binds tighter than a sum and a
parenthesis tighter than both.  A condition compares expressions.  A text is read as the condition
that has its tokens, and the tokens leave no choice: two readings of a text mean the same.
-/

namespace LoopSched.Polyhedral

/-! ### Expressions -/

mutual

inductive Factor where
  | number (value : ℕ)
  | name (text : String)
  | negated (f : Factor)
  | enclosed (e : Expression)

inductive Product where
  | single (f : Factor)
  | times (p : Product) (f : Factor)

inductive Expression where
  | single (p : Product)
  | plus (e : Expression) (p : Product)
  | minus (e : Expression) (p : Product)

end

mutual

def Factor.tokens : Factor → List Token
  | .number n => [.number n]
  | .name x => [.name x]
  | .negated f => .minus :: f.tokens
  | .enclosed e => .opening :: (e.tokens ++ [.closing])

def Product.tokens : Product → List Token
  | .single f => f.tokens
  | .times p f => p.tokens ++ .times :: f.tokens

def Expression.tokens : Expression → List Token
  | .single p => p.tokens
  | .plus e p => e.tokens ++ .plus :: p.tokens
  | .minus e p => e.tokens ++ .minus :: p.tokens

end

mutual

def Factor.value (σ : Valuation) : Factor → ℤ
  | .number n => n
  | .name x => σ x
  | .negated f => -f.value σ
  | .enclosed e => e.value σ

def Product.value (σ : Valuation) : Product → ℤ
  | .single f => f.value σ
  | .times p f => p.value σ * f.value σ

def Expression.value (σ : Valuation) : Expression → ℤ
  | .single p => p.value σ
  | .plus e p => e.value σ + p.value σ
  | .minus e p => e.value σ - p.value σ

end

/-- The tokens that expressions are made of. -/
def Token.isArithmetic : Token → Bool
  | .number _ | .name _ | .plus | .minus | .times | .opening | .closing => true
  | _ => false

mutual

theorem Factor.isArithmetic : ∀ f : Factor, ∀ t ∈ f.tokens, t.isArithmetic = true
  | .number _ => by simp [Factor.tokens, Token.isArithmetic]
  | .name _ => by simp [Factor.tokens, Token.isArithmetic]
  | .negated f => by
    rw [Factor.tokens, List.forall_mem_cons]
    exact ⟨rfl, f.isArithmetic⟩
  | .enclosed e => by
    rw [Factor.tokens, List.forall_mem_cons, List.forall_mem_append, List.forall_mem_singleton]
    exact ⟨rfl, e.isArithmetic, rfl⟩

theorem Product.isArithmetic : ∀ p : Product, ∀ t ∈ p.tokens, t.isArithmetic = true
  | .single f => f.isArithmetic
  | .times p f => by
    rw [Product.tokens, List.forall_mem_append, List.forall_mem_cons]
    exact ⟨p.isArithmetic, rfl, f.isArithmetic⟩

theorem Expression.isArithmetic : ∀ e : Expression, ∀ t ∈ e.tokens, t.isArithmetic = true
  | .single p => p.isArithmetic
  | .plus e p => by
    rw [Expression.tokens, List.forall_mem_append, List.forall_mem_cons]
    exact ⟨e.isArithmetic, rfl, p.isArithmetic⟩
  | .minus e p => by
    rw [Expression.tokens, List.forall_mem_append, List.forall_mem_cons]
    exact ⟨e.isArithmetic, rfl, p.isArithmetic⟩

end

mutual

/-- The value depends on the names in the tokens alone. -/
theorem Factor.value_congr {σ τ : Valuation} : ∀ f : Factor,
    (∀ x, Token.name x ∈ f.tokens → σ x = τ x) → f.value σ = f.value τ
  | .number _, _ => rfl
  | .name x, h => h x (by simp [Factor.tokens])
  | .negated f, h => by
    have hf := f.value_congr fun x hx => h x (by simp [Factor.tokens, hx])
    rw [Factor.value, Factor.value, hf]
  | .enclosed e, h => e.value_congr fun x hx => h x (by simp [Factor.tokens, hx])

theorem Product.value_congr {σ τ : Valuation} : ∀ p : Product,
    (∀ x, Token.name x ∈ p.tokens → σ x = τ x) → p.value σ = p.value τ
  | .single f, h => f.value_congr h
  | .times p f, h => by
    have hp := p.value_congr fun x hx => h x (by simp [Product.tokens, hx])
    have hf := f.value_congr fun x hx => h x (by simp [Product.tokens, hx])
    rw [Product.value, Product.value, hp, hf]

theorem Expression.value_congr {σ τ : Valuation} : ∀ e : Expression,
    (∀ x, Token.name x ∈ e.tokens → σ x = τ x) → e.value σ = e.value τ
  | .single p, h => p.value_congr h
  | .plus e p, h => by
    have he := e.value_congr fun x hx => h x (by simp [Expression.tokens, hx])
    have hp := p.value_congr fun x hx => h x (by simp [Expression.tokens, hx])
    rw [Expression.value, Expression.value, he, hp]
  | .minus e p, h => by
    have he := e.value_congr fun x hx => h x (by simp [Expression.tokens, hx])
    have hp := p.value_congr fun x hx => h x (by simp [Expression.tokens, hx])
    rw [Expression.value, Expression.value, he, hp]

end

/-! ### Tokens have one value -/

/-- What is known between two parentheses: the sum of the complete products, the product so far with
its sign, and whether a factor has to follow. -/
structure Frame where
  sum : ℤ
  product : ℤ
  expects : Bool
deriving DecidableEq

namespace Frame

/-- Nothing is known yet. -/
def start : Frame := ⟨0, 1, true⟩

end Frame

/-- Calculating from left to right, one token at a time, with a frame for each open parenthesis. -/
def press (σ : Valuation) : Token → List Frame → Option (List Frame)
  | .number n, ⟨s, p, true⟩ :: fs => some (⟨s, p * n, false⟩ :: fs)
  | .name x, ⟨s, p, true⟩ :: fs => some (⟨s, p * σ x, false⟩ :: fs)
  | .minus, ⟨s, p, true⟩ :: fs => some (⟨s, -p, true⟩ :: fs)
  | .opening, ⟨s, p, true⟩ :: fs => some (.start :: ⟨s, p, true⟩ :: fs)
  | .plus, ⟨s, p, false⟩ :: fs => some (⟨s + p, 1, true⟩ :: fs)
  | .minus, ⟨s, p, false⟩ :: fs => some (⟨s + p, -1, true⟩ :: fs)
  | .times, ⟨s, p, false⟩ :: fs => some (⟨s, p, true⟩ :: fs)
  | .closing, ⟨s, p, false⟩ :: ⟨s', p', true⟩ :: fs => some (⟨s', p' * (s + p), false⟩ :: fs)
  | _, _ => none

def calculate (σ : Valuation) : List Token → List Frame → Option (List Frame)
  | [], fs => some fs
  | t :: ts, fs => (press σ t fs).bind (calculate σ ts)

variable {σ : Valuation}

theorem calculate_append (ts us : List Token) (fs : List Frame) :
    calculate σ (ts ++ us) fs = (calculate σ ts fs).bind (calculate σ us) := by
  induction ts generalizing fs with
  | nil => rfl
  | cons t ts ih =>
    rw [List.cons_append, calculate, calculate]
    cases press σ t fs with
    | none => rfl
    | some gs => exact ih gs

mutual

theorem Factor.calculate_tokens : ∀ (f : Factor) (s p : ℤ) (fs : List Frame),
    calculate σ f.tokens (⟨s, p, true⟩ :: fs) = some (⟨s, p * f.value σ, false⟩ :: fs)
  | .number n, s, p, fs => rfl
  | .name x, s, p, fs => rfl
  | .negated f, s, p, fs => by
    show calculate σ f.tokens (⟨s, -p, true⟩ :: fs) = _
    rw [f.calculate_tokens, Factor.value, neg_mul_comm]
  | .enclosed e, s, p, fs => by
    obtain ⟨a, b, hcalculate, hvalue⟩ := e.calculate_tokens (⟨s, p, true⟩ :: fs)
    show calculate σ (e.tokens ++ [.closing]) (.start :: ⟨s, p, true⟩ :: fs) = _
    rw [calculate_append, hcalculate, Factor.value, ← hvalue]
    rfl

theorem Product.calculate_tokens : ∀ (q : Product) (s p : ℤ) (fs : List Frame),
    calculate σ q.tokens (⟨s, p, true⟩ :: fs) = some (⟨s, p * q.value σ, false⟩ :: fs)
  | .single f, s, p, fs => f.calculate_tokens s p fs
  | .times q f, s, p, fs => by
    rw [Product.tokens, calculate_append, q.calculate_tokens, Option.bind_some]
    show calculate σ f.tokens (⟨s, p * q.value σ, true⟩ :: fs) = _
    rw [f.calculate_tokens, Product.value, Int.mul_assoc]

theorem Expression.calculate_tokens : ∀ (e : Expression) (fs : List Frame), ∃ a b,
    calculate σ e.tokens (.start :: fs) = some (⟨a, b, false⟩ :: fs) ∧ a + b = e.value σ
  | .single p, fs => ⟨0, 1 * p.value σ, p.calculate_tokens 0 1 fs, by simp [Expression.value]⟩
  | .plus e p, fs => by
    obtain ⟨a, b, hcalculate, hvalue⟩ := e.calculate_tokens fs
    refine ⟨a + b, 1 * p.value σ, ?_, by rw [hvalue, Int.one_mul, Expression.value]⟩
    rw [Expression.tokens, calculate_append, hcalculate, Option.bind_some]
    exact p.calculate_tokens (a + b) 1 fs
  | .minus e p, fs => by
    obtain ⟨a, b, hcalculate, hvalue⟩ := e.calculate_tokens fs
    refine ⟨a + b, -1 * p.value σ, ?_, by rw [hvalue, Expression.value]; ring⟩
    rw [Expression.tokens, calculate_append, hcalculate, Option.bind_some]
    exact p.calculate_tokens (a + b) (-1) fs

end

/-- Expressions with the same tokens have the same value. -/
theorem Expression.value_eq {e e' : Expression} (h : e.tokens = e'.tokens) :
    e.value σ = e'.value σ := by
  obtain ⟨a, b, hcalculate, hvalue⟩ := e.calculate_tokens (σ := σ) []
  obtain ⟨a', b', hcalculate', hvalue'⟩ := e'.calculate_tokens (σ := σ) []
  rw [h, hcalculate'] at hcalculate
  cases hcalculate
  rw [← hvalue, hvalue']

/-- An open parenthesis is closed. -/
theorem Expression.tokens_ne_opening (e e' : Expression) : e.tokens ≠ .opening :: e'.tokens := by
  intro h
  obtain ⟨a, b, hcalculate, -⟩ := e.calculate_tokens (σ := fun _ => 0) []
  obtain ⟨a', b', hcalculate', -⟩ := e'.calculate_tokens (σ := fun _ => 0) [.start]
  have hopened : calculate (fun _ => 0) (.opening :: e'.tokens) [.start] =
      some [⟨a', b', false⟩, .start] := hcalculate'
  rw [h, hopened] at hcalculate
  cases hcalculate

theorem Expression.tokens_ne_nil (e : Expression) : e.tokens ≠ [] := by
  intro h
  obtain ⟨a, b, hcalculate, -⟩ := e.calculate_tokens (σ := fun _ => 0) []
  rw [h] at hcalculate
  cases hcalculate

/-! ### Comparisons -/

def Comparator.Holds : Comparator → ℤ → ℤ → Prop
  | .less, a, b => a < b
  | .atMost, a, b => a ≤ b
  | .equal, a, b => a = b
  | .unequal, a, b => a ≠ b

/-- Each value compares with the next one. -/
def Linked (σ : Valuation) : ℤ → List (Comparator × Expression) → Prop
  | _, [] => True
  | a, l :: ls => l.1.Holds a (l.2.value σ) ∧ Linked σ (l.2.value σ) ls

def linkTokens : List (Comparator × Expression) → List Token
  | [] => []
  | l :: ls => .compare l.1 :: (l.2.tokens ++ linkTokens ls)

/-- Expressions in a row with comparisons between them. -/
structure Comparison where
  first : Expression
  links : List (Comparator × Expression)
  linked : links ≠ []

namespace Comparison

def tokens (c : Comparison) : List Token := c.first.tokens ++ linkTokens c.links

def Holds (σ : Valuation) (c : Comparison) : Prop := Linked σ (c.first.value σ) c.links

end Comparison

/-- Where the tokens of one kind end, both sides of an equation can be cut. -/
theorem append_inj_of_kind (kind : Token → Bool) {as bs xs ys : List Token}
    (ha : ∀ t ∈ as, kind t = true) (hb : ∀ t ∈ bs, kind t = true)
    (hx : xs.head?.all (!kind ·)) (hy : ys.head?.all (!kind ·))
    (h : as ++ xs = bs ++ ys) : as = bs ∧ xs = ys := by
  have hcut : ∀ {as xs : List Token}, (∀ t ∈ as, kind t = true) →
      xs.head?.all (!kind ·) → (as ++ xs).takeWhile kind = as := by
    intro as xs ha hx
    rw [List.takeWhile_append_of_pos ha]
    cases xs with
    | nil => simp
    | cons x xs =>
      have hx : kind x = false := by simpa using hx
      rw [List.takeWhile_cons_of_neg (by simp [hx]), List.append_nil]
  have has : as = bs := by rw [← hcut ha hx, h, hcut hb hy]
  subst has
  exact ⟨rfl, List.append_cancel_left h⟩

/-- A token that ends both parts cuts them off. -/
theorem append_cons_inj {word : Token} {as bs xs ys : List Token} (ha : word ∉ as) (hb : word ∉ bs)
    (h : as ++ word :: xs = bs ++ word :: ys) : as = bs ∧ xs = ys := by
  have hkind : ∀ {ts : List Token}, word ∉ ts → ∀ t ∈ ts, (t != word) = true := by
    intro ts hts t ht
    exact bne_iff_ne.mpr (ne_of_mem_of_not_mem ht hts)
  obtain ⟨has, hxs⟩ := append_inj_of_kind (· != word) (hkind ha) (hkind hb) (by simp) (by simp) h
  exact ⟨has, (List.cons.inj hxs).2⟩

theorem head?_linkTokens (ls : List (Comparator × Expression)) :
    (linkTokens ls).head?.all (!·.isArithmetic) = true := by
  cases ls <;> rfl

theorem linked_congr : ∀ {ls ls' : List (Comparator × Expression)} {a : ℤ},
    linkTokens ls = linkTokens ls' → (Linked σ a ls ↔ Linked σ a ls')
  | [], [], a, _ => Iff.rfl
  | [], _ :: _, a, h => nomatch h
  | _ :: _, [], a, h => nomatch h
  | l :: ls, l' :: ls', a, h => by
    obtain ⟨hcompare, hrest⟩ := List.cons.inj h
    obtain ⟨htokens, hlinks⟩ := append_inj_of_kind _ l.2.isArithmetic l'.2.isArithmetic
      (head?_linkTokens ls) (head?_linkTokens ls') hrest
    rw [Linked, Linked, Token.compare.inj hcompare, Expression.value_eq htokens,
      linked_congr hlinks]

theorem Comparison.holds_congr {c c' : Comparison} (h : c.tokens = c'.tokens) :
    c.Holds σ ↔ c'.Holds σ := by
  obtain ⟨hfirst, hlinks⟩ := append_inj_of_kind _ c.first.isArithmetic c'.first.isArithmetic
    (head?_linkTokens c.links) (head?_linkTokens c'.links) h
  rw [Comparison.Holds, Comparison.Holds, Expression.value_eq hfirst, linked_congr hlinks]

theorem isArithmetic_linkTokens : ∀ (ls : List (Comparator × Expression)), ∀ t ∈ linkTokens ls,
    t.isArithmetic = true ∨ ∃ r, t = .compare r
  | [], t, ht => absurd ht List.not_mem_nil
  | l :: ls, t, ht => by
    rcases List.mem_cons.mp ht with rfl | ht
    · exact Or.inr ⟨_, rfl⟩
    · rcases List.mem_append.mp ht with ht | ht
      · exact Or.inl (l.2.isArithmetic t ht)
      · exact isArithmetic_linkTokens ls t ht

theorem Comparison.isArithmetic (c : Comparison) :
    ∀ t ∈ c.tokens, t.isArithmetic = true ∨ ∃ r, t = .compare r := by
  intro t ht
  rcases List.mem_append.mp ht with ht | ht
  · exact Or.inl (c.first.isArithmetic t ht)
  · exact isArithmetic_linkTokens c.links t ht

/-! ### Formulas -/

/-- Names with commas between them. -/
def listed (names : List String) : List Token := [Token.comma].intercalate (names.map ([.name ·]))

/-- A condition: comparisons that all hold, some of which hold, or that hold for some values of the
names that are bound. -/
inductive Formula where
  | conjunction (cs : List Comparison) (some : cs ≠ [])
  | disjunction (cs : List Comparison) (some : cs ≠ [])
  | quantified (names : List String) (cs : List Comparison) (bound : names ≠ []) (some : cs ≠ [])

namespace Formula

/-- Comparisons with a word between them. -/
def joined (word : Token) (cs : List Comparison) : List Token :=
  [word].intercalate (cs.map Comparison.tokens)

def tokens : Formula → List Token
  | conjunction cs _ => joined .conj cs
  | disjunction cs _ => .opening :: (joined .disj cs ++ [.closing])
  | quantified names cs _ _ =>
    .quantifier :: .opening :: (listed names ++ .colon :: (joined .conj cs ++ [.closing]))

def Holds (σ : Valuation) : Formula → Prop
  | conjunction cs _ => ∀ c ∈ cs, c.Holds σ
  | disjunction cs _ => ∃ c ∈ cs, c.Holds σ
  | quantified names cs _ _ => ∃ τ : Valuation, (∀ n, n ∉ names → τ n = σ n) ∧ ∀ c ∈ cs, c.Holds τ

end Formula

/-- The text is a condition that holds under the valuation. -/
def TextHolds (σ : Valuation) (text : String) : Prop :=
  ∃ f : Formula, f.tokens = tokens text ∧ f.Holds σ

/-- Parts with a separator between them can be told apart. -/
theorem intercalate_inj {sep : Token} {tss uss : List (List Token)}
    (hts : ∀ ts ∈ tss, ts ≠ [] ∧ sep ∉ ts) (hus : ∀ us ∈ uss, us ≠ [] ∧ sep ∉ us)
    (h : [sep].intercalate tss = [sep].intercalate uss) : tss = uss := by
  have hsplit : ∀ {tss : List (List Token)}, (∀ ts ∈ tss, ts ≠ [] ∧ sep ∉ ts) → tss ≠ [] →
      ([sep].intercalate tss).splitOn sep = tss := fun hts hne =>
    List.splitOn_intercalate sep (fun ts hmem => (hts ts hmem).2) hne
  -- nothing is split into one empty part, and no part is empty
  have hnil : ∀ {tss : List (List Token)}, (∀ ts ∈ tss, ts ≠ [] ∧ sep ∉ ts) → tss ≠ [] →
      [sep].intercalate tss ≠ [] := by
    intro tss hts hne heq
    have hparts := hsplit hts hne
    rw [heq, List.splitOn_nil] at hparts
    exact (hts [] (hparts ▸ List.mem_singleton_self _)).1 rfl
  by_cases ht : tss = []
  · by_contra hne
    exact hnil hus (fun hu => hne (ht.trans hu.symm)) (h.symm.trans (ht ▸ rfl))
  by_cases hu : uss = []
  · exact absurd (h.trans (hu ▸ rfl)) (hnil hts ht)
  rw [← hsplit hts ht, h, hsplit hus hu]

theorem listed_injective : Function.Injective listed := by
  intro names names' h
  have hparts : ∀ names : List String,
      ∀ ts ∈ names.map ([Token.name ·]), ts ≠ [] ∧ Token.comma ∉ ts := by simp
  refine List.map_injective_iff.mpr ?_ (intercalate_inj (hparts names) (hparts names') h)
  intro a b hab
  simpa using hab

/-- What the tokens of things decide is the same in lists with the same tokens. -/
theorem exists_mem_congr_of_map_eq {α : Type*} {t : α → List Token} {P : α → Prop}
    (hP : ∀ a b, t a = t b → (P a ↔ P b)) {as bs : List α} (h : as.map t = bs.map t) :
    (∃ a ∈ as, P a) ↔ ∃ b ∈ bs, P b := by
  have hone : ∀ {as bs : List α}, as.map t = bs.map t → (∃ a ∈ as, P a) → ∃ b ∈ bs, P b := by
    rintro as bs h ⟨a, ha, hPa⟩
    obtain ⟨b, hb, heq⟩ := List.mem_map.mp (h ▸ List.mem_map_of_mem ha)
    exact ⟨b, hb, (hP b a heq).mpr hPa⟩
  exact ⟨hone h, hone h.symm⟩

theorem forall_mem_congr_of_map_eq {α : Type*} {t : α → List Token} {P : α → Prop}
    (hP : ∀ a b, t a = t b → (P a ↔ P b)) {as bs : List α} (h : as.map t = bs.map t) :
    (∀ a ∈ as, P a) ↔ ∀ b ∈ bs, P b := by
  have hnot := exists_mem_congr_of_map_eq (fun a b hab => not_congr (hP a b hab)) h
  simpa using not_congr hnot

namespace Formula

theorem not_mem_tokens {word : Token} (hword : word.isArithmetic = false)
    (hcompare : ∀ r, word ≠ .compare r) {cs : List Comparison} :
    ∀ ts ∈ cs.map Comparison.tokens, word ∉ ts := by
  intro ts hts hmem
  obtain ⟨c, -, rfl⟩ := List.mem_map.mp hts
  rcases c.isArithmetic word hmem with h | ⟨r, h⟩
  · rw [hword] at h
    cases h
  · exact hcompare r h

/-- Joined comparisons can be told apart. -/
theorem joined_inj {word : Token} (hword : word.isArithmetic = false)
    (hcompare : ∀ r, word ≠ .compare r) {cs cs' : List Comparison}
    (h : joined word cs = joined word cs') :
    cs.map Comparison.tokens = cs'.map Comparison.tokens := by
  have hparts : ∀ cs : List Comparison,
      ∀ ts ∈ cs.map Comparison.tokens, ts ≠ [] ∧ word ∉ ts := by
    intro cs ts hts
    refine ⟨?_, not_mem_tokens hword hcompare ts hts⟩
    obtain ⟨c, -, rfl⟩ := List.mem_map.mp hts
    exact List.append_ne_nil_of_left_ne_nil c.first.tokens_ne_nil _
  exact intercalate_inj (hparts cs) (hparts cs') h

theorem forall_holds_congr {cs cs' : List Comparison}
    (h : cs.map Comparison.tokens = cs'.map Comparison.tokens) :
    (∀ c ∈ cs, c.Holds σ) ↔ ∀ c ∈ cs', c.Holds σ :=
  forall_mem_congr_of_map_eq (fun _ _ => Comparison.holds_congr) h

theorem exists_holds_congr {cs cs' : List Comparison}
    (h : cs.map Comparison.tokens = cs'.map Comparison.tokens) :
    (∃ c ∈ cs, c.Holds σ) ↔ ∃ c ∈ cs', c.Holds σ :=
  exists_mem_congr_of_map_eq (fun _ _ => Comparison.holds_congr) h

/-- Joined comparisons start with an expression that is compared. -/
theorem exists_joined_eq (word : Token) {cs : List Comparison} (h : cs ≠ []) :
    ∃ (e : Expression) (r : Comparator) (rest : List Token),
      joined word cs = e.tokens ++ .compare r :: rest := by
  obtain ⟨c, cs, rfl⟩ := List.exists_cons_of_ne_nil h
  obtain ⟨l, ls, hlinks⟩ := List.exists_cons_of_ne_nil c.linked
  have hc : c.tokens = c.first.tokens ++ .compare l.1 :: (l.2.tokens ++ linkTokens ls) := by
    rw [Comparison.tokens, hlinks]
    rfl
  cases cs with
  | nil => exact ⟨c.first, l.1, l.2.tokens ++ linkTokens ls, by simp [joined, hc]⟩
  | cons d cs =>
    refine ⟨c.first, l.1, l.2.tokens ++ linkTokens ls ++ word :: joined word (d :: cs), ?_⟩
    simp [joined, hc, List.intercalate_cons_cons]

/-- A formula that starts with a parenthesis is not one that starts with an expression. -/
theorem joined_ne_opening (word word' : Token) {cs cs' : List Comparison} (h : cs ≠ [])
    (h' : cs' ≠ []) (rest : List Token) :
    joined word cs ≠ .opening :: (joined word' cs' ++ rest) := by
  intro heq
  obtain ⟨e, r, xs, hcs⟩ := exists_joined_eq word h
  obtain ⟨e', r', ys, hcs'⟩ := exists_joined_eq word' h'
  rw [hcs, hcs', List.append_assoc, ← List.cons_append] at heq
  refine e.tokens_ne_opening e' (append_inj_of_kind _ e.isArithmetic ?_ rfl rfl heq).1
  rw [List.forall_mem_cons]
  exact ⟨rfl, e'.isArithmetic⟩

theorem joined_ne_quantifier (word : Token) {cs : List Comparison} (h : cs ≠ [])
    (rest : List Token) : joined word cs ≠ .quantifier :: rest := by
  intro heq
  obtain ⟨e, r, xs, hcs⟩ := exists_joined_eq word h
  obtain ⟨t, ts, htokens⟩ := List.exists_cons_of_ne_nil e.tokens_ne_nil
  rw [hcs, htokens, List.cons_append] at heq
  have harithmetic := e.isArithmetic t (htokens ▸ List.mem_cons_self)
  rw [(List.cons.inj heq).1] at harithmetic
  cases harithmetic

theorem not_mem_intercalate {t sep : Token} (hsep : t ≠ sep) :
    ∀ {tss : List (List Token)}, (∀ ts ∈ tss, t ∉ ts) → t ∉ [sep].intercalate tss
  | [], _ => by simp
  | [ts], h => by simpa using h
  | ts :: us :: tss, h => by
    obtain ⟨hts, hrest⟩ := List.forall_mem_cons.mp h
    rw [List.intercalate_cons_cons, List.mem_append, List.mem_append, List.mem_singleton]
    rintro ((hmem | hmem) | hmem)
    · exact hts hmem
    · exact hsep hmem
    · exact not_mem_intercalate hsep hrest hmem

/-- Formulas with the same tokens hold under the same valuations. -/
theorem holds_congr : ∀ {f f' : Formula}, f.tokens = f'.tokens → (f.Holds σ ↔ f'.Holds σ)
  | conjunction _ _, conjunction _ _, h =>
    forall_holds_congr (joined_inj rfl (by simp) h)
  | conjunction _ hcs, disjunction _ hcs', h => absurd h (joined_ne_opening _ _ hcs hcs' _)
  | conjunction _ hcs, quantified _ _ _ _, h => absurd h (joined_ne_quantifier _ hcs _)
  | disjunction _ hcs, conjunction _ hcs', h => absurd h.symm (joined_ne_opening _ _ hcs' hcs _)
  | disjunction _ _, disjunction _ _, h => by
    have hjoined := List.append_cancel_right (List.cons.inj h).2
    exact exists_holds_congr (joined_inj rfl (by simp) hjoined)
  | disjunction _ _, quantified _ _ _ _, h => nomatch (List.cons.inj h).1
  | quantified _ _ _ _, conjunction _ hcs, h => absurd h.symm (joined_ne_quantifier _ hcs _)
  | quantified _ _ _ _, disjunction _ _, h => nomatch (List.cons.inj h).1
  | quantified names _ _ _, quantified names' _ _ _, h => by
    -- the first colon ends the names, since there is none among them
    have hnames : ∀ names, Token.colon ∉ listed names := fun names =>
      not_mem_intercalate (by simp) (by simp)
    have hcut := (List.cons.inj (List.cons.inj h).2).2
    obtain ⟨hlisted, hrest⟩ := append_cons_inj (hnames names) (hnames names') hcut
    have hjoined := List.append_cancel_right hrest
    obtain rfl := listed_injective hlisted
    exact exists_congr fun τ => and_congr_right fun _ =>
      forall_holds_congr (joined_inj rfl (by simp) hjoined)

end Formula

/-- A text with the tokens of a formula holds where the formula does. -/
theorem textHolds_iff {text : String} {f : Formula} (h : f.tokens = tokens text) :
    TextHolds σ text ↔ f.Holds σ :=
  ⟨fun ⟨_, htokens, hholds⟩ => (Formula.holds_congr (htokens.trans h.symm)).mp hholds,
    fun hholds => ⟨f, h, hholds⟩⟩

end LoopSched.Polyhedral
