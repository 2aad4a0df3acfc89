import LoopSched.Proofs.Polyhedral.Grammar

/-!
# Texts of maps

A map is read as a list of parameters and, between braces, clauses.  A clause has a near tuple, which
may belong to a statement, a far tuple, and conditions.  A parameter has the value it is given
wherever it stands, in a tuple as well, and a condition may only name parameters and coordinates of
its clause.  The tokens leave no choice here either: two readings of a text relate the same points.
-/

namespace LoopSched.Polyhedral

variable {π σ : Valuation}

/-! ### Affine expressions -/

/-- The expression has no names. -/
def Expression.Closed (e : Expression) : Prop := ∀ x, Token.name x ∉ e.tokens

mutual

/-- The calculator multiplies by numbers only: of two factors, one at least has no names. -/
def Factor.Affine : Factor → Prop
  | .number _ => True
  | .name _ => True
  | .negated f => f.Affine
  | .enclosed e => e.Affine

def Product.Affine : Product → Prop
  | .single f => f.Affine
  | .times p f => (p.Affine ∧ f.Affine) ∧ ((∀ x, .name x ∉ p.tokens) ∨ ∀ x, .name x ∉ f.tokens)

def Expression.Affine : Expression → Prop
  | .single p => p.Affine
  | .plus e p => e.Affine ∧ p.Affine
  | .minus e p => e.Affine ∧ p.Affine

end

mutual

theorem Factor.affine_of_closed : ∀ f : Factor, (∀ x, .name x ∉ f.tokens) → f.Affine
  | .number _, _ => trivial
  | .name _, _ => trivial
  | .negated f, h => f.affine_of_closed fun x hx => h x (by simp [Factor.tokens, hx])
  | .enclosed e, h => e.affine_of_closed fun x hx => h x (by simp [Factor.tokens, hx])

theorem Product.affine_of_closed : ∀ p : Product, (∀ x, .name x ∉ p.tokens) → p.Affine
  | .single f, h => f.affine_of_closed h
  | .times p f, h => by
    have hp : ∀ x, .name x ∉ p.tokens := fun x hx => h x (by simp [Product.tokens, hx])
    have hf : ∀ x, .name x ∉ f.tokens := fun x hx => h x (by simp [Product.tokens, hx])
    exact ⟨⟨p.affine_of_closed hp, f.affine_of_closed hf⟩, Or.inl hp⟩

theorem Expression.affine_of_closed : ∀ e : Expression, e.Closed → e.Affine
  | .single p, h => p.affine_of_closed h
  | .plus e p, h =>
    ⟨e.affine_of_closed fun x hx => h x (by simp [Expression.tokens, hx]),
      p.affine_of_closed fun x hx => h x (by simp [Expression.tokens, hx])⟩
  | .minus e p, h =>
    ⟨e.affine_of_closed fun x hx => h x (by simp [Expression.tokens, hx]),
      p.affine_of_closed fun x hx => h x (by simp [Expression.tokens, hx])⟩

end

namespace Comparison

/-- The two sides of an equation. -/
def sides? (c : Comparison) : Option (List Token × List Token) :=
  match c.links with
  | [(.equal, e)] => some (c.first.tokens, e.tokens)
  | _ => none

/-- The name on the left of an equation, with the right side. -/
def equated? (c : Comparison) : Option (String × List Token) :=
  match c.sides? with
  | some ([.name x], ts) => some (x, ts)
  | _ => none

/-- The name `x` in an equation `y = x * …`, with the rest of it. -/
def divided? (c : Comparison) : Option (String × List Token) :=
  match c.sides? with
  | some ([.name y], .name x :: ts) => some (x, .name y :: ts)
  | _ => none

def Affine (c : Comparison) : Prop := c.first.Affine ∧ ∀ l ∈ c.links, l.2.Affine

end Comparison

namespace Formula

/-- The comparisons of a formula. -/
def comparisons : Formula → List Comparison
  | conjunction cs _ => cs
  | disjunction cs _ => cs
  | quantified _ cs _ _ => cs

def Affine (f : Formula) : Prop := ∀ c ∈ f.comparisons, c.Affine

/-- The names that the formula binds. -/
def binds : Formula → List String
  | conjunction .. => []
  | disjunction .. => []
  | quantified names .. => names

/-- The formula speaks of the name, and does not bind it. -/
def Free (f : Formula) (n : String) : Prop := .name n ∈ f.tokens ∧ n ∉ f.binds

/-- The names that the formula gives a value, with what the values are made of: a name that an
equation is for, or, under a quantifier, one that a coordinate is divided into. -/
def fixes : Formula → List (String × List Token)
  | conjunction cs _ => cs.filterMap Comparison.equated?
  | disjunction .. => []
  | quantified _ cs _ _ => cs.filterMap Comparison.divided?

/-- No conjunction stands outside of parentheses. -/
def Apart : Formula → Prop
  | conjunction cs _ => cs.length = 1
  | disjunction .. => True
  | quantified .. => True

end Formula

/-! ### Where a condition ends -/

/-- How many parentheses are open behind the token, if `n` are open in front of it. -/
def Token.nests : ℕ → Token → Option ℕ
  | n, .opening => some (n + 1)
  | 0, .closing => none
  | n + 1, .closing => some n
  | n, _ => some n

def level (n : ℕ) (ts : List Token) : Option ℕ := ts.foldlM Token.nests n

theorem level_append {n m : ℕ} {as : List Token} (h : level n as = some m) (bs : List Token) :
    level n (as ++ bs) = level m bs := by
  unfold level at h ⊢
  rw [List.foldlM_append, h]
  rfl

mutual

theorem Factor.level_tokens : ∀ (f : Factor) (n : ℕ), level n f.tokens = some n
  | .number _, _ => rfl
  | .name _, _ => rfl
  | .negated f, n => f.level_tokens n
  | .enclosed e, n => level_append (e.level_tokens (n + 1)) [.closing]

theorem Product.level_tokens : ∀ (p : Product) (n : ℕ), level n p.tokens = some n
  | .single f, n => f.level_tokens n
  | .times p f, n => (level_append (p.level_tokens n) _).trans (f.level_tokens n)

theorem Expression.level_tokens : ∀ (e : Expression) (n : ℕ), level n e.tokens = some n
  | .single p, n => p.level_tokens n
  | .plus e p, n => (level_append (e.level_tokens n) _).trans (p.level_tokens n)
  | .minus e p, n => (level_append (e.level_tokens n) _).trans (p.level_tokens n)

end

theorem level_linkTokens (ls : List (Comparator × Expression)) (n : ℕ) :
    level n (linkTokens ls) = some n := by
  induction ls with
  | nil => rfl
  | cons l ls ih => exact (level_append (l.2.level_tokens n) _).trans ih

theorem Comparison.level_tokens (c : Comparison) (n : ℕ) : level n c.tokens = some n :=
  (level_append (c.first.level_tokens n) _).trans (level_linkTokens c.links n)

theorem level_joined (cs : List Comparison) (n : ℕ) :
    level n (Formula.joined .conj cs) = some n := by
  match cs with
  | [] => rfl
  | [c] => simpa [Formula.joined] using c.level_tokens n
  | c :: d :: cs =>
    have ih := level_joined (d :: cs) n
    rw [Formula.joined, List.map_cons, List.map_cons, List.intercalate_cons_cons, List.append_assoc,
      level_append (c.level_tokens n)]
    exact ih

/-- The first parenthesis that closes more than was opened ends a part that is balanced. -/
theorem append_closing_inj {as bs xs ys : List Token} (has : level 0 as = some 0)
    (hbs : level 0 bs = some 0) (h : as ++ .closing :: xs = bs ++ .closing :: ys) :
    as = bs ∧ xs = ys := by
  -- a balanced part that goes on behind another one would start with the parenthesis
  have hnil : ∀ {as bs xs ys zs : List Token}, level 0 as = some 0 → level 0 bs = some 0 →
      bs = as ++ zs → Token.closing :: xs = zs ++ .closing :: ys → zs = [] := by
    intro as bs xs ys zs has hbs heq hrest
    cases zs with
    | nil => rfl
    | cons z zs =>
      rw [heq, level_append has, ← (List.cons.inj hrest).1] at hbs
      cases hbs
  rcases List.append_eq_append_iff.mp h with ⟨zs, hzs, hrest⟩ | ⟨zs, hzs, hrest⟩
  · obtain rfl := hnil has hbs hzs hrest
    exact ⟨by rw [hzs, List.append_nil], (List.cons.inj hrest).2⟩
  · obtain rfl := hnil hbs has hzs hrest
    exact ⟨by rw [hzs, List.append_nil], (List.cons.inj hrest).2.symm⟩

namespace Formula

theorem not_mem_listed {word : Token} (hword : ∀ n, word ≠ .name n) (hcomma : word ≠ .comma)
    (names : List String) : word ∉ listed names :=
  not_mem_intercalate hcomma (by simpa using fun n _ => hword n)

theorem mem_of_mem_listed {n : String} {names : List String} (h : .name n ∈ listed names) :
    n ∈ names := by
  by_contra hn
  refine not_mem_intercalate (by simp) (List.forall_mem_map.mpr fun m hm heq => ?_) h
  exact hn (by simpa [Token.name.inj (List.mem_singleton.mp heq)] using hm)

theorem not_mem_joined {word sep : Token} (hword : word.isArithmetic = false)
    (hcompare : ∀ r, word ≠ .compare r) (hsep : word ≠ sep) (cs : List Comparison) :
    word ∉ joined sep cs :=
  not_mem_intercalate hsep (not_mem_tokens hword hcompare)

theorem exists_mem_of_mem_joined {t sep : Token} (hsep : t ≠ sep) {cs : List Comparison}
    (h : t ∈ joined sep cs) : ∃ c ∈ cs, t ∈ c.tokens := by
  by_contra hnone
  refine not_mem_intercalate hsep (List.forall_mem_map.mpr fun c hc ht => ?_) h
  exact hnone ⟨c, hc, ht⟩

/-- Outside of a quantifier no conjunction stands in a condition. -/
theorem conj_not_mem {f : Formula} (h : f.Apart) (hbinds : f.binds = []) : .conj ∉ f.tokens := by
  cases f with
  | conjunction cs hcs =>
    obtain ⟨c, rfl⟩ := List.length_eq_one_iff.mp h
    have hconj : ∀ ts ∈ [c].map Comparison.tokens, Token.conj ∉ ts := not_mem_tokens rfl (by simp)
    simpa [tokens, joined] using hconj
  | disjunction cs hcs =>
    simpa [tokens] using not_mem_joined rfl (by simp) (by simp) cs
  | quantified names cs hnames hcs => exact absurd hbinds hnames

theorem append_ne_quantifier {f : Formula} (hbinds : f.binds = []) (xs rest : List Token) :
    f.tokens ++ xs ≠ .quantifier :: rest := by
  cases f with
  | conjunction cs hcs =>
    intro heq
    rcases List.append_eq_cons_iff.mp heq with ⟨hnil, -⟩ | ⟨ts, hts, -⟩
    · obtain ⟨e, r, us, hjoined⟩ := exists_joined_eq .conj hcs
      exact List.append_ne_nil_of_right_ne_nil _ (List.cons_ne_nil _ _) (hjoined.symm.trans hnil)
    · exact joined_ne_quantifier _ hcs _ hts
  | disjunction cs hcs => simp [tokens]
  | quantified names cs hnames hcs => exact absurd hbinds hnames

/-- A formula that binds names can be cut off where its parenthesis is closed. -/
theorem append_inj_quantified {names names' : List String} {cs cs' : List Comparison}
    (hn : names ≠ []) (hn' : names' ≠ []) (hcs : cs ≠ []) (hcs' : cs' ≠ []) {xs ys : List Token}
    (h : (quantified names cs hn hcs).tokens ++ xs = (quantified names' cs' hn' hcs').tokens ++ ys) :
    (quantified names cs hn hcs).tokens = (quantified names' cs' hn' hcs').tokens ∧ xs = ys := by
  have htokens : ∀ (names : List String) (cs : List Comparison) hn hcs (xs : List Token),
      (quantified names cs hn hcs).tokens ++ xs = .quantifier :: .opening ::
        (listed names ++ .colon :: (joined .conj cs ++ .closing :: xs)) := by
    simp [tokens]
  have hnames : ∀ names, Token.colon ∉ listed names := not_mem_listed (by simp) (by simp)
  rw [htokens, htokens] at h
  obtain ⟨hlisted, hrest⟩ := append_cons_inj (hnames names) (hnames names')
    (List.cons.inj (List.cons.inj h).2).2
  obtain ⟨hjoined, hxs⟩ := append_closing_inj (level_joined cs 0) (level_joined cs' 0) hrest
  exact ⟨by rw [tokens, tokens, hlisted, hjoined], hxs⟩

/-- A conjunction ends the condition in front of it. -/
theorem append_inj {f g : Formula} (hf : f.Apart) (hg : g.Apart) {xs ys : List Token}
    (hxs : xs.head?.all (!· != .conj)) (hys : ys.head?.all (!· != .conj))
    (h : f.tokens ++ xs = g.tokens ++ ys) : f.tokens = g.tokens ∧ xs = ys := by
  by_cases hfb : f.binds = []
  · by_cases hgb : g.binds = []
    · have hkind : ∀ {f : Formula}, f.Apart → f.binds = [] → ∀ t ∈ f.tokens, (t != .conj) = true := by
        intro f hf hfb t ht
        exact bne_iff_ne.mpr (ne_of_mem_of_not_mem ht (conj_not_mem hf hfb))
      exact append_inj_of_kind (· != .conj) (hkind hf hfb) (hkind hg hgb) hxs hys h
    · cases g with
      | quantified names cs hnames hcs => exact absurd h (append_ne_quantifier hfb _ _)
      | _ => exact absurd rfl hgb
  · cases f with
    | quantified names cs hnames hcs =>
      cases g with
      | quantified names' cs' hnames' hcs' =>
        exact append_inj_quantified hnames hnames' hcs hcs' h
      | _ => exact absurd h.symm (append_ne_quantifier rfl _ _)
    | _ => exact absurd rfl hfb

theorem semicolon_not_mem (f : Formula) : .semicolon ∉ f.tokens := by
  have hjoined : ∀ sep cs, sep ≠ .semicolon → Token.semicolon ∉ joined sep cs := fun sep cs hsep =>
    not_mem_joined rfl (by simp) hsep.symm cs
  cases f with
  | conjunction cs hcs => exact hjoined _ cs (by simp)
  | disjunction cs hcs => simpa [tokens] using hjoined .disj cs (by simp)
  | quantified names cs hnames hcs =>
    simpa [tokens] using ⟨not_mem_listed (by simp) (by simp) names, hjoined .conj cs (by simp)⟩

end Formula

/-! ### Clauses and maps -/

/-- Conditions with conjunctions between them. -/
def conjoined (fs : List Formula) : List Token := [Token.conj].intercalate (fs.map Formula.tokens)

theorem conjoined_cons (f : Formula) (fs : List Formula) :
    conjoined (f :: fs) = f.tokens ++ fs.flatMap fun g => .conj :: g.tokens := by
  induction fs generalizing f with
  | nil => simp [conjoined]
  | cons g fs ih =>
    have hrest := ih g
    rw [conjoined, List.map_cons] at hrest
    rw [conjoined, List.map_cons, List.map_cons, List.intercalate_cons_cons, hrest, List.append_assoc]
    rfl

theorem conjoined_inj {fs gs : List Formula} (hfs : ∀ f ∈ fs, f.Apart) (hgs : ∀ g ∈ gs, g.Apart)
    (hf : fs ≠ []) (hg : gs ≠ []) (h : conjoined fs = conjoined gs) :
    fs.map Formula.tokens = gs.map Formula.tokens := by
  have hhead : ∀ fs : List Formula,
      (fs.flatMap fun f => .conj :: f.tokens).head?.all (!· != Token.conj) := by
    intro fs
    cases fs <;> rfl
  induction fs generalizing gs with
  | nil => exact absurd rfl hf
  | cons f fs ih =>
    obtain ⟨g, gs, rfl⟩ := List.exists_cons_of_ne_nil hg
    obtain ⟨hfapart, hfs⟩ := List.forall_mem_cons.mp hfs
    obtain ⟨hgapart, hgs⟩ := List.forall_mem_cons.mp hgs
    rw [conjoined_cons, conjoined_cons] at h
    obtain ⟨hfirst, hrest⟩ := Formula.append_inj hfapart hgapart (hhead fs) (hhead gs) h
    rw [List.map_cons, List.map_cons, hfirst]
    congr 1
    cases fs with
    | nil =>
      cases gs with
      | nil => rfl
      | cons g gs => nomatch hrest
    | cons f fs =>
      cases gs with
      | nil => nomatch hrest
      | cons g gs =>
        refine ih hfs hgs (by simp) (by simp) ?_
        rw [conjoined_cons, conjoined_cons]
        exact (List.cons.inj hrest).2

theorem semicolon_not_mem_conjoined (fs : List Formula) : .semicolon ∉ conjoined fs :=
  Formula.not_mem_intercalate (by simp) (List.forall_mem_map.mpr fun f _ => f.semicolon_not_mem)

/-- A clause as it is read; the source is empty if the near tuple belongs to no statement. -/
structure ParsedClause where
  source : String
  input : List String
  output : List String
  conditions : List Formula
  apart : ∀ f ∈ conditions, f.Apart

/-- A map as it is read. -/
structure ParsedMap where
  parameters : List String
  clauses : List ParsedClause

namespace ParsedClause

def sourceTokens (source : String) : List Token := if source = "" then [] else [.name source]

def guardTokens (fs : List Formula) : List Token := if fs = [] then [] else .colon :: conjoined fs

def tokens (c : ParsedClause) : List Token :=
  sourceTokens c.source ++ .openBracket :: (listed c.input ++ .closeBracket :: .arrow ::
    .openBracket :: (listed c.output ++ .closeBracket :: guardTokens c.conditions))

theorem sourceTokens_injective : Function.Injective sourceTokens := by
  intro a b h
  unfold sourceTokens at h
  split_ifs at h with ha hb hb
  · exact ha.trans hb.symm
  · exact (Token.name.inj (List.cons.inj h).1)

theorem guardTokens_inj {fs gs : List Formula} (hfs : ∀ f ∈ fs, f.Apart) (hgs : ∀ g ∈ gs, g.Apart)
    (h : guardTokens fs = guardTokens gs) : fs.map Formula.tokens = gs.map Formula.tokens := by
  unfold guardTokens at h
  split_ifs at h with hf hg hg
  · rw [hf, hg]
  · exact conjoined_inj hfs hgs hf hg (List.cons.inj h).2

/-- Clauses with the same tokens agree in all but the shape of their conditions. -/
theorem tokens_inj {c c' : ParsedClause} (h : c.tokens = c'.tokens) :
    c.source = c'.source ∧ c.input = c'.input ∧ c.output = c'.output ∧
      c.conditions.map Formula.tokens = c'.conditions.map Formula.tokens := by
  have hsource : ∀ source, Token.openBracket ∉ sourceTokens source := by
    intro source
    unfold sourceTokens
    split_ifs <;> simp
  have hlisted : ∀ names, Token.closeBracket ∉ listed names :=
    Formula.not_mem_listed (by simp) (by simp)
  obtain ⟨hs, h⟩ := append_cons_inj (hsource _) (hsource _) h
  obtain ⟨hi, h⟩ := append_cons_inj (hlisted _) (hlisted _) h
  obtain ⟨ho, h⟩ := append_cons_inj (hlisted _) (hlisted _) (List.cons.inj (List.cons.inj h).2).2
  exact ⟨sourceTokens_injective hs, listed_injective hi, listed_injective ho,
    guardTokens_inj c.apart c'.apart h⟩

theorem semicolon_not_mem (c : ParsedClause) : .semicolon ∉ c.tokens := by
  have hsource : Token.semicolon ∉ sourceTokens c.source := by
    unfold sourceTokens
    split_ifs <;> simp
  have hlisted : ∀ names, Token.semicolon ∉ listed names :=
    Formula.not_mem_listed (by simp) (by simp)
  have hguard : Token.semicolon ∉ guardTokens c.conditions := by
    unfold guardTokens
    split_ifs
    · simp
    · simpa using semicolon_not_mem_conjoined c.conditions
  simp [tokens, hsource, hlisted, hguard]

/-- The clause relates the points under some valuation that agrees with the parameters. -/
def Relates (parameters : List String) (π : Valuation) (c : ParsedClause) (p q : Point) : Prop :=
  p.name = c.source ∧ q.name = "" ∧ ∃ σ : Valuation, (∀ n ∈ parameters, σ n = π n) ∧
    c.input.map σ = p.coordinates ∧ c.output.map σ = q.coordinates ∧ ∀ f ∈ c.conditions, f.Holds σ

theorem relates_congr {parameters : List String} {c c' : ParsedClause} (h : c.tokens = c'.tokens)
    {p q : Point} : c.Relates parameters π p q ↔ c'.Relates parameters π p q := by
  obtain ⟨hsource, hinput, houtput, hconditions⟩ := tokens_inj h
  unfold Relates
  rw [hsource, hinput, houtput]
  refine and_congr_right fun _ => and_congr_right fun _ => exists_congr fun σ => ?_
  refine and_congr_right fun _ => and_congr_right fun _ => and_congr_right fun _ => ?_
  exact forall_mem_congr_of_map_eq (fun _ _ => Formula.holds_congr) hconditions

/-- Every far coordinate that is not a near one is given a value by one condition, from near
coordinates and the names in `U`. -/
structure WellScoped (U : List String) (c : ParsedClause) : Prop where
  fixed : ∀ n ∈ c.output, n ∉ c.input →
    ((c.conditions.flatMap Formula.fixes).map Prod.fst).count n = 1
  made : ∀ f ∈ c.conditions, ∀ d ∈ f.fixes, ∀ n, .name n ∈ d.2 →
    n ∈ c.input ∨ n ∈ f.binds ∨ n ∈ U
  scope : ∀ f ∈ c.conditions, ∀ n, f.Free n → n ∈ c.input ∨ n ∈ c.output ∨ n ∈ U

end ParsedClause

namespace ParsedMap

def parameterTokens (parameters : List String) : List Token :=
  if parameters = [] then [] else .openBracket :: (listed parameters ++ [.closeBracket, .arrow])

def tokens (u : ParsedMap) : List Token :=
  parameterTokens u.parameters ++
    .openBrace :: ([.semicolon].intercalate (u.clauses.map ParsedClause.tokens) ++ [.closeBrace])

/-- What the calculator accepts: parameters are declared once, every name in a condition is declared
or a coordinate of the clause, and all expressions are affine. -/
structure Accepted (u : ParsedMap) : Prop where
  distinct : u.parameters.Nodup
  declared : ∀ c ∈ u.clauses, ∀ f ∈ c.conditions, ∀ n, f.Free n →
    n ∈ c.input ∨ n ∈ c.output ∨ n ∈ u.parameters
  affine : ∀ c ∈ u.clauses, ∀ f ∈ c.conditions, f.Affine

def Relates (π : Valuation) (u : ParsedMap) (p q : Point) : Prop :=
  ∃ c ∈ u.clauses, c.Relates u.parameters π p q

theorem parameterTokens_injective : Function.Injective parameterTokens := by
  intro ps qs h
  unfold parameterTokens at h
  split_ifs at h with hp hq hq
  · exact hp.trans hq.symm
  · exact listed_injective (List.append_cancel_right (List.cons.inj h).2)

/-- Maps with the same tokens have the same parameters and clauses with the same tokens. -/
theorem tokens_inj {u u' : ParsedMap} (h : u.tokens = u'.tokens) :
    u.parameters = u'.parameters ∧
      u.clauses.map ParsedClause.tokens = u'.clauses.map ParsedClause.tokens := by
  have hbrace : ∀ ps, Token.openBrace ∉ parameterTokens ps := by
    intro ps
    have hlisted : Token.openBrace ∉ listed ps := Formula.not_mem_listed (by simp) (by simp) ps
    unfold parameterTokens
    split_ifs <;> simp [hlisted]
  obtain ⟨hps, h⟩ := append_cons_inj (hbrace _) (hbrace _) h
  refine ⟨parameterTokens_injective hps, ?_⟩
  have hparts : ∀ u : ParsedMap,
      ∀ ts ∈ u.clauses.map ParsedClause.tokens, ts ≠ [] ∧ Token.semicolon ∉ ts := fun u =>
    List.forall_mem_map.mpr fun c _ => ⟨by simp [ParsedClause.tokens], c.semicolon_not_mem⟩
  exact intercalate_inj (hparts u) (hparts u') (List.append_cancel_right h)

theorem relates_congr {u u' : ParsedMap} (h : u.tokens = u'.tokens) {p q : Point} :
    u.Relates π p q ↔ u'.Relates π p q := by
  obtain ⟨hparameters, hclauses⟩ := tokens_inj h
  unfold Relates
  rw [hparameters]
  exact exists_mem_congr_of_map_eq (fun _ _ h => ParsedClause.relates_congr h) hclauses

end ParsedMap

/-- The text is a map that relates the points, where `π` gives the values of the parameters. -/
def TextRelates (π : Valuation) (text : String) (p q : Point) : Prop :=
  ∃ u : ParsedMap, u.tokens = tokens text ∧ u.Accepted ∧ u.Relates π p q

theorem textRelates_iff {text : String} {u : ParsedMap} (htokens : u.tokens = tokens text)
    (hu : u.Accepted) {p q : Point} : TextRelates π text p q ↔ u.Relates π p q :=
  ⟨fun ⟨_, htokens', _, h⟩ => (ParsedMap.relates_congr (htokens'.trans htokens.symm)).mp h,
    fun h => ⟨u, htokens, hu, h⟩⟩

/-- The composition of the maps that some texts are, the first one applied first. -/
def TextsRelate (π : Valuation) : List String → Point → Point → Prop
  | [], p, q => q = p
  | text :: texts, p, q => ∃ r, TextRelates π text p r ∧ TextsRelate π texts r q

end LoopSched.Polyhedral
