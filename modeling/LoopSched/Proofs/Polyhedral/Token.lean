import LoopSched.Polyhedral.Map
import Mathlib.Data.List.Basic
import Mathlib.Data.Nat.Notation

/-!
# Tokens of a text

The polyhedral calculator reads a text as a list of tokens.  Blanks and single signs end a word; a
word is a number, a name, a keyword, a comparison or an arrow.  So a text that is put together from
pieces has the tokens of its pieces wherever a blank or a sign stands between them.
-/

namespace LoopSched.Polyhedral

/-- How two values are compared. -/
inductive Comparator where
  | less
  | atMost
  | equal
  | unequal
deriving DecidableEq, Repr

inductive Token where
  | number (value : ℕ)
  | name (text : String)
  | plus
  | minus
  | times
  | opening
  | closing
  | openBracket
  | closeBracket
  | openBrace
  | closeBrace
  | comma
  | colon
  | semicolon
  | arrow
  | compare (r : Comparator)
  | conj
  | disj
  | quantifier
  /-- A word that means nothing here. -/
  | unknown (text : String)
deriving DecidableEq, Repr

namespace Token

/-- The tokens of a character that ends a word: none for a blank, and a sign is one itself. -/
def ofBreak? : Char → Option (List Token)
  | ' ' | '\t' | '\n' | '\x0b' | '\x0c' | '\r' => some []
  | '+' => some [.plus]
  | '*' => some [.times]
  | '(' => some [.opening]
  | ')' => some [.closing]
  | '[' => some [.openBracket]
  | ']' => some [.closeBracket]
  | '\x7b' => some [.openBrace]
  | '\x7d' => some [.closeBrace]
  | ',' => some [.comma]
  | ':' => some [.colon]
  | ';' => some [.semicolon]
  | _ => none

/-- The characters of names and numbers. -/
def isNameChar (c : Char) : Bool := c.isAlphanum || c == '_'

/-- Words that the calculator keeps for what no map here uses. -/
def reserved : List String :=
  ["not", "implies", "true", "false", "min", "max", "mod", "ceil", "floor", "ceild", "floord", "rat",
    "infty", "infinity", "nan"]

/-- Words with a meaning of their own. -/
def keywords : List (String × Token) :=
  [("and", .conj), ("or", .disj), ("exists", .quantifier), ("<", .compare .less),
    ("<=", .compare .atMost), ("=", .compare .equal), ("!=", .compare .unequal), ("-", .minus),
    ("->", .arrow)] ++ reserved.map fun word => (word, .unknown word)

/-- The meaning of its own that a word has; capitals make no difference. -/
def keyword? (word : List Char) : Option Token :=
  keywords.lookup (String.ofList (word.map Char.toLower))

/-- The characters that a name starts with. -/
def isFirstChar (c : Char) : Bool := c.isAlpha || c == '_'

def ofWord (word : List Char) : Token :=
  if word.all Char.isDigit then .number (Nat.ofDigitChars 10 word 0)
  else (keyword? word).getD
    (if word.head?.any isFirstChar then .name (String.ofList word) else .unknown (String.ofList word))

/-- The word so far, if there is one, is complete. -/
def flush (word : List Char) : List Token := if word = [] then [] else [ofWord word]

/-- The character goes on with the word.  A name and a comparison that touch are two words, and a
minus sign is a word of its own unless it starts an arrow. -/
def joins (word : List Char) (c : Char) : Bool :=
  if c == '-' || word.contains '-' then word.isEmpty || (word == ['-'] && c == '>')
  else word.all (isNameChar · == isNameChar c)

/-- The tokens of the characters that follow the beginning of a word. -/
def scan : List Char → List Char → List Token
  | word, [] => flush word
  | word, c :: cs =>
    match ofBreak? c with
    | some ts => flush word ++ ts ++ scan [] cs
    | none =>
      if joins word c then scan (word ++ [c]) cs
      else flush word ++ scan [c] cs

end Token

open Token

def tokens (text : String) : List Token := scan [] text.toList

/-! ### Pieces of text -/

theorem scan_append_cons {c : Char} (hc : (ofBreak? c).isSome) (cs ds : List Char) :
    ∀ word, scan word (cs ++ c :: ds) = scan word cs ++ scan [] (c :: ds) := by
  obtain ⟨ts, hts⟩ := Option.isSome_iff_exists.mp hc
  have hstart : ∀ word, scan word (c :: ds) = flush word ++ (ts ++ scan [] ds) := by
    intro word
    rw [scan, hts]
    exact List.append_assoc _ _ _
  induction cs with
  | nil =>
    intro word
    rw [List.nil_append, hstart, hstart]
    rfl
  | cons d cs ih =>
    intro word
    rw [List.cons_append, scan, scan]
    cases ofBreak? d with
    | some us =>
      simp only [ih]
      rw [List.append_assoc _ (scan _ _)]
    | none =>
      simp only [ih]
      split
      · rfl
      · rw [List.append_assoc]

theorem scan_concat_append {c : Char} (hc : (ofBreak? c).isSome) (cs ds : List Char) (word) :
    scan word (cs ++ [c] ++ ds) = scan word (cs ++ [c]) ++ scan [] ds := by
  obtain ⟨ts, hts⟩ := Option.isSome_iff_exists.mp hc
  have hsplit : ∀ ds, scan [] (c :: ds) = ts ++ scan [] ds := by
    intro ds
    rw [scan, hts]
    rfl
  have hnil : scan [] [] = [] := rfl
  rw [List.append_assoc, List.singleton_append, scan_append_cons hc, scan_append_cons hc, hsplit,
    hsplit, hnil, List.append_nil, List.append_assoc]

/-- The text starts with a blank or a sign. -/
def startsApart (text : String) : Bool := (text.toList.head?.bind ofBreak?).isSome

/-- The text ends with a blank or a sign. -/
def endsApart (text : String) : Bool := (text.toList.getLast?.bind ofBreak?).isSome

theorem tokens_append_of_starts {s : String} (h : startsApart s) (a : String) :
    tokens (a ++ s) = tokens a ++ tokens s := by
  unfold startsApart at h
  cases hs : s.toList with
  | nil => simp [hs] at h
  | cons c cs =>
    rw [hs, List.head?_cons, Option.bind_some] at h
    rw [tokens, String.toList_append, hs, scan_append_cons h, tokens, tokens, hs]

theorem tokens_append_of_ends {s : String} (h : endsApart s) (b : String) :
    tokens (s ++ b) = tokens s ++ tokens b := by
  unfold endsApart at h
  rcases List.eq_nil_or_concat' s.toList with hs | ⟨cs, c, hs⟩
  · simp [hs] at h
  · rw [hs, List.getLast?_concat, Option.bind_some] at h
    rw [tokens, String.toList_append, hs, scan_concat_append h, tokens, tokens, hs]

theorem endsApart_append {s : String} (h : endsApart s) (a : String) : endsApart (a ++ s) := by
  unfold endsApart at h ⊢
  rw [String.toList_append, List.getLast?_append]
  cases hs : s.toList.getLast? with
  | none => simp [hs] at h
  | some c =>
    rw [hs] at h
    exact h

theorem startsApart_append {s : String} (h : startsApart s) (b : String) : startsApart (s ++ b) := by
  unfold startsApart at h ⊢
  rw [String.toList_append, List.head?_append]
  cases hs : s.toList.head? with
  | none => simp [hs] at h
  | some c =>
    rw [hs] at h
    exact h

/-- A separator keeps what stands before it and what stands behind it apart. -/
theorem tokens_between {s : String} (hstart : startsApart s) (hend : endsApart s) (a b : String) :
    tokens (a ++ s ++ b) = tokens a ++ (tokens s ++ tokens b) := by
  rw [tokens_append_of_ends (endsApart_append hend a), tokens_append_of_starts hstart,
    List.append_assoc]

theorem tokens_intercalate {s : String} (hstart : startsApart s) (hend : endsApart s) :
    ∀ texts : List String, tokens (s.intercalate texts) = (tokens s).intercalate (texts.map tokens)
  | [] => rfl
  | [a] => by simp
  | a :: b :: texts => by
    rw [String.intercalate_cons_cons, tokens_between hstart hend,
      tokens_intercalate hstart hend (b :: texts)]
    simp only [List.map_cons, List.intercalate_cons_cons, List.append_assoc]

/-! ### Names and numbers -/

theorem ofBreak?_eq_none {c : Char} (h : isNameChar c = true) : ofBreak? c = none := by
  unfold ofBreak?
  split
  case h_18 => rfl
  -- no blank and no sign is a character of names
  all_goals exact absurd h (by decide)

theorem joins_of_isNameChar {word : List Char} (hword : ∀ d ∈ word, isNameChar d = true) {c : Char}
    (hc : isNameChar c = true) : joins word c = true := by
  have hminus : isNameChar '-' = false := by decide
  have hcne : c ≠ '-' := fun heq => by simp [heq, hminus] at hc
  have hnot : '-' ∉ word := fun hmem => by simpa [hminus] using hword '-' hmem
  unfold joins
  rw [if_neg (by simp [hcne, hnot]), List.all_eq_true]
  intro d hd
  rw [hword d hd, hc]
  rfl

theorem scan_of_isNameChar {cs : List Char} (h : ∀ c ∈ cs, isNameChar c = true) :
    ∀ {word : List Char}, (∀ c ∈ word, isNameChar c = true) →
      scan word cs = flush (word ++ cs) := by
  induction cs with
  | nil =>
    intro word _
    rw [scan, List.append_nil]
  | cons c cs ih =>
    intro word hword
    have hc := h c List.mem_cons_self
    have hjoins := joins_of_isNameChar hword hc
    have hnext : ∀ d ∈ word ++ [c], isNameChar d = true := by
      intro d hd
      rcases List.mem_append.mp hd with hd | hd
      · exact hword d hd
      · exact List.mem_singleton.mp hd ▸ hc
    rw [scan, ofBreak?_eq_none hc]
    simp only [hjoins, if_true]
    rw [ih (fun d hd => h d (List.mem_cons_of_mem _ hd)) hnext, List.append_assoc,
      List.singleton_append]

/-- The text is one name, and not a keyword. -/
structure Identifier (text : String) : Prop where
  chars : ∀ c ∈ text.toList, isNameChar c = true
  head : text.toList.head?.any isFirstChar = true
  free : keyword? text.toList = none

theorem identifier_iff {text : String} : Identifier text ↔ text.toList.all isNameChar = true ∧
    text.toList.head?.any isFirstChar = true ∧ keyword? text.toList = none := by
  rw [List.all_eq_true]
  constructor
  · intro h
    exact ⟨h.chars, h.head, h.free⟩
  · rintro ⟨hchars, hhead, hfree⟩
    exact ⟨hchars, hhead, hfree⟩

instance (text : String) : Decidable (Identifier text) := decidable_of_iff' _ identifier_iff

/-- No keyword has an underscore. -/
theorem keyword?_of_underscore {word : List Char} (h : '_' ∈ word) : keyword? word = none := by
  have hnot : ∀ k ∈ keywords, '_' ∉ k.1.toList := by decide
  unfold keyword?
  rw [List.lookup_eq_none_iff]
  intro k hk
  by_contra heq
  have heq : String.ofList (word.map Char.toLower) = k.1 := by simpa using heq
  refine hnot k hk (heq ▸ ?_)
  rw [String.toList_ofList]
  exact List.mem_map.mpr ⟨'_', h, by decide⟩

/-- No name starts with a digit. -/
theorem not_isDigit_of_isFirstChar {c : Char} (h : isFirstChar c = true) : ¬ c.isDigit = true := by
  intro hdigit
  have hle : c.toNat ≤ 57 := (Char.isDigit_iff_toNat.mp hdigit).2
  have hge : 65 ≤ c.toNat := by
    have hcases : (c.isUpper = true ∨ c.isLower = true) ∨ c = '_' := by
      rw [← beq_iff_eq (a := c), ← Bool.or_eq_true, ← Bool.or_eq_true]
      exact h
    rcases hcases with (hupper | hlower) | rfl
    · exact (of_decide_eq_true hupper).1
    · have hlower : 97 ≤ c.toNat := of_decide_eq_true (Bool.and_eq_true_iff.mp hlower).1
      omega
    · decide
  omega

theorem tokens_of_identifier {text : String} (h : Identifier text) :
    tokens text = [.name text] := by
  obtain ⟨c, cs, hword⟩ : ∃ c cs, text.toList = c :: cs := by
    refine List.exists_cons_of_ne_nil fun hnil => ?_
    simpa [hnil] using h.head
  have hfirst : isFirstChar c = true := by simpa [hword] using h.head
  have hdigit : ¬ text.toList.all Char.isDigit = true := fun hall =>
    not_isDigit_of_isFirstChar hfirst (List.all_eq_true.mp hall c (by simp [hword]))
  have hne : text.toList ≠ [] := hword ▸ List.cons_ne_nil c cs
  rw [tokens, scan_of_isNameChar h.chars (by simp), List.nil_append, flush, if_neg hne, ofWord,
    if_neg hdigit, h.free, Option.getD_none, if_pos h.head, String.ofList_toList]

theorem isNameChar_of_mem_toDigits {n : ℕ} {c : Char} (h : c ∈ Nat.toDigits 10 n) :
    isNameChar c = true := by
  have hdigit := Nat.isDigit_of_mem_toDigits (by decide) (by decide) h
  simp [isNameChar, Char.isAlphanum, hdigit]

theorem tokens_repr (n : ℕ) : tokens (toString n) = [.number n] := by
  have hdigit : ∀ c ∈ Nat.toDigits 10 n, c.isDigit = true := fun c hc =>
    Nat.isDigit_of_mem_toDigits (by decide) (by decide) hc
  have htext : (toString n).toList = Nat.toDigits 10 n := Nat.toList_repr
  have hne : Nat.toDigits 10 n ≠ [] := Nat.toDigits_ne_nil
  have hall : (Nat.toDigits 10 n).all Char.isDigit = true := List.all_eq_true.mpr hdigit
  rw [tokens, htext, scan_of_isNameChar (fun _ => isNameChar_of_mem_toDigits) (by simp),
    List.nil_append, flush, if_neg hne, ofWord, if_pos hall, Nat.ofDigitChars_ten_toDigits]

/-- A minus sign in front of a name or a number is a token of its own. -/
theorem tokens_minus {s : String} (h : s.toList.head?.any isNameChar = true) :
    tokens ("-" ++ s) = .minus :: tokens s := by
  obtain ⟨c, cs, hs⟩ : ∃ c cs, s.toList = c :: cs := by
    refine List.exists_cons_of_ne_nil fun hnil => ?_
    simp [hnil] at h
  have hc : isNameChar c = true := by simpa [hs] using h
  have hbreak : ofBreak? c = none := ofBreak?_eq_none hc
  have hstart : joins [] c = true := joins_of_isNameChar (by simp) hc
  have hapart : joins ['-'] c = false := by
    have hne : c ≠ '>' := by
      rintro rfl
      exact absurd hc (by decide)
    simp [joins, hne]
  have hrest : scan [] (c :: cs) = scan [c] cs := by
    rw [scan, hbreak]
    simp [hstart]
  have hminus : scan ['-'] (c :: cs) = .minus :: scan [c] cs := by
    rw [scan, hbreak]
    simp only [hapart, Bool.false_eq_true, if_false]
    rfl
  rw [tokens, tokens, String.toList_append, hs, hrest]
  exact hminus

theorem tokens_neg (n : ℕ) : tokens ("-" ++ toString n) = [.minus, .number n] := by
  have hhead : (toString n).toList.head?.any isNameChar = true := by
    have htext : (toString n).toList = Nat.toDigits 10 n := Nat.toList_repr
    obtain ⟨c, cs, hdigits⟩ := List.exists_cons_of_ne_nil (Nat.toDigits_ne_nil (n := n) (b := 10))
    rw [htext, hdigits]
    exact isNameChar_of_mem_toDigits (hdigits ▸ List.mem_cons_self)
  rw [tokens_minus hhead, tokens_repr]

end LoopSched.Polyhedral
