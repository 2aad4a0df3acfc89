import LoopSched.Json.Token
import Mathlib.Data.List.Chain
import Mathlib.Data.List.TakeDrop
import Mathlib.Data.Nat.Basic

/-!
# Tokens are read back

The texts of tokens, put one after the other, are cut into the same tokens again.  Every token says
by itself where it ends, but for a number, which goes on as long as its characters do; so no number
may follow a number directly.
-/

namespace LoopSched.Json

/-! ### Numbers -/

/-- The text does not go on with what could belong to a number. -/
def EndsNumber (cs : List Char) : Prop :=
  ∀ c, cs.head? = some c → c.isDigit = false ∧ c ≠ '.' ∧ c ≠ 'e' ∧ c ≠ 'E'

theorem first_digit : ∀ n < 10, 0 < n → n.digitChar ≠ '0' := by decide

/-- Digits do not start with a zero, except for zero itself. -/
theorem exists_toDigits_eq_cons {n : ℕ} (h : 0 < n) :
    ∃ c cs, Nat.toDigits 10 n = c :: cs ∧ c ≠ '0' := by
  induction n using Nat.strong_induction_on with
  | _ n ih =>
    rcases Nat.lt_or_ge n 10 with hlt | hge
    · refine ⟨n.digitChar, [], Nat.toDigits_of_lt_base hlt, ?_⟩
      exact first_digit n hlt h
    · obtain ⟨c, cs, hcs, hc⟩ := ih (n / 10) (by omega) (by omega)
      refine ⟨c, cs ++ [(n % 10).digitChar], ?_, hc⟩
      rw [Nat.toDigits_of_base_le (by decide) hge, hcs, List.cons_append]

theorem isDigit_of_mem_toDigits {n : ℕ} {c : Char} (h : c ∈ Nat.toDigits 10 n) :
    c.isDigit = true :=
  Nat.isDigit_of_mem_toDigits (by decide) (by decide) h

theorem exists_digit_eq_cons (n : ℕ) :
    ∃ c cs, Nat.toDigits 10 n = c :: cs ∧ c.isDigit = true := by
  obtain ⟨c, cs, hdigits⟩ := List.exists_cons_of_ne_nil (Nat.toDigits_ne_nil (n := n) (b := 10))
  exact ⟨c, cs, hdigits, isDigit_of_mem_toDigits (n := n) (by simp [hdigits])⟩

namespace Numeral

theorem takeDigits_append {digits rest : List Char} (hdigits : ∀ c ∈ digits, c.isDigit = true)
    (hrest : EndsNumber rest) : takeDigits (digits ++ rest) = (digits, rest) := by
  have hstop : rest.takeWhile Char.isDigit = [] ∧ rest.dropWhile Char.isDigit = rest := by
    cases rest with
    | nil => exact ⟨rfl, rfl⟩
    | cons c cs =>
      obtain ⟨hc, -⟩ := hrest c rfl
      have hc : ¬ c.isDigit = true := by rw [hc]; exact Bool.false_ne_true
      exact ⟨List.takeWhile_cons_of_neg hc, List.dropWhile_cons_of_neg hc⟩
  rw [takeDigits, List.span_eq_takeWhile_dropWhile, List.takeWhile_append_of_pos hdigits,
    List.dropWhile_append_of_pos hdigits, hstop.1, hstop.2, List.append_nil]

theorem scanWhole_cons {c : Char} (hzero : c ≠ '0') (hdigit : c.isDigit = true) (cs : List Char) :
    scanWhole (c :: cs) = some (digitsValue (c :: (takeDigits cs).1), (takeDigits cs).2) := by
  unfold scanWhole
  split
  · rename_i heq
    cases heq
    exact absurd rfl hzero
  · rename_i heq
    cases heq
    rw [if_pos hdigit]
  · rename_i heq
    cases heq

theorem scanWhole_toDigits (n : ℕ) {rest : List Char} (hrest : EndsNumber rest) :
    scanWhole (Nat.toDigits 10 n ++ rest) = some (n, rest) := by
  rcases Nat.eq_zero_or_pos n with rfl | hpos
  · rfl
  · obtain ⟨c, cs, hdigits, hc⟩ := exists_toDigits_eq_cons hpos
    have hall : ∀ d ∈ c :: cs, d.isDigit = true := fun d hd =>
      isDigit_of_mem_toDigits (hdigits ▸ hd)
    have hvalue : digitsValue (c :: cs) = n := by
      rw [← hdigits]
      exact Nat.ofDigitChars_ten_toDigits
    rw [hdigits, List.cons_append, scanWhole_cons hc (hall c List.mem_cons_self),
      takeDigits_append (fun d hd => hall d (List.mem_cons_of_mem _ hd)) hrest, hvalue]

/-- What an integer is written as. -/
def Whole (n : Numeral) : Prop := n.fraction = [] ∧ n.exponent = none

theorem scanUnsigned_toDigits (negative : Bool) (n : ℕ) {rest : List Char}
    (hrest : EndsNumber rest) :
    scanUnsigned negative (Nat.toDigits 10 n ++ rest) = some (⟨negative, n, [], none⟩, rest) := by
  have hfraction : scanFraction rest = some ([], rest) := by
    cases rest with
    | nil => rfl
    | cons c cs =>
      obtain ⟨-, hpoint, -⟩ := hrest c rfl
      unfold scanFraction
      split
      · rename_i heq
        cases heq
        exact absurd rfl hpoint
      · rfl
  have hexponent : scanExponent rest = some (none, rest) := by
    cases rest with
    | nil => rfl
    | cons c cs =>
      obtain ⟨-, -, hlower, hupper⟩ := hrest c rfl
      unfold scanExponent
      dsimp only
      rw [if_neg (not_or.mpr ⟨hlower, hupper⟩)]
  rw [scanUnsigned, scanWhole_toDigits n hrest]
  simp only [Option.bind_eq_bind, Option.bind_some, hfraction, hexponent]
  rfl

theorem text_of_whole {n : Numeral} (h : n.Whole) :
    n.text.toList = (if n.negative then ['-'] else []) ++ Nat.toDigits 10 n.whole := by
  obtain ⟨negative, whole, fraction, exponent⟩ := n
  obtain ⟨rfl, rfl⟩ := h
  cases negative <;> simp [text]

theorem scan_text {n : Numeral} (h : n.Whole) {rest : List Char} (hrest : EndsNumber rest) :
    scan (n.text.toList ++ rest) = some (n, rest) := by
  rw [text_of_whole h]
  obtain ⟨negative, whole, fraction, exponent⟩ := n
  obtain ⟨rfl, rfl⟩ := h
  cases negative with
  | true => exact scanUnsigned_toDigits true whole hrest
  | false =>
    have hscan := scanUnsigned_toDigits false whole hrest
    obtain ⟨c, cs, hdigits, hc⟩ := exists_digit_eq_cons whole
    rw [hdigits] at hscan ⊢
    unfold scan
    split
    · rename_i heq
      cases heq
      exact absurd hc (by decide)
    · exact hscan

/-- A number starts with its sign or with a digit. -/
theorem exists_text_eq_cons {n : Numeral} (h : n.Whole) :
    ∃ c cs, n.text.toList = c :: cs ∧ (c = '-' ∨ c.isDigit = true) := by
  rw [text_of_whole h]
  cases n.negative with
  | true => exact ⟨'-', _, rfl, Or.inl rfl⟩
  | false =>
    obtain ⟨c, cs, hdigits, hc⟩ := exists_digit_eq_cons n.whole
    exact ⟨c, cs, hdigits, Or.inr hc⟩

end Numeral

/-! ### Strings -/

theorem hexUnit?_of_control : ∀ n < 32,
    hexUnit? '0' '0' (hexDigit (n / 16)) (hexDigit (n % 16)) = some n := by decide

theorem assemble_unit {n : ℕ} (h : n < 0xD800) (ps : List Piece) :
    assemble (.unit n :: ps) = (assemble ps).map (Char.ofNat n :: ·) := by
  have htrail : isTrail n = false := by
    rw [isTrail, decide_eq_false (by omega), Bool.false_and]
  have hlead : isLead n = false := by
    rw [isLead, decide_eq_false (by omega), Bool.false_and]
  rw [assemble.eq_def]
  simp only [htrail, hlead, Bool.false_eq_true, if_false]

/-- Some characters of a literal are read as one piece, whatever follows them. -/
def IsPiece (w : List Char) (p : Piece) : Prop :=
  ∀ cs, scanPieces (w ++ cs) = (scanPieces cs).map fun r => (p :: r.1, r.2)

theorem isPiece_short {e c : Char} (h : shortEscape? e = some c) :
    IsPiece ['\\', e] (.char c) := by
  intro cs
  have hu : e ≠ 'u' := by
    rintro rfl
    cases h
  rw [List.cons_append, List.singleton_append, scanPieces, h]
  · cases scanPieces cs <;> rfl
  · intro a b c d rest heq
    exact absurd heq hu

theorem isPiece_unit {a b c d : Char} {n : ℕ} (h : hexUnit? a b c d = some n) :
    IsPiece ['\\', 'u', a, b, c, d] (.unit n) := by
  intro cs
  show scanPieces ('\\' :: 'u' :: a :: b :: c :: d :: cs) = _
  rw [scanPieces, h]
  cases scanPieces cs <;> rfl

theorem isPiece_plain {c : Char} (hquote : c ≠ '"') (hslash : c ≠ '\\') (hc : ¬ c.toNat < 32) :
    IsPiece [c] (.char c) := by
  intro cs
  rw [List.singleton_append, scanPieces, if_neg (not_or.mpr ⟨hslash, hc⟩)]
  · cases scanPieces cs <;> rfl
  · exact hquote
  · intro a b d e rest hc
    exact absurd hc hslash
  · intro e rest hc
    exact absurd hc hslash

theorem assemble_char (c : Char) (ps : List Piece) :
    assemble (.char c :: ps) = (assemble ps).map (c :: ·) := by
  rw [assemble]

/-- A written character is one piece, and the piece stands for the character. -/
theorem exists_piece (c : Char) : ∃ p : Piece, IsPiece (escapeChar c) p ∧
    ∀ ps, assemble (p :: ps) = (assemble ps).map (c :: ·) := by
  by_cases hshort : c ∈ ['"', '\\', '\n', '\r', '\t', '\x08', '\x0c']
  · have hescape : ∃ e, escapeChar c = ['\\', e] ∧ shortEscape? e = some c := by
      simp only [List.mem_cons, List.not_mem_nil, or_false] at hshort
      rcases hshort with rfl | rfl | rfl | rfl | rfl | rfl | rfl <;> exact ⟨_, rfl, rfl⟩
    obtain ⟨e, htext, he⟩ := hescape
    exact ⟨.char c, htext ▸ isPiece_short he, assemble_char c⟩
  · simp only [List.mem_cons, List.not_mem_nil, or_false, not_or] at hshort
    obtain ⟨hquote, hslash, hnewline, hreturn, htab, hback, hfeed⟩ := hshort
    rw [escapeChar, if_neg hquote, if_neg hslash, if_neg hnewline, if_neg hreturn, if_neg htab,
      if_neg hback, if_neg hfeed]
    by_cases hcontrol : c.toNat < 32
    · rw [if_pos hcontrol]
      refine ⟨.unit c.toNat, isPiece_unit (hexUnit?_of_control _ hcontrol), fun ps => ?_⟩
      rw [assemble_unit (by omega), Char.ofNat_toNat]
    · rw [if_neg hcontrol]
      exact ⟨.char c, isPiece_plain hquote hslash hcontrol, assemble_char c⟩

/-- A string literal is read back, and one without text as one without text. -/
theorem scanString_stringText (s : Option String) (rest : List Char) : ∃ cs,
    (stringText s).toList = '"' :: cs ∧ scanString (cs ++ rest) = some (s, rest) := by
  cases s with
  | none =>
    have hlead : hexUnit? 'd' '8' '0' '0' = some 0xD800 := by decide
    have hscan := isPiece_unit hlead ('"' :: rest)
    rw [scanPieces.eq_def ('"' :: rest)] at hscan
    refine ⟨['\\', 'u', 'd', '8', '0', '0', '"'], rfl, ?_⟩
    rw [scanString]
    exact congrArg (Option.bind · _) hscan
  | some s =>
    have hpieces : ∀ cs : List Char, ∃ ps,
        scanPieces (cs.flatMap escapeChar ++ '"' :: rest) = some (ps, rest) ∧
          assemble ps = some cs := by
      intro cs
      induction cs with
      | nil => exact ⟨[], by rw [List.flatMap_nil, List.nil_append, scanPieces], rfl⟩
      | cons c cs ih =>
        obtain ⟨p, hp, hc⟩ := exists_piece c
        obtain ⟨ps, hps, hcs⟩ := ih
        refine ⟨p :: ps, ?_, ?_⟩
        · rw [List.flatMap_cons, List.append_assoc, hp, hps]
          rfl
        · rw [hc, hcs]
          rfl
    obtain ⟨ps, hps, hs⟩ := hpieces s.toList
    refine ⟨s.toList.flatMap escapeChar ++ ['"'], by simp [stringText], ?_⟩
    rw [List.append_assoc, List.singleton_append, scanString, hps]
    simp only [Option.bind_eq_bind, Option.bind_some, hs, Option.map_some, String.ofList_toList]
    rfl

/-! ### Tokens -/

namespace Token

def isNumber : Token → Bool
  | number _ => true
  | _ => false

/-- A token that can be written: a number has to be whole. -/
def Writable : Token → Prop
  | number n => n.Whole
  | _ => True

theorem isBlank_of_isDigit {c : Char} (h : c.isDigit = true) : isBlank c = false := by
  by_contra hblank
  rw [Bool.not_eq_false] at hblank
  simp only [isBlank, Bool.or_eq_true, decide_eq_true_eq] at hblank
  rcases hblank with ((rfl | rfl) | rfl) | rfl <;> exact absurd h (by decide)

/-- A token starts with no blank.  No token but a number starts with what could belong to one. -/
theorem exists_text_eq_cons {t : Token} (h : t.Writable) : ∃ c cs,
    t.text.toList = c :: cs ∧ isBlank c = false ∧
      (t.isNumber = false → c.isDigit = false ∧ c ≠ '.' ∧ c ≠ 'e' ∧ c ≠ 'E') := by
  cases t with
  | number n =>
    obtain ⟨c, cs, htext, hc⟩ := Numeral.exists_text_eq_cons h
    refine ⟨c, cs, htext, ?_, fun h => by cases h⟩
    rcases hc with rfl | hc
    · rfl
    · exact isBlank_of_isDigit hc
  | string s =>
    obtain ⟨cs, htext, -⟩ := scanString_stringText s []
    exact ⟨'"', cs, htext, rfl, fun _ => by decide⟩
  | bool b => cases b <;> exact ⟨_, _, rfl, rfl, fun _ => by decide⟩
  | _ => exact ⟨_, _, rfl, rfl, fun _ => by decide⟩

theorem next_of_number {c : Char} (h : c = '-' ∨ c.isDigit = true) (cs : List Char) :
    next (c :: cs) = (Numeral.scan (c :: cs)).map fun r => (.number r.1, r.2) := by
  -- none of the other rules starts with a character of a number
  rw [next]
  all_goals
    intro rest heq
    cases heq
    exact absurd h (by decide)

theorem next_text {t : Token} (h : t.Writable) {rest : List Char}
    (hrest : t.isNumber = true → EndsNumber rest) :
    next (t.text.toList ++ rest) = some (t, rest) := by
  cases t with
  | number n =>
    obtain ⟨c, cs, htext, hc⟩ := Numeral.exists_text_eq_cons h
    have hscan := Numeral.scan_text h (hrest rfl)
    rw [htext, List.cons_append] at hscan
    show next (n.text.toList ++ rest) = _
    rw [htext, List.cons_append, next_of_number hc, hscan]
    rfl
  | string s =>
    obtain ⟨cs, htext, hscan⟩ := scanString_stringText s rest
    show next ((stringText s).toList ++ rest) = _
    rw [htext, List.cons_append, next, hscan]
    rfl
  | bool b => cases b <;> rfl
  | _ => rfl

/-- No number follows a number. -/
def Separated (ts : List Token) : Prop :=
  ts.IsChain fun t u => t.isNumber = true → u.isNumber = false

/-- A token that is no number separates what stands before it from what stands behind it. -/
theorem separated_middle {t : Token} (ht : t.isNumber = false) {ts us : List Token} :
    Separated (ts ++ t :: us) ↔ Separated ts ∧ Separated us := by
  have hnot : ¬ t.isNumber = true := by rw [ht]; exact Bool.false_ne_true
  unfold Separated
  rw [List.isChain_append, List.isChain_cons]
  constructor
  · rintro ⟨hts, ⟨-, hus⟩, -⟩
    exact ⟨hts, hus⟩
  · rintro ⟨hts, hus⟩
    refine ⟨hts, ⟨fun u _ h => absurd h hnot, hus⟩, ?_⟩
    rintro u - v hv -
    cases hv
    exact ht

/-- Characters of tokens. -/
def chars (ts : List Token) : List Char := ts.flatMap (·.text.toList)

theorem chars_cons (t : Token) (ts : List Token) : chars (t :: ts) = t.text.toList ++ chars ts :=
  List.flatMap_cons

theorem endsNumber_chars {t : Token} {ts : List Token} (hwrite : ∀ u ∈ ts, u.Writable)
    (hsep : Separated (t :: ts)) (ht : t.isNumber = true) : EndsNumber (chars ts) := by
  cases ts with
  | nil =>
    intro c hc
    cases hc
  | cons u us =>
    obtain ⟨c, cs, htext, -, hc⟩ := exists_text_eq_cons (hwrite u List.mem_cons_self)
    intro d hd
    rw [chars_cons, htext] at hd
    cases hd
    exact hc ((List.isChain_cons_cons.mp hsep).1 ht)

theorem scanAux_chars {ts : List Token} (hwrite : ∀ t ∈ ts, t.Writable) (hsep : Separated ts)
    {fuel : ℕ} (hfuel : ts.length ≤ fuel) : scanAux fuel (chars ts) = some ts := by
  induction ts generalizing fuel with
  | nil => cases fuel <;> rfl
  | cons t ts ih =>
    obtain ⟨ht, hts⟩ := List.forall_mem_cons.mp hwrite
    obtain ⟨fuel, rfl⟩ : ∃ n, fuel = n + 1 := Nat.exists_eq_add_one.mpr (by
      rw [List.length_cons] at hfuel
      omega)
    obtain ⟨c, cs, htext, hblank, -⟩ := exists_text_eq_cons ht
    have hnext := next_text ht (endsNumber_chars hts hsep)
    have hrest := ih hts hsep.tail (Nat.le_of_succ_le_succ hfuel)
    rw [chars_cons, htext, List.cons_append] at *
    rw [scanAux, List.dropWhile_cons_of_neg (by rw [hblank]; exact Bool.false_ne_true)]
    simp only [hnext, hrest, Option.bind_eq_bind, Option.bind_some]
    rfl

theorem length_le_chars {ts : List Token} (hwrite : ∀ t ∈ ts, t.Writable) :
    ts.length ≤ (chars ts).length := by
  induction ts with
  | nil => exact Nat.le_refl 0
  | cons t ts ih =>
    obtain ⟨ht, hts⟩ := List.forall_mem_cons.mp hwrite
    obtain ⟨c, cs, htext, -⟩ := exists_text_eq_cons ht
    rw [chars_cons, htext, List.cons_append, List.length_cons, List.length_cons,
      List.length_append]
    have := ih hts
    omega

/-- Tokens are read back from their texts. -/
theorem scan_chars {ts : List Token} (hwrite : ∀ t ∈ ts, t.Writable) (hsep : Separated ts) :
    scan (chars ts) = some ts :=
  scanAux_chars hwrite hsep (length_le_chars hwrite)

end Token

end LoopSched.Json
