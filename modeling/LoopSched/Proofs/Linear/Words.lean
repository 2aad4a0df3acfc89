import LoopSched.Linear.Relaxation
import LoopSched.Proofs.Linear.Pivot
import Mathlib.Algebra.Order.Ring.Int
import Mathlib.Data.Int.Cast.Field
import Mathlib.Data.Rat.Lemmas
import Mathlib.Tactic.LinearCombination

/-!
# Fractions of words

Whatever a checked operation returns is a fraction of words: a sum or a difference in any case, an
opposite or a quotient if its arguments are.  So the rows of a relaxation, its tableaux and the
values read off them are fractions of words throughout.
-/

namespace LoopSched

theorem Word.fits_of_mul {c n : ℤ} (hc : 0 < c) (h : Fits (c * n)) : Fits n := by
  have hc : 1 ≤ c := hc
  rcases le_total 0 n with hn | hn
  · exact ⟨le_trans (by decide) hn, (le_mul_of_one_le_left hn hc).trans h.2⟩
  · exact ⟨h.1.trans (mul_le_of_one_le_left hn hc), hn.trans (by decide)⟩

namespace Ratio

/-- Numerator and denominator are words. -/
structure IsWord (a : ℚ) : Prop where
  num : Word.Fits a.num
  den : Word.Fits a.den

theorem isWord_zero : IsWord 0 := ⟨by decide, by decide⟩

theorem isWord_one : IsWord 1 := ⟨by decide, by decide⟩

theorem isWord_neg_one : IsWord (-1) := ⟨by decide, by decide⟩

/-- A fraction of words is still one when it is reduced. -/
theorem isWord_of_eq_div {q : ℚ} {n d : ℤ} (h : q = n / d) (hd : 0 < d) (hn : Word.Fits n)
    (hfits : Word.Fits d) : IsWord q := by
  rw [Rat.intCast_div_eq_divInt] at h
  obtain ⟨c, hnum, hden⟩ := Rat.num_den_mk hd.ne' h
  have hc : 0 < c := by
    rw [hden] at hd
    exact pos_of_mul_pos_left hd (Int.natCast_nonneg _)
  exact ⟨Word.fits_of_mul hc (hnum ▸ hn), Word.fits_of_mul hc (hden ▸ hfits)⟩

/-- The least common denominator is one: both fractions can be written over it. -/
theorem eq_div_common (a b : ℚ) :
    let l := a.den / Nat.gcd a.den b.den * b.den
    0 < l ∧ a = ((l / a.den : ℕ) * a.num : ℤ) / ((l : ℕ) : ℤ) ∧
      b = ((l / b.den : ℕ) * b.num : ℤ) / ((l : ℕ) : ℤ) := by
  intro l
  obtain ⟨u, hu⟩ := Nat.gcd_dvd_left a.den b.den
  obtain ⟨v, hv⟩ := Nat.gcd_dvd_right a.den b.den
  have hg : 0 < Nat.gcd a.den b.den := Nat.gcd_pos_of_pos_left _ a.den_pos
  have hlb : l = u * b.den := by rw [← Nat.div_eq_of_eq_mul_right hg hu]
  have hla : l = v * a.den := by
    rw [hlb, hu]
    conv_lhs => rw [hv]
    ring
  have hl : 0 < l := by
    rw [hlb]
    refine Nat.mul_pos (Nat.pos_of_ne_zero fun h0 => ?_) b.den_pos
    rw [h0, mul_zero] at hu
    exact a.den_nz hu
  have hfrac : ∀ (q : ℚ) (k : ℕ), l = k * q.den →
      q = ((l / q.den : ℕ) * q.num : ℤ) / ((l : ℕ) : ℤ) := by
    intro q k hk
    have hq : (l : ℚ) ≠ 0 := by exact_mod_cast hl.ne'
    rw [show l / q.den = k from Nat.div_eq_of_eq_mul_left q.den_pos hk]
    push_cast
    rw [eq_div_iff hq, hk]
    push_cast
    linear_combination (k : ℚ) * q.mul_den_eq_num
  exact ⟨hl, hfrac a v hla, hfrac b u hlb⟩

/-! ### Whole numbers -/

theorem add_intCast {m n : ℤ} (hm : Word.Fits m) (hn : Word.Fits n) (h : Word.Fits (m + n)) :
    add m n = .ok (m + n : ℤ) := by
  simp [add, Word.check, hm, hn, h, show Word.Fits 1 by decide]
  rfl

theorem sub_intCast {m n : ℤ} (hm : Word.Fits m) (hn : Word.Fits n) (h : Word.Fits (m - n)) :
    sub m n = .ok (m - n : ℤ) := by
  simp [sub, Word.check, hm, hn, h, show Word.Fits 1 by decide]
  rfl

theorem mul_intCast {m n : ℤ} (h : Word.Fits (m * n)) : mul m n = .ok (m * n : ℤ) := by
  simp [mul, Word.check, h, show Word.Fits 1 by decide]
  rfl

/-! ### Results -/

section Operations

variable {a b c : ℚ}

theorem isWord_add (h : add a b = .ok c) : IsWord c := by
  obtain rfl := add_eq_ok h
  unfold add at h
  obtain ⟨_, hl, h⟩ := Checked.bind_eq_ok h
  obtain ⟨_, -, h⟩ := Checked.bind_eq_ok h
  obtain ⟨_, -, h⟩ := Checked.bind_eq_ok h
  obtain ⟨_, hsum, -⟩ := Checked.bind_eq_ok h
  obtain ⟨hpos, ha, hb⟩ := eq_div_common a b
  refine isWord_of_eq_div ?_ (by exact_mod_cast hpos) (Word.check_eq_ok.mp hsum)
    (Word.check_eq_ok.mp hl)
  rw [Int.cast_add, add_div, ← ha, ← hb]

theorem isWord_sub (h : sub a b = .ok c) : IsWord c := by
  obtain rfl := sub_eq_ok h
  unfold sub at h
  obtain ⟨_, hl, h⟩ := Checked.bind_eq_ok h
  obtain ⟨_, -, h⟩ := Checked.bind_eq_ok h
  obtain ⟨_, -, h⟩ := Checked.bind_eq_ok h
  obtain ⟨_, hdiff, -⟩ := Checked.bind_eq_ok h
  obtain ⟨hpos, ha, hb⟩ := eq_div_common a b
  refine isWord_of_eq_div ?_ (by exact_mod_cast hpos) (Word.check_eq_ok.mp hdiff)
    (Word.check_eq_ok.mp hl)
  rw [Int.cast_sub, sub_div, ← ha, ← hb]

theorem isWord_neg (ha : IsWord a) (h : neg a = .ok c) : IsWord c := by
  obtain rfl := neg_eq_ok h
  unfold neg at h
  by_cases hfits : Word.Fits (-a.num)
  · exact ⟨hfits, ha.den⟩
  · rw [if_neg hfits] at h
    cases h

omit a b c in
/-- A common divisor does not change a quotient. -/
theorem cast_ediv_div_cast_ediv {g m n : ℤ} (hg : g ≠ 0) (hm : g ∣ m) (hn : g ∣ n) :
    ((m / g : ℤ) : ℚ) / (n / g : ℤ) = m / n := by
  have hg' : (g : ℚ) ≠ 0 := Int.cast_ne_zero.mpr hg
  rw [Int.cast_div hm hg', Int.cast_div hn hg', div_div_div_cancel_right₀ hg']

/-- The parts of a quotient are words, and their quotient is the quotient. -/
theorem quotientParts_eq_ok {num den : ℤ} (ha : IsWord a) (hb : IsWord b) (hne : b ≠ 0)
    (h : quotientParts a b = .ok (num, den)) :
    den ≠ 0 ∧ a / b = num / den ∧ Word.Fits num ∧ Word.Fits den := by
  have hquot : a / b = a.num / b.num / ((a.den : ℤ) / (b.den : ℤ)) := by
    rw [Int.cast_natCast, Int.cast_natCast, div_div_div_comm, a.num_div_den, b.num_div_den]
  have haden : (a.den : ℤ) ≠ 0 := Int.natCast_ne_zero.mpr a.den_nz
  have hbden : (b.den : ℤ) ≠ 0 := Int.natCast_ne_zero.mpr b.den_nz
  have hbnum : b.num ≠ 0 := Rat.num_ne_zero.mpr hne
  rw [hquot]
  unfold quotientParts at h
  by_cases hden : a.den = b.den
  · rw [if_pos hden] at h
    cases h
    refine ⟨hbnum, ?_, ha.num, hb.num⟩
    rw [hden, div_self (Int.cast_ne_zero.mpr hbden), div_one]
  rw [if_neg hden] at h
  by_cases hnum : a.num = b.num
  · rw [if_pos hnum] at h
    cases h
    refine ⟨haden, ?_, hb.den, ha.den⟩
    rw [hnum, div_self (Int.cast_ne_zero.mpr hbnum), one_div_div]
  rw [if_neg hnum] at h
  dsimp only at h
  split at h
  · obtain ⟨_, hfitsden, h⟩ := Checked.bind_eq_ok h
    obtain ⟨_, hfitsnum, h⟩ := Checked.bind_eq_ok h
    cases h
    set g := Nat.gcd a.num.natAbs b.num.natAbs
    set k := Nat.gcd a.den b.den
    have hga : (g : ℤ) ∣ a.num := Int.natCast_dvd.mpr (Nat.gcd_dvd_left _ _)
    have hgb : (g : ℤ) ∣ b.num := Int.natCast_dvd.mpr (Nat.gcd_dvd_right _ _)
    have hka : (k : ℤ) ∣ a.den := Int.natCast_dvd_natCast.mpr (Nat.gcd_dvd_left _ _)
    have hkb : (k : ℤ) ∣ b.den := Int.natCast_dvd_natCast.mpr (Nat.gcd_dvd_right _ _)
    have hquotient {d n : ℤ} (hn : n ≠ 0) (hd : d ∣ n) : n / d ≠ 0 := by
      intro h0
      rw [← Int.ediv_mul_cancel hd, h0, zero_mul] at hn
      exact hn rfl
    rw [Int.natCast_div] at hfitsden hfitsnum
    rw [Int.natCast_div, Int.natCast_div]
    refine ⟨mul_ne_zero (hquotient haden hka) (hquotient hbnum hgb), ?_,
      Word.check_eq_ok.mp hfitsnum, Word.check_eq_ok.mp hfitsden⟩
    rw [← cast_ediv_div_cast_ediv (ne_zero_of_dvd_ne_zero hbnum hgb) hga hgb,
      ← cast_ediv_div_cast_ediv (ne_zero_of_dvd_ne_zero haden hka) hka hkb, div_div_div_eq,
      mul_comm ((b.num / g : ℤ) : ℚ), Int.cast_mul, Int.cast_mul]
  · cases h

theorem isWord_div (ha : IsWord a) (hb : IsWord b) (h : div a b = .ok c) : IsWord c := by
  obtain ⟨hne, rfl⟩ := div_eq_ok h
  unfold div at h
  rw [if_neg hne] at h
  obtain ⟨⟨num, den⟩, hparts, h⟩ := Checked.bind_eq_ok h
  obtain ⟨hden, heq, hnumfits, hdenfits⟩ := quotientParts_eq_ok ha hb hne hparts
  dsimp only at h
  by_cases hneg : den < 0
  · -- the sign moves to the numerator after the last reduction
    rw [if_pos hneg] at h
    obtain ⟨_, hnum', h⟩ := Checked.bind_eq_ok h
    obtain ⟨_, hden', -⟩ := Checked.bind_eq_ok h
    have hg : (0 : ℤ) < Int.gcd num den := by
      exact_mod_cast Int.gcd_pos_of_ne_zero_right num hden
    have hneg' : den / (Int.gcd num den : ℤ) < 0 := Int.ediv_neg_of_neg_of_pos hneg hg
    refine isWord_of_eq_div ?_ (neg_pos.mpr hneg') (Word.check_eq_ok.mp hnum')
      (Word.check_eq_ok.mp hden')
    rw [heq, Int.cast_neg, Int.cast_neg, neg_div_neg_eq,
      cast_ediv_div_cast_ediv hg.ne' (Int.gcd_dvd_left ..) (Int.gcd_dvd_right ..)]
  · exact isWord_of_eq_div heq (lt_of_le_of_ne (not_lt.mp hneg) hden.symm) hnumfits hdenfits

/-! ### Divisors that cancel -/

/-- The numerators of a quotient need not be cancelled, or their greatest common divisor is a
word. -/
def Cancels (a b : ℚ) : Prop :=
  a.den = b.den ∨ a.num = b.num ∨ Word.Fits (Nat.gcd a.num.natAbs b.num.natAbs)

theorem cancels_of_pos (hb : IsWord b) (hpos : 0 < b) : Cancels a b := by
  have hnum : 0 < b.num := Rat.num_pos.mpr hpos
  have hle : Nat.gcd a.num.natAbs b.num.natAbs ≤ b.num.natAbs :=
    Nat.gcd_le_right _ (Int.natAbs_pos.mpr hnum.ne')
  have hhi := hb.num.2
  refine .inr (.inr ?_)
  unfold Word.Fits Word.lo
  unfold Word.hi at hhi ⊢
  omega

/-- Only zero does not cancel, and only against the least word over another denominator than its
own. -/
theorem not_cancels_iff (ha : IsWord a) (hb : IsWord b) (hne : b ≠ 0) :
    ¬ Cancels a b ↔ a = 0 ∧ b.num = Word.lo ∧ b.den ≠ 1 := by
  have hbnum : b.num ≠ 0 := Rat.num_ne_zero.mpr hne
  unfold Cancels
  rw [not_or, not_or]
  constructor
  · rintro ⟨hden, hnum, hgcd⟩
    -- a greatest common divisor that is no word is `2 ^ 63`, and divides words only if they are
    -- zero or the least one
    obtain ⟨u, hu⟩ := Nat.gcd_dvd_left a.num.natAbs b.num.natAbs
    have hle : Nat.gcd a.num.natAbs b.num.natAbs ≤ b.num.natAbs :=
      Nat.gcd_le_right _ (Int.natAbs_pos.mpr hbnum)
    generalize Nat.gcd a.num.natAbs b.num.natAbs = g at hu hle hgcd
    have hafits := ha.num
    have hbfits := hb.num
    unfold Word.Fits Word.lo Word.hi at hafits hbfits hgcd
    unfold Word.lo
    have hu0 : u = 0 := by
      by_contra hu0
      have : g ≤ a.num.natAbs := hu ▸ Nat.le_mul_of_pos_right g (Nat.pos_of_ne_zero hu0)
      omega
    have ha0 : a = 0 := by
      rw [hu0, mul_zero, Int.natAbs_eq_zero] at hu
      exact Rat.num_eq_zero.mp hu
    refine ⟨ha0, by omega, fun h1 => hden ?_⟩
    rw [ha0, h1]
    rfl
  · rintro ⟨rfl, hlo, hden⟩
    refine ⟨fun h => hden h.symm, fun h => hbnum h.symm, ?_⟩
    rw [hlo]
    decide

end Operations

end Ratio

namespace Linear

open Ratio

/-! ### Tableaux -/

/-- Cells and right-hand side are fractions of words. -/
structure Line.InWords (l : Line) : Prop where
  cells : ∀ a ∈ l.cells, IsWord a
  rhs : IsWord l.rhs

namespace Line

variable {l l' lead : Line}

theorem InWords.cell (h : l.InWords) (c : ℕ) : IsWord (l.cell c) := by
  rw [Line.cell, List.getD_eq_getElem?_getD]
  cases ha : l.cells[c]? with
  | none => exact isWord_zero
  | some a => exact h.cells a (List.mem_of_getElem? ha)

theorem InWords.divide {p : ℚ} (h : l.InWords) (hp : IsWord p) (hl : l.divide p = .ok l') :
    l'.InWords := by
  obtain ⟨cells, hcells, hl⟩ := Checked.bind_eq_ok hl
  obtain ⟨rhs, hrhs, hl⟩ := Checked.bind_eq_ok hl
  cases hl
  refine ⟨fun b hb => ?_, isWord_div h.rhs hp hrhs⟩
  obtain ⟨a, ha, hab⟩ := Checked.exists_of_mem_mapM hcells hb
  exact isWord_div (h.cells a ha) hp hab

theorem isWord_reduce {factor v p w : ℚ} (hv : IsWord v) (h : reduce factor v p = .ok w) :
    IsWord w := by
  unfold reduce at h
  by_cases hp : p = 0
  · rw [if_pos hp] at h
    cases h
    exact hv
  · rw [if_neg hp] at h
    obtain ⟨q, -, h⟩ := Checked.bind_eq_ok h
    exact isWord_sub h

theorem InWords.eliminate {c : ℕ} (h : l.InWords) (hl : lead.eliminate c l = .ok l') :
    l'.InWords := by
  unfold Line.eliminate at hl
  dsimp only at hl
  by_cases hc : l.cell c = 0
  · rw [if_pos hc] at hl
    cases hl
    exact h
  · rw [if_neg hc] at hl
    obtain ⟨cells, hcells, hl⟩ := Checked.bind_eq_ok hl
    obtain ⟨rhs, hrhs, hl⟩ := Checked.bind_eq_ok hl
    cases hl
    refine ⟨fun b hb => ?_, isWord_reduce h.rhs hrhs⟩
    obtain ⟨x, hx, hxb⟩ := Checked.exists_of_mem_mapM hcells hb
    exact isWord_reduce (h.cells x.1 (List.of_mem_zip hx).1) hxb

end Line

/-- All lines are in words. -/
def Tableau.InWords (t : Tableau) : Prop := ∀ l ∈ t.lines, l.InWords

theorem Tableau.InWords.pivot {t t' : Tableau} {r c : ℕ} (h : t.InWords)
    (hp : t.pivot r c = .ok t') : t'.InWords := by
  cases Tableau.pivot_ends hp with
  | missing => exact h
  | @pivoted line lead _ _ hr hlead habove hbelow =>
    have hline := h line (List.mem_of_getElem? hr)
    have hlead := hline.divide (hline.cell c) hlead
    have hothers : ∀ {ls ls' : List Line}, (∀ l ∈ ls, l.InWords) →
        ls.mapM (lead.eliminate c) = .ok ls' → ∀ l ∈ ls', l.InWords := by
      intro ls ls' hls hmap l' hl'
      obtain ⟨l, hl, hll'⟩ := Checked.exists_of_mem_mapM hmap hl'
      exact (hls l hl).eliminate hll'
    intro l hl
    rcases List.mem_append.mp hl with hl | hl
    · exact hothers (fun l hl => h l (List.mem_of_mem_take hl)) habove l hl
    rcases List.mem_cons.mp hl with rfl | hl
    · exact ⟨hlead.cells, hlead.rhs⟩
    · exact hothers (fun l hl => h l (List.mem_of_mem_drop hl)) hbelow l hl

/-! ### Rows -/

/-- Coefficients and right-hand side are fractions of words. -/
structure Row.InWords (r : Row) : Prop where
  coeffs : ∀ a ∈ r.coeffs, IsWord a
  rhs : IsWord r.rhs

theorem Row.InWords.normalize {r r' : Row} (h : r.InWords) (hr : r.normalize = .ok r') :
    r'.InWords := by
  unfold Row.normalize at hr
  by_cases hneg : r.rhs < 0
  · rw [if_pos hneg] at hr
    obtain ⟨coeffs, hcoeffs, hr⟩ := Checked.bind_eq_ok hr
    obtain ⟨rhs, hrhs, hr⟩ := Checked.bind_eq_ok hr
    cases hr
    refine ⟨fun b hb => ?_, isWord_neg h.rhs hrhs⟩
    obtain ⟨a, ha, hab⟩ := Checked.exists_of_mem_mapM hcoeffs hb
    exact isWord_neg (h.coeffs a ha) hab
  · rw [if_neg hneg] at hr
    cases hr
    exact h

namespace Simplex

theorem isWord_zeros {n : ℕ} : ∀ a ∈ zeros n, IsWord a := by
  intro a ha
  rw [List.eq_of_mem_replicate ha]
  exact isWord_zero

theorem isWord_single {n i : ℕ} {v : ℚ} (hv : IsWord v) : ∀ a ∈ single n i v, IsWord a := by
  intro a ha
  rcases List.mem_or_eq_of_mem_set ha with ha | rfl
  · exact isWord_zeros a ha
  · exact hv

theorem inWords_startLines {n s a : ℕ} : ∀ {i k : ℕ} {rows : List Row},
    (∀ r ∈ rows, r.InWords) → ∀ l ∈ startLines n s a i k rows, l.InWords
  | _, _, [], _ => by simp [startLines]
  | i, k, r :: rows, h => by
    obtain ⟨hr, hrows⟩ := List.forall_mem_cons.mp h
    have hline : ∀ {b : ℕ} {u v : List ℚ}, (∀ x ∈ u, IsWord x) → (∀ x ∈ v, IsWord x) →
        Line.InWords ⟨b, r.coeffs ++ u ++ v, r.rhs⟩ := by
      intro b u v hu hv
      refine ⟨?_, hr.rhs⟩
      rw [List.forall_mem_append, List.forall_mem_append]
      exact ⟨⟨hr.coeffs, hu⟩, hv⟩
    unfold startLines
    cases r.relation with
    | lessEq =>
      exact List.forall_mem_cons.mpr
        ⟨hline (isWord_single isWord_one) isWord_zeros, inWords_startLines hrows⟩
    | greaterEq =>
      exact List.forall_mem_cons.mpr
        ⟨hline (isWord_single isWord_neg_one) (isWord_single isWord_one), inWords_startLines hrows⟩
    | eq =>
      exact List.forall_mem_cons.mpr
        ⟨hline isWord_zeros (isWord_single isWord_one), inWords_startLines hrows⟩

theorem inWords_start {n : ℕ} {rows : List Row} (h : ∀ r ∈ rows, r.InWords) :
    (start n rows).InWords := inWords_startLines h

end Simplex

/-! ### Relaxations -/

namespace Relaxation

theorem isWord_recover {y : List ℚ} {column : Column} {v : ℚ} (h : recover y column = .ok v) :
    IsWord v := by
  cases column with
  | above col lower => exact isWord_add h
  | below col upper => exact isWord_sub h
  | split pos neg => exact isWord_sub h

theorem isWord_set {coeffs : List ℚ} {i : ℕ} {v : ℚ} (h : ∀ a ∈ coeffs, IsWord a)
    (hv : IsWord v) : ∀ a ∈ coeffs.set i v, IsWord a := by
  intro a ha
  rcases List.mem_or_eq_of_mem_set ha with ha | rfl
  · exact h a ha
  · exact hv

theorem isWord_substituteTerm {columns : List Column} {sgn : ℤ} {coeffs : List ℚ} {t : ℕ × ℤ}
    {r : List ℚ × ℚ} (h : ∀ a ∈ coeffs, IsWord a)
    (hr : substituteTerm columns sgn coeffs t = .ok r) : ∀ a ∈ r.1, IsWord a := by
  unfold substituteTerm at hr
  obtain ⟨_, -, hr⟩ := Checked.bind_eq_ok hr
  cases hc : columns[t.1]? with
  | none =>
    simp only [hc] at hr
    cases hr
    exact h
  | some column =>
    simp only [hc] at hr
    cases column with
    | above col lower =>
      obtain ⟨v, hv, hr⟩ := Checked.bind_eq_ok hr
      obtain ⟨q, -, hr⟩ := Checked.bind_eq_ok hr
      cases hr
      exact isWord_set h (isWord_add hv)
    | below col upper =>
      obtain ⟨v, hv, hr⟩ := Checked.bind_eq_ok hr
      obtain ⟨q, -, hr⟩ := Checked.bind_eq_ok hr
      cases hr
      exact isWord_set h (isWord_sub hv)
    | split pos neg =>
      obtain ⟨v, hv, hr⟩ := Checked.bind_eq_ok hr
      obtain ⟨w, hw, hr⟩ := Checked.bind_eq_ok hr
      cases hr
      exact isWord_set (isWord_set h (isWord_add hv)) (isWord_sub hw)

theorem inWords_constraintRow {columns : List Column} {n : ℕ} {c : Constraint} {r : Row}
    (h : constraintRow columns n c = .ok r) : r.InWords := by
  unfold constraintRow at h
  obtain ⟨rhs, hrhs, h⟩ := Checked.bind_eq_ok h
  obtain ⟨acc, hacc, h⟩ := Checked.bind_eq_ok h
  cases h
  obtain ⟨hcoeffs, hrhs⟩ := Checked.foldlM_invariant
    (fun s : List ℚ × ℚ => (∀ a ∈ s.1, IsWord a) ∧ IsWord s.2) (fun t _ s s' hs hstep => by
      obtain ⟨q, hq, hstep⟩ := Checked.bind_eq_ok hstep
      obtain ⟨v, hv, hstep⟩ := Checked.bind_eq_ok hstep
      cases hstep
      have hq := isWord_substituteTerm hs.1 hq
      exact ⟨hq, isWord_sub hv⟩)
    ⟨Simplex.isWord_zeros, isWord_sub hrhs⟩ hacc
  exact ⟨hcoeffs, hrhs⟩

theorem inWords_boundRow? {n : ℕ} {b : Bounds} {column : Column} {limit : Option Row}
    (h : boundRow? n b column = .ok limit) : ∀ r ∈ limit, r.InWords := by
  cases column with
  | above col lower =>
    unfold boundRow? at h
    cases hu : b.upper with
    | none =>
      simp only [hu] at h
      cases h
      simp
    | some upper =>
      simp only [hu] at h
      obtain ⟨v, hv, h⟩ := Checked.bind_eq_ok h
      cases h
      intro r hr
      cases hr
      exact ⟨Simplex.isWord_single isWord_one, isWord_sub hv⟩
  | below col upper =>
    cases h
    simp
  | split pos neg =>
    cases h
    simp

/-- Every number that reaches the simplex method is a fraction of words. -/
theorem inWords_pose {p : Program} {box : List Bounds} {posed : Posed}
    (h : pose p box = .ok posed) : ∀ r ∈ posed.rows, r.InWords := by
  unfold pose at h
  obtain ⟨acc, -, h⟩ := Checked.bind_eq_ok h
  obtain ⟨rows, hrows, h⟩ := Checked.bind_eq_ok h
  obtain ⟨limits, hlimits, h⟩ := Checked.bind_eq_ok h
  cases h
  intro r hr
  rcases List.mem_append.mp hr with hr | hr
  · obtain ⟨c, -, hc⟩ := Checked.exists_of_mem_mapM hrows hr
    exact inWords_constraintRow hc
  · obtain ⟨limit, hlimit, hr⟩ := List.mem_filterMap.mp hr
    obtain ⟨x, -, hx⟩ := Checked.exists_of_mem_mapM hlimits hlimit
    exact inWords_boundRow? hx r hr

end Relaxation

end Linear

end LoopSched
