import LoopSched.Proofs.Linear.Basis

/-!
# The moves of the simplex method

Which column enters and which line leaves, said without the searches that find them, and what a
run of moves keeps.  A property that every chosen pivot keeps holds at the end of the run, and the
run ends in a tableau without negative reduced costs or in one whose entering column nothing stops.
-/

namespace LoopSched.Linear

namespace Candidate

/-- At most the ratio, and of equal ratios at most the basic column. -/
def NoWorse (a b : Candidate) : Prop := a.ratio < b.ratio ∨ a.ratio = b.ratio ∧ a.basic ≤ b.basic

theorem NoWorse.trans {a b d : Candidate} (hab : a.NoWorse b) (hbd : b.NoWorse d) :
    a.NoWorse d := by
  rcases hab with hab | ⟨hab, hab'⟩ <;> rcases hbd with hbd | ⟨hbd, hbd'⟩
  · exact .inl (hab.trans hbd)
  · exact .inl (hbd ▸ hab)
  · exact .inl (hab ▸ hbd)
  · exact .inr ⟨hab.trans hbd, hab'.trans hbd'⟩

theorem better_iff {a b : Candidate} :
    a.better b = true ↔ a.ratio < b.ratio ∨ a.ratio = b.ratio ∧ a.basic < b.basic := by
  simp [better]

theorem noWorse_of_better {a b : Candidate} (h : a.better b = true) : a.NoWorse b :=
  (better_iff.mp h).imp_right fun h => ⟨h.1, h.2.le⟩

theorem noWorse_of_not_better {a b : Candidate} (h : ¬ a.better b = true) : b.NoWorse a := by
  rw [better_iff, not_or, not_and, not_lt, not_lt] at h
  rcases h.1.lt_or_eq with hlt | heq
  · exact .inl hlt
  · exact .inr ⟨heq, h.2 heq.symm⟩

end Candidate

namespace Tableau

/-- No column below `allowed` outside the basis has a negative reduced cost. -/
def Optimal (t : Tableau) (cost : List ℚ) (allowed : ℕ) : Prop :=
  ∀ j < allowed, j ∈ t.basis ∨ 0 ≤ t.reduced cost j

/-- The first column below `allowed` that lowers the cost. -/
structure Enters (t : Tableau) (cost : List ℚ) (allowed c : ℕ) : Prop where
  lt_allowed : c < allowed
  not_mem : c ∉ t.basis
  negative : t.reduced cost c < 0
  first : ∀ j < c, j ∈ t.basis ∨ 0 ≤ t.reduced cost j

/-- Line `l` limits column `c` the most; of several such lines it has the least basic column. -/
structure Limits (t : Tableau) (c : ℕ) (l : Line) : Prop where
  pos : 0 < l.cell c
  least : ∀ m ∈ t.lines, 0 < m.cell c → l.rhs / l.cell c < m.rhs / m.cell c ∨
    l.rhs / l.cell c = m.rhs / m.cell c ∧ l.basic ≤ m.basic

/-- The entering column can grow without limit. -/
def Unlimited (t : Tableau) (cost : List ℚ) (allowed : ℕ) : Prop :=
  ∃ c, t.Enters cost allowed c ∧ ∀ l ∈ t.lines, l.cell c ≤ 0

/-! ### The searches -/

/-- The column that enters, without overflow. -/
def entering (t : Tableau) (cost : List ℚ) (allowed : ℕ) : Option ℕ :=
  (List.range allowed).find? fun j => !t.basis.contains j && t.reduced cost j < 0

theorem entering?_eq_ok {t : Tableau} {cost : List ℚ} {allowed : ℕ} {r : Option ℕ}
    (h : t.entering? cost allowed = .ok r) : r = t.entering cost allowed :=
  Checked.findM?_eq_find? (fun j _ b hb => by
    by_cases hj : t.basis.contains j = true
    · rw [if_pos hj] at hb
      cases hb
      simp only [hj, Bool.not_true, Bool.false_and]
    · rw [if_neg hj] at hb
      obtain ⟨v, hv, hb⟩ := Checked.bind_eq_ok hb
      cases hb
      simp only [hj, Bool.not_false, Bool.true_and, reducedCost_eq_ok hv]) h

theorem optimal_of_entering {t : Tableau} {cost : List ℚ} {allowed : ℕ}
    (h : t.entering cost allowed = none) : t.Optimal cost allowed := by
  rw [entering, List.find?_range_eq_none] at h
  intro j hj
  have := h j hj
  simp only [Bool.not_and, Bool.not_not, Bool.or_eq_true, List.contains_iff_mem,
    Bool.not_eq_true', decide_eq_false_iff_not, not_lt] at this
  exact this

theorem enters_of_entering {t : Tableau} {cost : List ℚ} {allowed c : ℕ}
    (h : t.entering cost allowed = some c) : t.Enters cost allowed c := by
  rw [entering, List.find?_range_eq_some] at h
  obtain ⟨hc, hlt, hfirst⟩ := h
  simp only [Bool.and_eq_true, Bool.not_eq_true', decide_eq_true_eq] at hc
  refine ⟨List.mem_range.mp hlt, ?_, hc.2, fun j hj => ?_⟩
  · rw [← List.contains_iff_mem, hc.1]
    exact Bool.false_ne_true
  · have := hfirst j hj
    simp only [Bool.not_and, Bool.not_not, Bool.or_eq_true, List.contains_iff_mem,
      Bool.not_eq_true', decide_eq_false_iff_not, not_lt] at this
    exact this

/-- The candidate that a line makes, without overflow. -/
def candidate (c : ℕ) (l : Line) (row : ℕ) : Candidate := ⟨row, l.basic, l.rhs / l.cell c⟩

/-- The better of the best candidate so far and a line. -/
def consider (c : ℕ) (best : Option Candidate) (x : Line × ℕ) : Option Candidate :=
  if x.1.cell c ≤ 0 then best else
    match best with
    | none => some (candidate c x.1 x.2)
    | some b => if (candidate c x.1 x.2).better b then some (candidate c x.1 x.2) else some b

/-- The line that leaves, without overflow. -/
def leaving (t : Tableau) (c : ℕ) : Option Candidate := t.lines.zipIdx.foldl (consider c) none

theorem leaving?_eq_ok {t : Tableau} {c : ℕ} {r : Option Candidate} (h : t.leaving? c = .ok r) :
    r = t.leaving c :=
  Checked.foldlM_eq_foldl (fun x _ best best' hb => by
    dsimp only at hb
    unfold consider
    by_cases hx : x.1.cell c ≤ 0
    · rw [if_pos hx] at hb ⊢
      cases hb
      rfl
    · rw [if_neg hx] at hb ⊢
      obtain ⟨q, hq, hb⟩ := Checked.bind_eq_ok hb
      obtain ⟨-, rfl⟩ := Ratio.div_eq_ok hq
      cases hb
      rfl) h

/-- What the candidate found among `ls` stands for: a line that limits the column, and no worse than
any other that does; or the fact that no line limits it. -/
def Found (c : ℕ) (ls : List Line) : Option Candidate → Prop
  | none => ∀ l ∈ ls, l.cell c ≤ 0
  | some b => ∃ l, ls[b.row]? = some l ∧ b = candidate c l b.row ∧ 0 < l.cell c ∧
      ∀ m ∈ ls, 0 < m.cell c → ∀ i, b.NoWorse (candidate c m i)

theorem found_consider {c : ℕ} {ls : List Line} {best : Option Candidate} (l : Line)
    (h : Found c ls best) : Found c (ls ++ [l]) (consider c best (l, ls.length)) := by
  unfold consider
  have hself : (ls ++ [l])[ls.length]? = some l := by simp
  by_cases hl : l.cell c ≤ 0
  · -- the line does not limit the column
    rw [if_pos hl]
    cases best with
    | none => simpa [Found, or_imp, forall_and, hl] using h
    | some b =>
      obtain ⟨k, hk, hb, hpos, hleast⟩ := h
      refine ⟨k, ?_, hb, hpos, fun m hm hmc => ?_⟩
      · rw [List.getElem?_append_left (List.getElem?_eq_some_iff.mp hk).1, hk]
      · rcases List.mem_append.mp hm with hm | hm
        · exact hleast m hm hmc
        · rw [List.mem_singleton.mp hm] at hmc
          exact absurd hmc (not_lt.mpr hl)
  · rw [if_neg hl]
    cases best with
    | none =>
      refine ⟨l, hself, rfl, not_le.mp hl, fun m hm hmc i => ?_⟩
      rcases List.mem_append.mp hm with hm | hm
      · exact absurd hmc (not_lt.mpr (h m hm))
      · rw [List.mem_singleton.mp hm]
        exact .inr ⟨rfl, le_rfl⟩
    | some b =>
      obtain ⟨k, hk, hb, hpos, hleast⟩ := h
      dsimp only
      by_cases hbetter : (candidate c l ls.length).better b = true
      · rw [if_pos hbetter]
        refine ⟨l, hself, rfl, not_le.mp hl, fun m hm hmc i => ?_⟩
        rcases List.mem_append.mp hm with hm | hm
        · exact (Candidate.noWorse_of_better hbetter).trans (hleast m hm hmc i)
        · rw [List.mem_singleton.mp hm]
          exact .inr ⟨rfl, le_rfl⟩
      · rw [if_neg hbetter]
        refine ⟨k, ?_, hb, hpos, fun m hm hmc i => ?_⟩
        · rw [List.getElem?_append_left (List.getElem?_eq_some_iff.mp hk).1, hk]
        · rcases List.mem_append.mp hm with hm | hm
          · exact hleast m hm hmc i
          · rw [List.mem_singleton.mp hm]
            exact Candidate.noWorse_of_not_better hbetter

theorem found_foldl (c : ℕ) (ls : List Line) : Found c ls (ls.zipIdx.foldl (consider c) none) := by
  induction ls using List.reverseRecOn with
  | nil => simp [Found]
  | append_singleton ls l ih =>
    rw [List.zipIdx_append, List.foldl_append]
    simpa using found_consider l ih

theorem found_leaving (t : Tableau) (c : ℕ) : Found c t.lines (t.leaving c) := found_foldl c t.lines

theorem limits_of_leaving {t : Tableau} {c : ℕ} {b : Candidate} (h : t.leaving c = some b) :
    ∃ l, t.lines[b.row]? = some l ∧ t.Limits c l := by
  have hfound := t.found_leaving c
  rw [h] at hfound
  obtain ⟨l, hl, hb, hpos, hleast⟩ := hfound
  refine ⟨l, hl, hpos, fun m hm hmc => ?_⟩
  have := hleast m hm hmc 0
  rw [hb] at this
  exact this

/-! ### Runs -/

/-- What a move says of the tableau it is made from. -/
def Justifies (t : Tableau) (cost : List ℚ) (allowed : ℕ) : Move → Prop
  | .optimal => t.Optimal cost allowed
  | .unbounded => t.Unlimited cost allowed
  | .pivot r c => t.Enters cost allowed c ∧ ∃ l, t.lines[r]? = some l ∧ t.Limits c l

end Tableau

/-- The next move of the simplex method, without overflow. -/
def Exact.move (t : Tableau) (cost : List ℚ) (allowed : ℕ) : Move :=
  match t.entering cost allowed with
  | none => .optimal
  | some column =>
    match t.leaving column with
    | none => .unbounded
    | some best => .pivot best.row column

theorem Exact.justifies_move (t : Tableau) (cost : List ℚ) (allowed : ℕ) :
    t.Justifies cost allowed (move t cost allowed) := by
  unfold move
  cases hcolumn : t.entering cost allowed with
  | none => exact Tableau.optimal_of_entering hcolumn
  | some c =>
    have henters := Tableau.enters_of_entering hcolumn
    dsimp only
    cases hbest : t.leaving c with
    | none =>
      have hfound := t.found_leaving c
      rw [hbest] at hfound
      exact ⟨c, henters, hfound⟩
    | some b => exact ⟨henters, Tableau.limits_of_leaving hbest⟩

namespace Tableau

theorem move_eq_exact {t : Tableau} {cost : List ℚ} {allowed : ℕ} {m : Move}
    (h : t.move cost allowed = .ok m) : m = Exact.move t cost allowed := by
  unfold move at h
  unfold Exact.move
  obtain ⟨column, hcolumn, h⟩ := Checked.bind_eq_ok h
  rw [← entering?_eq_ok hcolumn]
  cases column with
  | none =>
    cases h
    rfl
  | some c =>
    obtain ⟨best, hbest, h⟩ := Checked.bind_eq_ok h
    dsimp only
    rw [← leaving?_eq_ok hbest]
    cases best with
    | none =>
      cases h
      rfl
    | some b =>
      cases h
      rfl

/-- What the next move says of the tableau. -/
theorem justifies_of_move {t : Tableau} {cost : List ℚ} {allowed : ℕ} {m : Move}
    (h : t.move cost allowed = .ok m) : t.Justifies cost allowed m :=
  move_eq_exact h ▸ Exact.justifies_move t cost allowed

/-- What every chosen pivot keeps holds at the end of a run, where no pivot is chosen any more. -/
theorem follow_steps {cost : List ℚ} {allowed : ℕ} (P : Tableau → Prop)
    (hstep : ∀ t t' r c, P t → t.move cost allowed = .ok (.pivot r c) → t.pivot r c = .ok t' → P t') :
    ∀ (n : ℕ) {t t' : Tableau} {flag : Bool}, P t → follow cost allowed n t = .ok (flag, t') →
      P t' ∧ t'.move cost allowed = .ok (if flag then .optimal else .unbounded)
  | 0, t, t', flag, _, h => by cases h
  | n + 1, t, t', flag, ht, h => by
    unfold follow at h
    obtain ⟨m, hm, h⟩ := Checked.bind_eq_ok h
    cases m with
    | optimal => cases h; exact ⟨ht, hm⟩
    | unbounded => cases h; exact ⟨ht, hm⟩
    | pivot r c =>
      obtain ⟨s, hs, h⟩ := Checked.bind_eq_ok h
      exact follow_steps P hstep n (hstep t s r c ht hm hs) h

/-- The same in terms of what the moves say, with the two reasons for which a run ends. -/
theorem follow_spec {cost : List ℚ} {allowed : ℕ} (P : Tableau → Prop)
    (hstep : ∀ t t' r c l, P t → t.Enters cost allowed c → t.lines[r]? = some l →
      t.Limits c l → t.pivot r c = .ok t' → P t')
    (n : ℕ) {t t' : Tableau} {flag : Bool} (ht : P t) (h : follow cost allowed n t = .ok (flag, t')) :
    P t' ∧ if flag then t'.Optimal cost allowed else t'.Unlimited cost allowed := by
  obtain ⟨ht', hmove⟩ := follow_steps P (fun t t' r c ht hmove hpivot => by
    obtain ⟨henters, l, hl, hlimits⟩ := justifies_of_move hmove
    exact hstep t t' r c l ht henters hl hlimits hpivot) n ht h
  refine ⟨ht', ?_⟩
  have hend := justifies_of_move hmove
  cases flag with
  | true => exact hend
  | false => exact hend

end Tableau

end LoopSched.Linear
