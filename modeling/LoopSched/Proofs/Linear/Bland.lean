import LoopSched.Proofs.Linear.Phases
import Mathlib.Data.Fintype.BigOperators
import Mathlib.Order.Lattice.Nat

/-!
# The moves never return to a basis

The entering column is the first that lowers the cost, and of several limiting lines the one with
the least basic column leaves.  A run that came back to its basis would not change the cost, so none
of its moves would change the basic solution.  Let `q` be the last column that enters during it, and
compare a tableau that `q` enters with one that it leaves: the reduced costs of the first rule out
the direction in which the second moves.  So there are fewer moves than ordered bases, and the
budget of a run is never used up.
-/

open Finset

namespace LoopSched.Linear

namespace Tableau

variable {cost : List ℚ} {allowed : ℕ}

theorem Reached.trans {t₀ t t' : Tableau} (h : Reached t₀ t) (h' : Reached t t') : Reached t₀ t' :=
  ⟨h'.canonical, h'.width_eq.trans h.width_eq, fun y => (h'.holds_iff y).trans (h.holds_iff y)⟩

/-! ### One move -/

/-- A move of the method: column `c` enters the basis and line `l` leaves it. -/
structure Step (cost : List ℚ) (allowed : ℕ) (t : Tableau) (c : ℕ) (l : Line) (t' : Tableau) :
    Prop where
  enters : t.Enters cost allowed c
  mem : l ∈ t.lines
  limits : t.Limits c l
  reached : Reached t t'
  length_eq : t'.lines.length = t.lines.length
  basis_iff : ∀ j, j ∈ t'.basis ↔ j = c ∨ j ∈ t.basis ∧ j ≠ l.basic

/-- The exchange that the method chooses is a move. -/
theorem step_of_exchange {t : Tableau} {c : ℕ} {above below : List Line} {line : Line}
    (ht : t.Canonical) (hallowed : allowed ≤ t.width) (henters : t.Enters cost allowed c)
    (hlines : t.lines = above ++ line :: below) (hlimits : t.Limits c line) :
    Step cost allowed t c line (exchange t.width above line below c) := by
  have hreached := (Reached.refl ht).exchange hlines hlimits.pos.ne'
    (henters.lt_allowed.trans_le hallowed) (exchange_rhs_nonneg ht hlines hlimits)
  refine ⟨henters, by simp [hlines], hlimits, hreached, by simp [exchange, hlines], fun j => ?_⟩
  have hbasis : t.basis = above.map (·.basic) ++ line.basic :: below.map (·.basic) := by
    rw [basis, hlines, List.map_append, List.map_cons]
  have hnodup := ht.nodup_basis
  rw [hbasis, List.nodup_middle, List.nodup_cons, List.mem_append] at hnodup
  have hbasis' : (exchange t.width above line below c).basis =
      above.map (·.basic) ++ c :: below.map (·.basic) := by
    simp [exchange, basis, Function.comp_def]
  rw [hbasis, hbasis', List.mem_append, List.mem_cons, List.mem_append, List.mem_cons]
  constructor
  · rintro (hj | rfl | hj)
    · exact .inr ⟨.inl hj, fun heq => hnodup.1 (.inl (heq ▸ hj))⟩
    · exact .inl rfl
    · exact .inr ⟨.inr (.inr hj), fun heq => hnodup.1 (.inr (heq ▸ hj))⟩
  · rintro (rfl | ⟨hj | rfl | hj, hne⟩)
    · exact .inr (.inl rfl)
    · exact .inl hj
    · exact absurd rfl hne
    · exact .inr (.inr hj)

/-- The pivots that the method chooses are moves. -/
theorem step_of_pivot {t t' : Tableau} {r c : ℕ} {line : Line} (ht : t.Canonical)
    (hallowed : allowed ≤ t.width) (henters : t.Enters cost allowed c)
    (hr : t.lines[r]? = some line) (hlimits : t.Limits c line) (hp : t.pivot r c = .ok t') :
    Step cost allowed t c line t' := by
  obtain ⟨above, below, hlines, -, -, rfl⟩ := pivot_eq_ok ht.wide hr hp
  exact step_of_exchange ht hallowed henters hlines hlimits

section Step

variable {t t' : Tableau} {c : ℕ} {l : Line} (ht : t.Canonical)
  (h : Step cost allowed t c l t')
include ht h

/-- The entering column takes the ratio of the leaving line as its value. -/
theorem Step.cell_mul_point (hallowed : allowed ≤ t.width) : l.cell c * t'.point c = l.rhs := by
  have hholds : l.Holds t'.point :=
    (h.reached.holds_iff _).mp h.reached.canonical.holds_point l h.mem
  unfold Line.Holds at hholds
  rw [dot_eq_sum _ _ (ht.wide l h.mem).le, sum_eq_single c] at hholds
  · exact hholds
  · intro j _ hj
    by_cases hb : j ∈ t'.basis
    · obtain ⟨hb, hne⟩ := ((h.basis_iff j).mp hb).resolve_left hj
      obtain ⟨m, hm, rfl⟩ := List.mem_map.mp hb
      show l.cell m.basic * _ = 0
      rw [ht.cell_eq_zero h.mem hm hne, zero_mul]
    · rw [point_of_not_mem hb, mul_zero]
  · intro hc
    exact absurd (mem_range.mpr (h.enters.lt_allowed.trans_le hallowed)) hc

theorem Step.value_eq (hcost : cost.length ≤ t.width) (hallowed : allowed ≤ t.width) :
    t'.value cost = t.value cost + t.reduced cost c * t'.point c := by
  have hwidth : cost.length ≤ t'.width := h.reached.width_eq ▸ hcost
  have hholds := (h.reached.holds_iff _).mp h.reached.canonical.holds_point
  rw [← h.reached.canonical.dot_point hwidth, ht.dot_cost hcost hholds, sum_eq_single c]
  · intro j _ hj
    by_cases hb : j ∈ t.basis
    · obtain ⟨m, hm, rfl⟩ := List.mem_map.mp hb
      rw [ht.reduced_basic hm, zero_mul]
    · have hb' : j ∉ t'.basis := fun hj' =>
        ((h.basis_iff j).mp hj').elim hj fun hj' => hb hj'.1
      rw [point_of_not_mem hb', mul_zero]
  · intro hc
    exact absurd (mem_range.mpr (h.enters.lt_allowed.trans_le hallowed)) hc

theorem Step.value_le (hcost : cost.length ≤ t.width) (hallowed : allowed ≤ t.width) :
    t'.value cost ≤ t.value cost := by
  rw [h.value_eq ht hcost hallowed]
  exact add_le_of_nonpos_right (mul_nonpos_of_nonpos_of_nonneg h.enters.negative.le
    (h.reached.canonical.point_nonneg c))

/-- A move that does not lower the cost leaves the basic solution as it is. -/
theorem Step.still (hcost : cost.length ≤ t.width) (hallowed : allowed ≤ t.width)
    (hvalue : t'.value cost = t.value cost) : l.rhs = 0 ∧ t'.point = t.point := by
  have hzero : t'.point c = 0 := by
    have hmul := h.value_eq ht hcost hallowed
    rw [hvalue, left_eq_add] at hmul
    exact (mul_eq_zero.mp hmul).resolve_left h.enters.negative.ne
  have hrhs : l.rhs = 0 := by rw [← h.cell_mul_point ht hallowed, hzero, mul_zero]
  refine ⟨hrhs, ht.eq_of_agree ?_ ht.holds_point fun j hj => ?_⟩
  · exact (h.reached.holds_iff _).mp h.reached.canonical.holds_point
  · by_cases hjc : j = c
    · rw [hjc, hzero, point_of_not_mem h.enters.not_mem]
    · have hj' : j ∉ t'.basis := fun hb =>
        ((h.basis_iff j).mp hb).elim hjc fun hb => hj hb.1
      rw [point_of_not_mem hj, point_of_not_mem hj']

end Step

/-! ### Two tableaux of a circle -/

section Directions

variable {s : Tableau} {c : ℕ}

/-- How the basic solution changes while column `c` grows by one. -/
def direction (s : Tableau) (c k : ℕ) : ℚ :=
  s.complete (fun j => if j = c then 1 else 0) k - s.point k

theorem direction_self (hc : c ∉ s.basis) : s.direction c c = 1 := by
  rw [direction, complete_of_not_mem _ hc, point_of_not_mem hc, if_pos rfl, sub_zero]

theorem direction_of_not_mem {k : ℕ} (hk : k ∉ s.basis) (hkc : k ≠ c) : s.direction c k = 0 := by
  rw [direction, complete_of_not_mem _ hk, point_of_not_mem hk, if_neg hkc, sub_zero]

theorem Canonical.direction_basic (hs : s.Canonical) (hc : c ∉ s.basis) {m : Line}
    (hm : m ∈ s.lines) : s.direction c m.basic = -m.cell c := by
  have hne : m.basic ≠ c := fun heq => hc (List.mem_map.mpr ⟨m, hm, heq⟩)
  rw [direction, hs.complete_basic _ hm, hs.point_basic hm, if_neg hne, dot_indicator]
  show 0 + (m.rhs - m.cell c) - m.rhs = -m.cell c
  ring

/-- Every tableau with the same solutions prices a direction at the reduced cost of its column. -/
theorem Reached.sum_direction {t₀ u : Tableau} (hs : Reached t₀ s) (hu : Reached t₀ u)
    (hcost : cost.length ≤ t₀.width) (hc : c < t₀.width) (hcs : c ∉ s.basis) :
    ∑ k ∈ range t₀.width, u.reduced cost k * s.direction c k = s.reduced cost c := by
  have hsame : ∀ {v : Tableau}, Reached t₀ v →
      dot cost (s.complete fun j => if j = c then 1 else 0) - dot cost s.point =
        ∑ k ∈ range t₀.width, v.reduced cost k * s.direction c k := by
    intro v hv
    have hholds : ∀ {y}, s.Holds y → v.Holds y := fun hy =>
      (hv.holds_iff _).mpr ((hs.holds_iff _).mp hy)
    rw [hv.canonical.dot_cost_sub (hv.width_eq ▸ hcost)
      (hholds (hs.canonical.holds_complete _)) (hholds hs.canonical.holds_point), hv.width_eq]
    rfl
  rw [← hsame hu, hsame hs, sum_eq_single c]
  · rw [direction_self hcs, mul_one]
  · intro k _ hk
    by_cases hb : k ∈ s.basis
    · obtain ⟨m, hm, rfl⟩ := List.mem_map.mp hb
      rw [hs.canonical.reduced_basic hm, zero_mul]
    · rw [direction_of_not_mem hb hk, mul_zero]
  · intro hc'
    exact absurd (mem_range.mpr hc) hc'

/-- Column `q` cannot leave one tableau and enter another with the same basic solution if it is the
greatest column in which the two moves and the two bases differ. -/
theorem Reached.not_leaves_of_enters {t₀ u : Tableau} {q : ℕ} {l : Line} (hs : Reached t₀ s)
    (hu : Reached t₀ u) (hcost : cost.length ≤ t₀.width) (hallowed : allowed ≤ t₀.width)
    (hpoint : s.point = u.point) (hc : s.Enters cost allowed c) (hl : l ∈ s.lines)
    (hlimits : s.Limits c l) (hrhs : l.rhs = 0) (hq : u.Enters cost allowed q) (hcq : c ≤ q)
    (hgreatest : ∀ k ∈ s.basis, k ∉ u.basis → k ≤ q) : l.basic ≠ q := by
  intro hlq
  have hsum := hs.sum_direction hu hcost (hc.lt_allowed.trans_le hallowed) hc.not_mem
  obtain ⟨k, -, hk⟩ : ∃ k ∈ range t₀.width, u.reduced cost k * s.direction c k < 0 := by
    by_contra hno
    have hnonneg : 0 ≤ s.reduced cost c := by
      rw [← hsum]
      exact sum_nonneg fun k hk => not_lt.mp fun hlt => hno ⟨k, hk, hlt⟩
    exact absurd hc.negative (not_lt.mpr hnonneg)
  have hku : k ∉ u.basis := by
    intro hb
    obtain ⟨m, hm, rfl⟩ := List.mem_map.mp hb
    rw [hu.canonical.reduced_basic hm, zero_mul] at hk
    exact lt_irrefl _ hk
  have hpriced : k < q → 0 ≤ u.reduced cost k := fun hlt => (hq.first k hlt).resolve_left hku
  by_cases hks : k ∈ s.basis
  · obtain ⟨m, hm, rfl⟩ := List.mem_map.mp hks
    rw [hs.canonical.direction_basic hc.not_mem hm, mul_neg, neg_lt_zero] at hk
    rcases (hgreatest _ hks hku).lt_or_eq with hlt | heq
    · -- a smaller column that the method would have taken out instead of `q`
      have hcell : 0 < m.cell c := (pos_iff_pos_of_mul_pos hk).mp
        (lt_of_le_of_ne (hpriced hlt) fun h0 => by rw [← h0, zero_mul] at hk; exact lt_irrefl _ hk)
      have hmrhs : m.rhs = 0 := by
        rw [← hs.canonical.point_basic hm, hpoint, point_of_not_mem hku]
      rcases hlimits.least m hm hcell with hratio | ⟨-, hle⟩
      · rw [hrhs, hmrhs, zero_div, zero_div] at hratio
        exact lt_irrefl _ hratio
      · rw [hlq] at hle
        exact absurd hlt (not_lt.mpr hle)
    · -- `q` itself, which has a positive cell in the line that leaves
      have hml : m = l :=
        List.inj_on_of_nodup_map hs.canonical.nodup_basis hm hl (heq.trans hlq.symm)
      rw [heq, hml] at hk
      exact absurd hk (not_lt.mpr (mul_nonpos_of_nonpos_of_nonneg hq.negative.le hlimits.pos.le))
  · -- the entering column itself, which only grows
    have hkc : k = c := by
      by_contra hne
      rw [direction_of_not_mem hks hne, mul_zero] at hk
      exact lt_irrefl _ hk
    have hcq' : c < q := lt_of_le_of_ne hcq fun heq =>
      hc.not_mem (List.mem_map.mpr ⟨l, hl, hlq.trans heq.symm⟩)
    rw [hkc, direction_self hc.not_mem, mul_one] at hk
    exact absurd hk (not_lt.mpr (hkc ▸ hpriced (hkc ▸ hcq')))

end Directions

/-! ### Runs -/

/-- The tableaux of `n` moves in a row. -/
structure Run (cost : List ℚ) (allowed : ℕ) (t : ℕ → Tableau) (n : ℕ) : Prop where
  canonical : (t 0).Canonical
  cost_le : cost.length ≤ (t 0).width
  allowed_le : allowed ≤ (t 0).width
  step : ∀ k < n, ∃ c l, Step cost allowed (t k) c l (t (k + 1))

/-- The column enters at one of the `n` moves. -/
def EntersDuring (cost : List ℚ) (allowed : ℕ) (t : ℕ → Tableau) (n c : ℕ) : Prop :=
  ∃ k < n, ∃ l, Step cost allowed (t k) c l (t (k + 1))

section Run

variable {t : ℕ → Tableau} {n : ℕ} (h : Run cost allowed t n)
include h

theorem Run.reached : ∀ {k : ℕ}, k ≤ n → Reached (t 0) (t k)
  | 0, _ => Reached.refl h.canonical
  | k + 1, hk => by
    obtain ⟨c, l, hstep⟩ := h.step k hk
    exact (Run.reached (Nat.le_of_succ_le hk)).trans hstep.reached

theorem Run.length_eq : ∀ {k : ℕ}, k ≤ n → (t k).lines.length = (t 0).lines.length
  | 0, _ => rfl
  | k + 1, hk => by
    obtain ⟨c, l, hstep⟩ := h.step k hk
    exact hstep.length_eq.trans (Run.length_eq (Nat.le_of_succ_le hk))

/-- The moves from the `i`-th tableau on. -/
theorem Run.drop {i m : ℕ} (hi : i + m ≤ n) : Run cost allowed (fun k => t (i + k)) m := by
  have hreached := h.reached (Nat.le_of_add_right_le hi)
  refine ⟨hreached.canonical, ?_, ?_, fun k hk => h.step (i + k) (by omega)⟩
  · exact h.cost_le.trans_eq hreached.width_eq.symm
  · exact h.allowed_le.trans_eq hreached.width_eq.symm

theorem Run.value_le {k : ℕ} (hk : k < n) : (t (k + 1)).value cost ≤ (t k).value cost := by
  obtain ⟨c, l, hstep⟩ := h.step k hk
  have hreached := h.reached hk.le
  exact hstep.value_le hreached.canonical (h.cost_le.trans_eq hreached.width_eq.symm)
    (h.allowed_le.trans_eq hreached.width_eq.symm)

theorem Run.value_le_start : ∀ {k : ℕ}, k ≤ n → (t k).value cost ≤ (t 0).value cost
  | 0, _ => le_rfl
  | _ + 1, hk => (h.value_le hk).trans (Run.value_le_start (Nat.le_of_succ_le hk))

/-- A column that never enters was in the basis from the start. -/
theorem Run.mem_of_not_entersDuring {c : ℕ} (hc : ¬ EntersDuring cost allowed t n c) :
    ∀ {i j : ℕ}, i ≤ j → j ≤ n → c ∈ (t j).basis → c ∈ (t i).basis := by
  intro i j hij hj hmem
  induction j, hij using Nat.le_induction with
  | base => exact hmem
  | succ j hij ih =>
    obtain ⟨d, l, hstep⟩ := h.step j hj
    rcases (hstep.basis_iff c).mp hmem with rfl | hmem
    · exact absurd ⟨j, hj, l, hstep⟩ hc
    · exact ih (Nat.le_of_succ_le hj) hmem.1

/-- A column that never leaves stays in the basis. -/
theorem Run.mem_of_not_leaves {q : ℕ}
    (hq : ∀ k < n, ∀ c l, Step cost allowed (t k) c l (t (k + 1)) → l.basic ≠ q) :
    ∀ {i j : ℕ}, i ≤ j → j ≤ n → q ∈ (t i).basis → q ∈ (t j).basis := by
  intro i j hij hj hmem
  induction j, hij using Nat.le_induction with
  | base => exact hmem
  | succ j hij ih =>
    obtain ⟨d, l, hstep⟩ := h.step j hj
    exact (hstep.basis_iff q).mpr
      (.inr ⟨ih (Nat.le_of_succ_le hj), (hq j hj d l hstep).symm⟩)

section Closed

variable (hclosed : ∀ j, j ∈ (t n).basis ↔ j ∈ (t 0).basis)
include hclosed

/-- A run that comes back to its basis does not change the cost. -/
theorem Run.value_eq_of_closed {k : ℕ} (hk : k < n) :
    (t (k + 1)).value cost = (t k).value cost := by
  have hn := h.reached le_rfl
  have hpoint : (t n).point = (t 0).point :=
    h.canonical.eq_of_agree ((hn.holds_iff _).mp hn.canonical.holds_point) h.canonical.holds_point
      fun j hj => by rw [point_of_not_mem hj, point_of_not_mem (fun hb => hj ((hclosed j).mp hb))]
  have hvalue : (t n).value cost = (t 0).value cost := by
    rw [← hn.canonical.dot_point (h.cost_le.trans_eq hn.width_eq.symm), hpoint,
      h.canonical.dot_point h.cost_le]
  -- the cost at the end bounds the cost at every move from below
  have hlow : (t n).value cost ≤ (t (k + 1)).value cost := by
    have := (h.drop (i := k + 1) (m := n - (k + 1)) (by omega)).value_le_start le_rfl
    simpa [show k + 1 + (n - (k + 1)) = n by omega] using this
  have hhigh := h.value_le_start hk.le
  exact le_antisymm (h.value_le hk) (hhigh.trans (hvalue.symm.le.trans hlow))

theorem Run.still_of_closed {k c : ℕ} {l : Line} (hk : k < n)
    (hstep : Step cost allowed (t k) c l (t (k + 1))) :
    l.rhs = 0 ∧ (t (k + 1)).point = (t k).point := by
  have hreached := h.reached hk.le
  exact hstep.still hreached.canonical (h.cost_le.trans_eq hreached.width_eq.symm)
    (h.allowed_le.trans_eq hreached.width_eq.symm) (h.value_eq_of_closed hclosed hk)

theorem Run.point_eq_of_closed : ∀ {k : ℕ}, k ≤ n → (t k).point = (t 0).point
  | 0, _ => rfl
  | k + 1, hk => by
    obtain ⟨c, l, hstep⟩ := h.step k hk
    exact (h.still_of_closed hclosed hk hstep).2.trans
      (Run.point_eq_of_closed (Nat.le_of_succ_le hk))

end Closed

/-- A run never comes back to the basis it started from. -/
theorem Run.basis_ne (hn : 0 < n) : ¬ ∀ j, j ∈ (t n).basis ↔ j ∈ (t 0).basis := by
  intro hclosed
  -- the greatest column that enters during the run
  let entering : Set ℕ := {c | EntersDuring cost allowed t n c}
  have hbounded : BddAbove entering := by
    refine ⟨allowed, ?_⟩
    rintro c ⟨k, -, l, hstep⟩
    exact hstep.enters.lt_allowed.le
  have hsome : entering.Nonempty := by
    obtain ⟨c, l, hstep⟩ := h.step 0 hn
    exact ⟨c, 0, hn, l, hstep⟩
  obtain ⟨j, hj, lj, hentry⟩ := Nat.sSup_mem hsome hbounded
  set q := sSup entering
  have hgreatest : ∀ c, EntersDuring cost allowed t n c → c ≤ q := fun c hc => le_csSup hbounded hc
  -- it leaves as well, since the basis comes back
  obtain ⟨i, hi, c, l, hstep, hl⟩ : ∃ i < n, ∃ c l,
      Step cost allowed (t i) c l (t (i + 1)) ∧ l.basic = q := by
    by_contra hno
    have hstay : ∀ k < n, ∀ c l, Step cost allowed (t k) c l (t (k + 1)) → l.basic ≠ q :=
      fun k hk c l hstep heq => hno ⟨k, hk, c, l, hstep, heq⟩
    have hend : q ∈ (t n).basis :=
      h.mem_of_not_leaves hstay hj le_rfl ((hentry.basis_iff q).mpr (.inl rfl))
    exact hentry.enters.not_mem
      (h.mem_of_not_leaves hstay (Nat.zero_le j) hj.le ((hclosed q).mp hend))
  have hpoint : (t i).point = (t j).point :=
    (h.point_eq_of_closed hclosed hi.le).trans (h.point_eq_of_closed hclosed hj.le).symm
  refine (h.reached hi.le).not_leaves_of_enters (h.reached hj.le) h.cost_le h.allowed_le hpoint
    hstep.enters hstep.mem hstep.limits (h.still_of_closed hclosed hi hstep).1 hentry.enters
    (hgreatest c ⟨i, hi, l, hstep⟩) (fun k hki hkj => ?_) hl
  by_contra hlt
  have hnever : ¬ EntersDuring cost allowed t n k := fun hk => hlt (hgreatest k hk)
  have hstart : k ∈ (t 0).basis := h.mem_of_not_entersDuring hnever (Nat.zero_le i) hi.le hki
  exact hkj (h.mem_of_not_entersDuring hnever hj.le le_rfl ((hclosed k).mpr hstart))

/-- No basis is visited twice. -/
theorem Run.basis_injective {i j : ℕ} (hij : i < j) (hj : j ≤ n) :
    (t i).basis.toFinset ≠ (t j).basis.toFinset := by
  intro heq
  have hrun := h.drop (i := i) (m := j - i) (by omega)
  refine hrun.basis_ne (by omega) fun k => ?_
  rw [add_zero, show i + (j - i) = j by omega, ← List.mem_toFinset, ← heq, List.mem_toFinset]

/-- There are fewer moves than ordered bases. -/
theorem Run.length_lt : n < (t 0).width ^ (t 0).lines.length := by
  have hlength : ∀ k : Fin (n + 1), (t k).basis.length = (t 0).lines.length := by
    intro k
    rw [basis, List.length_map, h.length_eq (Nat.le_of_lt_succ k.isLt)]
  have hlt : ∀ (k : Fin (n + 1)) (i : Fin (t 0).lines.length),
      (t k).basis.getD i 0 < (t 0).width := by
    intro k i
    have hreached := h.reached (Nat.le_of_lt_succ k.isLt)
    have hi : i < (t k).basis.length := by
      rw [hlength]
      exact i.isLt
    obtain ⟨l, hl, hb⟩ := List.mem_map.mp (List.getElem_mem hi)
    rw [List.getD_eq_getElem _ _ hi, ← hb, ← hreached.width_eq]
    exact hreached.canonical.basic_lt l hl
  let f : Fin (n + 1) → Fin (t 0).lines.length → Fin (t 0).width := fun k i => ⟨_, hlt k i⟩
  have hf : Function.Injective f := by
    intro i j hij
    have heq : (t i).basis = (t j).basis := by
      refine List.ext_getElem ((hlength i).trans (hlength j).symm) fun k hk hk' => ?_
      have hget := congrArg Fin.val (congrFun hij ⟨k, hlength i ▸ hk⟩)
      change (t i).basis.getD k 0 = (t j).basis.getD k 0 at hget
      rwa [List.getD_eq_getElem _ _ hk, List.getD_eq_getElem _ _ hk'] at hget
    by_contra hne
    rcases Nat.lt_or_gt_of_ne (Fin.val_ne_of_ne hne) with hlt | hlt
    · exact h.basis_injective hlt (Nat.le_of_lt_succ j.isLt) (by rw [heq])
    · exact h.basis_injective hlt (Nat.le_of_lt_succ i.isLt) (by rw [heq])
  have hcard := Fintype.card_le_of_injective f hf
  rw [Fintype.card_fin, Fintype.card_fun, Fintype.card_fin, Fintype.card_fin] at hcard
  exact hcard

end Run

end Tableau

end LoopSched.Linear
