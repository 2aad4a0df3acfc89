import LoopSched.Linear.Solver
import LoopSched.Proofs.Linear.Relaxation

/-!
# Branch and bound finds the optimum

The search keeps two things: the best point so far is a feasible point of the program, and no
feasible point in a box that was looked at is better than it.  Both carry over a branching because
an integer lies on one side of a fractional value, and over a pruning because the relaxation of a
box bounds all its points.
-/

namespace LoopSched.Linear

/-- In this direction of optimization, `a` is strictly better than `b`. -/
def Direction.Better : Direction → ℚ → ℚ → Prop
  | minimize, a, b => a < b
  | maximize, a, b => b < a

/-- The values of a solution as a point. -/
def Solution.point (s : Solution) (i : ℕ) : ℚ := s.values.getD i 0

namespace Program

/-- The objective as a quantity to be minimized. -/
def cost (p : Program) (x : ℕ → ℚ) : ℚ := Relaxation.sign p.direction * p.objective.eval x

theorem better_iff (p : Program) (x : ℕ → ℚ) (b : ℚ) :
    p.direction.Better (p.objective.eval x) b ↔ p.cost x < Relaxation.sign p.direction * b := by
  unfold cost
  cases p.direction <;> simp [Direction.Better, Relaxation.sign]

theorem not_better_iff (p : Program) (x y : ℕ → ℚ) :
    ¬ p.direction.Better (p.objective.eval x) (p.objective.eval y) ↔ p.cost y ≤ p.cost x := by
  rw [better_iff, not_lt]
  rfl

/-- The ranges of the variables. -/
def box (p : Program) : List Bounds := p.vars.map (·.bounds)

/-- A feasible point whose values lie in a box. -/
structure FeasibleIn (p : Program) (box : List Bounds) (x : ℕ → ℚ) : Prop
    extends p.Relaxes box x where
  integral : ∀ i (v : Variable), p.vars[i]? = some v → v.integer = true → (x i).den = 1

theorem feasible_iff (p : Program) (x : ℕ → ℚ) : p.Feasible x ↔ p.FeasibleIn p.box x := by
  have hbox : InBox p.box x ↔
      ∀ i (v : Variable), p.vars[i]? = some v → v.bounds.Contains (x i) := by
    simp only [InBox, box, List.getElem?_map, Option.map_eq_some_iff]
    constructor
    · intro h i v hv
      exact h i _ ⟨v, hv, rfl⟩
    · rintro h i b ⟨v, hv, rfl⟩
      exact h i v hv
  exact ⟨fun h => ⟨⟨h.constraints, hbox.mpr h.bounds⟩, h.integral⟩,
    fun h => ⟨h.constraints, hbox.mp h.inBox, h.integral⟩⟩

theorem scoped_of_validate {p : Program} (h : p.validate = none) : p.Scoped p.vars.length := by
  unfold validate at h
  simp only [Option.or_eq_none_iff] at h
  obtain ⟨-, h⟩ := h
  by_cases hobj : p.objective.within p.vars.length = true
  · rw [if_pos hobj, Option.map_eq_none_iff, List.findIdx?_eq_none_iff] at h
    exact ⟨hobj, fun c hc => by simpa using h c hc⟩
  · rw [if_neg hobj] at h
    cases h

end Program

namespace BranchAndBound

variable {p : Program}

/-! ### Branching -/

theorem fractional?_none {vars : List Variable} {values : List ℚ}
    (hlen : values.length = vars.length) (h : fractional? vars values = none) (i : ℕ)
    (v : Variable) (hv : vars[i]? = some v) (hint : v.integer = true) :
    (values.getD i 0).den = 1 := by
  unfold fractional? at h
  rw [List.findIdx?_eq_none_iff] at h
  obtain ⟨hi, hget⟩ := List.getElem?_eq_some_iff.mp hv
  have hi' : i < values.length := hlen ▸ hi
  have hmem : (v, values[i]) ∈ vars.zip values := by
    rw [List.mem_iff_getElem?]
    exact ⟨i, by rw [List.getElem?_zip_eq_some]; exact ⟨hv, List.getElem?_eq_getElem hi'⟩⟩
  have := h _ hmem
  simp only [hint, Bool.true_and, decide_eq_false_iff_not, not_not] at this
  rwa [List.getD_eq_getElem _ _ hi']

theorem fractional?_some {vars : List Variable} {values : List ℚ} {i : ℕ}
    (h : fractional? vars values = some i) :
    (∃ v, vars[i]? = some v ∧ v.integer = true) ∧ ∃ a, values[i]? = some a ∧ a.den ≠ 1 := by
  unfold fractional? at h
  obtain ⟨hi, hp, -⟩ := List.findIdx?_eq_some_iff_getElem.mp h
  rw [List.length_zip] at hi
  rw [List.getElem_zip] at hp
  simp only [Bool.and_eq_true, decide_eq_true_eq] at hp
  exact ⟨⟨_, List.getElem?_eq_getElem (by omega), hp.1⟩,
    _, List.getElem?_eq_getElem (by omega), hp.2⟩

/-- An integer lies on one side of every number. -/
theorem le_floor_or_floor_lt {x : ℚ} (hx : x.den = 1) (v : ℚ) :
    x ≤ v.floor ∨ ((v.floor + 1 : ℤ) : ℚ) ≤ x := by
  have hnum : (x.num : ℚ) = x := Rat.coe_int_num_of_den_eq_one hx
  rw [← hnum, Int.cast_le, Int.cast_le]
  omega

theorem inBox_modify {box : List Bounds} {i : ℕ} {f : Bounds → Bounds} {x : ℕ → ℚ} :
    InBox (box.modify i f) x ↔
      ∀ j (b : Bounds), box[j]? = some b → (if i = j then f b else b).Contains (x j) := by
  simp only [InBox, List.getElem?_modify, Option.map_eq_map, Option.map_eq_some_iff]
  constructor
  · intro h j b hb
    exact h j _ ⟨b, hb, rfl⟩
  · rintro h j b' ⟨b, hb, rfl⟩
    exact h j b hb

section Split

variable {box below above : List Bounds} {i : ℕ} {v : ℚ}

theorem split_eq_ok (h : split box i v = .ok (below, above)) :
    below = box.modify i ({ · with upper := some v.floor }) ∧
      above = box.modify i ({ · with lower := some (v.floor + 1) }) := by
  unfold split at h
  dsimp only at h
  split at h
  · cases h
    exact ⟨rfl, rfl⟩
  · cases h

/-- Both halves are parts of the box, provided that the value was in its range. -/
theorem inBox_of_half (h : split box i v = .ok (below, above))
    (hv : ∀ b, box[i]? = some b → b.Contains v) {x : ℕ → ℚ} (hx : InBox below x ∨ InBox above x) :
    InBox box x := by
  obtain ⟨rfl, rfl⟩ := split_eq_ok h
  intro j b hb
  rcases hx with hx | hx <;> have hj := inBox_modify.mp hx j b hb
  · by_cases hij : i = j
    · subst hij
      rw [if_pos rfl] at hj
      refine ⟨hj.1, fun u hu => ?_⟩
      calc x i ≤ (v.floor : ℚ) := hj.2 _ rfl
        _ ≤ v := Rat.floor_le v
        _ ≤ u := (hv b hb).2 u hu
    · rwa [if_neg hij] at hj
  · by_cases hij : i = j
    · subst hij
      rw [if_pos rfl] at hj
      refine ⟨fun l hl => ?_, hj.2⟩
      calc (l : ℚ) ≤ v := (hv b hb).1 l hl
        _ ≤ ((v.floor + 1 : ℤ) : ℚ) := (Rat.lt_floor_add_one v).le
        _ ≤ x i := hj.1 _ rfl
    · rwa [if_neg hij] at hj

/-- A point that is integral at the branching variable lies in one of the halves. -/
theorem half_of_inBox (h : split box i v = .ok (below, above)) {x : ℕ → ℚ} (hx : InBox box x)
    (hint : (x i).den = 1) : InBox below x ∨ InBox above x := by
  obtain ⟨rfl, rfl⟩ := split_eq_ok h
  refine (le_floor_or_floor_lt hint v).imp (fun hle => ?_) fun hle => ?_
  · refine inBox_modify.mpr fun j b hb => ?_
    by_cases hij : i = j
    · subst hij
      rw [if_pos rfl]
      exact ⟨(hx i b hb).1, fun u hu => by cases hu; exact hle⟩
    · rw [if_neg hij]
      exact hx j b hb
  · refine inBox_modify.mpr fun j b hb => ?_
    by_cases hij : i = j
    · subst hij
      rw [if_pos rfl]
      exact ⟨fun l hl => by cases hl; exact hle, (hx i b hb).2⟩
    · rw [if_neg hij]
      exact hx j b hb

end Split

/-! ### The search -/

/-- A part of the program's box. -/
structure Part (p : Program) (box : List Bounds) : Prop where
  length_eq : box.length = p.vars.length
  inBox : ∀ x, InBox box x → InBox p.box x

theorem part_box (p : Program) : Part p p.box :=
  ⟨List.length_map .., fun _ h => h⟩

theorem Part.half {box below above : List Bounds} (hbox : Part p box) {i : ℕ} {v : ℚ}
    (h : split box i v = .ok (below, above)) (hv : ∀ b, box[i]? = some b → b.Contains v) :
    Part p below ∧ Part p above := by
  obtain ⟨hbelow, habove⟩ := split_eq_ok h
  refine ⟨⟨?_, fun x hx => ?_⟩, ⟨?_, fun x hx => ?_⟩⟩
  · rw [hbelow, List.length_modify, hbox.length_eq]
  · exact hbox.inBox x (inBox_of_half h hv (.inl hx))
  · rw [habove, List.length_modify, hbox.length_eq]
  · exact hbox.inBox x (inBox_of_half h hv (.inr hx))

/-- An incumbent is a feasible point with its cost. -/
structure Incumbent.Valid (p : Program) (best : Incumbent) : Prop where
  length_eq : best.values.length = p.vars.length
  feasible : p.Feasible (fun i => best.values.getD i 0)
  cost_eq : best.objective = p.cost (fun i => best.values.getD i 0)

/-- There is an incumbent and it costs at most this much. -/
def Covers (best : Option Incumbent) (cost : ℚ) : Prop := ∃ inc ∈ best, inc.objective ≤ cost

theorem covers_of_not_improves {objective cost : ℚ} {best : Option Incumbent}
    (h : ¬ improves objective best = true) (hle : objective ≤ cost) : Covers best cost := by
  cases best with
  | none => exact absurd rfl h
  | some inc =>
    have hinc : inc.objective ≤ objective := by simpa [improves] using h
    exact ⟨inc, rfl, hinc.trans hle⟩

theorem Covers.of_improves {objective cost : ℚ} {values : List ℚ} {best : Option Incumbent}
    (h : improves objective best = true) (hbest : Covers best cost) :
    Covers (some ⟨objective, values⟩) cost := by
  obtain ⟨inc, hinc, hle⟩ := hbest
  rw [Option.mem_def] at hinc
  subst hinc
  have hlt : objective < inc.objective := by simpa [improves] using h
  exact ⟨_, rfl, hlt.le.trans hle⟩

/-- What a search of some boxes says of its result: the incumbent is valid, no worse than the one
the search began with and, unless the node limit was met, than every feasible point of the boxes. -/
structure Searched (p : Program) (boxes : List (List Bounds)) (best : Option Incumbent)
    (exhausted : Bool) (result : Option Incumbent) : Prop where
  valid : ∀ inc ∈ result, inc.Valid p
  keeps : ∀ cost, Covers best cost → Covers result cost
  covers : exhausted = false →
    ∀ box ∈ boxes, ∀ x, p.FeasibleIn box x → Covers result (p.cost x)

/-- One step: a box is replaced by others that take over those of its points which the incumbent
does not cover. -/
theorem Searched.step {box : List Bounds} {boxes boxes' : List (List Bounds)}
    {best best' result : Option Incumbent} {exhausted : Bool}
    (hrest : ∀ b ∈ boxes, b ∈ boxes') (hkeep : ∀ cost, Covers best cost → Covers best' cost)
    (hbox : ∀ x, p.FeasibleIn box x →
      Covers best' (p.cost x) ∨ ∃ box' ∈ boxes', p.FeasibleIn box' x)
    (h : Searched p boxes' best' exhausted result) :
    Searched p (box :: boxes) best exhausted result := by
  refine ⟨h.valid, fun cost hc => h.keeps cost (hkeep cost hc), fun he b hb x hx => ?_⟩
  rcases List.mem_cons.mp hb with rfl | hb
  · rcases hbox x hx with hc | ⟨box', hmem, hx'⟩
    · exact h.keeps _ hc
    · exact h.covers he box' hmem x hx'
  · exact h.covers he b (hrest b hb) x hx

theorem valid_of_relaxation (hp : p.Scoped p.vars.length) {box : List Bounds} (hbox : Part p box)
    {objective : ℚ} {values : List ℚ}
    (h : Relaxation.solve p box = .ok (.optimal objective values))
    (hf : fractional? p.vars values = none) : Incumbent.Valid p ⟨objective, values⟩ := by
  rw [← hbox.length_eq] at hp
  obtain ⟨hlen, hrel, hobj, -⟩ := Relaxation.solve_optimal hp h
  have hlen' : values.length = p.vars.length := hlen.trans hbox.length_eq
  refine ⟨hlen', (p.feasible_iff _).mpr ⟨⟨hrel.constraints, hbox.inBox _ hrel.inBox⟩, ?_⟩, hobj⟩
  exact fractional?_none hlen' hf

/-- A feasible point of a box is in one of its halves, as the branching variable is an integer. -/
theorem feasibleIn_half {box below above : List Bounds} {values : List ℚ} {i : ℕ} {x : ℕ → ℚ}
    (hf : fractional? p.vars values = some i)
    (h : split box i (values.getD i 0) = .ok (below, above)) (hx : p.FeasibleIn box x) :
    p.FeasibleIn below x ∨ p.FeasibleIn above x := by
  obtain ⟨⟨v, hv, hint⟩, -⟩ := fractional?_some hf
  rcases half_of_inBox h hx.inBox (hx.integral i v hv hint) with hin | hin
  · exact .inl ⟨⟨hx.constraints, hin⟩, hx.integral⟩
  · exact .inr ⟨⟨hx.constraints, hin⟩, hx.integral⟩

/-! ### One turn -/

/-- A turn of the search that goes on: what is left to look at after the first box, and the best
point then. -/
inductive Turn (p : Program) (box : List Bounds) (boxes : List (List Bounds))
    (best : Option Incumbent) : List (List Bounds) → Option Incumbent → Prop
  | infeasible (hsolve : Relaxation.solve p box = .ok .infeasible) :
      Turn p box boxes best boxes best
  | pruned {objective : ℚ} {values : List ℚ}
      (hsolve : Relaxation.solve p box = .ok (.optimal objective values))
      (him : ¬ improves objective best = true) : Turn p box boxes best boxes best
  | incumbent {objective : ℚ} {values : List ℚ}
      (hsolve : Relaxation.solve p box = .ok (.optimal objective values))
      (him : improves objective best = true) (hf : fractional? p.vars values = none) :
      Turn p box boxes best boxes (some ⟨objective, values⟩)
  | branch {objective : ℚ} {values : List ℚ} {i : ℕ} {below above : List Bounds}
      (hsolve : Relaxation.solve p box = .ok (.optimal objective values))
      (him : improves objective best = true) (hf : fractional? p.vars values = some i)
      (hsplit : split box i (values.getD i 0) = .ok (below, above)) :
      Turn p box boxes best (below :: above :: boxes) best

section Turn

variable {box : List Bounds} {boxes boxes' : List (List Bounds)} {best best' : Option Incumbent}

theorem Turn.search_eq (h : Turn p box boxes best boxes' best') (n : ℕ) :
    search p (n + 1) (box :: boxes) best = search p n boxes' best' := by
  rw [search]
  cases h with
  | infeasible hsolve =>
    rw [hsolve]
    rfl
  | pruned hsolve him =>
    rw [hsolve]
    exact if_neg him
  | incumbent hsolve him hf =>
    rw [hsolve]
    refine (if_pos him).trans ?_
    rw [hf]
  | branch hsolve him hf hsplit =>
    rw [hsolve]
    refine (if_pos him).trans ?_
    rw [hf]
    exact Checked.bind_of_eq_ok hsplit _

/-- What can happen at the first box: the search goes on, or ends there because the relaxation is
unbounded, stops, or cannot be split. -/
theorem turn_cases (p : Program) (box : List Bounds) (boxes : List (List Bounds))
    (best : Option Incumbent) :
    (∃ boxes' best', Turn p box boxes best boxes' best') ∨
      Relaxation.solve p box = .ok .unbounded ∨ (∃ e, Relaxation.solve p box = .error e) ∨
      ∃ objective values i e, Relaxation.solve p box = .ok (.optimal objective values) ∧
        improves objective best = true ∧ fractional? p.vars values = some i ∧
        split box i (values.getD i 0) = .error e := by
  match hsolve : Relaxation.solve p box with
  | .error e => exact .inr (.inr (.inl ⟨e, rfl⟩))
  | .ok .unbounded => exact .inr (.inl rfl)
  | .ok .infeasible => exact .inl ⟨_, _, .infeasible hsolve⟩
  | .ok (.optimal objective values) =>
    by_cases him : improves objective best = true
    · cases hf : fractional? p.vars values with
      | none => exact .inl ⟨_, _, .incumbent hsolve him hf⟩
      | some i =>
        cases hsplit : split box i (values.getD i 0) with
        | ok halves => exact .inl ⟨_, _, .branch hsolve him hf hsplit⟩
        | error e => exact .inr (.inr (.inr ⟨_, _, i, e, rfl, him, hf, hsplit⟩))
    · exact .inl ⟨_, _, .pruned hsolve him⟩

/-- A search that ends has made a turn, or found an unbounded relaxation. -/
theorem search_succ_eq_ok {n : ℕ} {verdict : Verdict}
    (h : search p (n + 1) (box :: boxes) best = .ok verdict) :
    (verdict = .unbounded ∧ Relaxation.solve p box = .ok .unbounded) ∨
      ∃ boxes' best', Turn p box boxes best boxes' best' ∧
        search p n boxes' best' = .ok verdict := by
  rcases turn_cases p box boxes best with ⟨boxes', best', hturn⟩ | hsolve | ⟨e, hsolve⟩ |
    ⟨objective, values, i, e, hsolve, him, hf, hsplit⟩
  · rw [hturn.search_eq] at h
    exact .inr ⟨boxes', best', hturn, h⟩
  · rw [search, hsolve] at h
    cases h
    exact .inl ⟨rfl, hsolve⟩
  · rw [search, hsolve] at h
    cases h
  · rw [search, hsolve] at h
    replace h := (if_pos him).symm.trans h
    rw [hf] at h
    obtain ⟨halves, hsplit', -⟩ := Checked.bind_eq_ok h
    rw [hsplit] at hsplit'
    cases hsplit'

variable (hp : p.Scoped p.vars.length)
include hp

theorem Turn.part (h : Turn p box boxes best boxes' best') (hboxes : ∀ b ∈ box :: boxes, Part p b) :
    ∀ b ∈ boxes', Part p b := by
  obtain ⟨hbox, hrest⟩ := List.forall_mem_cons.mp hboxes
  cases h with
  | infeasible => exact hrest
  | pruned => exact hrest
  | incumbent => exact hrest
  | branch hsolve him hf hsplit =>
    obtain ⟨-, hrel, -⟩ := Relaxation.solve_optimal (hbox.length_eq ▸ hp) hsolve
    obtain ⟨hbelow, habove⟩ := hbox.half hsplit (hrel.inBox _)
    exact List.forall_mem_cons.mpr ⟨hbelow, List.forall_mem_cons.mpr ⟨habove, hrest⟩⟩

theorem Turn.valid (h : Turn p box boxes best boxes' best') (hbox : Part p box)
    (hbest : ∀ inc ∈ best, inc.Valid p) : ∀ inc ∈ best', inc.Valid p := by
  cases h with
  | infeasible => exact hbest
  | pruned => exact hbest
  | branch => exact hbest
  | incumbent hsolve him hf =>
    intro inc hinc
    rw [Option.mem_def, Option.some.injEq] at hinc
    exact hinc ▸ valid_of_relaxation hp hbox hsolve hf

theorem Turn.searched (h : Turn p box boxes best boxes' best') (hbox : Part p box)
    {exhausted : Bool} {result : Option Incumbent}
    (hrest : Searched p boxes' best' exhausted result) :
    Searched p (box :: boxes) best exhausted result := by
  rw [← hbox.length_eq] at hp
  cases h with
  | infeasible hsolve =>
    refine .step (fun b hb => hb) (fun _ hc => hc) (fun x hx => ?_) hrest
    exact absurd hx.toRelaxes (Relaxation.solve_infeasible hp hsolve x)
  | pruned hsolve him =>
    -- the incumbent is no worse than the relaxation, hence than the whole box
    obtain ⟨-, -, -, hmin⟩ := Relaxation.solve_optimal hp hsolve
    refine .step (fun b hb => hb) (fun _ hc => hc) (fun x hx => .inl ?_) hrest
    exact covers_of_not_improves him (hmin x hx.toRelaxes)
  | incumbent hsolve him hf =>
    -- the relaxation of the box is integral, so it bounds the box and is the new incumbent
    obtain ⟨-, -, -, hmin⟩ := Relaxation.solve_optimal hp hsolve
    exact .step (fun b hb => hb) (fun _ hc => hc.of_improves him)
      (fun x hx => .inl ⟨_, rfl, hmin x hx.toRelaxes⟩) hrest
  | branch hsolve him hf hsplit =>
    -- nothing is decided about the box, its two halves take its place
    refine .step (fun b hb => by simp [hb]) (fun _ hc => hc) (fun x hx => .inr ?_) hrest
    rcases feasibleIn_half hf hsplit hx with hx | hx
    · exact ⟨_, List.mem_cons_self, hx⟩
    · exact ⟨_, List.mem_cons_of_mem _ List.mem_cons_self, hx⟩

end Turn

/-- Every finished search leaves its boxes searched.  The induction is on the node limit, over all
lists of boxes and all incumbents. -/
theorem searched (hp : p.Scoped p.vars.length) {exhausted : Bool} {result : Option Incumbent} :
    ∀ (n : ℕ) (boxes : List (List Bounds)) (best : Option Incumbent),
      (∀ box ∈ boxes, Part p box) → (∀ inc ∈ best, inc.Valid p) →
      search p n boxes best = .ok (.finished exhausted result) →
      Searched p boxes best exhausted result
  | _, [], best, _, hbest, h => by
    rw [search] at h
    cases h
    exact ⟨hbest, fun _ hc => hc, fun _ box hbox => absurd hbox List.not_mem_nil⟩
  | 0, _ :: _, best, _, hbest, h => by
    rw [search] at h
    cases h
    exact ⟨hbest, fun _ hc => hc, fun he => absurd he (by decide)⟩
  | n + 1, box :: boxes, best, hboxes, hbest, h => by
    have hbox : Part p box := hboxes box List.mem_cons_self
    rcases search_succ_eq_ok h with ⟨hverdict, -⟩ | ⟨boxes', best', hturn, h⟩
    · cases hverdict
    · exact hturn.searched hp hbox
        (searched hp n boxes' best' (hturn.part hp hboxes) (hturn.valid hp hbox hbest) h)

/-! ### The answer -/

section Answer

variable {limit : ℕ} {s : Solution}

theorem answer_eq_ok {verdict : Verdict} (h : answer p verdict = .ok s) :
    (verdict = .unbounded ∧ s.status = .unbounded) ∨
      (∃ exhausted, verdict = .finished exhausted none ∧
        s.status = if exhausted then .notSolved else .infeasible) ∨
      ∃ exhausted best, verdict = .finished exhausted (some best) ∧
        s = ⟨if exhausted then .feasible else .optimal,
          some (best.objective * Relaxation.sign p.direction), best.values⟩ := by
  match verdict with
  | .unbounded =>
    cases h
    exact .inl ⟨rfl, rfl⟩
  | .finished exhausted none =>
    cases h
    exact .inr (.inl ⟨exhausted, rfl, rfl⟩)
  | .finished exhausted (some best) =>
    obtain ⟨objective, hmul, hs⟩ := Checked.bind_eq_ok h
    cases hs
    rw [Ratio.mul_eq_ok hmul]
    exact .inr (.inr ⟨exhausted, best, rfl, rfl⟩)

/-- A search of the whole box from no incumbent. -/
theorem searched_box (hp : p.Scoped p.vars.length) {exhausted : Bool} {result : Option Incumbent}
    (h : search p limit [p.box] none = .ok (.finished exhausted result)) :
    Searched p [p.box] none exhausted result := by
  refine searched hp limit [p.box] none (fun box hbox => ?_) (fun inc hinc => ?_) h
  · rw [List.mem_singleton.mp hbox]
    exact part_box p
  · cases hinc

theorem Searched.covers_feasible {result : Option Incumbent}
    (h : Searched p [p.box] none false result) {x : ℕ → ℚ} (hx : p.Feasible x) :
    Covers result (p.cost x) :=
  h.covers rfl p.box List.mem_cons_self x ((p.feasible_iff x).mp hx)

/-- Apart from that of a malformed program, a status reports how the search ran. -/
theorem solve_eq_iff {answer : Option Solution}
    (hanswer : answer ≠ some { status := .modelInvalid }) :
    solve limit p = answer ↔ p.validate = none ∧
      (match run limit p with
        | .ok s => some s
        | .error .abort => none
        | .error _ => some { status := .abnormal }) = answer := by
  unfold solve
  by_cases hvalid : p.validate.isSome = true
  · rw [if_pos hvalid]
    exact iff_of_false hanswer.symm fun h => by simp [h.1] at hvalid
  · rw [if_neg hvalid]
    exact (and_iff_right (by simpa using hvalid)).symm

/-- What a solution reports: a malformed program, an overflow, or the verdict of the search. -/
theorem solve_eq_some (h : solve limit p = some s) :
    (p.validate.isSome = true ∧ s = { status := .modelInvalid }) ∨
      p.validate = none ∧ (s = { status := .abnormal } ∨
        ∃ verdict, search p limit [p.box] none = .ok verdict ∧ answer p verdict = .ok s) := by
  unfold solve at h
  by_cases hvalid : p.validate.isSome = true
  · rw [if_pos hvalid] at h
    cases h
    exact .inl ⟨hvalid, rfl⟩
  · rw [if_neg hvalid] at h
    refine .inr ⟨by simpa using hvalid, ?_⟩
    cases hr : run limit p with
    | error halt =>
      rw [hr] at h
      cases halt <;> cases h <;> exact .inl rfl
    | ok r =>
      rw [hr] at h
      cases h
      exact .inr (Checked.bind_eq_ok hr)

/-- Apart from the statuses of a failure, a solution reports a finished search. -/
theorem solve_cases (h : solve limit p = some s) :
    (s.status = .modelInvalid ∨ s.status = .abnormal ∨ s.status = .unbounded) ∨
      (∃ exhausted, Searched p [p.box] none exhausted none ∧
        s.status = if exhausted then .notSolved else .infeasible) ∨
      ∃ exhausted best, Searched p [p.box] none exhausted (some best) ∧
        s = ⟨if exhausted then .feasible else .optimal,
          some (best.objective * Relaxation.sign p.direction), best.values⟩ := by
  rcases solve_eq_some h with ⟨-, rfl⟩ | ⟨hvalid, rfl | ⟨verdict, hsearch, hans⟩⟩
  · exact .inl (.inl rfl)
  · exact .inl (.inr (.inl rfl))
  · have hp : p.Scoped p.vars.length := Program.scoped_of_validate hvalid
    rcases answer_eq_ok hans with ⟨-, hst⟩ | ⟨exhausted, rfl, hst⟩ | ⟨exhausted, best, rfl, hs⟩
    · exact .inl (.inr (.inr hst))
    · exact .inr (.inl ⟨exhausted, searched_box hp hsearch, hst⟩)
    · exact .inr (.inr ⟨exhausted, best, searched_box hp hsearch, hs⟩)

theorem sign_mul_sign (d : Direction) : (Relaxation.sign d : ℚ) * Relaxation.sign d = 1 := by
  cases d <;> simp [Relaxation.sign]

/-- A solution with values reports a valid incumbent, and one that costs no more than any feasible
point if it is optimal. -/
theorem exists_incumbent (h : solve limit p = some s)
    (hs : s.status = .optimal ∨ s.status = .feasible) :
    ∃ best : Incumbent, best.Valid p ∧ s.values = best.values ∧
      s.objective = some (best.objective * Relaxation.sign p.direction) ∧
      (s.status = .optimal → ∀ x, p.Feasible x → best.objective ≤ p.cost x) := by
  rcases solve_cases h with hst | ⟨exhausted, -, hst⟩ | ⟨exhausted, best, hdone, rfl⟩
  · rcases hst with hst | hst | hst <;> simp [hst] at hs
  · cases exhausted <;> simp [hst] at hs
  · refine ⟨best, hdone.valid best rfl, rfl, rfl, fun hopt x hx => ?_⟩
    cases exhausted with
    | true => cases hopt
    | false =>
      obtain ⟨inc, hinc, hle⟩ := hdone.covers_feasible hx
      cases hinc
      exact hle

theorem feasible_point (h : solve limit p = some s)
    (hs : s.status = .optimal ∨ s.status = .feasible) :
    s.values.length = p.vars.length ∧ p.Feasible s.point := by
  obtain ⟨best, hvalid, hvalues, -⟩ := exists_incumbent h hs
  refine ⟨by rw [hvalues, hvalid.length_eq], ?_⟩
  unfold Solution.point
  rw [hvalues]
  exact hvalid.feasible

theorem objective_eq_eval (h : solve limit p = some s)
    (hs : s.status = .optimal ∨ s.status = .feasible) :
    s.objective = some (p.objective.eval s.point) := by
  obtain ⟨best, hvalid, hvalues, hobj, -⟩ := exists_incumbent h hs
  unfold Solution.point
  rw [hobj, hvalues, hvalid.cost_eq, Program.cost, mul_right_comm, sign_mul_sign, one_mul]

/-- No feasible point costs less than an optimal one. -/
theorem cost_point_le (h : solve limit p = some s) (hs : s.status = .optimal) {x : ℕ → ℚ}
    (hx : p.Feasible x) : p.cost s.point ≤ p.cost x := by
  obtain ⟨best, hvalid, hvalues, -, hbest⟩ := exists_incumbent h (.inl hs)
  have hle := hbest hs x hx
  rw [hvalid.cost_eq, ← hvalues] at hle
  exact hle

/-- A solution with values is a feasible point with its objective, and no feasible point is better
than an optimal one. -/
theorem solve_sound (h : solve limit p = some s)
    (hs : s.status = .optimal ∨ s.status = .feasible) :
    s.values.length = p.vars.length ∧ p.Feasible s.point ∧
      s.objective = some (p.objective.eval s.point) ∧
      (s.status = .optimal → ∀ x, p.Feasible x →
        ¬ p.direction.Better (p.objective.eval x) (p.objective.eval s.point)) := by
  obtain ⟨hlen, hfeasible⟩ := feasible_point h hs
  refine ⟨hlen, hfeasible, objective_eq_eval h hs, fun hopt x hx => ?_⟩
  exact (p.not_better_iff x s.point).mpr (cost_point_le h hopt hx)

/-- The whole-number maximum of `5 x + 4 y` with `6 x + 4 y ≤ 24` and `x + 2 y ≤ 6` is at
`(4, 0)`; the relaxation takes its maximum at `(3, 3/2)`. -/
theorem solve_sound_corner :
    let p : Program :=
      { direction := .maximize
        vars := [⟨"x", ⟨some 0, none⟩, true⟩, ⟨"y", ⟨some 0, none⟩, true⟩]
        constraints := [⟨⟨[(0, 6), (1, 4)], 0⟩, .lessEq, 24⟩, ⟨⟨[(0, 1), (1, 2)], 0⟩, .lessEq, 6⟩]
        objective := ⟨[(0, 5), (1, 4)], 0⟩ }
    solve 100 p = some ⟨.optimal, some 20, [4, 0]⟩ ∧
      ∀ x, p.Feasible x → ¬ 20 < p.objective.eval x := by
  intro p
  have h : solve 100 p = some ⟨.optimal, some 20, [4, 0]⟩ := by decide +kernel
  obtain ⟨-, -, hobj, hbest⟩ := solve_sound h (.inl rfl)
  refine ⟨h, fun x hx => ?_⟩
  rw [Option.some.inj hobj]
  exact hbest rfl x hx

/-- A program that is found infeasible has no feasible point. -/
theorem not_feasible_of_solve (h : solve limit p = some s) (hs : s.status = .infeasible)
    (x : ℕ → ℚ) : ¬ p.Feasible x := by
  intro hx
  rcases solve_cases h with hst | ⟨exhausted, hdone, hst⟩ | ⟨exhausted, best, -, rfl⟩
  · rcases hst with hst | hst | hst <;> simp [hst] at hs
  · cases exhausted with
    | true => simp [hst] at hs
    | false =>
      obtain ⟨inc, hinc, -⟩ := hdone.covers_feasible hx
      cases hinc
  · cases exhausted <;> simp at hs

/-- No whole number between `0` and `10` is one half. -/
theorem not_feasible_of_solve_half :
    let p : Program :=
      { direction := .minimize
        vars := [⟨"x", ⟨some 0, some 10⟩, true⟩]
        constraints := [⟨⟨[(0, 2)], 0⟩, .eq, 1⟩]
        objective := ⟨[(0, 1)], 0⟩ }
    solve 100 p = some ⟨.infeasible, none, []⟩ ∧ ∀ x, ¬ p.Feasible x := by
  intro p
  have h : solve 100 p = some ⟨.infeasible, none, []⟩ := by decide +kernel
  exact ⟨h, not_feasible_of_solve h rfl⟩

end Answer

end BranchAndBound

end LoopSched.Linear
