import LoopSched.Proofs.Linear.Unbounded

/-!
# Raising the node limit

Two searches with different limits take the same turns as long as both last.  So a search that was
not cut short ends in the same way under every greater limit, and one that was cut short is taken up
again where it stopped, with the best point it had.  From there on the best point only improves, and
no box is unbounded, because the program's own box was not.
-/

namespace LoopSched.Linear.BranchAndBound

variable {p : Program}

/-- A search that was not cut short ends in the same way under a greater limit. -/
theorem search_add {verdict : Verdict} (hverdict : ∀ result, verdict ≠ .finished true result)
    (k : ℕ) : ∀ {n : ℕ} {boxes : List (List Bounds)} {best : Option Incumbent},
      search p n boxes best = .ok verdict → search p (n + k) boxes best = .ok verdict
  | _, [], best, h => by
    rw [search] at h ⊢
    exact h
  | 0, _ :: _, best, h => by
    rw [search] at h
    cases h
    exact absurd rfl (hverdict best)
  | n + 1, box :: boxes, best, h => by
    rw [Nat.succ_add]
    rcases search_succ_eq_ok h with ⟨rfl, hsolve⟩ | ⟨boxes', best', hturn, h⟩
    · rw [search, hsolve]
      rfl
    · rw [hturn.search_eq]
      exact search_add hverdict k h

/-- A search that was cut short is taken up again under a greater limit: at some boxes that were
left, with the best point found before. -/
theorem exists_search_add_eq (hp : p.Scoped p.vars.length) {result : Option Incumbent} :
    ∀ {n : ℕ} {boxes : List (List Bounds)} {best : Option Incumbent},
      (∀ box ∈ boxes, Part p box) → search p n boxes best = .ok (.finished true result) →
      ∃ rest, (∀ box ∈ rest, Part p box) ∧
        ∀ k, search p (n + k) boxes best = search p k rest result
  | _, [], _, _, h => by
    rw [search] at h
    cases h
  | 0, box :: boxes, best, hboxes, h => by
    rw [search] at h
    cases h
    exact ⟨box :: boxes, hboxes, fun k => by rw [Nat.zero_add]⟩
  | n + 1, box :: boxes, best, hboxes, h => by
    rcases search_succ_eq_ok h with ⟨hverdict, -⟩ | ⟨boxes', best', hturn, h⟩
    · cases hverdict
    · obtain ⟨rest, hrest, heq⟩ := exists_search_add_eq hp (hturn.part hp hboxes) h
      refine ⟨rest, hrest, fun k => ?_⟩
      rw [Nat.succ_add, hturn.search_eq, heq]

/-! ### Bounded programs -/

/-- An optimum of the relaxation is a bound of its cost. -/
theorem not_fallsWithin_of_optimal (hp : p.Scoped p.vars.length) {objective : ℚ} {values : List ℚ}
    (h : Relaxation.solve p p.box = .ok (.optimal objective values)) :
    ¬ FallsWithin (p.Relaxes p.box) p.cost := by
  intro hfalls
  obtain ⟨x, hx, hlt⟩ := hfalls.exists_lt objective
  obtain ⟨-, -, -, hmin⟩ := Relaxation.solve_optimal ((part_box p).length_eq ▸ hp) h
  exact absurd hlt (not_lt.mpr (hmin x hx))

/-- A search that found a point has found the relaxation of the program bounded. -/
theorem not_fallsWithin_of_incumbent (hp : p.Scoped p.vars.length) {limit : ℕ} {exhausted : Bool}
    {best : Incumbent} (h : search p limit [p.box] none = .ok (.finished exhausted (some best))) :
    ¬ FallsWithin (p.Relaxes p.box) p.cost := by
  cases limit with
  | zero =>
    rw [search] at h
    cases h
  | succ n =>
    rcases search_succ_eq_ok h with ⟨hverdict, -⟩ | ⟨boxes, best', hturn, h⟩
    · cases hverdict
    · cases hturn with
      | infeasible =>
        -- no box is left
        rw [search] at h
        cases h
      | pruned hsolve => exact not_fallsWithin_of_optimal hp hsolve
      | incumbent hsolve => exact not_fallsWithin_of_optimal hp hsolve
      | branch hsolve => exact not_fallsWithin_of_optimal hp hsolve

/-- No part of a bounded program is found unbounded. -/
theorem search_ne_unbounded (hp : p.Scoped p.vars.length)
    (hbounded : ¬ FallsWithin (p.Relaxes p.box) p.cost) {n : ℕ} {boxes : List (List Bounds)}
    {best : Option Incumbent} (hboxes : ∀ box ∈ boxes, Part p box) :
    search p n boxes best ≠ .ok .unbounded := by
  intro h
  obtain ⟨box, hvisits, hsolve⟩ := exists_visits_unbounded h
  exact hbounded ((hvisits.part hp hboxes).fallsWithin hsolve)

/-- What a search that was cut short has found is kept or improved under a greater limit. -/
theorem exists_incumbent_le (hp : p.Scoped p.vars.length) {limit k : ℕ} {best : Incumbent}
    {verdict : Verdict}
    (h : search p limit [p.box] none = .ok (.finished true (some best)))
    (h' : search p (limit + k) [p.box] none = .ok verdict) :
    ∃ exhausted inc, verdict = .finished exhausted (some inc) ∧ inc.objective ≤ best.objective := by
  have hbox : ∀ box ∈ [p.box], Part p box := by
    intro box hbox
    rw [List.mem_singleton.mp hbox]
    exact part_box p
  obtain ⟨rest, hrest, heq⟩ := exists_search_add_eq hp hbox h
  rw [heq] at h'
  cases verdict with
  | unbounded => exact absurd h' (search_ne_unbounded hp (not_fallsWithin_of_incumbent hp h) hrest)
  | finished exhausted result =>
    have hdone := searched hp k rest (some best) hrest (searched_box hp h).valid h'
    obtain ⟨inc, hinc, hle⟩ := hdone.keeps best.objective ⟨best, rfl, le_rfl⟩
    rw [Option.mem_def] at hinc
    exact ⟨exhausted, inc, by rw [hinc], hle⟩

/-! ### The answer -/

theorem not_better_mul_sign {d : Direction} {a b : ℚ} :
    ¬ d.Better (a * Relaxation.sign d) (b * Relaxation.sign d) ↔ b ≤ a := by
  cases d <;> simp [Direction.Better, Relaxation.sign]

theorem solve_of_search {limit : ℕ} {verdict : Verdict} {s : Solution} (hvalid : p.validate = none)
    (hsearch : search p limit [p.box] none = .ok verdict) (hanswer : answer p verdict = .ok s) :
    solve limit p = some s := by
  have hrun : run limit p = .ok s := (Checked.bind_of_eq_ok hsearch _).trans hanswer
  unfold solve
  rw [hvalid, hrun]
  rfl

variable {limit : ℕ} {s : Solution}

/-- The verdict behind an answer that is not the answer of a search cut short. -/
theorem ne_finished_true {verdict : Verdict} (h : answer p verdict = .ok s)
    (hs : s.status ∈ [.optimal, .infeasible, .unbounded, .modelInvalid])
    (result : Option Incumbent) : verdict ≠ .finished true result := by
  rintro rfl
  rcases answer_eq_ok h with ⟨hverdict, -⟩ | ⟨exhausted, hverdict, hst⟩ |
    ⟨exhausted, best, hverdict, rfl⟩
  · cases hverdict
  · cases hverdict
    simp [hst] at hs
  · cases hverdict
    simp at hs

theorem solve_add (h : solve limit p = some s)
    (hs : s.status ∈ [.optimal, .infeasible, .unbounded, .modelInvalid]) (k : ℕ) :
    solve (limit + k) p = some s := by
  rcases solve_eq_some h with ⟨hinvalid, rfl⟩ | ⟨hvalid, rfl | ⟨verdict, hsearch, hans⟩⟩
  · unfold solve
    rw [if_pos hinvalid]
  · simp at hs
  · exact solve_of_search hvalid (search_add (ne_finished_true hans hs) k hsearch) hans

/-- A search that was cut short after a point was found. -/
theorem search_of_feasible (h : solve limit p = some s) (hs : s.status = .feasible) :
    p.validate = none ∧ ∃ best, search p limit [p.box] none = .ok (.finished true (some best)) ∧
      s.objective = some (best.objective * Relaxation.sign p.direction) := by
  rcases solve_eq_some h with ⟨-, rfl⟩ | ⟨hvalid, rfl | ⟨verdict, hsearch, hans⟩⟩
  · cases hs
  · cases hs
  · refine ⟨hvalid, ?_⟩
    rcases answer_eq_ok hans with ⟨-, hst⟩ | ⟨exhausted, -, hst⟩ | ⟨exhausted, best, rfl, rfl⟩
    · rw [hst] at hs
      cases hs
    · rw [hst] at hs
      cases exhausted <;> cases hs
    · cases exhausted with
      | false => cases hs
      | true => exact ⟨best, hsearch, rfl⟩

/-- A greater node limit keeps every answer that was not cut short, and does not lose a point that
was found before the search was cut short. -/
theorem solve_of_le {limit' : ℕ} (hle : limit ≤ limit') (h : solve limit p = some s) :
    (s.status ∈ [.optimal, .infeasible, .unbounded, .modelInvalid] → solve limit' p = some s) ∧
    (s.status = .feasible → ∀ s', solve limit' p = some s' →
      s'.status = .abnormal ∨ (s'.status = .feasible ∨ s'.status = .optimal) ∧
        ∃ a b, s.objective = some a ∧ s'.objective = some b ∧ ¬ p.direction.Better a b) := by
  obtain ⟨k, rfl⟩ := Nat.exists_eq_add_of_le hle
  refine ⟨fun hs => solve_add h hs k, fun hs s' h' => ?_⟩
  obtain ⟨hvalid, best, hsearch, hobjective⟩ := search_of_feasible h hs
  rcases solve_eq_some h' with ⟨hinvalid, -⟩ | ⟨-, rfl | ⟨verdict, hsearch', hans⟩⟩
  · simp [hvalid] at hinvalid
  · exact .inl rfl
  · obtain ⟨exhausted, inc, rfl, hinc⟩ :=
      exists_incumbent_le (Program.scoped_of_validate hvalid) hsearch hsearch'
    rcases answer_eq_ok hans with ⟨hverdict, -⟩ | ⟨_, hverdict, -⟩ | ⟨_, _, hverdict, rfl⟩ <;>
      cases hverdict
    refine .inr ⟨?_, _, _, hobjective, rfl, not_better_mul_sign.mpr hinc⟩
    cases exhausted
    · exact .inr rfl
    · exact .inl rfl

/-- The point with `x = 3` and `y = 1` is found at the third node and the better one with `x = 4` at
the fourth; after the fifth the search is over, whatever the limit. -/
theorem solve_of_le_third_node :
    let p : Program :=
      { direction := .maximize
        vars := [⟨"x", ⟨some 0, none⟩, true⟩, ⟨"y", ⟨some 0, none⟩, true⟩]
        constraints := [⟨⟨[(0, 6), (1, 4)], 0⟩, .lessEq, 24⟩, ⟨⟨[(0, 1), (1, 2)], 0⟩, .lessEq, 6⟩]
        objective := ⟨[(0, 5), (1, 4)], 0⟩ }
    solve 3 p = some ⟨.feasible, some 19, [3, 1]⟩ ∧
      (∀ s', solve 4 p = some s' → s'.status = .abnormal ∨
        ∃ b, s'.objective = some b ∧ (19 : ℚ) ≤ b) ∧
      ∀ limit, 5 ≤ limit → solve limit p = some ⟨.optimal, some 20, [4, 0]⟩ := by
  intro p
  have h3 : solve 3 p = some ⟨.feasible, some 19, [3, 1]⟩ := by decide +kernel
  have h5 : solve 5 p = some ⟨.optimal, some 20, [4, 0]⟩ := by decide +kernel
  refine ⟨h3, fun s' h4 => ?_, fun limit hlimit => ?_⟩
  · rcases (solve_of_le (by decide) h3).2 rfl s' h4 with hs | ⟨-, a, b, ha, hb, hbetter⟩
    · exact .inl hs
    · cases ha
      exact .inr ⟨b, hb, not_lt.mp hbetter⟩
  · exact (solve_of_le hlimit h5).1 (by decide)

end LoopSched.Linear.BranchAndBound
