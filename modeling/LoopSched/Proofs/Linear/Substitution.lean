import LoopSched.Proofs.Linear.Answers
import LoopSched.Proofs.Linear.Search

/-!
# The change of variables is exact

A box and the constraints of a valid program cut out exactly the points that the non-negative
solutions of the posed rows decode to.  The cost of such a solution, with its constant part, is the
objective of the decoded point as a quantity to be minimized.
-/

namespace LoopSched.Linear.Relaxation

/-- A point satisfies the constraints and lies in the box if and only if it is the decoding of
columns that satisfy the rows, and the columns cost what the objective says of the point. -/
theorem relaxes_iff_exists_columns {p : Program} {box : List Bounds} {posed : Posed}
    (hvalid : p.validate = none) (hbox : box.length = p.vars.length)
    (h : pose p box = .ok posed) :
    (∀ x : List ℚ, x.length = box.length → (p.Relaxes box (fun i => x.getD i 0) ↔
      ∃ y, Simplex.Feasible posed.cost.length posed.rows y ∧
        x = (columnsFrom 0 box).map (·.value fun j => y.getD j 0))) ∧
    ∀ y, Simplex.Feasible posed.cost.length posed.rows y →
      dot posed.cost (fun j => y.getD j 0) + posed.offset = sign p.direction *
        p.objective.eval fun i =>
          ((columnsFrom 0 box).map (·.value fun j => y.getD j 0)).getD i 0 := by
  have hp : p.Scoped box.length := hbox ▸ Program.scoped_of_validate hvalid
  have hposes := poses_of_pose h
  refine ⟨fun x hx => ⟨fun hrelaxes => ?_, ?_⟩, fun y _ => ?_⟩
  · obtain ⟨hnonneg, hrows, hdecode⟩ := hposes.holds_encode hp hrelaxes
    refine ⟨encode box fun i => x.getD i 0, ⟨?_, hnonneg, hrows⟩, ?_⟩
    · rw [length_encode, hposes.length_coeffs]
    · refine List.ext_getElem (by simp [hx]) fun i hi hi' => ?_
      have hget := hdecode i (hx ▸ hi)
      rw [← getD_map_value] at hget
      dsimp only at hget
      rw [List.getD_eq_getElem _ _ hi', List.getD_eq_getElem _ _ hi] at hget
      exact hget.symm
  · rintro ⟨y, hy, rfl⟩
    rw [getD_map_value]
    exact (hposes.holds_iff _ hy.nonneg).mp hy.holds
  · rw [getD_map_value]
    exact hposes.cost_eq _

/-- A variable between two ends, one with an upper end only and a free one, all in one constraint
and in a maximized objective with a constant. -/
theorem relaxes_iff_exists_columns_mixed :
    let p : Program :=
      { direction := .maximize
        vars := [⟨"x", ⟨some 1, some 5⟩, true⟩, ⟨"y", ⟨none, some 3⟩, true⟩, ⟨"z", {}, false⟩]
        constraints := [⟨⟨[(0, 1), (1, 2), (2, -1)], 4⟩, .lessEq, 9⟩]
        objective := ⟨[(0, 2), (1, -3), (2, 1)], 7⟩ }
    let posed : Posed :=
      ⟨[-2, -3, -1, 1], 0, [⟨[1, -2, -1, 1], .lessEq, -2⟩, ⟨[1, 0, 0, 0], .lessEq, 4⟩]⟩
    let y : List ℚ := [1, 4, 5 / 2, 0]
    p.validate = none ∧ pose p p.box = .ok posed ∧ Simplex.Feasible 4 posed.rows y ∧
      p.Relaxes p.box (fun i => [2, -1, 5 / 2].getD i 0) ∧
      dot posed.cost (fun j => y.getD j 0) + posed.offset =
        -1 * p.objective.eval fun i => [2, -1, 5 / 2].getD i 0 := by
  intro p posed y
  have hposed : pose p p.box = .ok posed := by decide +kernel
  have hy : Simplex.Feasible 4 posed.rows y := by
    refine ⟨rfl, fun j => ?_, ?_⟩
    · match j with
      | 0 | 1 | 2 | 3 => decide +kernel
      | j + 4 => exact le_rfl
    · simp only [posed, List.forall_mem_cons]
      refine ⟨?_, ?_, by simp⟩ <;> show (_ : ℚ) ≤ _ <;> decide +kernel
  have hpoint : [2, -1, 5 / 2] = (columnsFrom 0 p.box).map (·.value fun j => y.getD j 0) := by
    decide +kernel
  obtain ⟨hiff, hcost⟩ := relaxes_iff_exists_columns (p := p) (by decide) rfl hposed
  refine ⟨by decide, hposed, hy, (hiff _ rfl).mpr ⟨y, hy, hpoint⟩, ?_⟩
  rw [hcost y hy, ← hpoint]
  rfl

end LoopSched.Linear.Relaxation
