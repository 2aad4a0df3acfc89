import LoopSched.Proofs.Linear.Overflow
import LoopSched.Proofs.Linear.Search

/-!
# The boxes that a search looks at

A search solves the relaxation of one box after the other.  It ends early at the first of these that
is unbounded, stops, or has a value next to which no word is left to branch to, and at no other
place.  Every box it looks at is a part of the program's box, and none uses up its budget of moves.
-/

namespace LoopSched.Linear.BranchAndBound

variable {p : Program} {n : ℕ} {boxes : List (List Bounds)} {best : Option Incumbent}
  {box : List Bounds}

/-- The search solves the relaxation of the box. -/
inductive Visits (p : Program) :
    ℕ → List (List Bounds) → Option Incumbent → List Bounds → Prop
  | first {n : ℕ} {box : List Bounds} {boxes : List (List Bounds)} {best : Option Incumbent} :
      Visits p (n + 1) (box :: boxes) best box
  | later {n : ℕ} {box box' : List Bounds} {boxes boxes' : List (List Bounds)}
      {best best' : Option Incumbent} (hturn : Turn p box boxes best boxes' best')
      (hvisits : Visits p n boxes' best' box') : Visits p (n + 1) (box :: boxes) best box'

theorem Visits.part (hp : p.Scoped p.vars.length) (h : Visits p n boxes best box)
    (hboxes : ∀ b ∈ boxes, Part p b) : Part p box := by
  induction h with
  | first => exact hboxes _ List.mem_cons_self
  | later hturn _ ih => exact ih (hturn.part hp hboxes)

/-- The search cannot branch at the box. -/
def Blocked (p : Program) (best : Option Incumbent) (box : List Bounds) : Prop :=
  ∃ objective values i, Relaxation.solve p box = .ok (.optimal objective values) ∧
    improves objective best = true ∧ fractional? p.vars values = some i ∧
    ¬ Word.Fits ((values.getD i 0).floor + 1)

/-- A search finds the program unbounded at one of its boxes. -/
theorem exists_visits_unbounded : ∀ {n : ℕ} {boxes : List (List Bounds)} {best : Option Incumbent},
    search p n boxes best = .ok .unbounded →
      ∃ box, Visits p n boxes best box ∧ Relaxation.solve p box = .ok .unbounded
  | _, [], _, h => by
    rw [search] at h
    cases h
  | 0, _ :: _, _, h => by
    rw [search] at h
    cases h
  | n + 1, box :: boxes, best, h => by
    rcases search_succ_eq_ok h with ⟨-, hsolve⟩ | ⟨boxes', best', hturn, h⟩
    · exact ⟨box, .first, hsolve⟩
    · obtain ⟨box', hvisits, hsolve⟩ := exists_visits_unbounded h
      exact ⟨box', .later hturn hvisits, hsolve⟩

theorem split_eq_error {i : ℕ} {v : ℚ} {e : Halt} (h : split box i v = .error e) :
    e = .abort ∧ ¬ Word.Fits (v.floor + 1) := by
  unfold split at h
  dsimp only at h
  by_cases hfits : Word.Fits (v.floor + 1)
  · rw [if_pos hfits] at h
    cases h
  · rw [if_neg hfits] at h
    cases h
    exact ⟨rfl, hfits⟩

/-- A search stops where one of its relaxations does, or where it cannot branch. -/
theorem exists_visits_error {e : Halt} : ∀ {n : ℕ} {boxes : List (List Bounds)}
    {best : Option Incumbent}, search p n boxes best = .error e →
      ∃ box, Visits p n boxes best box ∧
        (Relaxation.solve p box = .error e ∨ e = .abort ∧ ∃ best', Blocked p best' box)
  | _, [], _, h => by
    rw [search] at h
    cases h
  | 0, _ :: _, _, h => by
    rw [search] at h
    cases h
  | n + 1, box :: boxes, best, h => by
    rcases turn_cases p box boxes best with ⟨boxes', best', hturn⟩ | hsolve | ⟨e', hsolve⟩ |
      ⟨objective, values, i, e', hsolve, him, hf, hsplit⟩
    · rw [hturn.search_eq] at h
      obtain ⟨box', hvisits, hstop⟩ := exists_visits_error h
      exact ⟨box', .later hturn hvisits, hstop⟩
    · rw [search, hsolve] at h
      cases h
    · rw [search, hsolve] at h
      cases h
      exact ⟨box, .first, .inl hsolve⟩
    · rw [search, hsolve] at h
      replace h := (if_pos him).symm.trans h
      rw [hf] at h
      rcases Checked.bind_eq_error h with h | ⟨halves, hok, -⟩
      · obtain ⟨rfl, hfits⟩ := split_eq_error h
        exact ⟨box, .first, .inr ⟨rfl, best, objective, values, i, hsolve, him, hf, hfits⟩⟩
      · rw [hsplit] at hok
        cases hok

/-- A relaxation that stops stops the search. -/
theorem Visits.search_eq_error {e : Halt} (h : Visits p n boxes best box)
    (hsolve : Relaxation.solve p box = .error e) : search p n boxes best = .error e := by
  induction h with
  | first =>
    rw [search, hsolve]
    rfl
  | later hturn _ ih =>
    rw [hturn.search_eq]
    exact ih hsolve

open Checked

theorem answer_never_stalls (p : Program) (verdict : Verdict) :
    StopsOnly (· ≠ .stalled) (answer p verdict) := by
  match verdict with
  | .unbounded => exact stopsOnly_ok _
  | .finished exhausted none => exact stopsOnly_ok _
  | .finished exhausted (some best) =>
    exact (Ratio.stopsOnly_mul (by decide) _ _).bind fun _ _ => stopsOnly_ok _

theorem run_never_stalls (limit : ℕ) (p : Program) : StopsOnly (· ≠ .stalled) (run limit p) := by
  refine StopsOnly.bind (fun e he => ?_) fun verdict _ => answer_never_stalls p verdict
  obtain ⟨box, -, hsolve | ⟨rfl, -⟩⟩ := exists_visits_error he
  · exact Relaxation.solve_never_stalls p box e hsolve
  · decide

end LoopSched.Linear.BranchAndBound
