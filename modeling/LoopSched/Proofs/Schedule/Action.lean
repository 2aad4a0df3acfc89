import LoopSched.Proofs.Checked
import LoopSched.Schedule.Apply
import Mathlib.Data.Nat.Notation
import Mathlib.Logic.Basic

/-!
# How actions end

One rule for each of the steps that actions are made of.  A sequence succeeds if both parts do, and
fails in its first part or in its second; a step that only looks at the schedule leaves it alone.
At the end the runs of transformations are taken apart: a tiling that succeeds has run its two lists
one level deeper, a list has run its members one after the other, and an application has appended
the maps of a run.
-/

namespace LoopSched.Schedule

/-- The schedule with another layout. -/
def withLayout (s : Schedule) (l : Layout) : Schedule := { s with layout := l }

namespace Action

variable {α β : Type} {s s' : Schedule} {e : Failure}

theorem bind_eq_ok {x : Action α} {f : α → Action β} {b : β} :
    (x >>= f) s = .ok b s' ↔ ∃ a s₁, x s = .ok a s₁ ∧ f a s₁ = .ok b s' := by
  show EStateM.bind x f s = _ ↔ _
  unfold EStateM.bind
  cases x s with
  | ok a s₁ => simp [and_assoc]
  | error e s₁ => simp

@[simp] theorem get_bind {f : Schedule → Action β} : (get >>= f) s = f s s := rfl

@[simp] theorem modifyLayout_bind {g : Layout → Layout} {f : Unit → Action β} :
    (modifyLayout g >>= f) s = f () (s.withLayout (g s.layout)) := rfl

theorem bind_eq_error {x : Action α} {f : α → Action β} :
    (x >>= f) s = .error e s' ↔
      x s = .error e s' ∨ ∃ a s₁, x s = .ok a s₁ ∧ f a s₁ = .error e s' := by
  show EStateM.bind x f s = _ ↔ _
  unfold EStateM.bind
  cases x s with
  | ok a s₁ => simp [and_assoc]
  | error e s₁ => simp

@[simp] theorem pure_eq_ok {a b : α} : (pure a : Action α) s = .ok b s' ↔ b = a ∧ s = s' := by
  show EStateM.Result.ok a s = _ ↔ _
  rw [EStateM.Result.ok.injEq, eq_comm (a := a)]

@[simp] theorem pure_eq_error {a : α} : ¬ (pure a : Action α) s = .error e s' := by
  show ¬ EStateM.Result.ok a s = _
  simp

@[simp] theorem get_eq_ok {s₁ : Schedule} :
    (get : Action Schedule) s = .ok s₁ s' ↔ s = s₁ ∧ s = s' := by
  show EStateM.Result.ok s s = _ ↔ _
  rw [EStateM.Result.ok.injEq]

@[simp] theorem modify_eq_ok {f : Schedule → Schedule} {u : PUnit} :
    (modify f : Action PUnit) s = .ok u s' ↔ s' = f s := by
  show EStateM.Result.ok PUnit.unit (f s) = _ ↔ _
  simp [eq_comm]

theorem modify_eq_error {f : Schedule → Schedule} :
    ¬ (modify f : Action PUnit) s = .error e s' := by
  show ¬ EStateM.Result.ok PUnit.unit (f s) = _
  simp

@[simp] theorem require_eq_ok {r : Except Failure α} {a : α} :
    require r s = .ok a s' ↔ r = .ok a ∧ s = s' := by
  cases r with
  | ok b =>
    show (pure b : Action α) s = _ ↔ _
    simp [eq_comm]
  | error e =>
    show EStateM.Result.error e s = _ ↔ _
    simp

theorem require_eq_error {r : Except Failure α} : require r s = .error e s' → s' = s := by
  cases r with
  | ok b => exact fun h => absurd h pure_eq_error
  | error e₁ =>
    intro h
    change EStateM.Result.error e₁ s = _ at h
    cases h
    rfl

@[simp] theorem modifyLayout_eq_ok {f : Layout → Layout} {u : Unit} :
    modifyLayout f s = .ok u s' ↔ s' = s.withLayout (f s.layout) := modify_eq_ok

@[simp] theorem nestOf_eq_ok {loop : ℕ} {transform : String} {nest : Nest} :
    nestOf loop transform s = .ok nest s' ↔ s.chain.nest loop = .ok nest ∧ s = s' := by
  simp [nestOf, Checked.mapError_eq_ok_iff]

@[simp] theorem targetOf_eq_ok {id : ℕ} {transform : String} {sub : Subspace} :
    targetOf id transform s = .ok sub s' ↔ s.layout.find id = .ok sub ∧ s = s' := by
  simp [targetOf, Checked.mapError_eq_ok_iff]

@[simp] theorem subspace_eq_ok {id : ℕ} {sub : Subspace} :
    subspace id s = .ok sub s' ↔ s.layout.find id = .ok sub ∧ s = s' := by
  simp [subspace, Checked.mapError_eq_ok_iff]

@[simp] theorem setAlias_eq_ok {id : ℕ} {on : Bool} {u : Unit} :
    setAlias id on s = .ok u s' ↔
      (∃ sub, s.layout.find id = .ok sub) ∧ s' = s.withLayout (s.layout.setAlias id on) := by
  simp [setAlias, bind_eq_ok, and_assoc]

@[simp] theorem freshStem_eq_ok {base stem : String} :
    freshStem base s = .ok stem s' ↔ stem = (s.layout.freshStem base).1 ∧
      s' = s.withLayout (s.layout.freshStem base).2 := by
  show (pure _ : Action String) _ = _ ↔ _
  rw [pure_eq_ok]
  exact and_congr_right fun _ => eq_comm

@[simp] theorem insertLeft_eq_ok {fresh : Subspace} {cursor id : ℕ} :
    insertLeft fresh cursor s = .ok id s' ↔ ∃ l, s.layout.insertLeft fresh cursor = .ok (id, l) ∧
      s' = s.withLayout l := by
  simp only [insertLeft, get_bind, bind_eq_ok, require_eq_ok, Checked.mapError_eq_ok_iff,
    modifyLayout_eq_ok, pure_eq_ok]
  constructor
  · rintro ⟨⟨n, l⟩, _, ⟨hl, rfl⟩, _, _, rfl, rfl, rfl⟩
    exact ⟨l, hl, rfl⟩
  · rintro ⟨l, hl, rfl⟩
    exact ⟨(id, l), s, ⟨hl, rfl⟩, (), _, rfl, rfl, rfl⟩

theorem nested_eq_ok {x : Action α} {a : α} :
    nested x s = .ok a s' ↔ ∃ s₁, x s.deeper = .ok a s₁ ∧ s' = s₁.shallower := by
  unfold nested
  cases x s.deeper with
  | ok b s₁ => simp [and_assoc, eq_comm]
  | error e s₁ => simp

theorem undoing_eq_ok {x : Action α} {a : α} : undoing x s = .ok a s' ↔ x s = .ok a s' := by
  unfold undoing
  cases x s <;> simp

theorem undoing_eq_error {x : Action α} : undoing x s = .error e s' ↔
    ∃ s₁, x s = .error e s₁ ∧ s' = s₁.restore s.checkpoint := by
  unfold undoing
  cases x s with
  | ok a s₁ => simp
  | error e₁ s₁ => simp [and_assoc, eq_comm]

/-- What an action returns, if it succeeds. -/
def result? (x : Action α) (s : Schedule) : Option α :=
  match x s with
  | .ok a _ => some a
  | .error _ _ => none

theorem result?_eq_some {x : Action α} {a : α} :
    x.result? s = some a ↔ ∃ s', x s = .ok a s' := by
  unfold result?
  cases x s with
  | ok b s₁ => simp
  | error e s₁ => simp

end Action

end LoopSched.Schedule

/-! ### Runs of transformations -/

namespace LoopSched.Transformation

open Polyhedral Schedule Schedule.Action

variable {id : ℕ} {s s' : Schedule} {maps : List UnionMap}

theorem run_parallel_eq_ok {extra : ℕ} (h : (parallel extra).run id s = .ok maps s') :
    maps = [] ∧ s' = s.addParallel id extra := by
  rw [run] at h
  obtain ⟨_, _, htarget, h⟩ := bind_eq_ok.mp h
  obtain ⟨-, rfl⟩ := targetOf_eq_ok.mp htarget
  obtain ⟨_, _, hmodify, hpure⟩ := bind_eq_ok.mp h
  obtain rfl := modify_eq_ok.mp hmodify
  obtain ⟨rfl, rfl⟩ := pure_eq_ok.mp hpure
  exact ⟨rfl, rfl⟩

/-- A tiling makes its own map and then runs its lists, the first on the tile subspace and the second
on the tiled one. -/
theorem run_tile_eq_ok {loop : ℕ} {sizes : TileSizes} {outer inner : List Transformation}
    (h : (tile loop sizes outer inner).run id s = .ok maps s') :
    ∃ tiling s₁ outerMaps s₂ innerMaps s₃, Fragment.tile loop sizes id s = .ok tiling s₁ ∧
      runEach outer tiling.tile s₁.deeper = .ok outerMaps s₂ ∧
      runEach inner id s₂ = .ok innerMaps s₃ ∧
      maps = tiling.map :: (outerMaps ++ innerMaps) ∧ s' = s₃.shallower := by
  rw [run] at h
  obtain ⟨tiling, s₁, htile, h⟩ := bind_eq_ok.mp h
  obtain ⟨rest, _, hrest, hpure⟩ := bind_eq_ok.mp h
  obtain ⟨rfl, rfl⟩ := pure_eq_ok.mp hpure
  obtain ⟨s₃, hnested, rfl⟩ := nested_eq_ok.mp hrest
  obtain ⟨outerMaps, s₂, houter, hnested⟩ := bind_eq_ok.mp hnested
  obtain ⟨innerMaps, _, hinner, hpure⟩ := bind_eq_ok.mp hnested
  obtain ⟨rfl, rfl⟩ := pure_eq_ok.mp hpure
  exact ⟨tiling, s₁, outerMaps, s₂, innerMaps, _, htile, houter, hinner, rfl, rfl⟩

/-- Every member of a list runs in a stage of its own. -/
theorem runEach_cons_eq_ok {t : Transformation} {ts : List Transformation}
    (h : runEach (t :: ts) id s = .ok maps s') :
    ∃ first s₁ rest, t.run id (s.withLayout s.layout.nextStage) = .ok first s₁ ∧
      runEach ts id s₁ = .ok rest s' ∧ maps = first ++ rest := by
  rw [runEach, modifyLayout_bind] at h
  obtain ⟨first, s₁, hfirst, h⟩ := bind_eq_ok.mp h
  obtain ⟨rest, _, hrest, hpure⟩ := bind_eq_ok.mp h
  obtain ⟨rfl, rfl⟩ := pure_eq_ok.mp hpure
  exact ⟨first, s₁, rest, hfirst, hrest, rfl⟩

end LoopSched.Transformation

namespace LoopSched.Schedule

open Schedule.Action

variable {t : Transformation} {u : Unit} {s s' : Schedule}

/-- An application appends the maps of the run and goes on to the next stage. -/
theorem applyTo_eq_ok {id : ℕ} : applyTo t id s = .ok u s' ↔ ∃ maps s₁, t.run id s = .ok maps s₁ ∧
    s' = { s₁ with maps := s₁.maps ++ maps, layout := s₁.layout.nextStage } := by
  simp only [applyTo, append, bind_eq_ok, undoing_eq_ok, modify_eq_ok]

theorem apply_eq_ok (h : apply t s = .ok u s') :
    ∃ id, t.defaultTarget s = .ok id ∧ applyTo t id s = .ok u s' := by
  unfold apply at h
  rw [get_bind, bind_eq_ok] at h
  obtain ⟨id, _, hid, h⟩ := h
  obtain ⟨htarget, rfl⟩ := require_eq_ok.mp hid
  exact ⟨id, htarget, h⟩

end LoopSched.Schedule
