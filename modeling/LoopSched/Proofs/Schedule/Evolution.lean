import LoopSched.Proofs.Layout.Frame
import LoopSched.Proofs.Schedule.Operation

/-!
# How a schedule evolves

The map of a transformation is written while the layout is reshaped, and nothing else of the
schedule changes meanwhile.  So a transformation that succeeds has changed the layout step by step
and has come back to its own depth, and what every change keeps of a layout holds after any run.
-/

namespace LoopSched

open Polyhedral

namespace Schedule

namespace Action

variable {α β : Type} {s : Schedule}

/-- If the action succeeds on this schedule, only the layout is another, by changes. -/
def ReshapesAt (x : Action α) (s : Schedule) : Prop :=
  ∀ a s', x s = .ok a s' → ∃ l, s.layout.Changes l ∧ s' = s.withLayout l

def Reshapes (x : Action α) : Prop := ∀ s, ReshapesAt x s

/-- A step may rely on what the one before found. -/
theorem ReshapesAt.bind {x : Action α} {f : α → Action β} (hx : ReshapesAt x s)
    (hf : ∀ a s₁, x s = .ok a s₁ → ReshapesAt (f a) s₁) : ReshapesAt (x >>= f) s := by
  intro b s' h
  obtain ⟨a, s₁, ha, hb⟩ := bind_eq_ok.mp h
  obtain ⟨l, hl, rfl⟩ := hx a s₁ ha
  obtain ⟨l', hl', rfl⟩ := hf a _ ha b s' hb
  exact ⟨l', hl.trans hl', rfl⟩

theorem Reshapes.bind {x : Action α} {f : α → Action β} (hx : Reshapes x)
    (hf : ∀ a, Reshapes (f a)) : Reshapes (x >>= f) := fun s =>
  (hx s).bind fun a s₁ _ => hf a s₁

/-- A step that only looks at the schedule. -/
theorem reshapes_of_eq {x : Action α} (h : ∀ s a s', x s = .ok a s' → s = s') : Reshapes x := by
  intro s a s' hx
  obtain rfl := h s a s' hx
  exact ⟨s.layout, .refl, rfl⟩

theorem reshapes_pure (a : α) : Reshapes (pure a : Action α) :=
  reshapes_of_eq fun _ _ _ h => (pure_eq_ok.mp h).2

theorem Reshapes.mapM {f : α → Action β} (hf : ∀ a, Reshapes (f a)) (as : List α) :
    Reshapes (as.mapM f) := by
  induction as with
  | nil => exact reshapes_pure []
  | cons a as ih =>
    rw [List.mapM_cons]
    exact (hf a).bind fun b => ih.bind fun bs => reshapes_pure (b :: bs)

theorem reshapes_get : Reshapes (get : Action Schedule) :=
  reshapes_of_eq fun _ _ _ h => (get_eq_ok.mp h).2

theorem reshapes_require (r : Except Failure α) : Reshapes (require r) :=
  reshapes_of_eq fun _ _ _ h => (require_eq_ok.mp h).2

theorem reshapes_nestOf (loop : ℕ) (transform : String) : Reshapes (nestOf loop transform) :=
  reshapes_of_eq fun _ _ _ h => (nestOf_eq_ok.mp h).2

theorem reshapes_targetOf (id : ℕ) (transform : String) : Reshapes (targetOf id transform) :=
  reshapes_of_eq fun _ _ _ h => (targetOf_eq_ok.mp h).2

theorem reshapes_subspace (id : ℕ) : Reshapes (subspace id) :=
  reshapes_of_eq fun _ _ _ h => (subspace_eq_ok.mp h).2

theorem reshapes_setAlias (id : ℕ) (on : Bool) : Reshapes (setAlias id on) := by
  intro s u s' h
  obtain ⟨-, rfl⟩ := setAlias_eq_ok.mp h
  exact ⟨_, .single (.setAlias s.layout id on), rfl⟩

theorem reshapes_freshStem (base : String) : Reshapes (freshStem base) := by
  intro s stem s' h
  obtain ⟨-, rfl⟩ := freshStem_eq_ok.mp h
  exact ⟨_, .single (.takeStem s.layout base), rfl⟩

end Action

end Schedule

namespace Fragment

open Schedule Schedule.Action

theorem reshapes_clause (conditions : List Condition) : Reshapes (clause conditions) :=
  reshapes_get.bind fun _ => reshapes_pure _

theorem reshapes_shift (sh : Shift) (id : ℕ) : Reshapes (shift sh id) := by
  refine (reshapes_nestOf _ _).bind fun nest => (reshapes_targetOf _ _).bind fun target => ?_
  refine (reshapes_require _).bind fun _ => reshapes_get.bind fun _ => ?_
  refine (reshapes_setAlias _ _).bind fun _ => (reshapes_subspace _).bind fun out => ?_
  refine (reshapes_clause _).bind fun moved => (reshapes_setAlias _ _).bind fun _ => ?_
  exact (reshapes_clause _).bind fun others => reshapes_pure _

theorem reshapes_fusion (loops : List ℕ) (id : ℕ) : Reshapes (fusion loops id) := by
  refine (reshapes_require _).bind fun first => ?_
  refine Reshapes.bind (reshapes_of_eq fun _ _ _ h => forM_nestOf_eq_ok h) fun _ => ?_
  refine (reshapes_targetOf _ _).bind fun _ => reshapes_get.bind fun _ => ?_
  refine (reshapes_require _).bind fun next => (reshapes_setAlias _ _).bind fun _ => ?_
  refine (reshapes_setAlias _ _).bind fun _ => (reshapes_subspace _).bind fun outer => ?_
  refine (reshapes_subspace _).bind fun inner => (reshapes_clause _).bind fun fused => ?_
  exact (reshapes_clause _).bind fun others => reshapes_pure _

theorem reshapes_wavefront (id : ℕ) : Reshapes (wavefront id) := by
  refine (reshapes_targetOf _ _).bind fun target => (reshapes_require _).bind fun _ => ?_
  refine (reshapes_setAlias _ _).bind fun _ => (reshapes_subspace _).bind fun out => ?_
  exact (reshapes_clause _).bind fun all => (reshapes_setAlias _ _).bind fun _ => reshapes_pure _

/-- The only insertion: the target is there and some of its dimensions are tiled. -/
theorem reshapesAt_tileSubspace {s : Schedule} {count id : ℕ} {target : Subspace}
    (htarget : s.layout.find id = .ok target) (hcount : 0 < count) :
    ReshapesAt (tileSubspace count target id) s := by
  refine (reshapes_get s).bind fun s₀ s₁ hget => ?_
  obtain ⟨rfl, rfl⟩ := get_eq_ok.mp hget
  refine (reshapes_require _ s).bind fun candidate s₁ hcandidate => ?_
  obtain ⟨-, rfl⟩ := require_eq_ok.mp hcandidate
  cases existingTile? s.layout candidate id with
  | some tile => exact (reshapes_setAlias _ _).bind (fun _ => reshapes_pure _) s
  | none =>
    refine (reshapes_freshStem _ s).bind fun stem s₁ hstem => ?_
    obtain ⟨rfl, rfl⟩ := freshStem_eq_ok.mp hstem
    refine (reshapes_require _ _).bind fun fresh s₁ hfresh => ?_
    rw [require_eq_ok, Checked.mapError_eq_ok_iff] at hfresh
    obtain ⟨hfresh, rfl⟩ := hfresh
    refine ReshapesAt.bind (fun n s' hinsert => ?_) fun tile s₁ _ => reshapes_pure _ s₁
    obtain ⟨l, hl, rfl⟩ := insertLeft_eq_ok.mp hinsert
    exact ⟨l, .single (.insertTiles htarget hcount hfresh hl), rfl⟩

theorem reshapes_tile (loop : ℕ) (sizes : TileSizes) (id : ℕ) : Reshapes (tile loop sizes id) := by
  intro s
  refine (reshapes_nestOf _ _ s).bind fun nest s₁ hnest => ?_
  obtain ⟨-, rfl⟩ := nestOf_eq_ok.mp hnest
  refine (reshapes_get s).bind fun s₀ s₁ hget => ?_
  obtain ⟨rfl, rfl⟩ := get_eq_ok.mp hget
  refine (reshapes_targetOf _ _ s).bind fun target s₁ htarget => ?_
  obtain ⟨hfound, rfl⟩ := targetOf_eq_ok.mp htarget
  refine (reshapes_require _ s).bind fun count s₁ hcount => ?_
  rw [require_eq_ok, Checked.mapError_eq_ok_iff] at hcount
  obtain ⟨hcount, rfl⟩ := hcount
  refine (reshapesAt_tileSubspace hfound (tileCount_pos hcount)).bind fun found s₁ _ => ?_
  -- what follows only sets and clears aliases
  refine Reshapes.bind (reshapes_setAlias _ _) (fun _ => ?_) s₁
  refine (reshapes_subspace _).bind fun tiled => (reshapes_subspace _).bind fun tiles => ?_
  refine (reshapes_clause _).bind fun mapped => (reshapes_setAlias _ _).bind fun _ => ?_
  exact (reshapes_setAlias _ _).bind fun _ => (reshapes_clause _).bind fun others => reshapes_pure _

end Fragment

namespace Schedule

open Schedule.Action

/-- What is so after a transformation has run. -/
structure Evolved (s s' : Schedule) : Prop where
  layout : s.layout.Changes s'.layout
  depth : s'.depth = s.depth
  lengthDelta : s'.lengthDelta = s.lengthDelta

theorem Evolved.refl (s : Schedule) : Evolved s s := ⟨.refl, rfl, rfl⟩

theorem Evolved.trans {s₁ s₂ s₃ : Schedule} (h : Evolved s₁ s₂) (h' : Evolved s₂ s₃) :
    Evolved s₁ s₃ :=
  ⟨h.layout.trans h'.layout, h'.depth.trans h.depth, h'.lengthDelta.trans h.lengthDelta⟩

theorem Action.Reshapes.evolved {α : Type} {x : Action α} (hx : Reshapes x) {a : α}
    {s s' : Schedule} (h : x s = .ok a s') : Evolved s s' := by
  obtain ⟨l, hl, rfl⟩ := hx s a s' h
  exact ⟨hl, rfl, rfl⟩

end Schedule

namespace Transformation

open Schedule Schedule.Action Fragment

/-- A transformation that neither tiles nor annotates only changes the layout. -/
theorem reshapes_run {t : Transformation} (htile : ∀ loop sizes outer inner,
    t ≠ .tile loop sizes outer inner) (hparallel : ∀ extra, t ≠ .parallel extra) (id : ℕ) :
    Reshapes (t.run id) := by
  cases t with
  | identity =>
    rw [run]
    exact reshapes_pure _
  | shift sh =>
    rw [run]
    exact (reshapes_shift sh id).bind fun _ => reshapes_pure _
  | fusion loops =>
    rw [run]
    exact (reshapes_fusion loops id).bind fun _ => reshapes_pure _
  | wavefront =>
    rw [run]
    exact (reshapes_wavefront id).bind fun _ => reshapes_pure _
  | automaticShift includeZero nodeLimit =>
    rw [run]
    refine reshapes_get.bind fun s => (reshapes_require _).bind fun shifts => ?_
    exact Reshapes.mapM (fun sh => reshapes_shift sh id) shifts
  | parallel extra => exact absurd rfl (hparallel extra)
  | tile loop sizes outer inner => exact absurd rfl (htile loop sizes outer inner)

mutual

theorem run_evolved : ∀ (t : Transformation) {id : ℕ} {s s' : Schedule} {maps : List UnionMap},
    t.run id s = .ok maps s' → Evolved s s'
  | .identity, id, _, _, _, hrun => (reshapes_run (by simp) (by simp) id).evolved hrun
  | .shift _, id, _, _, _, hrun => (reshapes_run (by simp) (by simp) id).evolved hrun
  | .fusion _, id, _, _, _, hrun => (reshapes_run (by simp) (by simp) id).evolved hrun
  | .wavefront, id, _, _, _, hrun => (reshapes_run (by simp) (by simp) id).evolved hrun
  | .automaticShift _ _, id, _, _, _, hrun => (reshapes_run (by simp) (by simp) id).evolved hrun
  | .parallel extra, id, s, s', maps, hrun => by
    obtain ⟨-, rfl⟩ := run_parallel_eq_ok hrun
    exact ⟨.refl, rfl, rfl⟩
  | .tile loop sizes outer inner, id, s, s', maps, hrun => by
    obtain ⟨tiling, s₁, outerMaps, s₂, innerMaps, s₃, htile, houter, hinner, -, rfl⟩ :=
      run_tile_eq_ok hrun
    have hfirst := (reshapes_tile loop sizes id).evolved htile
    have hlists := (runEach_evolved outer houter).trans (runEach_evolved inner hinner)
    refine hfirst.trans ⟨hlists.layout, ?_, hlists.lengthDelta⟩
    -- the level that was entered is left again
    show s₃.depth - 1 = s₁.depth
    rw [hlists.depth]
    rfl

theorem runEach_evolved : ∀ (ts : List Transformation) {id : ℕ} {s s' : Schedule}
    {maps : List UnionMap}, runEach ts id s = .ok maps s' → Evolved s s'
  | [], id, s, s', maps, hrun => by
    rw [runEach] at hrun
    exact (reshapes_pure _).evolved hrun
  | t :: ts, id, s, s', maps, hrun => by
    obtain ⟨first, s₁, rest, hfirst, hrest, -⟩ := runEach_cons_eq_ok hrun
    have hstage : Evolved s (s.withLayout s.layout.nextStage) :=
      ⟨.single (.nextStage s.layout), rfl, rfl⟩
    exact (hstage.trans (run_evolved t hfirst)).trans (runEach_evolved ts hrest)

end

end Transformation

namespace Schedule

open Schedule.Action Transformation

/-! ### Runs -/

/-- Applying a transformation changes the layout step by step, and in the end nothing is aliased. -/
theorem applyTo_evolved {t : Transformation} {id : ℕ} {u : Unit} {s s' : Schedule}
    (h : applyTo t id s = .ok u s') : Evolved s s' := by
  obtain ⟨maps, s₁, hmaps, rfl⟩ := applyTo_eq_ok.mp h
  have hrun := run_evolved t hmaps
  exact ⟨hrun.layout.tail (.nextStage s₁.layout), hrun.depth, hrun.lengthDelta⟩

section Keeps

variable {Q : Schedule → Prop}
  (happlyTo : ∀ {t id u s s'}, applyTo t id s = .ok u s' → Q s → Q s')

include happlyTo

theorem apply_keeps {t : Transformation} {s : Schedule} (h : Q s) : Q ((apply t).after s) := by
  refine after_cases (Q := Q) (fun u s' hrun => ?_) (fun e s' hrun => ?_)
  · obtain ⟨id, -, hrun⟩ := apply_eq_ok hrun
    exact happlyTo hrun h
  · rwa [apply_error_unchanged hrun]

theorem applyTo_keeps {t : Transformation} {id : ℕ} {s : Schedule} (h : Q s) :
    Q ((applyTo t id).after s) := by
  refine after_cases (Q := Q) (fun u s' hrun => happlyTo hrun h) (fun e s' hrun => ?_)
  rwa [applyTo_error_unchanged hrun]

theorem applyAll_keeps : ∀ (ts : List Transformation) {s : Schedule}, Q s →
    Q ((applyAll ts).after s)
  | [], s, h => h
  | t :: ts, s, h => by
    refine after_cases (Q := Q) (fun u s' hrun => ?_) (fun e s' hrun => ?_)
    · obtain ⟨_, s₁, hfirst, hrun⟩ := bind_eq_ok.mp hrun
      exact after_of_ok hrun ▸ applyAll_keeps ts (after_of_ok hfirst ▸ apply_keeps happlyTo h)
    · rcases bind_eq_error.mp hrun with hfirst | ⟨_, s₁, hfirst, hrun⟩
      · rwa [apply_error_unchanged hfirst]
      · exact after_of_error hrun ▸ applyAll_keeps ts (after_of_ok hfirst ▸ apply_keeps happlyTo h)

end Keeps

section KeepsLayout

variable {Q : Layout → Prop}
  (happlyTo : ∀ {t id u s s'}, applyTo t id s = .ok u s' → Q s.layout → Q s'.layout)

include happlyTo

theorem act_keeps {s : Schedule} (h : Q s.layout) (op : Operation) : Q (op.act s).layout := by
  cases op with
  | apply t => exact apply_keeps (Q := fun s => Q s.layout) happlyTo h
  | applyTo t id => exact applyTo_keeps (Q := fun s => Q s.layout) happlyTo h
  | applyAll ts => exact applyAll_keeps (Q := fun s => Q s.layout) happlyTo ts h
  | deeper => exact h
  | shallower => exact h
  | addParallel id extra => exact h
  | modifyLength delta =>
    obtain ⟨d, hd⟩ := modifyLength_after delta s
    show Q ((Schedule.modifyLength delta).after s).layout
    rwa [hd]

/-- What successful applications keep of a layout holds after any run. -/
theorem perform_keeps {s : Schedule} (h : Q s.layout) (ops : List Operation) :
    Q (s.perform ops).layout := by
  induction ops generalizing s with
  | nil => exact h
  | cons op ops ih => exact ih (act_keeps happlyTo h op)

end KeepsLayout

end Schedule

end LoopSched
