import LoopSched.Proofs.Schedule.Action
import LoopSched.Schedule.Apply

/-!
# Failures leave no trace

A transformation that fails has often changed the schedule by then: subspaces were inserted, stages
begun, iterators marked as parallel.  All these changes lie in the part that a checkpoint saves, by
recursion over the transformation, so putting the checkpoint back gives the schedule from before.
-/

namespace LoopSched

open Polyhedral

namespace Schedule

/-- The two schedules agree in everything that a checkpoint does not save. -/
structure SameRecord (s s' : Schedule) : Prop where
  chain : s'.chain = s.chain
  statementPrefix : s'.statementPrefix = s.statementPrefix
  iteratorPrefix : s'.iteratorPrefix = s.iteratorPrefix
  domains : s'.domains = s.domains
  maps : s'.maps = s.maps

theorem SameRecord.refl (s : Schedule) : SameRecord s s := ⟨rfl, rfl, rfl, rfl, rfl⟩

theorem SameRecord.trans {s₁ s₂ s₃ : Schedule} (h : SameRecord s₁ s₂) (h' : SameRecord s₂ s₃) :
    SameRecord s₁ s₃ :=
  ⟨h'.chain.trans h.chain, h'.statementPrefix.trans h.statementPrefix,
    h'.iteratorPrefix.trans h.iteratorPrefix, h'.domains.trans h.domains, h'.maps.trans h.maps⟩

/-- Putting a checkpoint back undoes every change to the saved part. -/
theorem SameRecord.restore_checkpoint {s s' : Schedule} (h : SameRecord s s') :
    s'.restore s.checkpoint = s := by
  obtain ⟨hchain, hstatement, hiterator, hdomains, hmaps⟩ := h
  unfold restore checkpoint
  rw [hchain, hstatement, hiterator, hdomains, hmaps]

namespace Action

variable {α β : Type}

/-- The schedule after an action, whether it succeeded or failed. -/
def after (x : Action α) (s : Schedule) : Schedule :=
  match x s with
  | .ok _ s' => s'
  | .error _ s' => s'

theorem after_of_ok {x : Action α} {s s' : Schedule} {a : α} (h : x s = .ok a s') :
    x.after s = s' := by
  rw [after, h]

theorem after_of_error {x : Action α} {s s' : Schedule} {e : Failure} (h : x s = .error e s') :
    x.after s = s' := by
  rw [after, h]

theorem ok_of_isSome {x : Action α} {s : Schedule} (h : (x.result? s).isSome) :
    ∃ a, x s = .ok a (x.after s) := by
  obtain ⟨a, ha⟩ := Option.isSome_iff_exists.mp h
  obtain ⟨s', hrun⟩ := result?_eq_some.mp ha
  exact ⟨a, after_of_ok hrun ▸ hrun⟩

/-- What holds of the schedule after success and after failure holds of it in the end. -/
theorem after_cases {x : Action α} {s : Schedule} {Q : Schedule → Prop}
    (hok : ∀ a s', x s = .ok a s' → Q s') (herror : ∀ e s', x s = .error e s' → Q s') :
    Q (x.after s) := by
  cases h : x s with
  | ok a s' => exact after_of_ok h ▸ hok a s' h
  | error e s' => exact after_of_error h ▸ herror e s' h

/-- The action only works on the part that a checkpoint saves. -/
def Confined (x : Action α) : Prop := ∀ s, SameRecord s (x.after s)

theorem confined_pure (a : α) : Confined (pure a : Action α) := fun s => .refl s

theorem confined_get : Confined (get : Action Schedule) := fun s => .refl s

theorem confined_require (r : Except Failure α) : Confined (require r) := by
  intro s
  cases r with
  | ok a => exact .refl s
  | error e => exact .refl s

theorem confined_modify {f : Schedule → Schedule} (hf : ∀ s, SameRecord s (f s)) :
    Confined (modify f : Action Unit) := hf

/-- A step may use the result of the one before. -/
theorem Confined.bind {x : Action α} {f : α → Action β} (hx : Confined x)
    (hf : ∀ a, Confined (f a)) : Confined (x >>= f) := by
  intro s
  refine after_cases (fun b s' h => ?_) (fun e s' h => ?_)
  · obtain ⟨a, s₁, ha, hb⟩ := bind_eq_ok.mp h
    have hfirst := after_of_ok ha ▸ hx s
    exact hfirst.trans (after_of_ok hb ▸ hf a s₁)
  · rcases bind_eq_error.mp h with ha | ⟨a, s₁, ha, hb⟩
    · exact after_of_error ha ▸ hx s
    · have hfirst := after_of_ok ha ▸ hx s
      exact hfirst.trans (after_of_error hb ▸ hf a s₁)

theorem Confined.mapM {f : α → Action β} (hf : ∀ a, Confined (f a)) (as : List α) :
    Confined (as.mapM f) := by
  induction as with
  | nil => exact confined_pure []
  | cons a as ih =>
    rw [List.mapM_cons]
    exact (hf a).bind fun b => ih.bind fun bs => confined_pure (b :: bs)

theorem Confined.forM {f : α → Action PUnit} (hf : ∀ a, Confined (f a)) (as : List α) :
    Confined (as.forM f) := by
  induction as with
  | nil => exact confined_pure PUnit.unit
  | cons a as ih => exact (hf a).bind fun _ => ih

/-- Going one level deeper and back only moves the depth. -/
theorem Confined.nested {x : Action α} (hx : Confined x) : Confined (nested x) := by
  intro s
  have hdeeper : SameRecord s s.deeper := ⟨rfl, rfl, rfl, rfl, rfl⟩
  have hshallower : ∀ s', SameRecord s' s'.shallower := fun s' => ⟨rfl, rfl, rfl, rfl, rfl⟩
  have hs := hdeeper.trans (hx s.deeper)
  unfold after Action.nested at *
  cases h : x s.deeper with
  | ok a s₁ =>
    rw [h] at hs
    exact hs.trans (hshallower s₁)
  | error e s₁ =>
    rw [h] at hs
    exact hs.trans (hshallower s₁)

/-! ### The steps of the transformations -/

theorem confined_modifyLayout (f : Layout → Layout) : Confined (modifyLayout f) :=
  confined_modify fun _ => ⟨rfl, rfl, rfl, rfl, rfl⟩

theorem confined_nestOf (loop : ℕ) (transform : String) : Confined (nestOf loop transform) :=
  confined_get.bind fun _ => confined_require _

theorem confined_targetOf (id : ℕ) (transform : String) : Confined (targetOf id transform) :=
  confined_get.bind fun _ => confined_require _

theorem confined_subspace (id : ℕ) : Confined (subspace id) :=
  confined_get.bind fun _ => confined_require _

theorem confined_setAlias (id : ℕ) (on : Bool) : Confined (setAlias id on) :=
  (confined_subspace id).bind fun _ => confined_modifyLayout _

theorem confined_freshStem (base : String) : Confined (freshStem base) :=
  confined_get.bind fun _ => (confined_modifyLayout _).bind fun _ => confined_pure _

theorem confined_insertLeft (fresh : Subspace) (cursor : ℕ) : Confined (insertLeft fresh cursor) :=
  confined_get.bind fun _ => (confined_require _).bind fun _ =>
    (confined_modifyLayout _).bind fun _ => confined_pure _

end Action

end Schedule

namespace Fragment

open Schedule Schedule.Action

theorem confined_clause (conditions : List Condition) : Confined (clause conditions) :=
  confined_get.bind fun _ => confined_pure _

theorem confined_shift (sh : Shift) (id : ℕ) : Confined (shift sh id) := by
  refine (confined_nestOf _ _).bind fun nest => (confined_targetOf _ _).bind fun target => ?_
  refine (confined_require _).bind fun _ => confined_get.bind fun _ => ?_
  refine (confined_setAlias _ _).bind fun _ => (confined_subspace _).bind fun out => ?_
  refine (confined_clause _).bind fun moved => (confined_setAlias _ _).bind fun _ => ?_
  exact (confined_clause _).bind fun others => confined_pure _

theorem confined_fusion (loops : List ℕ) (id : ℕ) : Confined (fusion loops id) := by
  refine (confined_require _).bind fun first => ?_
  refine (Confined.forM (fun loop => ?_) loops).bind fun _ => ?_
  · exact (confined_nestOf _ _).bind fun _ => confined_pure _
  refine (confined_targetOf _ _).bind fun _ => confined_get.bind fun _ => ?_
  refine (confined_require _).bind fun next => (confined_setAlias _ _).bind fun _ => ?_
  refine (confined_setAlias _ _).bind fun _ => (confined_subspace _).bind fun outer => ?_
  refine (confined_subspace _).bind fun inner => (confined_clause _).bind fun fused => ?_
  exact (confined_clause _).bind fun others => confined_pure _

theorem confined_wavefront (id : ℕ) : Confined (wavefront id) := by
  refine (confined_targetOf _ _).bind fun target => (confined_require _).bind fun _ => ?_
  refine (confined_setAlias _ _).bind fun _ => (confined_subspace _).bind fun out => ?_
  exact (confined_clause _).bind fun all => (confined_setAlias _ _).bind fun _ => confined_pure _

theorem confined_tileSubspace (count : ℕ) (target : Subspace) (id : ℕ) :
    Confined (tileSubspace count target id) := by
  refine confined_get.bind fun s => (confined_require _).bind fun candidate => ?_
  cases existingTile? s.layout candidate id with
  | some tile => exact (confined_setAlias _ _).bind fun _ => confined_pure _
  | none =>
    refine (confined_freshStem _).bind fun stem => (confined_require _).bind fun fresh => ?_
    exact (confined_insertLeft _ _).bind fun tile => confined_pure _

theorem confined_tile (loop : ℕ) (sizes : TileSizes) (id : ℕ) : Confined (tile loop sizes id) := by
  refine (confined_nestOf _ _).bind fun nest => confined_get.bind fun _ => ?_
  refine (confined_targetOf _ _).bind fun target => (confined_require _).bind fun count => ?_
  refine (confined_tileSubspace _ _ _).bind fun found => (confined_setAlias _ _).bind fun _ => ?_
  refine (confined_subspace _).bind fun tiled => (confined_subspace _).bind fun tiles => ?_
  refine (confined_clause _).bind fun mapped => (confined_setAlias _ _).bind fun _ => ?_
  exact (confined_setAlias _ _).bind fun _ => (confined_clause _).bind fun others => confined_pure _

end Fragment

namespace Transformation

open Schedule Schedule.Action Fragment

mutual

/-- Whatever a transformation does before it ends is confined to the saved part. -/
theorem confined_run : ∀ (t : Transformation) (id : ℕ), Confined (t.run id)
  | .identity, id => by
    rw [run]
    exact confined_pure []
  | .shift sh, id => by
    rw [run]
    exact (confined_shift sh id).bind fun _ => confined_pure _
  | .fusion loops, id => by
    rw [run]
    exact (confined_fusion loops id).bind fun _ => confined_pure _
  | .wavefront, id => by
    rw [run]
    exact (confined_wavefront id).bind fun _ => confined_pure _
  | .parallel extra, id => by
    have hmark : ∀ s, SameRecord s (s.addParallel id extra) := fun s => ⟨rfl, rfl, rfl, rfl, rfl⟩
    rw [run]
    refine (confined_targetOf _ _).bind fun _ => ?_
    exact (confined_modify hmark).bind fun _ => confined_pure _
  | .automaticShift includeZero nodeLimit, id => by
    rw [run]
    refine confined_get.bind fun s => (confined_require _).bind fun shifts => ?_
    exact Confined.mapM (fun sh => confined_shift sh id) shifts
  | .tile loop sizes outer inner, id => by
    rw [run]
    refine (confined_tile loop sizes id).bind fun tiling => ?_
    refine Confined.bind (Confined.nested ?_) fun maps => confined_pure _
    refine (confined_runEach outer tiling.tile).bind fun outerMaps => ?_
    exact (confined_runEach inner id).bind fun innerMaps => confined_pure _

theorem confined_runEach : ∀ (ts : List Transformation) (id : ℕ), Confined (runEach ts id)
  | [], id => by
    rw [runEach]
    exact confined_pure []
  | t :: ts, id => by
    rw [runEach]
    refine (confined_modifyLayout _).bind fun _ => (confined_run t id).bind fun maps => ?_
    exact (confined_runEach ts id).bind fun rest => confined_pure _

end

end Transformation

namespace Schedule

open Schedule.Action Transformation

variable {s s' : Schedule} {e : Failure}

/-- Of a confined action that fails, nothing is left. -/
theorem Action.Confined.eq_of_undoing {α : Type} {x : Action α} (hx : Confined x)
    (h : undoing x s = .error e s') : s' = s := by
  obtain ⟨s₁, hs₁, rfl⟩ := undoing_eq_error.mp h
  have hs : SameRecord s s₁ := after_of_error hs₁ ▸ hx s
  exact hs.restore_checkpoint

theorem applyTo_error_unchanged {t : Transformation} {id : ℕ} (h : applyTo t id s = .error e s') :
    s' = s := by
  rcases bind_eq_error.mp h with hrun | ⟨maps, s₁, -, happend⟩
  · exact (confined_run t id).eq_of_undoing hrun
  · exact absurd happend modify_eq_error

theorem apply_error_unchanged {t : Transformation} (h : apply t s = .error e s') : s' = s := by
  unfold apply at h
  rw [get_bind] at h
  rcases bind_eq_error.mp h with hid | ⟨id, s₁, hid, happly⟩
  · exact require_eq_error hid
  · obtain ⟨-, rfl⟩ := require_eq_ok.mp hid
    exact applyTo_error_unchanged happly

/-- Applying a transformation, to a given subspace or to its own, either succeeds or leaves the
whole schedule as it was. -/
theorem eq_of_apply_error (t : Transformation) (s : Schedule) :
    (∀ id e s', applyTo t id s = .error e s' → s' = s) ∧
      ∀ e s', apply t s = .error e s' → s' = s := by
  constructor
  · intro id e s' h
    exact applyTo_error_unchanged h
  · intro e s' h
    exact apply_error_unchanged h

/-- A tile in a tile fails at an unknown loop after two subspaces were inserted and an iterator was
marked as parallel. -/
theorem eq_of_apply_error_nested :
    let nest : Nest := ⟨⟨[("0", "N"), ("0", "N")], ["N"]⟩, []⟩
    let s := make ⟨[nest, nest]⟩ "" "c"
    let small : Transformation := .tile 0 (.uniform "2") [] [.shift { loop := 7, extents := ["1"] }]
    let t : Transformation := .tile 0 (.uniform "8") [.parallel 0] [small]
    (∃ e s', t.run Layout.nest s = .error e s' ∧ s'.layout.order = [0, 2, 3, 1] ∧
      s'.parallel = [(2, 0)]) ∧ ∃ e, apply t s = .error e s := by
  intro nest s small t
  have hrun : ∃ e s', t.run Layout.nest s = .error e s' ∧ s'.layout.order = [0, 2, 3, 1] ∧
      s'.parallel = [(2, 0)] := by
    refine ⟨_, _, rfl, ?_, ?_⟩ <;> decide +kernel
  have herror : ∃ e s', apply t s = .error e s' := ⟨_, _, rfl⟩
  obtain ⟨e, s', h⟩ := herror
  refine ⟨hrun, e, ?_⟩
  rw [h, (eq_of_apply_error t s).2 e s' h]

end Schedule

end LoopSched
