import LoopSched.Proofs.Schedule.Coordinates
import LoopSched.Proofs.Schedule.Tilings
import Mathlib.Algebra.BigOperators.Group.List.Basic
import Mathlib.Algebra.Order.Ring.Int

/-!
# Schedules only grow

A transformation never takes coordinates away and never renames or reorders those that are there.
All it adds are the tile subspaces that its tilings could not find, so the number of coordinates
grows by the tiled dimensions and one constant for each of them.  The maps grow at their end.

The correction of the vector's length is left alone by transformations.  It is the sum of the
corrections that were accepted, and a correction is accepted only if it leaves no negative length;
so the length is never cut off at zero.
-/

namespace LoopSched

open Polyhedral

def Transformation.isTile : Transformation → Bool
  | .tile .. => true
  | _ => false

/-! ### Arrangements with subspaces put in -/

namespace Arrangement

/-- The numbers of the subspaces with the numbers of their variables. -/
def widths (v : Arrangement) : List (ℕ × ℕ) := v.map fun e => (e.1, e.2.vars.length)

/-- The second arrangement is the first with the given tile subspaces put in. -/
structure Extends (v w : Arrangement) (fresh : List TileUse) : Prop where
  sublist : v.Sublist w
  perm : w.widths.Perm (v.widths ++ fresh.map fun u => (u.tile, u.count))

theorem Extends.refl (v : Arrangement) : v.Extends v [] :=
  ⟨.refl v, by rw [List.map_nil, List.append_nil]⟩

theorem Extends.trans {v w x : Arrangement} {fresh fresh' : List TileUse}
    (h : v.Extends w fresh) (h' : w.Extends x fresh') : v.Extends x (fresh ++ fresh') := by
  refine ⟨h.sublist.trans h'.sublist, ?_⟩
  rw [List.map_append, ← List.append_assoc]
  exact h'.perm.trans (h.perm.append_right _)

/-- Transformations that tile nothing leave the arrangement as it is. -/
theorem Steps.eq_of_not_tile {width : ℕ} {v w : Arrangement} {ms : List UnionMap}
    (h : Steps (fun t => t.isTile = false) width v ms w) : w = v := by
  induction h with
  | nil => rfl
  | cons _ ht hstep _ ih =>
    cases hstep with
    | shift => exact ih
    | wavefront => exact ih
    | fusion => exact ih
    | tile => cases ht

end Arrangement

/-- The tilings whose tile subspace is new. -/
def TileUse.fresh (us : List TileUse) : List TileUse := us.filter (!·.reused)

theorem TileUse.fresh_append (us vs : List TileUse) :
    TileUse.fresh (us ++ vs) = TileUse.fresh us ++ TileUse.fresh vs := List.filter_append ..

namespace Transformation

open Schedule Schedule.Action Arrangement

variable {width : ℕ}

/-- A tiling adds its tile subspace if it was not there, and nothing else. -/
theorem extends_useOf {s : Schedule} {loop id : ℕ} {sizes : TileSizes} {v w : Arrangement}
    {g : Group} {tiling : Fragment.Tiling} (h : s.layout.Sound width v v [])
    (hw : w.Valid width) (hcovers : tiling.Covers s loop sizes id v w g) (depth : ℕ) :
    v.Extends w (TileUse.fresh [useOf depth id sizes s tiling.tile]) := by
  rcases hcovers.grown_cases h hw with ⟨rfl, hold⟩ | ⟨hnew, pre, post, rfl, rfl⟩
  · have hfresh : TileUse.fresh [useOf depth id sizes s tiling.tile] = [] := by
      simp [TileUse.fresh, useOf, hold]
    rw [hfresh]
    exact .refl w
  · have hfresh : TileUse.fresh [useOf depth id sizes s tiling.tile] =
        [useOf depth id sizes s tiling.tile] := by
      simp [TileUse.fresh, useOf, hnew]
    rw [hfresh]
    refine ⟨(List.sublist_cons_self _ post).append_left pre, ?_⟩
    rw [List.map_singleton, count_useOf h hcovers.target, ← hcovers.length_vars, widths,
      List.map_append, List.map_cons, widths, List.map_append]
    exact List.perm_middle.trans (List.perm_append_singleton _ _).symm

theorem extends_of_not_tile {t : Transformation} {id : ℕ} {s s' : Schedule} {maps : List UnionMap}
    {v : Arrangement} (ht : t.All fun t => t.isTile = false)
    (h : s.layout.Sound width v v []) (hrun : t.run id s = .ok maps s') :
    v.Extends s'.layout.arrangement [] := by
  obtain ⟨_, w, _, hsound, hsteps⟩ := run_steps t ht h hrun
  have hw : s'.layout.arrangement = w := hsound.far_eq
  rw [hw, hsteps.eq_of_not_tile]
  exact .refl v

mutual

/-- A transformation adds the tile subspaces that its tilings did not find. -/
theorem run_extends : ∀ (t : Transformation) (depth : ℕ) {id : ℕ} {s s' : Schedule}
    {maps : List UnionMap} {v : Arrangement}, s.layout.Sound width v v [] →
      t.run id s = .ok maps s' →
        v.Extends s'.layout.arrangement (TileUse.fresh (t.uses depth id s))
  | .tile loop sizes outer inner, depth, id, s, s', maps, v, h, hrun => by
    obtain ⟨tiling, s₁, outerMaps, s₂, innerMaps, s₃, htile, houter, hinner, -, rfl⟩ :=
      run_tile_eq_ok hrun
    obtain ⟨w, g, hsound, hcovers⟩ := Fragment.tile_eq_ok h htile
    obtain ⟨_, w₁, _, hsound₁, -⟩ :=
      runEach_steps outer (allOf_of_forall (P := fun _ => True) (fun _ => trivial) outer)
        (s := s₁.deeper) hsound houter
    have hfirst := extends_useOf h hsound.valid hcovers depth
    have hsecond := runEach_extends outer (depth + 1) (s := s₁.deeper) hsound houter
    have hthird := runEach_extends inner (depth + 1) hsound₁ hinner
    have hmid : s₂.layout.arrangement = w₁ := hsound₁.far_eq
    rw [hmid] at hsecond
    have huses : uses depth (.tile loop sizes outer inner) id s =
        [useOf depth id sizes s tiling.tile] ++ (usesEach (depth + 1) outer tiling.tile s₁.deeper ++
          usesEach (depth + 1) inner id s₂) := by
      simp only [uses, htile, after_of_ok houter, List.singleton_append]
    rw [huses, TileUse.fresh_append, TileUse.fresh_append]
    exact hfirst.trans (hsecond.trans hthird)
  | .identity, _, _, _, _, _, _, h, hrun => extends_of_not_tile (t := .identity) rfl h hrun
  | .shift sh, _, _, _, _, _, _, h, hrun => extends_of_not_tile (t := .shift sh) rfl h hrun
  | .fusion loops, _, _, _, _, _, _, h, hrun => extends_of_not_tile (t := .fusion loops) rfl h hrun
  | .wavefront, _, _, _, _, _, _, h, hrun => extends_of_not_tile (t := .wavefront) rfl h hrun
  | .parallel extra, _, _, _, _, _, _, h, hrun =>
    extends_of_not_tile (t := .parallel extra) rfl h hrun
  | .automaticShift zero limit, _, _, _, _, _, _, h, hrun =>
    extends_of_not_tile (t := .automaticShift zero limit) rfl h hrun

theorem runEach_extends : ∀ (ts : List Transformation) (depth : ℕ) {id : ℕ} {s s' : Schedule}
    {maps : List UnionMap} {near v : Arrangement} {ids : List ℕ},
      s.layout.Sound width near v ids → runEach ts id s = .ok maps s' →
        v.Extends s'.layout.arrangement (TileUse.fresh (usesEach depth ts id s))
  | [], _, _, s, s', _, _, v, _, h, hrun => by
    rw [runEach] at hrun
    obtain ⟨-, rfl⟩ := pure_eq_ok.mp hrun
    have hv : s.layout.arrangement = v := h.far_eq
    rw [hv]
    exact .refl v
  | t :: ts, depth, id, s, s', maps, near, v, ids, h, hrun => by
    obtain ⟨first, s₁, rest, hfirst, hrest, -⟩ := runEach_cons_eq_ok hrun
    obtain ⟨_, w, _, hsound, -⟩ :=
      run_steps t (all_of_forall (P := fun _ => True) (fun _ => trivial) t) h.nextStage hfirst
    have hhead := run_extends t depth (s := s.withLayout s.layout.nextStage) h.nextStage hfirst
    have hmid : s₁.layout.arrangement = w := hsound.far_eq
    rw [hmid] at hhead
    have huses : usesEach depth (t :: ts) id s =
        uses depth t id (s.withLayout s.layout.nextStage) ++ usesEach depth ts id s₁ := by
      simp only [usesEach, after_of_ok hfirst]
    rw [huses, TileUse.fresh_append]
    exact hhead.trans (runEach_extends ts depth hsound hrest)

end

end Transformation

/-! ### Coordinates of a layout -/

theorem total_perm {ms ns : List ℕ} (h : ms.Perm ns) : total ms = total ns := by
  induction h with
  | nil => rfl
  | cons n _ ih => rw [total_cons, total_cons, ih]
  | swap m n ns =>
    simp only [total_cons]
    omega
  | trans _ _ ih ih' => rw [ih, ih']

namespace Layout

open Arrangement

theorem order_eq {l : Layout} (h : l.Placed) : l.order = l.arrangement.widths.map Prod.fst := by
  rw [← ids_entries h, arrangement, widths, List.map_map, List.map_map]
  rfl

/-- A subspace has its variables and one constant. -/
theorem size_eq_widths (l : Layout) :
    l.size = total (l.arrangement.widths.map fun e => e.2 + 1) := by
  rw [size_eq, arrangement, widths, List.map_map, List.map_map]
  rfl

end Layout

namespace Schedule

open Schedule.Action Transformation

/-! ### Applying a transformation -/

/-- The schedule has got the given tile subspaces and some maps at the end, and is the same
otherwise. -/
structure GrownBy (s s' : Schedule) (fresh : List TileUse) : Prop where
  chain : s'.chain = s.chain
  statementPrefix : s'.statementPrefix = s.statementPrefix
  iteratorPrefix : s'.iteratorPrefix = s.iteratorPrefix
  domains : s'.domains = s.domains
  depth : s'.depth = s.depth
  lengthDelta : s'.lengthDelta = s.lengthDelta
  maps : s.maps <+: s'.maps
  find : ∀ id sub, s.layout.find id = .ok sub →
    ∃ sub', s'.layout.find id = .ok sub' ∧ sub'.vars = sub.vars ∧ sub'.constant = sub.constant
  order : s.layout.order.Sublist s'.layout.order
  distinct : s'.layout.order.Nodup
  unaliased : ∀ sub ∈ s'.layout.arena, sub.aliased = false
  inserted : s'.layout.order.Perm (s.layout.order ++ fresh.map (·.tile))
  size : s'.layout.size = s.layout.size + total (fresh.map (·.count + 1))

variable {width : ℕ} {s s' : Schedule} {v : Arrangement}

theorem applyTo_grownBy (h : s.layout.Sound width v v []) {t : Transformation} {id : ℕ} {u : Unit}
    (hrun : applyTo t id s = .ok u s') :
    GrownBy s s' (TileUse.fresh (t.uses s.depth id s)) := by
  have hevolved := applyTo_evolved hrun
  obtain ⟨maps, s₁, hmaps, rfl⟩ := applyTo_eq_ok.mp hrun
  have hrecord : SameRecord s s₁ := after_of_ok hmaps ▸ confined_run t id s
  obtain ⟨_, w, _, hsound, -⟩ :=
    run_steps t (all_of_forall (P := fun _ => True) (fun _ => trivial) t) h hmaps
  have hextends := run_extends t s.depth h hmaps
  have hnext := hsound.nextStage
  have hv : s.layout.arrangement = v := h.far_eq
  have hw : s₁.layout.arrangement = w := hsound.far_eq
  have hw' : s₁.layout.nextStage.arrangement = w := hnext.far_eq
  rw [hw] at hextends
  refine
    { chain := hrecord.chain
      statementPrefix := hrecord.statementPrefix
      iteratorPrefix := hrecord.iteratorPrefix
      domains := hrecord.domains
      depth := hevolved.depth
      lengthDelta := hevolved.lengthDelta
      maps := ⟨maps, by rw [hrecord.maps]⟩
      find := fun i sub hsub => ?_
      order := ?_
      distinct := hnext.ids_eq ▸ hnext.valid.ids_nodup
      unaliased := fun sub hsub => ?_
      inserted := ?_
      size := ?_ }
  · obtain ⟨sub', hsub', hgroup⟩ := hnext.find_of_mem (hextends.sublist.mem (h.tag_mem hsub))
    exact ⟨sub', hsub', congrArg Group.vars hgroup, congrArg Group.constant hgroup⟩
  · rw [← h.ids_eq, ← hnext.ids_eq]
    exact hextends.sublist.map Prod.fst
  · obtain ⟨sub₁, -, rfl⟩ := List.mem_map.mp hsub
    rfl
  · have hperm := hextends.perm.map Prod.fst
    rw [← hw', ← hv, List.map_append, List.map_map, ← Layout.order_eq h.placed,
      ← Layout.order_eq hnext.placed] at hperm
    exact hperm
  · have hperm := total_perm (hextends.perm.map fun e => e.2 + 1)
    rw [← hw', ← hv, List.map_append, List.map_map, total_append, ← Layout.size_eq_widths,
      ← Layout.size_eq_widths] at hperm
    exact hperm

/-! ### The length of the vector -/

/-- The correction of the length that an operation makes, if it is one and is accepted. -/
def Operation.corrections (s : Schedule) : Operation → List ℤ
  | .modifyLength delta =>
    if ((Schedule.modifyLength delta).result? s).isSome then [delta] else []
  | _ => []

/-- The corrections of the length that are accepted in a run. -/
def corrections (s : Schedule) : List Operation → List ℤ
  | [] => []
  | op :: ops => op.corrections s ++ corrections (op.act s) ops

theorem modifyLength_eq_error {delta : ℤ} {e : Failure} (h : modifyLength delta s = .error e s') :
    s' = s := by
  unfold modifyLength at h
  dsimp only at h
  split_ifs at h <;> cases h <;> rfl

theorem modifyLength_eq_ok {delta : ℤ} {n : ℕ} (h : modifyLength delta s = .ok n s') :
    0 ≤ s.layout.size + s.lengthDelta + delta ∧
      s' = { s with lengthDelta := s.lengthDelta + delta } := by
  unfold modifyLength at h
  dsimp only at h
  split_ifs at h with hfits hneg
  cases h
  exact ⟨not_lt.mp hneg, rfl⟩

/-- The correction of the length is the sum of those that were accepted, and the length that it
gives is not negative. -/
structure Measured (s : Schedule) (sum : ℤ) : Prop where
  lengthDelta : s.lengthDelta = sum
  nonneg : 0 ≤ s.layout.size + s.lengthDelta

section Run

variable {c : Chain} {statementPrefix : String} {sum : ℤ}

/-- Transformations do not correct the length. -/
theorem Measured.applyTo (hsound : s.layout.Sound width v v []) (h : s.Measured sum)
    {t : Transformation} {id : ℕ} {u : Unit} (hrun : applyTo t id s = .ok u s') :
    s'.Measured sum := by
  have hgrown := applyTo_grownBy hsound hrun
  have hsize := hgrown.size
  have hnonneg := h.nonneg
  refine ⟨hgrown.lengthDelta.trans h.lengthDelta, ?_⟩
  rw [hgrown.lengthDelta]
  omega

theorem Measured.modifyLength (h : s.Measured sum) (delta : ℤ) :
    ((modifyLength delta).after s).Measured
      (sum + ((Operation.modifyLength delta).corrections s).sum) := by
  show Measured _ (sum +
    (if ((Schedule.modifyLength delta).result? s).isSome then [delta] else []).sum)
  cases hrun : Schedule.modifyLength delta s with
  | ok n s' =>
    have hresult : (Schedule.modifyLength delta).result? s = some n :=
      result?_eq_some.mpr ⟨s', hrun⟩
    obtain ⟨hnonneg, rfl⟩ := modifyLength_eq_ok hrun
    rw [hresult, after_of_ok hrun, Option.isSome_some, if_pos rfl, List.sum_singleton,
      ← h.lengthDelta]
    exact ⟨rfl, hnonneg.trans_eq (add_assoc _ _ _)⟩
  | error e s' =>
    have hresult : (Schedule.modifyLength delta).result? s = none := by rw [result?, hrun]
    rw [hresult, after_of_error hrun, modifyLength_eq_error hrun, Option.isSome_none,
      if_neg Bool.false_ne_true, List.sum_nil, add_zero]
    exact h

theorem Measured.act (htraced : Traced (fun _ => True) c statementPrefix s v) (h : s.Measured sum)
    (op : Operation) : (op.act s).Measured (sum + (op.corrections s).sum) := by
  have hkeep : ∀ {t id u s s'}, Schedule.applyTo t id s = .ok u s' →
      (∃ v, Traced (fun _ => True) c statementPrefix s v ∧ s.Measured sum) →
        ∃ v, Traced (fun _ => True) c statementPrefix s' v ∧ s'.Measured sum := by
    rintro t id u s s' hrun ⟨v, htraced, h⟩
    obtain ⟨w, hw⟩ := htraced.applyTo (all_of_forall (fun _ => trivial) t) hrun
    exact ⟨w, hw, h.applyTo htraced.sound hrun⟩
  have hnone : ∀ {s' : Schedule}, s'.Measured sum → s'.Measured (sum + ([] : List ℤ).sum) := by
    intro s' h
    rwa [List.sum_nil, add_zero]
  cases op with
  | apply t =>
    obtain ⟨w, -, h⟩ := apply_keeps hkeep ⟨v, htraced, h⟩
    exact hnone h
  | applyTo t id =>
    obtain ⟨w, -, h⟩ := applyTo_keeps hkeep ⟨v, htraced, h⟩
    exact hnone h
  | applyAll ts =>
    obtain ⟨w, -, h⟩ := applyAll_keeps hkeep ts ⟨v, htraced, h⟩
    exact hnone h
  | deeper => exact hnone ⟨h.lengthDelta, h.nonneg⟩
  | shallower => exact hnone ⟨h.lengthDelta, h.nonneg⟩
  | addParallel id extra => exact hnone ⟨h.lengthDelta, h.nonneg⟩
  | modifyLength delta => exact h.modifyLength delta

/-- After any run the correction is the sum of those that were accepted on the way. -/
theorem Measured.perform {s : Schedule} {v : Arrangement} {sum : ℤ}
    (htraced : Traced (fun _ => True) c statementPrefix s v) (h : s.Measured sum)
    (ops : List Operation) : (s.perform ops).Measured (sum + (s.corrections ops).sum) := by
  induction ops generalizing s v sum with
  | nil =>
    rw [corrections, List.sum_nil, add_zero]
    exact h
  | cons op ops ih =>
    obtain ⟨w, hw⟩ := htraced.act (op.all_of_forall fun _ => trivial)
    rw [corrections, List.sum_append, ← add_assoc]
    exact ih hw (h.act htraced op)

theorem measured_make (c : Chain) (statementPrefix iteratorPrefix : String) :
    (make c statementPrefix iteratorPrefix).Measured 0 :=
  ⟨rfl, by rw [show (make c statementPrefix iteratorPrefix).lengthDelta = 0 from rfl]; omega⟩

/-- The length is not cut off at zero. -/
theorem Measured.length? (h : s.Measured sum) (hfits : Word.Fits (s.layout.size + sum)) :
    ∃ n : ℕ, s.length? = some n ∧ (n : ℤ) = s.layout.size + sum := by
  have hnonneg := h.nonneg
  rw [h.lengthDelta] at hnonneg
  refine ⟨(s.layout.size + sum).toNat, ?_, Int.toNat_of_nonneg hnonneg⟩
  rw [Schedule.length?, h.lengthDelta, Word.fit?_eq_some.mpr ⟨hfits, rfl⟩]
  rfl

end Run

/-- Whatever was done to a schedule, a transformation that succeeds only makes it grow, by the tile
subspaces it did not find.  The length of the vector is the number of coordinates and the sum of the
accepted corrections, and a correction that is refused changes nothing. -/
theorem perform_only_grows (c : Chain) (statementPrefix iteratorPrefix : String)
    (ops : List Operation) :
    let s₀ := make c statementPrefix iteratorPrefix
    let s := s₀.perform ops
    (∀ t id s', applyTo t id s = .ok () s' →
      s.GrownBy s' ((t.uses s.depth id s).filter (!·.reused))) ∧
    (0 ≤ s.layout.size + (s₀.corrections ops).sum ∧
      (Word.Fits (s.layout.size + (s₀.corrections ops).sum) →
        ∃ n : ℕ, s.length? = some n ∧ (n : ℤ) = s.layout.size + (s₀.corrections ops).sum)) ∧
    ∀ delta e s', modifyLength delta s = .error e s' → s' = s := by
  intro s₀ s
  have hstart := traced_make (fun _ => True) c statementPrefix iteratorPrefix
  obtain ⟨v, htraced⟩ := traced_perform c statementPrefix iteratorPrefix ops
  have hmeasured : s.Measured (s₀.corrections ops).sum := by
    have h := (measured_make c statementPrefix iteratorPrefix).perform hstart ops
    rwa [zero_add] at h
  refine ⟨fun t id s' hrun => applyTo_grownBy htraced.sound hrun, ⟨?_, hmeasured.length?⟩,
    fun delta e s' h => modifyLength_eq_error h⟩
  have hnonneg := hmeasured.nonneg
  rwa [hmeasured.lengthDelta] at hnonneg

/-- Two corrections are refused and one is accepted.  The second nest shares the tile coordinates of
the first, and only the tiling within adds coordinates. -/
theorem perform_only_grows_nested :
    let nest : Nest := ⟨⟨[("0", "N"), ("0", "N")], ["N"]⟩, []⟩
    let ops : List Operation := [.apply (.tile 0 (.uniform "8") [] []), .modifyLength (-9),
      .modifyLength 4, .modifyLength (-100)]
    let s := (make ⟨[nest, nest]⟩ "" "c").perform ops
    s.length? = some 11 ∧ ∃ s', applyTo
        (.tile 1 (.uniform "8") [] [.tile 1 (.uniform "2") [] []]) Layout.nest s = .ok () s' ∧
      s.GrownBy s' [⟨1, 1, 2, 3, false, 1⟩] ∧ s.layout.size = 7 ∧ s'.layout.size = 10 := by
  intro nest ops s
  let t : Transformation := .tile 1 (.uniform "8") [] [.tile 1 (.uniform "2") [] []]
  have hsum : ((make ⟨[nest, nest]⟩ "" "c").corrections ops).sum = 4 := by decide +kernel
  have hsize : s.layout.size = 7 := by decide +kernel
  have huses : (t.uses s.depth Layout.nest s).filter (!·.reused) = [⟨1, 1, 2, 3, false, 1⟩] := by
    decide +kernel
  obtain ⟨s', hrun⟩ : ∃ s', applyTo t Layout.nest s = .ok () s' := by decide +kernel
  obtain ⟨hgrows, ⟨-, hlength⟩, -⟩ := perform_only_grows ⟨[nest, nest]⟩ "" "c" ops
  rw [hsum] at hlength
  have hgrown := hgrows t Layout.nest s' hrun
  rw [huses] at hgrown
  refine ⟨?_, s', hrun, hgrown, hsize, by rw [hgrown.size, hsize]; rfl⟩
  have hlayout : ((make ⟨[nest, nest]⟩ "" "c").perform ops).layout.size = 7 := hsize
  rw [hlayout] at hlength
  obtain ⟨n, hn, hval⟩ := hlength (by decide)
  have hn11 : n = 11 := by omega
  rw [← hn11]
  exact hn

end Schedule

end LoopSched
