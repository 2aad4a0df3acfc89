import LoopSched.Proofs.Schedule.Evolution

/-!
# Which tilings share their tile coordinates

A tiling looks for tile coordinates by the stem that belongs to its depth.  If there are none, it
makes new ones with the next stem that was not handed out, whatever its depth.  Names tell subspaces
apart, so two tilings of a run share their tile coordinates if and only if they tile the same number
of dimensions of the same subspace and their stems agree.

Stem and depth go together as long as every new tile subspace is made inside as many tilings as
stems were handed out before.  Otherwise a second tiling at the same depth does not find the
coordinates of the first, and a tiling within another may take the coordinates of the outer one.
-/

namespace LoopSched

open Polyhedral LoopSched.Subspace Arrangement

/-- A tiling in a run. -/
structure TileUse where
  /-- The subspace that is tiled. -/
  target : ℕ
  /-- How many tilings there are around it. -/
  depth : ℕ
  /-- How many dimensions are tiled. -/
  count : ℕ
  /-- The tile subspace. -/
  tile : ℕ
  /-- The tile subspace was there before. -/
  reused : Bool
  /-- How many stems were handed out before. -/
  taken : ℕ
deriving DecidableEq, Repr

namespace TileUse

/-- The stem of the tile subspace, counted from zero. -/
def stem (u : TileUse) : ℕ := if u.reused then u.depth else u.taken

/-- A new tile subspace is made inside as many tilings as stems were handed out. -/
def InStep (u : TileUse) : Prop := u.reused = false → u.taken = u.depth

theorem InStep.stem_eq {u : TileUse} (h : u.InStep) : u.stem = u.depth := by
  unfold stem
  cases hr : u.reused with
  | true => rfl
  | false => exact h hr

end TileUse

/-! ### The tilings of a run -/

namespace Transformation

open Schedule Schedule.Action

/-- The tiling of a subspace with its tile subspace. -/
def useOf (depth id : ℕ) (sizes : TileSizes) (s : Schedule) (tile : ℕ) : TileUse where
  target := id
  depth := depth
  count := ((s.layout.get? id).map fun target => sizes.covered target.size).getD 0
  tile := tile
  reused := decide (tile ∈ s.layout.order)
  taken := s.layout.taken

mutual

/-- The tilings that a transformation makes, in order, when there are `depth` tilings around it. -/
def uses (depth : ℕ) : Transformation → ℕ → Schedule → List TileUse
  | .tile loop sizes outer inner, id, s =>
    match Fragment.tile loop sizes id s with
    | .error _ _ => []
    | .ok tiling s₁ =>
      useOf depth id sizes s tiling.tile ::
        (usesEach (depth + 1) outer tiling.tile s₁.deeper ++
          usesEach (depth + 1) inner id ((runEach outer tiling.tile).after s₁.deeper))
  | .identity, _, _ => []
  | .shift _, _, _ => []
  | .fusion _, _, _ => []
  | .wavefront, _, _ => []
  | .parallel _, _, _ => []
  | .automaticShift _ _, _, _ => []

def usesEach (depth : ℕ) : List Transformation → ℕ → Schedule → List TileUse
  | [], _, _ => []
  | t :: ts, id, s =>
    let s := s.withLayout s.layout.nextStage
    uses depth t id s ++ usesEach depth ts id ((t.run id).after s)

end

end Transformation

namespace Schedule

/-- A transformation and the subspace it is for, its default one if none is named. -/
structure Application where
  transformation : Transformation
  target? : Option ℕ := none

namespace Application

def act (a : Application) : Action Unit :=
  match a.target? with
  | some id => applyTo a.transformation id
  | none => apply a.transformation

def uses (a : Application) (s : Schedule) : List TileUse :=
  match a.target? with
  | some id => a.transformation.uses 0 id s
  | none =>
    match a.transformation.defaultTarget s with
    | .ok id => a.transformation.uses 0 id s
    | .error _ => []

end Application

/-- Whether a run is accepted can be computed. -/
instance decidableAccepted (x : Action Unit) (s : Schedule) : Decidable (∃ s', x s = .ok () s') :=
  match x s with
  | .ok () s' => isTrue ⟨s', rfl⟩
  | .error _ _ => isFalse fun ⟨_, hok⟩ => nomatch hok

/-- The tilings of several applications, in order. -/
def usesOf : List Application → Schedule → List TileUse
  | [], _ => []
  | a :: as, s => a.uses s ++ usesOf as (a.act.after s)

end Schedule

/-! ### What is left of a tiling -/

namespace Arrangement

theorem Step.mem {t : Transformation} {v w : Arrangement} {m : UnionMap} {e : ℕ × Group}
    (h : Step t v m w) (he : e ∈ v) : e ∈ w := by
  cases h with
  | shift => exact he
  | wavefront => exact he
  | fusion => exact he
  | tile _ _ _ _ htiled =>
    obtain ⟨tile, -, hgrown⟩ := htiled.grown
    exact hgrown.mem he

/-- Groups stay where they are once they are there. -/
theorem Steps.mem {P : Transformation → Prop} {width : ℕ} {v w : Arrangement} {ms : List UnionMap}
    {e : ℕ × Group} (h : Steps P width v ms w) (he : e ∈ v) : e ∈ w := by
  induction h with
  | nil => exact he
  | cons _ _ hstep _ ih => exact ih (hstep.mem he)

/-- The tiled subspace and the tile subspace are there, and the names of the second are made from
those of the first. -/
def Recorded (w : Arrangement) (u : TileUse) : Prop :=
  ∃ g, (u.target, g) ∈ w ∧ u.count ≤ g.vars.length ∧
    (u.tile, g.tiles (Layout.repeated "t" (u.stem + 1)) u.count) ∈ w

theorem Recorded.mono {v w : Arrangement} {u : TileUse} (h : Recorded v u)
    (hsub : ∀ e ∈ v, e ∈ w) : Recorded w u := by
  obtain ⟨g, htarget, hcount, htile⟩ := h
  exact ⟨g, hsub _ htarget, hcount, hsub _ htile⟩

/-- Names of tile coordinates with equal constants have the same stem and the same target. -/
theorem constant_tiles_inj {g h : Group} {j k m n : ℕ}
    (heq : (g.tiles (Layout.repeated "t" j) m).constant =
      (h.tiles (Layout.repeated "t" k) n).constant) : j = k ∧ g.constant = h.constant := by
  have heq : tileName (Layout.repeated "t" j) g.constant =
      tileName (Layout.repeated "t" k) h.constant := heq
  have hstem : j = k := by
    rw [← lead_tileName j g.constant, heq, lead_tileName]
  subst hstem
  exact ⟨rfl, tileName_injective _ heq⟩

/-- In one arrangement, the tile subspaces of two tilings are the same exactly if the tilings cover
the same dimensions of the same subspace with the same stem. -/
theorem Recorded.tile_eq_iff {width : ℕ} {w : Arrangement} (hw : w.Valid width) {a b : TileUse}
    (ha : Recorded w a) (hb : Recorded w b) :
    a.tile = b.tile ↔ a.target = b.target ∧ a.count = b.count ∧ a.stem = b.stem := by
  obtain ⟨g, hg, hga, hgtile⟩ := ha
  obtain ⟨h, hh, hhb, hhtile⟩ := hb
  constructor
  · intro heq
    rw [heq] at hgtile
    have hgroup := hw.group_eq hgtile hhtile
    obtain ⟨hstem, hconstant⟩ := constant_tiles_inj (congrArg Group.constant hgroup)
    refine ⟨?_, ?_, Nat.succ.inj hstem⟩
    · exact hw.id_eq hg hh g.constant_mem_names (hconstant ▸ h.constant_mem_names)
    · have hlength := congrArg (fun k : Group => k.vars.length) hgroup
      simpa [Group.tiles, Nat.min_eq_left hga, Nat.min_eq_left hhb] using hlength
  · rintro ⟨htarget, hcount, hstem⟩
    rw [htarget] at hg
    obtain rfl := hw.group_eq hg hh
    rw [hcount, hstem] at hgtile
    exact hw.id_eq hgtile hhtile (Group.constant_mem_names _) (Group.constant_mem_names _)

end Arrangement

/-- All groups of a layout with their numbers. -/
def Layout.arrangement (l : Layout) : Arrangement := l.entries.map Layout.tag

namespace Transformation

open Schedule Schedule.Action

variable {width depth : ℕ}

/-- The number of tiled dimensions is read off the target, which has the names of `g`. -/
theorem count_useOf {s : Schedule} {id : ℕ} {v : Arrangement} {g : Group}
    (h : s.layout.Sound width v v []) (hg : (id, g) ∈ v) (depth : ℕ) (sizes : TileSizes)
    (tile : ℕ) : (useOf depth id sizes s tile).count = sizes.covered g.vars.length := by
  obtain ⟨sub, hsub, rfl⟩ := h.find_of_mem hg
  have hget : s.layout.get? id = some sub := (Layout.mem_entries.mp (Layout.find_eq_ok.mp hsub)).2
  rw [useOf, hget]
  rfl

theorem recorded_useOf {s : Schedule} {id : ℕ} {sizes : TileSizes} {v w : Arrangement} {tile : ℕ}
    (h : s.layout.Sound width v v []) (hdepth : s.depth = depth)
    (hnamed : Fragment.Named s id sizes v w tile) : Recorded w (useOf depth id sizes s tile) := by
  obtain ⟨g, hg, hcount, hmem, htile⟩ := hnamed
  have hcovered := count_useOf h hg depth sizes tile
  have hstem : (useOf depth id sizes s tile).stem = s.stemOf tile := by
    unfold TileUse.stem stemOf useOf
    simp only [decide_eq_true_eq, hdepth]
  refine ⟨g, hmem, ?_, ?_⟩
  · rwa [hcovered]
  · rwa [hcovered, hstem]

mutual

/-- Every tiling of a transformation is still to be seen when it is done. -/
theorem run_recorded : ∀ (t : Transformation) {depth id : ℕ} {s s' : Schedule}
    {maps : List UnionMap} {v : Arrangement}, s.layout.Sound width v v [] → s.depth = depth →
      t.run id s = .ok maps s' → ∀ u ∈ t.uses depth id s, Recorded s'.layout.arrangement u
  | .tile loop sizes outer inner, depth, id, s, s', maps, v, h, hdepth, hrun => by
    obtain ⟨tiling, s₁, outerMaps, s₂, innerMaps, s₃, htile, houter, hinner, -, rfl⟩ :=
      run_tile_eq_ok hrun
    have hall : ∀ ts, AllOf (fun _ => True) ts := allOf_of_forall fun _ => trivial
    obtain ⟨w, hsound, -, hnamed⟩ := Fragment.tile_step h outer inner htile
    obtain ⟨_, w₁, _, hsound₁, hsteps₁⟩ :=
      runEach_steps outer (hall outer) (s := s₁.deeper) hsound houter
    obtain ⟨_, w₂, _, hsound₂, hsteps₂⟩ := runEach_steps inner (hall inner) hsound₁ hinner
    have hdeeper : s₁.deeper.depth = depth + 1 := by
      have := ((Fragment.reshapes_tile loop sizes id).evolved htile).depth
      show s₁.depth + 1 = depth + 1
      omega
    have hdeeper₁ : s₂.depth = depth + 1 := (runEach_evolved outer houter).depth.trans hdeeper
    intro u hu
    simp only [uses, htile, List.mem_cons, List.mem_append] at hu
    rw [after_of_ok houter] at hu
    show Recorded s₃.layout.arrangement u
    -- what the tiling itself and the outer transformations leave is kept by those that follow
    have hfinal : s₃.layout.arrangement = w₂ := hsound₂.far_eq
    rcases hu with rfl | hu | hu
    · rw [hfinal]
      exact (recorded_useOf h hdepth hnamed).mono fun e he => hsteps₂.mem (hsteps₁.mem he)
    · have hrec := runEach_recorded outer (s := s₁.deeper) hsound hdeeper houter u hu
      have hmid : s₂.layout.arrangement = w₁ := hsound₁.far_eq
      rw [hmid] at hrec
      rw [hfinal]
      exact hrec.mono fun e he => hsteps₂.mem he
    · exact runEach_recorded inner hsound₁ hdeeper₁ hinner u hu
  | .identity, _, _, _, _, _, _, _, _, _ => fun u hu => by simp [uses] at hu
  | .shift _, _, _, _, _, _, _, _, _, _ => fun u hu => by simp [uses] at hu
  | .fusion _, _, _, _, _, _, _, _, _, _ => fun u hu => by simp [uses] at hu
  | .wavefront, _, _, _, _, _, _, _, _, _ => fun u hu => by simp [uses] at hu
  | .parallel _, _, _, _, _, _, _, _, _, _ => fun u hu => by simp [uses] at hu
  | .automaticShift _ _, _, _, _, _, _, _, _, _, _ => fun u hu => by simp [uses] at hu

theorem runEach_recorded : ∀ (ts : List Transformation) {depth id : ℕ} {s s' : Schedule}
    {maps : List UnionMap} {near v : Arrangement} {ids : List ℕ},
      s.layout.Sound width near v ids → s.depth = depth → runEach ts id s = .ok maps s' →
        ∀ u ∈ usesEach depth ts id s, Recorded s'.layout.arrangement u
  | [], _, _, _, _, _, _, _, _, _, _, _ => fun u hu => by simp [usesEach] at hu
  | t :: ts, depth, id, s, s', maps, near, v, ids, h, hdepth, hrun => by
    obtain ⟨first, s₁, rest, hfirst, hrest, -⟩ := runEach_cons_eq_ok hrun
    have hall : ∀ t, All (fun _ => True) t := all_of_forall fun _ => trivial
    have halls : ∀ ts, AllOf (fun _ => True) ts := allOf_of_forall fun _ => trivial
    obtain ⟨_, w, _, hsound, -⟩ := run_steps t (hall t) h.nextStage hfirst
    obtain ⟨_, x, _, hsound', hsteps⟩ := runEach_steps ts (halls ts) hsound hrest
    have hdepth₁ : s₁.depth = depth := (run_evolved t hfirst).depth.trans hdepth
    intro u hu
    simp only [usesEach, List.mem_append] at hu
    rw [after_of_ok hfirst] at hu
    rcases hu with hu | hu
    · have hrec := run_recorded t (s := s.withLayout s.layout.nextStage) h.nextStage hdepth hfirst
        u hu
      have hmid : s₁.layout.arrangement = w := hsound.far_eq
      have hfinal : s'.layout.arrangement = x := hsound'.far_eq
      rw [hmid] at hrec
      rw [hfinal]
      exact hrec.mono fun e he => hsteps.mem he
    · exact runEach_recorded ts hsound hdepth₁ hrest u hu

end

end Transformation

namespace Schedule

open Schedule.Action Transformation

variable {width : ℕ} {s s' : Schedule} {v : Arrangement}

/-- What an application keeps, and what it leaves of its tilings. -/
theorem applyTo_recorded (h : s.layout.Sound width v v []) (hdepth : s.depth = 0)
    {t : Transformation} {id : ℕ} {u : Unit} (hrun : applyTo t id s = .ok u s') :
    ∃ w, s'.layout.Sound width w w [] ∧ s'.depth = 0 ∧ (∀ e ∈ v, e ∈ w) ∧
      ∀ u ∈ t.uses 0 id s, Recorded w u := by
  have hdepth' : s'.depth = 0 := (applyTo_evolved hrun).depth.trans hdepth
  obtain ⟨maps, s₁, hmaps, rfl⟩ := applyTo_eq_ok.mp hrun
  obtain ⟨_, w, _, hsound, hsteps⟩ :=
    run_steps t (all_of_forall (P := fun _ => True) (fun _ => trivial) t) h hmaps
  refine ⟨w, hsound.nextStage, hdepth', fun e he => hsteps.mem he, fun u hu => ?_⟩
  have hfinal : s₁.layout.arrangement = w := hsound.far_eq
  rw [← hfinal]
  exact run_recorded t h hdepth hmaps u hu

theorem Application.act_eq_ok {a : Application} {u : Unit} (h : a.act s = .ok u s') :
    ∃ id, applyTo a.transformation id s = .ok u s' ∧ a.uses s = a.transformation.uses 0 id s := by
  obtain ⟨t, target?⟩ := a
  cases target? with
  | some id => exact ⟨id, h, rfl⟩
  | none =>
    have h : apply t s = .ok u s' := h
    obtain ⟨id, htarget, h⟩ := apply_eq_ok h
    refine ⟨id, h, ?_⟩
    simp only [Application.uses, htarget]

/-- After a run of accepted applications all its tilings are to be seen in one arrangement. -/
theorem usesOf_recorded : ∀ {as : List Application} {s : Schedule} {v : Arrangement} {u : PUnit},
    s.layout.Sound width v v [] → s.depth = 0 → as.forM Application.act s = .ok u s' →
      ∃ w, w.Valid width ∧ (∀ e ∈ v, e ∈ w) ∧ ∀ u ∈ usesOf as s, Recorded w u
  | [], s, v, _, h, _, _ => ⟨v, h.valid, fun _ he => he, fun _ hu => absurd hu List.not_mem_nil⟩
  | a :: as, s, v, _, h, hdepth, hrun => by
    obtain ⟨_, s₁, hfirst, hrest⟩ := bind_eq_ok.mp hrun
    obtain ⟨id, happly, huses⟩ := Application.act_eq_ok hfirst
    obtain ⟨w, hsound, hdepth₁, hsub, hrec⟩ := applyTo_recorded h hdepth happly
    obtain ⟨x, hvalid, hsub', hrec'⟩ := usesOf_recorded hsound hdepth₁ hrest
    refine ⟨x, hvalid, fun e he => hsub' e (hsub e he), fun u hu => ?_⟩
    rw [usesOf, List.mem_append, huses, after_of_ok hfirst] at hu
    rcases hu with hu | hu
    · exact (hrec u hu).mono hsub'
    · exact hrec' u hu

/-- Two tilings of a run share their tile subspace exactly if they tile the same number of
dimensions of the same subspace and their stems agree.  If both are in step, the stems agree exactly
if the depths do. -/
theorem sharedTile_iff (c : Chain) (statementPrefix iteratorPrefix : String)
    {as : List Application} {u : PUnit}
    (h : as.forM Application.act (make c statementPrefix iteratorPrefix) = .ok u s')
    {a b : TileUse} (ha : a ∈ usesOf as (make c statementPrefix iteratorPrefix))
    (hb : b ∈ usesOf as (make c statementPrefix iteratorPrefix)) :
    (a.tile = b.tile ↔ a.target = b.target ∧ a.count = b.count ∧ a.stem = b.stem) ∧
      (a.InStep → b.InStep →
        (a.tile = b.tile ↔ a.target = b.target ∧ a.depth = b.depth ∧ a.count = b.count)) := by
  obtain ⟨w, hvalid, -, hrec⟩ := usesOf_recorded (Layout.sound_startLayout c) rfl h
  have hiff := (hrec a ha).tile_eq_iff hvalid (hrec b hb)
  refine ⟨hiff, fun hastep hbstep => ?_⟩
  rw [hiff, hastep.stem_eq, hbstep.stem_eq, and_comm (a := a.count = b.count)]

/-- A tiling within a tiling, then a second nest is tiled: all are in step, and the last shares the
tile coordinates of the first. -/
theorem sharedTile_iff_inStep :
    let nest : Nest := ⟨⟨[("0", "N"), ("0", "N")], ["N"]⟩, []⟩
    let s := make ⟨[nest, nest]⟩ "" "c"
    let as : List Application := [⟨.tile 0 (.uniform "8") [] [.tile 0 (.uniform "2") [] []], none⟩,
      ⟨.tile 1 (.uniform "8") [] [], none⟩]
    (∃ s', as.forM Application.act s = .ok () s') ∧
      usesOf as s =
        [⟨1, 0, 2, 2, false, 0⟩, ⟨1, 1, 2, 3, false, 1⟩, ⟨1, 0, 2, 2, true, 2⟩] ∧
      ∀ a ∈ usesOf as s, ∀ b ∈ usesOf as s, a.InStep ∧
        (a.tile = b.tile ↔ a.target = b.target ∧ a.depth = b.depth ∧ a.count = b.count) := by
  intro nest s as
  have huses : usesOf as s =
      [⟨1, 0, 2, 2, false, 0⟩, ⟨1, 1, 2, 3, false, 1⟩, ⟨1, 0, 2, 2, true, 2⟩] := by
    decide +kernel
  have hstep : ∀ a ∈ usesOf as s, a.InStep := by
    rw [huses]
    unfold TileUse.InStep
    decide
  obtain ⟨s', hrun⟩ : ∃ s', as.forM Application.act s = .ok () s' := by decide +kernel
  refine ⟨⟨s', hrun⟩, huses, fun a ha b hb => ⟨hstep a ha, ?_⟩⟩
  exact (sharedTile_iff ⟨[nest, nest]⟩ "" "c" hrun ha hb).2 (hstep a ha) (hstep b hb)

/-- After one dimension of the first nest is tiled, the second nest gets the second stem at depth
zero.  A tiling within it takes its coordinates over, and the same tiling of the third nest does not
find them. -/
theorem exists_tile_overwritten :
    let s := make ⟨[⟨⟨[("0", "9")], []⟩, []⟩, ⟨⟨[("0", "9"), ("0", "9")], []⟩, []⟩,
      ⟨⟨[("0", "9"), ("0", "9")], []⟩, []⟩]⟩ "" "c"
    let as : List Application := [⟨.tile 0 (.perDimension ["4"]) [] [], none⟩,
      ⟨.tile 1 (.perDimension ["8", "8"]) [] [.tile 1 (.perDimension ["2", "2"]) [] []], none⟩,
      ⟨.tile 2 (.perDimension ["8", "8"]) [] [], none⟩]
    (∃ s', as.forM Application.act s = .ok () s') ∧
      ∃ outer ∈ usesOf as s, ∃ inner ∈ usesOf as s, ∃ again ∈ usesOf as s,
        (outer.target = inner.target ∧ outer.depth ≠ inner.depth ∧ outer.tile = inner.tile) ∧
          outer.target = again.target ∧ outer.depth = again.depth ∧ outer.count = again.count ∧
            outer.tile ≠ again.tile := by
  intro s as
  have huses : usesOf as s =
      [⟨1, 0, 1, 2, false, 0⟩, ⟨1, 0, 2, 3, false, 1⟩, ⟨1, 1, 2, 3, true, 2⟩,
        ⟨1, 0, 2, 4, false, 2⟩] := by
    decide +kernel
  refine ⟨by decide +kernel, ?_⟩
  rw [huses]
  decide

end Schedule

end LoopSched
