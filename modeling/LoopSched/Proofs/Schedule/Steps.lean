import LoopSched.Proofs.Checked
import LoopSched.Proofs.Layout.Sound
import LoopSched.Proofs.Schedule.Action
import LoopSched.Schedule.Apply

/-!
# Steps of a schedule
-/

namespace LoopSched

open Polyhedral LoopSched.Subspace

namespace Arrangement

/-- The clause from one arrangement to another that rewrites the coordinates `vs`. -/
def clause (near far : Arrangement) (vs : List String) (conditions : List Condition) : Clause where
  input := near.names
  output := far.names.map (mark vs)
  conditions

/-- Coordinates that keep their values although they are written anew. -/
def copies (vs ns : List String) : List Condition := Fragment.identities (ns.map (mark vs)) ns

/-- The map of a shift of the group `g`. -/
def shiftMap (v : Arrangement) (g : Group) (sh : Shift) : UnionMap where
  symbols := sh.symbols
  clauses := [
    clause v v g.names (.is loopsGroup.constant sh.loop ::
      Fragment.movedBy sh.extents ((g.names.map (mark g.names)).zip g.names)),
    clause v v [] [.isNot loopsGroup.constant sh.loop]]

/-- The map of a wavefront over the group `g`, whose variables are `x :: xs`. -/
def wavefrontMap (v : Arrangement) (g : Group) (x : String) (xs : List String) : UnionMap where
  clauses :=
    [clause v v g.names (.sum (mark g.names x) g.vars :: copies g.names (xs ++ [g.constant]))]

/-- The map of a fusion in the group `g` with the group `h` to its right. -/
def fusionMap (v : Arrangement) (g h : Group) (first : ℕ) (loops : List ℕ) : UnionMap where
  clauses :=
    let vs := g.names ++ h.names
    [clause v v vs (.is (mark vs g.constant) first :: .same (mark vs h.constant) g.constant ::
        .oneOf g.constant loops :: (copies vs g.vars ++ copies vs h.vars)),
      clause v v vs (loops.map (.isNot g.constant ·) ++ copies vs g.names ++ copies vs h.names)]

/-- The splits of a tiling of `g` into the tile coordinates `h`. -/
def splits (sizes : TileSizes) (count : ℕ) (g h : Group) (vs : List String) : List Split :=
  (List.range count).zipWith (fun d (base, tile) => ⟨base, tile, (sizes.get? d).getD ""⟩)
    (g.vars.zip (h.vars.map (mark vs)))

/-- The map of a tiling of `g` with the tile coordinates `h`, which may be new in `w`. -/
def tileMap (v w : Arrangement) (g h : Group) (loop : ℕ) (sizes : TileSizes) (count : ℕ) :
    UnionMap where
  clauses :=
    let vs := g.names ++ h.names.filter (· ∈ v.names)
    let fresh := h.names.filter (· ∉ v.names)
    [clause v w vs (.is loopsGroup.constant loop :: .same (mark vs g.constant) g.constant ::
        .is (mark vs h.constant) 0 :: .tiled (splits sizes count g h vs) :: copies vs g.vars),
      clause v w [] (.isNot loopsGroup.constant loop :: fresh.map (.is · 0))]

/-- The second arrangement is the first, or the first with an entry put in. -/
def Grown (v w : Arrangement) (e : ℕ × Group) : Prop :=
  w = v ∨ ∃ pre post, v = pre ++ post ∧ w = pre ++ e :: post

/-- What was there before is still there. -/
theorem Grown.mem {v w : Arrangement} {e e' : ℕ × Group} (h : Grown v w e) (he : e' ∈ v) :
    e' ∈ w := by
  rcases h with rfl | ⟨pre, post, rfl, rfl⟩
  · exact he
  · rcases List.mem_append.mp he with he | he
    · exact List.mem_append_left _ he
    · exact List.mem_append_right _ (List.mem_cons_of_mem _ he)

theorem Grown.mem_names {v w : Arrangement} {e : ℕ × Group} (h : Grown v w e) (he : e ∈ w)
    {n : String} : n ∈ w.names ↔ n ∈ e.2.names ∨ n ∈ v.names := by
  rcases h with rfl | ⟨pre, post, rfl, rfl⟩
  · exact ⟨Or.inr, fun hn => hn.elim (names_subset he n) fun hn => hn⟩
  · exact mem_names_insert

/-- The group `h` of tile coordinates for `g` has a place in `w`, which is `v` or `v` with `h` put
in. -/
structure Tiled (v w : Arrangement) (g h : Group) (k count : ℕ) : Prop where
  target : ∃ id, (id, g) ∈ v
  tiles : h = g.tiles (Layout.repeated "t" (k + 1)) count
  count_le : count ≤ g.vars.length
  grown : ∃ tile, (tile, h) ∈ w ∧ Grown v w (tile, h)

namespace Tiled

variable {width k count : ℕ} {v w : Arrangement} {g h : Group}

theorem mem_names (ht : Tiled v w g h k count) {n : String} :
    n ∈ w.names ↔ n ∈ h.names ∨ n ∈ v.names := by
  obtain ⟨tile, htile, hgrown⟩ := ht.grown
  exact hgrown.mem_names htile

theorem target_subset (ht : Tiled v w g h k count) : ∀ n ∈ g.names, n ∈ v.names := by
  obtain ⟨id, hg⟩ := ht.target
  exact names_subset hg

theorem pair_subset (ht : Tiled v w g h k count) : ∀ n ∈ g.names ++ h.names, n ∈ w.names := by
  intro n hn
  refine ht.mem_names.mpr ?_
  rcases List.mem_append.mp hn with hn | hn
  · exact Or.inr (ht.target_subset n hn)
  · exact Or.inl hn

/-- In the tiled nest, a coordinate of the pair is a near one that is written again or a new one. -/
theorem mem_pair_iff (ht : Tiled v w g h k count) : ∀ n ∈ w.names,
    n ∈ g.names ++ h.names ↔ n ∈ g.names ++ h.names.filter (· ∈ v.names) ∨ n ∉ v.names := by
  intro n hn
  simp only [List.mem_append, List.mem_filter, decide_eq_true_eq]
  constructor
  · rintro (hg | hh)
    · exact Or.inl (Or.inl hg)
    · by_cases hv : n ∈ v.names
      · exact Or.inl (Or.inr ⟨hh, hv⟩)
      · exact Or.inr hv
  · rintro ((hg | hh) | hv)
    · exact Or.inl hg
    · exact Or.inr hh.1
    · exact Or.inr ((ht.mem_names.mp hn).resolve_right hv)

theorem added_subset (ht : Tiled v w g h k count) :
    ∀ n ∈ h.names.filter (· ∉ v.names), n ∈ w.names := fun _ hn =>
  ht.mem_names.mpr (Or.inl (List.mem_filter.mp hn).1)

/-- In the other nests, only the new coordinates are written. -/
theorem mem_added_iff (ht : Tiled v w g h k count) : ∀ n ∈ w.names,
    n ∈ h.names.filter (· ∉ v.names) ↔ n ∈ [] ∨ n ∉ v.names := by
  intro n hn
  simp only [List.mem_filter, decide_eq_true_eq, List.not_mem_nil, false_or]
  exact ⟨And.right, fun hv => ⟨(ht.mem_names.mp hn).resolve_right hv, hv⟩⟩

/-- A group and its tile coordinates share no name. -/
theorem pair_nodup (ht : Tiled v w g h k count) (hw : w.Valid width) :
    (g.names ++ h.names).Nodup := by
  obtain ⟨id, hg⟩ := ht.target
  obtain ⟨tile, hh, hgrown⟩ := ht.grown
  refine hw.pair_nodup (hgrown.mem hg) hh ?_
  rintro rfl
  have hsame : g = g.tiles (Layout.repeated "t" (k + 1)) count :=
    (hw.group_eq (hgrown.mem hg) hh).trans ht.tiles
  exact tileName_ne _ _ (congrArg Group.constant hsame).symm

end Tiled

/-- The transformation is the shift, or finds shifts by constant offsets with a solver. -/
inductive ShiftsBy : Transformation → Shift → Prop
  | shift (sh : Shift) : ShiftsBy (.shift sh) sh
  | automaticShift (includeZero : Bool) (nodeLimit loop : ℕ) (offset : Tuple) :
      ShiftsBy (.automaticShift includeZero nodeLimit) (.ofTuple loop offset)

/-- The transformation writes the map, which goes from the first arrangement to the second. -/
inductive Step : Transformation → Arrangement → UnionMap → Arrangement → Prop
  | shift {t : Transformation} {sh : Shift} {v : Arrangement} {id : ℕ} {g : Group} :
      ShiftsBy t sh → (id, g) ∈ v → sh.extents.length ≤ g.vars.length →
      Step t v (shiftMap v g sh) v
  | wavefront {v : Arrangement} {id : ℕ} {g : Group} {x : String} {xs : List String} :
      (id, g) ∈ v → g.vars = x :: xs → Step .wavefront v (wavefrontMap v g x xs) v
  | fusion (first : ℕ) (loops : List ℕ) {v : Arrangement} {id next : ℕ} {g h : Group} :
      (id, g) ∈ v → (next, h) ∈ v → id ≠ next →
      Step (.fusion (first :: loops)) v (fusionMap v g h first (first :: loops)) v
  | tile (loop : ℕ) (sizes : TileSizes) (outer inner : List Transformation) {k count : ℕ}
      {v w : Arrangement} {g h : Group} :
      Tiled v w g h k count → 0 < count → (∀ d < count, (sizes.get? d).isSome) →
      Step (.tile loop sizes outer inner) v (tileMap v w g h loop sizes count) w

/-- The maps are written one after another by transformations with the property `P`. -/
inductive Steps (P : Transformation → Prop) (width : ℕ) :
    Arrangement → List UnionMap → Arrangement → Prop
  | nil {v : Arrangement} : v.Valid width → Steps P width v [] v
  | cons {t : Transformation} {v w x : Arrangement} {m : UnionMap} {ms : List UnionMap} :
      v.Valid width → P t → Step t v m w → Steps P width w ms x → Steps P width v (m :: ms) x

namespace Steps

variable {P : Transformation → Prop} {width : ℕ} {t : Transformation} {v w x : Arrangement}
  {m : UnionMap} {ms ms' : List UnionMap}

theorem append (h : Steps P width v ms w) (h' : Steps P width w ms' x) :
    Steps P width v (ms ++ ms') x := by
  induction h with
  | nil _ => exact h'
  | cons hv ht hstep _ ih => exact .cons hv ht hstep (ih h')

theorem single (hv : v.Valid width) (ht : P t) (hstep : Step t v m w) (hw : w.Valid width) :
    Steps P width v [m] w := .cons hv ht hstep (.nil hw)

theorem valid_start (h : Steps P width v ms w) : v.Valid width := by
  cases h with
  | nil hv => exact hv
  | cons hv _ _ _ => exact hv

end Steps

end Arrangement

namespace Transformation

mutual

/-- The property holds of the transformation and of all nested in it. -/
def All (P : Transformation → Prop) : Transformation → Prop
  | .tile loop sizes outer inner =>
    P (.tile loop sizes outer inner) ∧ AllOf P outer ∧ AllOf P inner
  | .identity => P .identity
  | .shift sh => P (.shift sh)
  | .fusion loops => P (.fusion loops)
  | .wavefront => P .wavefront
  | .parallel extra => P (.parallel extra)
  | .automaticShift includeZero nodeLimit => P (.automaticShift includeZero nodeLimit)

def AllOf (P : Transformation → Prop) : List Transformation → Prop
  | [] => True
  | t :: ts => All P t ∧ AllOf P ts

end

end Transformation

/-- How many dimensions of a subspace of the given size are tiled. -/
def TileSizes.covered : TileSizes → ℕ → ℕ
  | .uniform _, size => size
  | .perDimension sizes, _ => sizes.length

/-- The stem of a tile subspace, counted from zero: an earlier subspace is looked for by the depth,
a new one has the stem after those that were handed out. -/
def Schedule.stemOf (s : Schedule) (tile : ℕ) : ℕ :=
  if tile ∈ s.layout.order then s.depth else s.layout.taken

open Schedule Schedule.Action Arrangement

namespace Fragment

variable {width : ℕ} {s s' : Schedule} {near far v : Arrangement} {ids : List ℕ} {id : ℕ}

theorem clause_eq_ok (h : s.layout.Sound width near far ids) (vs : List String)
    (hvs : ∀ e ∈ far, ∀ n ∈ e.2.names, n ∈ vs ↔ e.1 ∈ ids) {conditions : List Condition}
    {c : Clause} (hc : Fragment.clause conditions s = .ok c s') :
    c = Arrangement.clause near far vs conditions ∧ s = s' := by
  unfold Fragment.clause at hc
  rw [get_bind, pure_eq_ok, h.inputNames_eq, h.outputNames_eq hvs] at hc
  exact hc

theorem loopsConstant_eq (h : s.layout.Sound width near far ids) :
    s.loopsConstant = loopsGroup.constant := by
  rw [loopsConstant, h.get?_loops]
  rfl

theorem length_le_of_checkExtents {sh : Shift} {nest : Nest} {target : Subspace} {u : Unit}
    (h : checkExtents sh nest target id = .ok u) : sh.extents.length ≤ target.vars.length := by
  by_contra hlong
  have hlong : target.size < sh.extents.length := Nat.not_le.mp hlong
  simp only [checkExtents, hlong, or_true, if_true] at h
  cases h

/-- The map of a shift that is accepted. -/
theorem shift_eq_ok (h : s.layout.Sound width v v []) {sh : Shift} {m : UnionMap}
    (hrun : Fragment.shift sh id s = .ok m s') : s'.layout.Sound width v v [] ∧
      ∃ g, (id, g) ∈ v ∧ sh.extents.length ≤ g.vars.length ∧ m = shiftMap v g sh := by
  unfold Fragment.shift at hrun
  simp only [bind_eq_ok, nestOf_eq_ok, targetOf_eq_ok, require_eq_ok, get_eq_ok, setAlias_eq_ok,
    subspace_eq_ok, pure_eq_ok] at hrun
  obtain ⟨nest, _, ⟨-, rfl⟩, target, _, ⟨htarget, rfl⟩, _, _, ⟨hcheck, rfl⟩, _, _, ⟨rfl, rfl⟩, _, _,
    ⟨-, rfl⟩, out, _, ⟨hout, rfl⟩, moved, _, hmoved, _, _, ⟨-, rfl⟩, others, _, hothers, rfl,
    rfl⟩ := hrun
  have hg : (id, target.group) ∈ v := h.tag_mem htarget
  -- while the first clause is written, the target alone is aliased
  have hon : (s.layout.setAlias id true).Sound width v v [id] := h.aliasing id
  have hvs := h.valid.mem_names_iff_mem_singleton hg
  have hspells := hon.spells hvs hg hout
  obtain ⟨rfl, rfl⟩ := clause_eq_ok hon _ hvs hmoved
  have hoff : ((s.layout.setAlias id true).setAlias id false).Sound width v v [] :=
    hon.clearing [] (by simp)
  obtain ⟨rfl, rfl⟩ := clause_eq_ok hoff [] (by simp) hothers
  refine ⟨hoff, ?_⟩
  rw [loopsConstant_eq h, hspells.names, hspells.baseNames]
  exact ⟨target.group, hg, length_le_of_checkExtents hcheck, rfl⟩

theorem shift_step (h : s.layout.Sound width v v []) {t : Transformation} {sh : Shift}
    (ht : ShiftsBy t sh) {m : UnionMap} (hrun : Fragment.shift sh id s = .ok m s') :
    s'.layout.Sound width v v [] ∧ Step t v m v := by
  obtain ⟨hsound, g, hg, hlength, rfl⟩ := shift_eq_ok h hrun
  exact ⟨hsound, Step.shift ht hg hlength⟩

/-- The map of a wavefront that is accepted. -/
theorem wavefront_eq_ok (h : s.layout.Sound width v v []) {m : UnionMap}
    (hrun : Fragment.wavefront id s = .ok m s') : s'.layout.Sound width v v [] ∧
      ∃ g x xs, (id, g) ∈ v ∧ g.vars = x :: xs ∧ m = wavefrontMap v g x xs := by
  unfold Fragment.wavefront at hrun
  simp only [bind_eq_ok, targetOf_eq_ok, require_eq_ok, setAlias_eq_ok, subspace_eq_ok,
    pure_eq_ok] at hrun
  obtain ⟨target, _, ⟨htarget, rfl⟩, _, _, ⟨hcheck, rfl⟩, _, _, ⟨-, rfl⟩, out, _, ⟨hout, rfl⟩,
    all, _, hall, _, _, ⟨-, rfl⟩, rfl, rfl⟩ := hrun
  have hg : (id, target.group) ∈ v := h.tag_mem htarget
  have hon : (s.layout.setAlias id true).Sound width v v [id] := h.aliasing id
  have hvs := h.valid.mem_names_iff_mem_singleton hg
  have hspells := hon.spells hvs hg hout
  obtain ⟨rfl, rfl⟩ := clause_eq_ok hon _ hvs hall
  refine ⟨hon.clearing [] (by simp), ?_⟩
  cases hvars : target.group.vars with
  | nil =>
    have hsize : target.size = 0 := congrArg List.length hvars
    rw [checkVariables, if_pos hsize] at hcheck
    cases hcheck
  | cons x xs =>
    have hnames : target.group.names = x :: (xs ++ [target.group.constant]) := by
      rw [Group.names, hvars, List.cons_append]
    have hskewed : skewed out = .sum (mark target.group.names x) target.group.vars ::
        copies target.group.names (xs ++ [target.group.constant]) := by
      unfold skewed
      rw [hspells.names, hspells.baseNames, hspells.vars, hnames]
      rfl
    rw [hskewed]
    exact ⟨target.group, x, xs, hg, hvars, rfl⟩

theorem wavefront_step (h : s.layout.Sound width v v []) {m : UnionMap}
    (hrun : Fragment.wavefront id s = .ok m s') :
    s'.layout.Sound width v v [] ∧ Step .wavefront v m v := by
  obtain ⟨hsound, g, x, xs, hg, hvars, rfl⟩ := wavefront_eq_ok h hrun
  exact ⟨hsound, Step.wavefront hg hvars⟩

theorem forM_nestOf_eq_ok {loops : List ℕ} {transform : String} {u : PUnit}
    (h : (loops.forM fun loop => do let _ ← nestOf loop transform : Action PUnit) s = .ok u s') :
    s = s' := by
  induction loops with
  | nil => exact (pure_eq_ok.mp h).2
  | cons loop loops ih =>
    obtain ⟨_, _, hhead, hrest⟩ := bind_eq_ok.mp h
    simp only [bind_eq_ok, nestOf_eq_ok, pure_eq_ok] at hhead
    obtain ⟨_, _, ⟨-, rfl⟩, -, rfl⟩ := hhead
    exact ih hrest

/-- The subspace to the right of one is another. -/
theorem innerOf_eq_ok (h : s.layout.Sound width v v []) {next : ℕ}
    (hnext : innerOf s.layout id = .ok next) :
    ∃ g k, (id, g) ∈ v ∧ (next, k) ∈ v ∧ id ≠ next := by
  unfold innerOf at hnext
  cases hright : s.layout.next? id with
  | none =>
    rw [hright] at hnext
    cases hnext
  | some _ =>
    rw [hright] at hnext
    cases hnext
    obtain ⟨pre, sub, sub', post, hentries⟩ := Layout.next?_eq_some h.placed hright
    have hv :
        v = pre.map Layout.tag ++ (id, sub.group) :: (next, sub'.group) :: post.map Layout.tag := by
      rw [← h.far_eq, hentries, List.map_append, List.map_cons, List.map_cons]
      rfl
    refine ⟨sub.group, sub'.group, by simp [hv], by simp [hv], ?_⟩
    have hnodup := h.valid.ids_nodup
    rw [hv, List.map_append, List.map_cons, List.map_cons] at hnodup
    rintro rfl
    simpa using (List.nodup_append.mp hnodup).2.1

/-- The map of a fusion that is accepted. -/
theorem fusion_eq_ok (h : s.layout.Sound width v v []) {loops : List ℕ} {m : UnionMap}
    (hrun : Fragment.fusion loops id s = .ok m s') :
    (∃ ids, s'.layout.Sound width v v ids) ∧ ∃ first rest next g k, loops = first :: rest ∧
      innerOf s.layout id = .ok next ∧ (id, g) ∈ v ∧ (next, k) ∈ v ∧ id ≠ next ∧
      m = fusionMap v g k first loops := by
  unfold Fragment.fusion at hrun
  obtain ⟨first, _, hrequired, hrun⟩ := bind_eq_ok.mp hrun
  obtain ⟨hfirst, rfl⟩ := require_eq_ok.mp hrequired
  obtain ⟨_, _, hloops, hrun⟩ := bind_eq_ok.mp hrun
  obtain rfl := forM_nestOf_eq_ok hloops
  obtain ⟨_, _, hfound, hrun⟩ := bind_eq_ok.mp hrun
  obtain ⟨-, rfl⟩ := targetOf_eq_ok.mp hfound
  rw [get_bind] at hrun
  obtain ⟨next, _, hrequired, hrun⟩ := bind_eq_ok.mp hrun
  obtain ⟨hnext, rfl⟩ := require_eq_ok.mp hrequired
  obtain ⟨_, _, haliased, hrun⟩ := bind_eq_ok.mp hrun
  obtain ⟨-, rfl⟩ := setAlias_eq_ok.mp haliased
  obtain ⟨_, _, haliased, hrun⟩ := bind_eq_ok.mp hrun
  obtain ⟨-, rfl⟩ := setAlias_eq_ok.mp haliased
  obtain ⟨outer, _, hfound, hrun⟩ := bind_eq_ok.mp hrun
  obtain ⟨houter, rfl⟩ := subspace_eq_ok.mp hfound
  obtain ⟨inner, _, hfound, hrun⟩ := bind_eq_ok.mp hrun
  obtain ⟨hinner, rfl⟩ := subspace_eq_ok.mp hfound
  obtain ⟨fused, _, hfused, hrun⟩ := bind_eq_ok.mp hrun
  obtain ⟨others, _, hothers, hrun⟩ := bind_eq_ok.mp hrun
  obtain ⟨rfl, rfl⟩ := pure_eq_ok.mp hrun
  obtain ⟨loops, rfl⟩ : ∃ rest, loops = first :: rest := by
    cases loops with
    | nil => cases hfirst
    | cons a rest =>
      cases hfirst
      exact ⟨rest, rfl⟩
  obtain ⟨g, k, hg, hk, hne⟩ := innerOf_eq_ok h hnext
  have hon : ((s.layout.setAlias id true).setAlias next true).Sound width v v [next, id] :=
    (h.aliasing id).aliasing next
  have hvs : ∀ e ∈ v, ∀ n ∈ e.2.names, n ∈ g.names ++ k.names ↔ e.1 ∈ [next, id] := by
    intro e he n hn
    rw [List.mem_append, h.valid.mem_names_iff hg he hn, h.valid.mem_names_iff hk he hn]
    simp [or_comm]
  have houts := hon.spells hvs hg houter
  have hins := hon.spells hvs hk hinner
  obtain ⟨rfl, rfl⟩ := clause_eq_ok hon _ hvs hfused
  obtain ⟨rfl, rfl⟩ := clause_eq_ok hon _ hvs hothers
  refine ⟨⟨_, hon⟩, ?_⟩
  rw [houts.constantName, hins.constantName, houts.constant, houts.variableNames, houts.vars,
    hins.variableNames, hins.vars, houts.names, houts.baseNames, hins.names, hins.baseNames]
  exact ⟨first, loops, next, g, k, rfl, hnext, hg, hk, hne, rfl⟩

theorem fusion_step (h : s.layout.Sound width v v []) {loops : List ℕ} {m : UnionMap}
    (hrun : Fragment.fusion loops id s = .ok m s') :
    (∃ ids, s'.layout.Sound width v v ids) ∧ Step (.fusion loops) v m v := by
  obtain ⟨hsound, first, rest, next, g, k, rfl, -, hg, hk, hne, rfl⟩ := fusion_eq_ok h hrun
  exact ⟨hsound, Step.fusion first rest hg hk hne⟩

/-- A tiling covers as many dimensions as there are sizes for. -/
theorem tileCount_eq_covered {loop size count : ℕ} {sizes : TileSizes} {dims : Option ℕ}
    (h : tileCount loop sizes size dims = .ok count) : count = sizes.covered size := by
  obtain ⟨n, hn, h⟩ := Checked.bind_eq_ok h
  obtain ⟨_, -, h⟩ := Checked.bind_eq_ok h
  cases h
  cases sizes with
  | uniform size => exact (Except.ok.inj hn).symm
  | perDimension sizes =>
    simp only [coveredDimensions] at hn
    split at hn
    · cases hn
    · split at hn
      · cases hn
      · exact (Except.ok.inj hn).symm

theorem tileCount_eq_ok {loop size count : ℕ} {sizes : TileSizes} {dims : Option ℕ}
    (h : tileCount loop sizes size dims = .ok count) : ∀ d < count, (sizes.get? d).isSome := by
  intro d hd
  rw [tileCount_eq_covered h] at hd
  cases sizes with
  | uniform size => rfl
  | perDimension sizes =>
    have hd : d < sizes.length := hd
    rw [TileSizes.get?, List.getElem?_eq_getElem hd]
    rfl

/-- A tiling covers at least one dimension. -/
theorem tileCount_pos {loop size count : ℕ} {sizes : TileSizes} {dims : Option ℕ}
    (h : tileCount loop sizes size dims = .ok count) : 0 < count := by
  obtain ⟨n, -, h⟩ := Checked.bind_eq_ok h
  obtain ⟨_, hcheck, h⟩ := Checked.bind_eq_ok h
  cases h
  refine Nat.pos_of_ne_zero fun hzero => ?_
  rw [checkSizes, if_pos hzero] at hcheck
  cases hcheck

theorem existingTile?_eq_some {l : Layout} {candidate sub : Subspace} {tile : ℕ}
    (h : existingTile? l candidate id = some tile) (hsub : l.find tile = .ok sub) :
    sub.group = candidate.group := by
  have hsame := List.find?_some h
  rw [Layout.get?, (Layout.mem_entries.mp (Layout.find_eq_ok.mp hsub)).2] at hsame
  exact Subspace.group_eq_of_same hsame

/-- The tile coordinates `t` have a place in `w`, which is `v` or `v` with them put in; coordinates
that were there before are aliased. -/
structure TileReady (width : ℕ) (v w : Arrangement) (t : Group) (tile : ℕ) (isNew : Bool)
    (l : Layout) (ids : List ℕ) : Prop where
  sound : l.Sound width v w ids
  mem : (tile, t) ∈ w
  grown : Grown v w (tile, t)
  ids_eq : ∀ i ∈ ids, i = tile
  old : ∀ e ∈ w, ∀ n ∈ e.2.names, n ∈ t.names.filter (· ∈ v.names) ↔ e.1 ∈ ids
  fresh : t.names.filter (· ∉ v.names) = if isNew then t.names else []

theorem tileReady_reused {l : Layout} {t : Group} {tile : ℕ} (h : l.Sound width v v [tile])
    (ht : (tile, t) ∈ v) : TileReady width v v t tile false l [tile] where
  sound := h
  mem := ht
  grown := Or.inl rfl
  ids_eq := by simp
  old := by
    intro e he n hn
    rw [List.mem_filter, h.valid.mem_names_iff ht he hn, List.mem_singleton]
    exact and_iff_left (decide_eq_true (names_subset he n hn))
  fresh := by
    rw [List.filter_eq_nil_iff.mpr]
    · rfl
    · intro n hn
      simpa using names_subset ht n hn

theorem tileReady_new {l : Layout} {t : Group} {tile : ℕ} {pre post : Arrangement}
    (h : l.Sound width (pre ++ post) (pre ++ (tile, t) :: post) []) :
    TileReady width (pre ++ post) (pre ++ (tile, t) :: post) t tile true l [] where
  sound := h
  mem := by simp
  grown := Or.inr ⟨pre, post, rfl, rfl⟩
  ids_eq := by simp
  old := by
    intro e he n hn
    simp only [List.mem_filter, decide_eq_true_eq, List.not_mem_nil, iff_false, not_and]
    exact h.valid.not_mem_rest n
  fresh := by
    rw [List.filter_eq_self.mpr]
    · rfl
    · intro n hn
      simpa using h.valid.not_mem_rest n hn

/-- The tile subspace is an earlier one, which is aliased now, or a new one to the left of the
target. -/
theorem tileSubspace_eq_ok (h : s.layout.Sound width v v []) {target : Subspace} {count tile : ℕ}
    {isNew : Bool} (htarget : s.layout.find id = .ok target)
    (hrun : tileSubspace count target id s = .ok (tile, isNew) s') :
    count ≤ target.vars.length ∧ ∃ w ids,
      TileReady width v w (target.group.tiles (Layout.repeated "t" (s.stemOf tile + 1)) count) tile
        isNew s'.layout ids := by
  unfold tileSubspace at hrun
  rw [get_bind, bind_eq_ok] at hrun
  obtain ⟨candidate, _, hcandidate, hrun⟩ := hrun
  rw [require_eq_ok, Checked.mapError_eq_ok_iff] at hcandidate
  obtain ⟨hcandidate, rfl⟩ := hcandidate
  obtain ⟨hgroup, -, hcount⟩ := Subspace.group_derived hcandidate
  refine ⟨hcount, ?_⟩
  cases hexisting : existingTile? s.layout candidate id with
  | some other =>
    simp only [hexisting, bind_eq_ok, setAlias_eq_ok, pure_eq_ok, Prod.mk.injEq] at hrun
    obtain ⟨_, _, ⟨⟨sub, hsub⟩, rfl⟩, ⟨rfl, rfl⟩, rfl⟩ := hrun
    have hfound : sub.group = candidate.group := existingTile?_eq_some hexisting hsub
    refine ⟨v, [tile], tileReady_reused (h.aliasing tile) ?_⟩
    rw [stemOf, if_pos (Layout.mem_entries.mp (Layout.find_eq_ok.mp hsub)).1, ← hgroup, ← hfound]
    exact h.tag_mem hsub
  | none =>
    simp only [hexisting, bind_eq_ok, freshStem_eq_ok, require_eq_ok, Checked.mapError_eq_ok_iff,
      insertLeft_eq_ok, pure_eq_ok, Prod.mk.injEq] at hrun
    obtain ⟨stem, _, ⟨rfl, rfl⟩, fresh, _, ⟨hfresh, rfl⟩, _, _, ⟨l, hl, rfl⟩, ⟨rfl, rfl⟩,
      rfl⟩ := hrun
    obtain ⟨hgroup, haliased, -⟩ := Subspace.group_derived hfresh
    obtain ⟨pre, post, rfl, hsound⟩ := h.insertTile (h.tag_mem htarget) hgroup haliased hl
    have hnew : tile ∉ s.layout.order := by
      obtain ⟨rfl, -⟩ := Layout.insertLeft_eq_ok (l := (s.layout.freshStem "t").2) h.placed hl
      exact fun hmem => absurd (h.placed _ hmem) (Nat.lt_irrefl _)
    rw [hgroup] at hsound
    rw [stemOf, if_neg hnew]
    exact ⟨_, [], tileReady_new hsound⟩

/-- The tile subspace of a tiling has the names of the target's variables behind its stem. -/
def Named (s : Schedule) (id : ℕ) (sizes : TileSizes) (v w : Arrangement) (tile : ℕ) : Prop :=
  ∃ g, (id, g) ∈ v ∧ sizes.covered g.vars.length ≤ g.vars.length ∧ (id, g) ∈ w ∧
    (tile, g.tiles (Layout.repeated "t" (s.stemOf tile + 1)) (sizes.covered g.vars.length)) ∈ w

/-- The coordinates of the tile subspace `tile` for a tiling of `g`. -/
def tileGroup (s : Schedule) (sizes : TileSizes) (g : Group) (tile : ℕ) : Group :=
  g.tiles (Layout.repeated "t" (s.stemOf tile + 1)) (sizes.covered g.vars.length)

/-- The tiling of the group `g` of `v` has its tile coordinates in `w`. -/
structure Tiling.Covers (tiling : Tiling) (s : Schedule) (loop : ℕ) (sizes : TileSizes) (id : ℕ)
    (v w : Arrangement) (g : Group) : Prop where
  target : (id, g) ∈ v
  counted : ∃ dims, tileCount loop sizes g.vars.length dims = .ok (sizes.covered g.vars.length)
  covered_le : sizes.covered g.vars.length ≤ g.vars.length
  tiles : (tiling.tile, tileGroup s sizes g tiling.tile) ∈ w
  grown : Grown v w (tiling.tile, tileGroup s sizes g tiling.tile)
  map_eq : tiling.map = tileMap v w g (tileGroup s sizes g tiling.tile) loop sizes
    (sizes.covered g.vars.length)

theorem Tiling.Covers.tiled {tiling : Tiling} {loop : ℕ} {sizes : TileSizes} {w : Arrangement}
    {g : Group} (h : tiling.Covers s loop sizes id v w g) :
    Tiled v w g (tileGroup s sizes g tiling.tile) (s.stemOf tiling.tile)
      (sizes.covered g.vars.length) :=
  ⟨⟨id, h.target⟩, rfl, h.covered_le, tiling.tile, h.tiles, h.grown⟩

theorem Tiling.Covers.length_vars {tiling : Tiling} {loop : ℕ} {sizes : TileSizes} {w : Arrangement}
    {g : Group} (h : tiling.Covers s loop sizes id v w g) :
    (tileGroup s sizes g tiling.tile).vars.length = sizes.covered g.vars.length := by
  rw [tileGroup, Group.tiles, List.length_map, List.length_take, Nat.min_eq_left h.covered_le]

/-- The tile subspace was there already, or it is put in somewhere. -/
theorem Tiling.Covers.grown_cases {tiling : Tiling} {loop : ℕ} {sizes : TileSizes}
    {w : Arrangement} {g : Group} (h : tiling.Covers s loop sizes id v w g)
    (hs : s.layout.Sound width v v []) (hw : w.Valid width) :
    (w = v ∧ tiling.tile ∈ s.layout.order) ∨ (tiling.tile ∉ s.layout.order ∧
      ∃ pre post, v = pre ++ post ∧
        w = pre ++ (tiling.tile, tileGroup s sizes g tiling.tile) :: post) := by
  rw [← hs.ids_eq]
  rcases h.grown with hgrown | ⟨pre, post, rfl, rfl⟩
  · have hmem := h.tiles
    rw [hgrown] at hmem
    exact .inl ⟨hgrown, List.mem_map_of_mem (f := Prod.fst) hmem⟩
  · have hnodup := hw.ids_nodup
    rw [List.map_append, List.map_cons, List.nodup_middle, List.nodup_cons, ← List.map_append]
      at hnodup
    exact .inr ⟨hnodup.1, pre, post, rfl, rfl⟩

/-- The map of a tiling that is accepted. -/
theorem tile_eq_ok (h : s.layout.Sound width v v []) {loop : ℕ} {sizes : TileSizes}
    {tiling : Tiling} (hrun : Fragment.tile loop sizes id s = .ok tiling s') :
    ∃ w g, s'.layout.Sound width v w [] ∧ tiling.Covers s loop sizes id v w g := by
  unfold Fragment.tile at hrun
  obtain ⟨nest, _, hnest, hrun⟩ := bind_eq_ok.mp hrun
  obtain ⟨-, rfl⟩ := nestOf_eq_ok.mp hnest
  rw [get_bind] at hrun
  obtain ⟨target, _, hfound, hrun⟩ := bind_eq_ok.mp hrun
  obtain ⟨htarget, rfl⟩ := targetOf_eq_ok.mp hfound
  obtain ⟨count, _, hrequired, hrun⟩ := bind_eq_ok.mp hrun
  obtain ⟨hcounted, rfl⟩ := require_eq_ok.mp hrequired
  have hcount := Checked.mapError_eq_ok_iff.mp hcounted
  obtain ⟨⟨tile, isNew⟩, s₁, htile, hrun⟩ := bind_eq_ok.mp hrun
  obtain ⟨_, _, haliased, hrun⟩ := bind_eq_ok.mp hrun
  obtain ⟨-, rfl⟩ := setAlias_eq_ok.mp haliased
  obtain ⟨tiled, _, hfound, hrun⟩ := bind_eq_ok.mp hrun
  obtain ⟨htiled, rfl⟩ := subspace_eq_ok.mp hfound
  obtain ⟨tiles, _, hfound, hrun⟩ := bind_eq_ok.mp hrun
  obtain ⟨htiles, rfl⟩ := subspace_eq_ok.mp hfound
  obtain ⟨mapped, _, hmapped, hrun⟩ := bind_eq_ok.mp hrun
  obtain ⟨_, _, hcleared, hrun⟩ := bind_eq_ok.mp hrun
  obtain ⟨-, rfl⟩ := setAlias_eq_ok.mp hcleared
  obtain ⟨_, _, hcleared, hrun⟩ := bind_eq_ok.mp hrun
  obtain ⟨-, rfl⟩ := setAlias_eq_ok.mp hcleared
  obtain ⟨others, _, hothers, hrun⟩ := bind_eq_ok.mp hrun
  obtain ⟨rfl, rfl⟩ := pure_eq_ok.mp hrun
  have hg : (id, target.group) ∈ v := h.tag_mem htarget
  obtain ⟨hlength, w, ids, hready⟩ := tileSubspace_eq_ok h htarget htile
  set g := target.group
  set t := g.tiles (Layout.repeated "t" (s.stemOf tile + 1)) count with ht
  have hon : (s₁.layout.setAlias id true).Sound width v w (id :: ids) := hready.sound.aliasing id
  have hvs : ∀ e ∈ w, ∀ n ∈ e.2.names,
      n ∈ g.names ++ t.names.filter (· ∈ v.names) ↔ e.1 ∈ id :: ids := by
    intro e he n hn
    rw [List.mem_append, hready.sound.valid.mem_names_iff (hready.grown.mem hg) he hn,
      hready.old e he n hn, List.mem_cons]
  have htileds := hon.spells hvs (hready.grown.mem hg) htiled
  have htiless := hon.spells hvs hready.mem htiles
  obtain ⟨rfl, rfl⟩ := clause_eq_ok hon _ hvs hmapped
  -- clearing both aliases leaves none
  have hoff : (((s₁.layout.setAlias id true).setAlias id false).setAlias tile false).Sound width v w
      [] := by
    refine (hon.clearing (ids.filter (· ≠ id)) ?_).clearing [] ?_
    · simp +contextual
    · intro i
      refine ⟨fun hi => absurd hi List.not_mem_nil, ?_⟩
      rintro ⟨hi, htile⟩
      exact absurd (hready.ids_eq i (List.mem_filter.mp hi).1) htile
  obtain ⟨rfl, rfl⟩ := clause_eq_ok hoff [] (by simp) hothers
  have hsplits : Fragment.splits sizes count tiled tiles =
      Arrangement.splits sizes count g t (g.names ++ t.names.filter (· ∈ v.names)) := by
    rw [Fragment.splits, Arrangement.splits, htileds.vars, htiless.variableNames]
  have hfresh : (if isNew then tiles.baseNames.map (Condition.is · 0) else []) =
      (t.names.filter (· ∉ v.names)).map (Condition.is · 0) := by
    rw [hready.fresh, htiless.baseNames]
    split <;> rfl
  rw [loopsConstant_eq h, htileds.constantName, htileds.constant, htiless.constantName, hsplits,
    htileds.variableNames, htileds.vars, hfresh]
  have hcovered : count = sizes.covered g.vars.length := tileCount_eq_covered hcount
  have hgroup : t = tileGroup s sizes g tile := by rw [ht, tileGroup, hcovered]
  refine ⟨w, g, hoff, hg, ⟨_, hcovered ▸ hcount⟩, hcovered ▸ hlength, hgroup ▸ hready.mem,
    hgroup ▸ hready.grown, ?_⟩
  rw [← hgroup, ← hcovered]
  rfl

theorem Tiling.Covers.step {tiling : Tiling} {loop : ℕ} {sizes : TileSizes} {w : Arrangement}
    {g : Group} (h : tiling.Covers s loop sizes id v w g) (outer inner : List Transformation) :
    Step (.tile loop sizes outer inner) v tiling.map w := by
  obtain ⟨dims, hcount⟩ := h.counted
  rw [h.map_eq]
  exact .tile loop sizes outer inner h.tiled (tileCount_pos hcount) (tileCount_eq_ok hcount)

theorem tile_step (h : s.layout.Sound width v v []) {loop : ℕ} {sizes : TileSizes}
    (outer inner : List Transformation) {tiling : Tiling}
    (hrun : Fragment.tile loop sizes id s = .ok tiling s') :
    ∃ w, s'.layout.Sound width v w [] ∧ Step (.tile loop sizes outer inner) v tiling.map w ∧
      Named s id sizes v w tiling.tile := by
  obtain ⟨w, g, hsound, hcovers⟩ := tile_eq_ok h hrun
  exact ⟨w, hsound, hcovers.step outer inner, g, hcovers.target, hcovers.covered_le,
    hcovers.grown.mem hcovers.target, hcovers.tiles⟩

end Fragment

namespace Transformation

variable {P : Transformation → Prop} {width : ℕ}

theorem mapM_shift_steps {t : Transformation} (ht : P t) {id : ℕ} {v : Arrangement} :
    ∀ {shifts : List Shift} {s s' : Schedule} {maps : List UnionMap}, (∀ sh ∈ shifts, ShiftsBy t sh) →
      s.layout.Sound width v v [] → shifts.mapM (fun sh => Fragment.shift sh id) s = .ok maps s' →
      s'.layout.Sound width v v [] ∧ Steps P width v maps v
  | [], s, s', maps, hshifts, h, hrun => by
    obtain ⟨rfl, rfl⟩ := pure_eq_ok.mp hrun
    exact ⟨h, .nil h.valid⟩
  | sh :: shifts, s, s', maps, hshifts, h, hrun => by
    obtain ⟨hsh, hshifts⟩ := List.forall_mem_cons.mp hshifts
    rw [List.mapM_cons] at hrun
    obtain ⟨m, s₁, hm, hrest⟩ := bind_eq_ok.mp hrun
    obtain ⟨ms, s₂, hms, hpure⟩ := bind_eq_ok.mp hrest
    obtain ⟨rfl, rfl⟩ := pure_eq_ok.mp hpure
    obtain ⟨hsound, hstep⟩ := Fragment.shift_step h hsh hm
    obtain ⟨hsound, hsteps⟩ := mapM_shift_steps ht hshifts hsound hms
    exact ⟨hsound, .cons h.valid ht hstep hsteps⟩

theorem shiftsBy_automaticShift {c : Chain} (includeZero : Bool) (nodeLimit : ℕ)
    {shifts : List Shift} {solver : Linear.Solver}
    (h : AutoShift.shifts c includeZero solver = .ok shifts) :
    ∀ sh ∈ shifts, ShiftsBy (.automaticShift includeZero nodeLimit) sh := by
  obtain ⟨tuples, -, h⟩ := Checked.bind_eq_ok h
  cases h
  exact List.forall_mem_map.mpr fun t _ => .automaticShift _ _ t.1 t.2

mutual

/-- The maps of a transformation are steps, from the arrangement before to the one after it. -/
theorem run_steps : ∀ (t : Transformation) {id : ℕ} {s s' : Schedule} {maps : List UnionMap}
    {v : Arrangement}, t.All P → s.layout.Sound width v v [] → t.run id s = .ok maps s' →
      ∃ near w ids, s'.layout.Sound width near w ids ∧ Steps P width v maps w
  | .identity, id, s, s', maps, v, ht, h, hrun => by
    rw [run] at hrun
    obtain ⟨rfl, rfl⟩ := pure_eq_ok.mp hrun
    exact ⟨v, v, [], h, .nil h.valid⟩
  | .shift sh, id, s, s', maps, v, ht, h, hrun => by
    rw [run] at hrun
    obtain ⟨m, s₁, hm, hpure⟩ := bind_eq_ok.mp hrun
    obtain ⟨rfl, rfl⟩ := pure_eq_ok.mp hpure
    obtain ⟨hsound, hstep⟩ := Fragment.shift_step h (.shift sh) hm
    rw [All] at ht
    exact ⟨v, v, [], hsound, .single h.valid ht hstep hsound.valid⟩
  | .fusion loops, id, s, s', maps, v, ht, h, hrun => by
    rw [run] at hrun
    obtain ⟨m, s₁, hm, hpure⟩ := bind_eq_ok.mp hrun
    obtain ⟨rfl, rfl⟩ := pure_eq_ok.mp hpure
    obtain ⟨⟨ids, hsound⟩, hstep⟩ := Fragment.fusion_step h hm
    rw [All] at ht
    exact ⟨v, v, ids, hsound, .single h.valid ht hstep hsound.valid⟩
  | .wavefront, id, s, s', maps, v, ht, h, hrun => by
    rw [run] at hrun
    obtain ⟨m, s₁, hm, hpure⟩ := bind_eq_ok.mp hrun
    obtain ⟨rfl, rfl⟩ := pure_eq_ok.mp hpure
    obtain ⟨hsound, hstep⟩ := Fragment.wavefront_step h hm
    rw [All] at ht
    exact ⟨v, v, [], hsound, .single h.valid ht hstep hsound.valid⟩
  | .parallel extra, id, s, s', maps, v, ht, h, hrun => by
    obtain ⟨rfl, rfl⟩ := run_parallel_eq_ok hrun
    exact ⟨v, v, [], h, .nil h.valid⟩
  | .automaticShift includeZero nodeLimit, id, s, s', maps, v, ht, h, hrun => by
    rw [run, get_bind, bind_eq_ok] at hrun
    obtain ⟨shifts, _, hshifts, hrun⟩ := hrun
    obtain ⟨hfound, rfl⟩ := require_eq_ok.mp hshifts
    rw [All] at ht
    obtain ⟨hsound, hsteps⟩ :=
      mapM_shift_steps ht (shiftsBy_automaticShift includeZero nodeLimit hfound) h hrun
    exact ⟨v, v, [], hsound, hsteps⟩
  | .tile loop sizes outer inner, id, s, s', maps, v, ht, h, hrun => by
    obtain ⟨tiling, s₁, outerMaps, s₂, innerMaps, s₃, htile, houter, hinner, rfl, rfl⟩ :=
      run_tile_eq_ok hrun
    rw [All] at ht
    obtain ⟨ht, houters, hinners⟩ := ht
    obtain ⟨w, hsound, hstep, -⟩ := Fragment.tile_step h outer inner htile
    obtain ⟨_, w₁, _, hsound₁, hsteps₁⟩ :=
      runEach_steps outer houters (s := s₁.deeper) hsound houter
    obtain ⟨near, w₂, ids, hsound₂, hsteps₂⟩ := runEach_steps inner hinners hsound₁ hinner
    exact ⟨near, w₂, ids, hsound₂, .cons h.valid ht hstep (hsteps₁.append hsteps₂)⟩

theorem runEach_steps : ∀ (ts : List Transformation) {id : ℕ} {s s' : Schedule}
    {maps : List UnionMap} {near v : Arrangement} {ids : List ℕ}, AllOf P ts →
      s.layout.Sound width near v ids → runEach ts id s = .ok maps s' →
        ∃ near w ids, s'.layout.Sound width near w ids ∧ Steps P width v maps w
  | [], id, s, s', maps, near, v, ids, hts, h, hrun => by
    rw [runEach] at hrun
    obtain ⟨rfl, rfl⟩ := pure_eq_ok.mp hrun
    exact ⟨near, v, ids, h, .nil h.valid⟩
  | t :: ts, id, s, s', maps, near, v, ids, hts, h, hrun => by
    obtain ⟨first, s₁, rest, hfirst, hrest, rfl⟩ := runEach_cons_eq_ok hrun
    rw [AllOf] at hts
    obtain ⟨_, w, _, hsound, hsteps⟩ := run_steps t hts.1 h.nextStage hfirst
    obtain ⟨near', x, ids', hsound', hsteps'⟩ := runEach_steps ts hts.2 hsound hrest
    exact ⟨near', x, ids', hsound', hsteps.append hsteps'⟩

end

end Transformation

end LoopSched
