import LoopSched.Proofs.Schedule.Moves
import LoopSched.Proofs.Schedule.Spelling

/-!
# Tilings round down

A tiling with literal sizes divides each tiled coordinate by its size and rounds down, for every
point of the space it starts from; all other points keep their coordinates.  The size of a tiling is
pasted as it is, so a size that is a sum is not divided by: only its first product is multiplied
with the tile coordinate, and the rest of it moves the tiles.
-/

namespace LoopSched

open Polyhedral Arrangement LoopSched.Subspace Schedule

/-! ### Points and their values -/

/-- The values that a point gives to the names of its coordinates. -/
def valuesAt (names : List String) (xs : List ℤ) : Valuation := fun n =>
  (xs[names.idxOf n]?).getD 0

theorem map_valuesAt {names : List String} {xs : List ℤ} (hnodup : names.Nodup)
    (hlength : xs.length = names.length) : names.map (valuesAt names xs) = xs := by
  refine List.ext_getElem (by rw [List.length_map, hlength]) fun i hi hi' => ?_
  rw [List.length_map] at hi
  rw [List.getElem_map, valuesAt, hnodup.idxOf_getElem i hi, List.getElem?_eq_getElem hi',
    Option.getD_some]

theorem point_valuesAt {width : ℕ} {v : Arrangement} (hv : v.Valid width) {xs : List ℤ}
    (hlength : xs.length = v.names.length) : v.point (valuesAt v.names xs) = ⟨"", xs⟩ := by
  rw [Arrangement.point, map_valuesAt hv.names_nodup hlength]

/-- The number that a text is; other texts count as zero. -/
def literal : Valuation := fun text =>
  match tokens text with
  | [.number n] => n
  | _ => 0

theorem denotesUnit_literal {text : String} (h : 0 < literal text) :
    DenotesUnit text (literal text) := by
  unfold literal at h ⊢
  split at h
  · rename_i n htokens
    exact denotesUnit_of_tokens htokens
  · exact absurd h (lt_irrefl 0)

/-! ### The layout before and after a tiling -/

namespace Fragment.Tiling.Covers

variable {width : ℕ} {s s' : Schedule} {loop id : ℕ} {sizes : TileSizes} {tiling : Tiling}
  {v w : Arrangement} {g : Group}

/-- The tile coordinates are put in between the others, or they are there already. -/
theorem names_eq (h : tiling.Covers s loop sizes id v w g) (hs : s.layout.Sound width v v [])
    (hw : w.Valid width) :
    (∃ pre post, v.names = pre ++ post ∧ w.names = pre ++
      (if tiling.tile ∈ s.layout.order then [] else
        (tileGroup s sizes g tiling.tile).names) ++ post) ∧
    ∀ n ∈ (tileGroup s sizes g tiling.tile).names,
      n ∈ v.names ↔ tiling.tile ∈ s.layout.order := by
  rcases h.grown_cases hs hw with ⟨hgrown, hold⟩ | ⟨hnew, pre, post, rfl, rfl⟩
  · have hmem := h.tiles
    rw [hgrown] at hmem
    refine ⟨⟨v.names, [], by simp, by simp [hgrown, hold]⟩, fun n hn => ?_⟩
    exact ⟨fun _ => hold, fun _ => names_subset hmem n hn⟩
  · refine ⟨⟨names pre, names post, names_append pre post, ?_⟩, fun n hn => ?_⟩
    · rw [if_neg hnew, names_append, names_cons, List.append_assoc]
    · exact ⟨fun hold => absurd hold (hw.not_mem_rest n hn), fun hold => absurd hold hnew⟩

/-- With literal sizes, the text of the tiling's map divides and rounds down. -/
theorem textRelates_iff (h : tiling.Covers s loop sizes id v w g) (hv : v.Valid width)
    (hw : w.Valid width) (hspelled : v.Spelled)
    (hsizes : ∀ d size, sizes.get? d = some size → 0 < literal size) (π σ : Valuation)
    (q : Point) :
    TextRelates π tiling.map.render (v.point σ) q ↔ q = w.point (if σ loopsGroup.constant = loop then
      tiledInto literal sizes g (tileGroup s sizes g tiling.tile) σ
      else zeroed v (tileGroup s sizes g tiling.tile) σ) := by
  obtain ⟨dims, hcount⟩ := h.counted
  have hliteral : ∀ d < sizes.covered g.vars.length, 0 < literal ((sizes.get? d).getD "") := by
    intro d hd
    obtain ⟨size, hsize⟩ := Option.isSome_iff_exists.mp (tileCount_eq_ok hcount d hd)
    rw [hsize]
    exact hsizes d size hsize
  have hread : (Transformation.tile loop sizes [] []).Evaluated π literal := fun d text hsize =>
    denotesUnit_literal (hsizes d text hsize)
  rw [(h.step [] []).textRelates_iff hv hw hspelled hread, ← composed_singleton, h.map_eq]
  exact (moves_tile (P := fun _ => True) hv hw h.tiled hliteral).graph σ q

/-- In the nests that are not tiled a coordinate is new, and then a tile coordinate, or it stays. -/
theorem map_zeroed (h : tiling.Covers s loop sizes id v w g) (x : Valuation) :
    w.names.map (zeroed v (tileGroup s sizes g tiling.tile) x) =
      w.names.map fun n => if n ∈ v.names then x n else 0 := by
  refine List.map_congr_left fun n hn => ?_
  by_cases hold : n ∈ v.names
  · rw [zeroed, if_neg fun hnew => hnew.2 hold, if_pos hold]
  · have hnew := (h.tiled.mem_names.mp hn).resolve_right hold
    rw [zeroed, if_pos ⟨hnew, hold⟩, if_neg hold]

/-- The splits that a tiling writes. -/
theorem exists_splits (h : tiling.Covers s loop sizes id v w g) (hv : v.Valid width)
    (hw : w.Valid width) (hspelled : v.Spelled) :
    ∃ mapped others splits, tiling.map.clauses = [mapped, others] ∧
      .tiled splits ∈ mapped.conditions ∧ splits.length = sizes.covered g.vars.length ∧
      ∀ (d : ℕ) (split : Split), splits[d]? = some split → sizes.get? d = some split.size ∧
        g.vars[d]? = some split.base ∧ (Coordinate split.base ∧ Coordinate split.tile) ∧
        split.base ≠ split.tile := by
  obtain ⟨dims, hcount⟩ := h.counted
  have hlength := h.length_vars
  have hcovered := h.covered_le
  refine ⟨_, _, _, congrArg UnionMap.clauses h.map_eq,
    List.mem_cons_of_mem _ (List.mem_cons_of_mem _ (List.mem_cons_of_mem _ List.mem_cons_self)),
    ?_, ?_⟩
  · simp [Arrangement.splits, hlength, hcovered]
  · intro d split hsplit
    obtain ⟨hd, base, tile, hbase, htile, rfl⟩ := getElem?_splits.mp hsplit
    have hbase' : base ∈ g.names := List.mem_append_left _ (List.mem_of_getElem? hbase)
    have htile' : tile ∈ (tileGroup s sizes g tiling.tile).names :=
      List.mem_append_left _ (List.mem_of_getElem? htile)
    obtain ⟨size, hsize⟩ := Option.isSome_iff_exists.mp (tileCount_eq_ok hcount d hd)
    have hnames : Coordinate base := hspelled.names h.target base hbase'
    have hnamet : Coordinate tile := (hspelled.tiled h.tiled).names h.tiles tile htile'
    refine ⟨by rw [hsize, Option.getD_some], hbase, ⟨hnames, coordinate_mark hnamet⟩, ?_⟩
    -- a base is plain, and no tile coordinate
    have hplain : Plain base := hv.plain base (names_subset h.target base hbase')
    have htileplain : Plain tile := hw.plain tile (names_subset h.tiles tile htile')
    intro heq
    have heq : base = tile := by
      rw [← unalias_of_plain hplain, ← unalias_mark htileplain]
      exact congrArg unalias heq
    exact (List.nodup_append'.mp (h.tiled.pair_nodup hw)).2.2 hbase' (heq ▸ htile')

end Fragment.Tiling.Covers

namespace Schedule

variable {c : Chain} {s s' : Schedule}

/-- The first map of a tiling is that of the tiling itself. -/
theorem exists_tiling_of_run {loop id : ℕ} {sizes : TileSizes} {outer inner : List Transformation}
    {maps : List UnionMap}
    (h : (Transformation.tile loop sizes outer inner).run id s = .ok maps s') :
    ∃ tiling s₁ rest, Fragment.tile loop sizes id s = .ok tiling s₁ ∧
      maps = tiling.map :: rest := by
  rw [Transformation.run] at h
  obtain ⟨tiling, s₁, htile, h⟩ := Action.bind_eq_ok.mp h
  obtain ⟨rest, s₂, -, hpure⟩ := Action.bind_eq_ok.mp h
  exact ⟨tiling, s₁, rest, htile, (Action.pure_eq_ok.mp hpure).1⟩

/-- The text of a tiling with literal sizes maps every point to one point.  In the tiled nest the tile
coordinates are the quotients, rounded down, and the constant of the tiles is zero; in other nests
new coordinates are zero.  All other coordinates stay. -/
theorem reads_tile_iff (c : Chain) (s s' : Schedule) (hs : Reached c s) (loop id : ℕ)
    (sizes : TileSizes) (outer inner : List Transformation) (maps : List UnionMap)
    (hrun : (Transformation.tile loop sizes outer inner).run id s = .ok maps s')
    (hsizes : ∀ d size, sizes.get? d = some size → 0 < literal size) :
    ∃ tiling s₁ rest target tiles, Fragment.tile loop sizes id s = .ok tiling s₁ ∧
      maps = tiling.map :: rest ∧ s.layout.find id = .ok target ∧
      s₁.layout.find tiling.tile = .ok tiles ∧ tiles.size = sizes.covered target.size ∧
      let near := s.layout.inputNames
      let far := s₁.layout.nextStage.inputNames
      far.Nodup ∧
      (∃ pre post, near = pre ++ post ∧
        far = pre ++ (if tiling.tile ∈ s.layout.order then [] else tiles.baseNames) ++ post) ∧
      (∀ n ∈ tiles.baseNames, n ∈ near ↔ tiling.tile ∈ s.layout.order) ∧
      ∀ (π : Valuation) (xs : List ℤ) (q : Point), xs.length = near.length →
        let x := valuesAt near xs
        (TextRelates π tiling.map.render ⟨"", xs⟩ q ↔ q = ⟨"", far.map fun n =>
          if x s.loopsConstant = loop then tiledInto literal sizes target.group tiles.group x n
          else if n ∈ near then x n else 0⟩) := by
  obtain ⟨tiling, s₁, rest, htile, hmaps⟩ := exists_tiling_of_run hrun
  obtain ⟨v, hsound, hspelled⟩ := hs.sound
  obtain ⟨w, g, hsound₁, hcovers⟩ := Fragment.tile_eq_ok hsound htile
  obtain ⟨target, htarget, rfl⟩ := hsound.find_of_mem hcovers.target
  obtain ⟨tiles, htiles, hgroup⟩ := hsound₁.find_of_mem hcovers.tiles
  obtain ⟨dims, hcount⟩ := hcovers.counted
  have hnear : s.layout.inputNames = v.names := hsound.inputNames_eq
  have hfar : s₁.layout.nextStage.inputNames = w.names := hsound₁.nextStage.inputNames_eq
  obtain ⟨hinserted, hreused⟩ := hcovers.names_eq hsound hsound₁.valid
  refine ⟨tiling, s₁, rest, target, tiles, htile, hmaps, htarget, htiles, ?_, ?_, ?_, ?_, ?_⟩
  · have hlength := hcovers.length_vars
    rw [← hgroup] at hlength
    exact hlength
  · rw [hfar]
    exact hsound₁.valid.names_nodup
  · rw [hnear, hfar]
    have hbase : tiles.baseNames = tiles.group.names := rfl
    rw [hbase, hgroup]
    exact hinserted
  · rw [hnear]
    intro n hn
    exact hreused n (hgroup ▸ hn)
  · intro π xs q hlength x
    have hpoint : (⟨"", xs⟩ : Point) = v.point x := by
      rw [hnear] at hlength
      exact (hnear ▸ point_valuesAt hsound.valid hlength).symm
    rw [hpoint, hcovers.textRelates_iff hsound.valid hsound₁.valid hspelled hsizes,
      Fragment.loopsConstant_eq hsound, hgroup, hnear, hfar, Arrangement.point]
    split
    · rfl
    · rw [hcovers.map_zeroed]

/-- A second tiling into the tiles of a first one, left of zero as well. -/
theorem reads_tile_iff_reused :
    let nest : Nest := ⟨⟨[("0", "9"), ("0", "9")], []⟩, []⟩
    let c : Chain := ⟨[nest, nest]⟩
    let s := (make c "" "c").perform [.apply (.tile 1 (.uniform "3") [] [])]
    let sizes : TileSizes := .perDimension ["4", "5"]
    (∀ d size, sizes.get? d = some size → 0 < literal size) ∧
      ∃ m rest s', (Transformation.tile 0 sizes [] []).run Layout.nest s = .ok (m :: rest) s' ∧
        s.layout.inputNames = ["loops_c", "t_i_0", "t_i_1", "t_i_c", "i_0", "i_1", "i_c"] ∧
        (∀ π q, TextRelates π m.render ⟨"", [0, 7, 8, 9, -5, 11, 0]⟩ q ↔
          q = ⟨"", [0, -2, 2, 0, -5, 11, 0]⟩) ∧
        ∀ π q, TextRelates π m.render ⟨"", [1, 7, 8, 9, -5, 11, 0]⟩ q ↔
          q = ⟨"", [1, 7, 8, 9, -5, 11, 0]⟩ := by
  intro nest c s sizes
  have hsizes : ∀ d size, sizes.get? d = some size → 0 < literal size := by
    intro d size hsize
    have hmem : size ∈ ["4", "5"] := List.mem_of_getElem? hsize
    have hall : ∀ size ∈ ["4", "5"], 0 < literal size := by decide
    exact hall size hmem
  have haccepted : (((Transformation.tile 0 sizes [] []).run Layout.nest).result? s).isSome := by
    decide +kernel
  obtain ⟨maps, hmaps⟩ := Option.isSome_iff_exists.mp haccepted
  obtain ⟨s', hrun⟩ := Action.result?_eq_some.mp hmaps
  obtain ⟨tiling, s₁, rest, target, tiles, htile, rfl, htarget, htiles, -, -, -, -, hreads⟩ :=
    reads_tile_iff c s s' (.perform "" "c" _) 0 Layout.nest sizes [] [] maps hrun hsizes
  have hs₁ : s₁ = (Fragment.tile 0 sizes Layout.nest).after s := (Action.after_of_ok htile).symm
  have hnear : s.layout.inputNames =
      ["loops_c", "t_i_0", "t_i_1", "t_i_c", "i_0", "i_1", "i_c"] := by decide +kernel
  have hfar : s₁.layout.nextStage.inputNames =
      ["loops_c", "t_i_0", "t_i_1", "t_i_c", "i_0", "i_1", "i_c"] := by
    rw [hs₁]
    decide +kernel
  have hnumber : tiling.tile = 2 := by
    have hresult := Action.result?_eq_some.mpr ⟨s₁, htile⟩
    have hmap : ((Fragment.tile 0 sizes Layout.nest).result? s).map (·.tile) = some 2 := by
      decide +kernel
    rw [hresult] at hmap
    exact Option.some.inj hmap
  have hgroup : target.group = ⟨["i_0", "i_1"], "i_c"⟩ := by
    have hfind : (s.layout.find Layout.nest).map (·.group) = .ok ⟨["i_0", "i_1"], "i_c"⟩ := by
      decide +kernel
    rw [htarget] at hfind
    exact Except.ok.inj hfind
  have htilegroup : tiles.group = ⟨["t_i_0", "t_i_1"], "t_i_c"⟩ := by
    have hfind : (((Fragment.tile 0 sizes Layout.nest).after s).layout.find 2).map (·.group) =
        .ok ⟨["t_i_0", "t_i_1"], "t_i_c"⟩ := by
      decide +kernel
    rw [← hs₁, ← hnumber, htiles] at hfind
    exact Except.ok.inj hfind
  have hloops : s.loopsConstant = "loops_c" := by decide +kernel
  rw [hnear, hfar, hgroup, htilegroup, hloops] at hreads
  refine ⟨hsizes, tiling.map, rest, s', hrun, hnear, fun π q => ?_, fun π q => ?_⟩
  · exact (hreads π _ q (by decide)).trans (Eq.congr_right (by decide +kernel))
  · exact (hreads π _ q (by decide)).trans (Eq.congr_right (by decide +kernel))

/-! ### Sizes and extents that are expressions -/

theorem moved_mem_movedBy : ∀ {extents : List String} {ps : List (String × String)} {d : ℕ}
    {extent out base : String}, extents[d]? = some extent → ps[d]? = some (out, base) →
      Condition.moved out base extent ∈ Fragment.movedBy extents ps
  | [], _, _, _, _, _, he, _ => nomatch he
  | _ :: _, [], _, _, _, _, _, hp => nomatch hp
  | _ :: _, _ :: _, 0, _, _, _, he, hp => by
    cases he
    cases hp
    exact List.mem_cons_self
  | _ :: _, _ :: _, _ + 1, _, _, _, he, hp =>
    List.mem_cons_of_mem _ (moved_mem_movedBy (List.getElem?_cons_succ.symm.trans he)
      (List.getElem?_cons_succ.symm.trans hp))

/-- The moves that a shift writes. -/
theorem exists_moved {width : ℕ} {v : Arrangement} (hsound : s.layout.Sound width v v [])
    (hspelled : v.Spelled) {sh : Shift} {id : ℕ} {m : UnionMap}
    (hrun : Fragment.shift sh id s = .ok m s') :
    ∃ moved others target, m.clauses = [moved, others] ∧ s.layout.find id = .ok target ∧
      ∀ (d : ℕ) (extent : String), sh.extents[d]? = some extent →
        ∃ out base, target.vars[d]? = some base ∧ .moved out base extent ∈ moved.conditions ∧
          Coordinate out ∧ Coordinate base := by
  obtain ⟨-, g, hg, hlength, rfl⟩ := Fragment.shift_eq_ok hsound hrun
  obtain ⟨target, htarget, rfl⟩ := hsound.find_of_mem hg
  refine ⟨_, _, target, rfl, htarget, fun d extent hextent => ?_⟩
  have hd : d < target.vars.length := (List.getElem?_eq_some_iff.mp hextent).1.trans_le hlength
  have hbase : target.group.names[d]? = some target.vars[d] :=
    (List.getElem?_append_left hd).trans (List.getElem?_eq_getElem hd)
  have hcoordinate : Coordinate target.vars[d] := hspelled.vars hg _ (List.getElem_mem hd)
  refine ⟨mark target.group.names target.vars[d], target.vars[d], List.getElem?_eq_getElem hd,
    List.mem_cons_of_mem _ (moved_mem_movedBy hextent ?_), coordinate_mark hcoordinate, hcoordinate⟩
  rw [List.getElem?_zip_eq_some, List.getElem?_map, hbase]
  exact ⟨rfl, rfl⟩

/-- The text of an accepted size divides by its value exactly if the size is one product, up to
products that cancel.  The text of an extent always moves by its value. -/
theorem splitText_divides_iff (c : Chain) (s : Schedule) (hs : Reached c s) :
    (∀ (loop id : ℕ) (sizes : TileSizes) (tiling : Fragment.Tiling) (s' : Schedule),
      Fragment.tile loop sizes id s = .ok tiling s' →
      ∃ mapped others splits target, tiling.map.clauses = [mapped, others] ∧
        .tiled splits ∈ mapped.conditions ∧ s.layout.find id = .ok target ∧
        splits.length = sizes.covered target.size ∧
        (∀ E : Split → Expression, (∀ split ∈ splits, (E split).tokens = tokens split.size) →
          (∀ split ∈ splits, (E split).Closed) → ∀ σ,
          TextHolds σ (Condition.tiled splits).render ↔
            ∀ (d : ℕ) (split : Split), splits[d]? = some split → split.Reads σ d) ∧
        ∀ (d : ℕ) (split : Split), splits[d]? = some split →
          sizes.get? d = some split.size ∧ target.vars[d]? = some split.base ∧
          ∀ (e : Expression) (n : ℤ), e.tokens = tokens split.size → e.Closed →
            (∀ σ, e.value σ = n) → 0 < n →
            ((∀ σ, split.Reads σ d ↔ σ split.tile = σ split.base / n) ↔ ∀ σ, e.rest σ = 0)) ∧
    ∀ (sh : Shift) (id : ℕ) (m : UnionMap) (s' : Schedule), Fragment.shift sh id s = .ok m s' →
      ∃ moved others target, m.clauses = [moved, others] ∧ s.layout.find id = .ok target ∧
        ∀ (d : ℕ) (extent : String), sh.extents[d]? = some extent →
          ∃ out base, target.vars[d]? = some base ∧
          .moved out base extent ∈ moved.conditions ∧
          ∀ e : Expression, e.tokens = tokens extent → ∀ σ,
            TextHolds σ (Condition.moved out base extent).render ↔ σ out = σ base + e.value σ := by
  obtain ⟨v, hsound, hspelled⟩ := hs.sound
  constructor
  · intro loop id sizes tiling s' hrun
    obtain ⟨w, g, hsound', hcovers⟩ := Fragment.tile_eq_ok hsound hrun
    obtain ⟨target, htarget, rfl⟩ := hsound.find_of_mem hcovers.target
    obtain ⟨dims, hcount⟩ := hcovers.counted
    obtain ⟨mapped, others, splits, hclauses, hmem, hlength, hsplits⟩ :=
      hcovers.exists_splits hsound.valid hsound'.valid hspelled
    have hnames : ∀ split ∈ splits, Coordinate split.base ∧ Coordinate split.tile := by
      intro split hsplit
      obtain ⟨d, hd⟩ := List.mem_iff_getElem?.mp hsplit
      exact (hsplits d split hd).2.2.1
    refine ⟨mapped, others, splits, target, hclauses, hmem, htarget, hlength, ?_, ?_⟩
    · intro E htokens hclosed σ
      have hne : splits ≠ [] :=
        List.ne_nil_of_length_pos ((Fragment.tileCount_pos hcount).trans_eq hlength.symm)
      exact textHolds_tiled_iff_reads hne hnames htokens hclosed
    · intro d split hsplit
      obtain ⟨hsize, hbase, ⟨hcbase, hctile⟩, hne⟩ := hsplits d split hsplit
      refine ⟨hsize, hbase, fun e n htokens hclosed hvalue hn => ?_⟩
      have hfits := Split.fits_iff_ediv hne hclosed fun σ => (hvalue σ).symm ▸ hn
      simp only [hvalue] at hfits
      rw [← hfits]
      exact forall_congr' fun σ =>
        iff_congr (split.reads_iff hcbase hctile htokens hclosed d) Iff.rfl
  · intro sh id m s' hrun
    obtain ⟨moved, others, target, hclauses, htarget, hmoves⟩ := exists_moved hsound hspelled hrun
    refine ⟨moved, others, target, hclauses, htarget, fun d extent hextent => ?_⟩
    obtain ⟨out, base, hbase, hmem, hcout, hcbase⟩ := hmoves d extent hextent
    exact ⟨out, base, hbase, hmem, fun e he σ =>
      Condition.textHolds_moved hcout.toIdentifier hcbase.toIdentifier he⟩

/-- A size that is a product, and an extent that is a difference. -/
theorem splitText_divides_iff_product :
    let c : Chain := ⟨[⟨⟨[("0", "9")], []⟩, []⟩]⟩
    let s := make c "" "c"
    let sh : Shift := { loop := 0, extents := ["1-2"] }
    (∃ tiling s', Fragment.tile 0 (.perDimension ["2*2"]) Layout.nest s = .ok tiling s' ∧
      ∃ mapped ∈ tiling.map.clauses, ∃ split : Split, .tiled [split] ∈ mapped.conditions ∧
        split.size = "2*2" ∧ ∀ σ, split.Reads σ 0 ↔ σ split.tile = σ split.base / 4) ∧
      ∃ m s', Fragment.shift sh Layout.nest s = .ok m s' ∧
        ∃ moved ∈ m.clauses, ∃ out base, .moved out base "1-2" ∈ moved.conditions ∧
          ∀ σ, TextHolds σ (Condition.moved out base "1-2").render ↔ σ out = σ base + -1 := by
  intro c s sh
  have htext := splitText_divides_iff c s (.perform "" "c" [])
  constructor
  · have haccepted : ((Fragment.tile 0 (.perDimension ["2*2"]) Layout.nest).result? s).isSome := by
      decide +kernel
    obtain ⟨tiling, htiling⟩ := Option.isSome_iff_exists.mp haccepted
    obtain ⟨s', hrun⟩ := Action.result?_eq_some.mp htiling
    obtain ⟨mapped, others, splits, target, hclauses, hmem, htarget, hlength, -, hsplits⟩ :=
      htext.1 _ _ _ _ _ hrun
    obtain ⟨split, rfl⟩ := List.length_eq_one_iff.mp hlength
    obtain ⟨hsize, -, hdivides⟩ := hsplits 0 split rfl
    have hsize : split.size = "2*2" := (Option.some.inj hsize).symm
    rw [hsize] at hdivides
    refine ⟨tiling, s', hrun, mapped, by simp [hclauses], split, hmem, hsize, ?_⟩
    let e : Expression := .single (.times (.single (.number 2)) (.number 2))
    have hclosed : e.Closed := by
      simp [Expression.Closed, e, Expression.tokens, Product.tokens, Factor.tokens]
    exact (hdivides e 4 (by decide) hclosed (fun _ => rfl) (by decide)).mpr fun _ => rfl
  · have haccepted : ((Fragment.shift sh Layout.nest).result? s).isSome := by decide +kernel
    obtain ⟨m, hm⟩ := Option.isSome_iff_exists.mp haccepted
    obtain ⟨s', hrun⟩ := Action.result?_eq_some.mp hm
    obtain ⟨moved, others, target, hclauses, htarget, hmoved⟩ := htext.2 _ _ _ _ hrun
    obtain ⟨out, base, -, hmem, hreads⟩ := hmoved 0 "1-2" rfl
    refine ⟨m, s', hrun, moved, by simp [hclauses], out, base, hmem, ?_⟩
    exact hreads (.minus (.ofNumber 1) (.single (.number 2))) (by decide)

/-- A tile of four that is written as a sum: the coordinate four is in two tiles. -/
theorem exists_two_tiles :
    let c : Chain := ⟨[⟨⟨[("0", "9")], []⟩, []⟩]⟩
    ∃ tiling s', Fragment.tile 0 (.perDimension ["2+2"]) Layout.nest (make c "" "c") =
        .ok tiling s' ∧
      (∃ e : Expression, e.tokens = tokens "2+2" ∧ e.Closed ∧ ∀ σ, e.value σ = 4) ∧
      ∀ π, TextRelates π tiling.map.render ⟨"", [0, 4, 0]⟩ ⟨"", [0, 0, 0, 4, 0]⟩ ∧
        TextRelates π tiling.map.render ⟨"", [0, 4, 0]⟩ ⟨"", [0, 1, 0, 4, 0]⟩ := by
  intro c
  let mapped : Clause :=
    { input := ["loops_c", "i_0", "i_c"]
      output := ["loops_c", "t_i_0", "t_i_c", "alias_i_0", "alias_i_c"]
      conditions := [.is "loops_c" 0, .same "alias_i_c" "i_c", .is "t_i_c" 0,
        .tiled [⟨"i_0", "t_i_0", "2+2"⟩], .same "alias_i_0" "i_0"] }
  let e : Expression := .plus (.ofNumber 2) (.single (.number 2))
  have htokens : e.tokens = tokens "2+2" := by decide
  have hclosed : e.Closed := by
    simp [Expression.Closed, e, Expression.ofNumber, Expression.tokens, Product.tokens,
      Factor.tokens]
  have haccepted : ((Fragment.tile 0 (.perDimension ["2+2"]) Layout.nest).result?
      (make c "" "c")).isSome := by decide +kernel
  have hmap : ∀ tiling ∈ (Fragment.tile 0 (.perDimension ["2+2"]) Layout.nest).result?
      (make c "" "c"), mapped ∈ tiling.map.clauses ∧ tiling.map.symbols = [] ∧
        tiling.map.extents = [] ∧ tiling.map.sizes = ["2+2"] := by decide +kernel
  obtain ⟨tiling, htiling⟩ := Option.isSome_iff_exists.mp haccepted
  obtain ⟨s', hrun⟩ := Action.result?_eq_some.mp htiling
  obtain ⟨hmapped, hsymbols, hextents, hsizes⟩ := hmap tiling htiling
  obtain ⟨w, g, hsound, hcovers⟩ := Fragment.tile_eq_ok (Layout.sound_startLayout c) hrun
  have hlegible := (hcovers.step [] []).legible (Layout.valid_startArrangement _) hsound.valid
    (spelled_start _) (by simp [hsymbols])
  -- the tiles at zero and at one
  have hreads : ∀ (π : Valuation) (t : ℤ), (∃ r, (0 ≤ r ∧ r < 4) ∧ 4 = t * 2 + 2 + r) →
      TextRelates π tiling.map.render ⟨"", [0, 4, 0]⟩ ⟨"", [0, t, 0, 4, 0]⟩ := by
    intro π t hfits
    let σ : Valuation := fun n =>
      if n = "t_i_0" then t else if n = "i_0" ∨ n = "alias_i_0" then 4 else 0
    rw [hlegible.textRelates_iff_textHolds (by simp [hsymbols]) hclosed
      (by simp [hextents, hsizes, htokens])]
    refine ⟨mapped, hmapped, rfl, rfl, σ, by simp [hsymbols], by simp [mapped, σ],
      by simp [mapped, σ], ?_⟩
    have htiled : TextHolds σ (Condition.tiled [⟨"i_0", "t_i_0", "2+2"⟩]).render := by
      rw [textHolds_iff (tokens_tiled (E := fun _ => e) (by simp) (by decide) (by simp [htokens])),
        holds_tilingFormula (by simp) (by decide) (by simp [hclosed])]
      exact List.forall_mem_singleton.mpr hfits
    simp only [mapped, List.forall_mem_cons, List.not_mem_nil, false_implies, implies_true,
      and_true]
    exact ⟨(Condition.textHolds_is (by decide) 0).mpr rfl,
      (Condition.textHolds_same (by decide) (by decide)).mpr rfl,
      (Condition.textHolds_is (by decide) 0).mpr rfl, htiled,
      (Condition.textHolds_same (by decide) (by decide)).mpr rfl⟩
  exact ⟨tiling, s', hrun, ⟨e, htokens, hclosed, fun _ => rfl⟩, fun π =>
    ⟨hreads π 0 ⟨2, by decide⟩, hreads π 1 ⟨0, by decide⟩⟩⟩

end Schedule

end LoopSched
