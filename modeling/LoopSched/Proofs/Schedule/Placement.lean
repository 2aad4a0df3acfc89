import LoopSched.Proofs.Schedule.Moves
import LoopSched.Proofs.Schedule.Spelling

/-!
# Where a schedule places the instances

A schedule places each instance of a statement at exactly one point, and two instances of one nest
never at one point.  Instances of two nests can only meet where all constant coordinates of the
nests are equal.  That happens: a fusion overwrites the constant to the right of the fused group, so
a second fusion of the same nests forgets the order that the first one recorded.
-/

namespace LoopSched

open Polyhedral Arrangement LoopSched.Subspace

/-- An instance of the statement of a nest: one value for each of the nest's iterators. -/
@[ext]
structure Instance (c : Chain) where
  nest : ℕ
  vector : List ℤ
  inside : (c.nests[nest]?).map Nest.dimensions = some vector.length

namespace Instance

variable {c : Chain}

theorem length_le (a : Instance c) : a.vector.length ≤ c.maxDimension := by
  obtain ⟨n, hn, hlength⟩ := Option.map_eq_some_iff.mp a.inside
  rw [← hlength]
  exact Chain.dimensions_le (List.mem_of_getElem? hn)

theorem length_vector_eq {a b : Instance c} (h : a.nest = b.nest) :
    a.vector.length = b.vector.length := by
  have ha := a.inside
  rw [h, b.inside] at ha
  exact (Option.some.inj ha).symm

/-- The point of the instance in the space of its statement. -/
def point (a : Instance c) (statementPrefix : String) : Point where
  name := Schedule.rootOf statementPrefix ++ toString a.nest
  coordinates := a.vector

end Instance

namespace Schedule

/-- The schedule places the instance at the point, with texts read by `ρ`. -/
def Places (ρ : Valuation) (s : Schedule) {c : Chain} (a : Instance c) (q : Point) : Prop :=
  Composed ρ s.maps (a.point s.statementPrefix) q

/-- The constant coordinates of a point in a layout. -/
def constantsOf (l : Layout) (q : Point) : List ℤ :=
  ((l.inputNames.zip q.coordinates).filter fun p => p.1 ∈ l.spaces.map (·.constant)).map Prod.snd

/-- The values of the start coordinates for an instance. -/
def embedded (width nest : ℕ) (vector : List ℤ) : Valuation := fun n =>
  if n = loopsGroup.constant then nest
  else (vector[(nestGroup width).vars.idxOf n]?).getD 0

variable {ρ : Valuation} {c : Chain} {statementPrefix : String}

theorem embedded_loops (width nest : ℕ) (vector : List ℤ) :
    embedded width nest vector loopsGroup.constant = nest := if_pos rfl

theorem embedded_eq_zero {width nest : ℕ} {vector : List ℤ} {n : String}
    (hn : n ≠ loopsGroup.constant) (h : vector.length ≤ (nestGroup width).vars.idxOf n) :
    embedded width nest vector n = 0 := by
  rw [embedded, if_neg hn, List.getElem?_eq_none h]
  rfl

/-- Number of the nest and iterators are different coordinates. -/
theorem loops_not_mem_nestGroup (width : ℕ) : loopsGroup.constant ∉ (nestGroup width).names := by
  intro hmem
  exact absurd (Layout.head_of_mem_nestGroup hmem) (by decide)

theorem length_vars_nestGroup (width : ℕ) : (nestGroup width).vars.length = width := by
  simp [nestGroup, Subspace.group, Subspace.make]

/-- The iterators of an instance have the values of its vector. -/
theorem map_embedded {width : ℕ} (nest : ℕ) {vector : List ℤ} (h : vector.length ≤ width) :
    ((nestGroup width).vars.take vector.length).map (embedded width nest vector) = vector := by
  have hnodup := (List.nodup_append'.mp (Layout.nodup_names_nestGroup width)).1
  have hwidth := length_vars_nestGroup width
  refine List.ext_getElem ?_ fun i hi hi' => ?_
  · rw [List.length_map, List.length_take, hwidth, Nat.min_eq_left h]
  · have hne : (nestGroup width).vars[i] ≠ loopsGroup.constant := fun heq =>
      loops_not_mem_nestGroup width (heq ▸ List.mem_append_left _ (List.getElem_mem _))
    rw [List.getElem_map, List.getElem_take, embedded, if_neg hne, hnodup.idxOf_getElem,
      List.getElem?_eq_getElem hi']
    rfl

/-- Beyond the vector of an instance all coordinates are zero. -/
theorem embedded_of_not_mem_take {width nest : ℕ} {vector : List ℤ} (h : vector.length ≤ width)
    {n : String} (hn : n ∈ (nestGroup width).names)
    (hnot : n ∉ (nestGroup width).vars.take vector.length) : embedded width nest vector n = 0 := by
  set vars := (nestGroup width).vars
  have hidx : vars.idxOf n = (vars.take vector.length).length +
      (vars.drop vector.length).idxOf n := by
    conv_lhs => rw [← List.take_append_drop vector.length vars]
    exact List.idxOf_append_of_notMem hnot
  refine embedded_eq_zero (fun heq => loops_not_mem_nestGroup width (heq ▸ hn)) ?_
  rw [hidx, List.length_take, length_vars_nestGroup, Nat.min_eq_left h]
  omega

theorem embedded_constant {width nest : ℕ} {vector : List ℤ} (h : vector.length ≤ width) :
    embedded width nest vector (nestGroup width).constant = 0 := by
  have hnodup := List.nodup_append'.mp (Layout.nodup_names_nestGroup width)
  refine embedded_of_not_mem_take h (Group.constant_mem_names _) fun hm => ?_
  exact hnodup.2.2 (List.mem_of_mem_take hm) (List.mem_singleton.mpr rfl)

theorem embedded_of_mem_drop {width nest : ℕ} {vector : List ℤ} (h : vector.length ≤ width)
    {n : String} (hn : n ∈ (nestGroup width).vars.drop vector.length) :
    embedded width nest vector n = 0 := by
  have hnodup := List.nodup_append'.mp (Layout.nodup_names_nestGroup width)
  refine embedded_of_not_mem_take h (List.mem_append_left _ (List.mem_of_mem_drop hn)) fun hm => ?_
  exact List.disjoint_take_drop hnodup.1 (Nat.le_refl _) hm hn

theorem embeddingClause_relates {a : Instance c} {n : Nest} (hn : c.nests[a.nest]? = some n)
    {q : Point} :
    (embeddingClause statementPrefix (startLayout c) n a.nest).Relates ρ
        (a.point statementPrefix) q ↔
      q = (Layout.startArrangement c.maxDimension).point
        (embedded c.maxDimension a.nest a.vector) := by
  set width := c.maxDimension
  set g := nestGroup width with hg
  set σ := embedded width a.nest a.vector with hσ
  have hvalid := Layout.valid_startArrangement width
  have hmem : n ∈ c.nests := List.mem_of_getElem? hn
  have hlength : n.dimensions = a.vector.length := by
    have := a.inside
    rw [hn] at this
    exact Option.some.inj this
  have hnames : (Layout.startArrangement width).names = loopsGroup.constant :: g.names :=
    Layout.names_startArrangement width
  have hloops : loopsGroup.constant ∉ g.names := loops_not_mem_nestGroup width
  have hinput : ∀ m ∈ g.vars.take a.vector.length, m ∈ g.names := fun m hm =>
    List.mem_append_left _ (List.mem_of_mem_take hm)
  have hpoint : a.point statementPrefix = ⟨rootOf statementPrefix ++ toString a.nest,
      (g.vars.take a.vector.length).map σ⟩ := by
    rw [map_embedded a.nest a.length_le]
    rfl
  rw [embeddingClause_eq hmem, hlength, hpoint]
  refine (relates_of_conditions (G := True) (Layout.startArrangement width).names ?_ hvalid.plain
    (fun m hm => hm) ?_ (fun m hm hnot => absurd hm hnot) ?_).trans
      (by rw [true_and, Arrangement.point])
  · intro m hm
    exact hvalid.plain m (hnames ▸ List.mem_cons_of_mem _ (hinput m hm))
  · intro m hm
    refine ⟨fun _ => ?_, fun _ => hm⟩
    rw [hnames] at hm
    rcases List.mem_cons.mp hm with rfl | hm
    · exact Or.inr fun hmem => hloops (hinput _ hmem)
    · exact Or.inl hm
  · intro τ hτ
    have hconstant : σ g.constant = 0 := embedded_constant a.length_le
    have hsplit : (∀ m ∈ g.vars, τ (mark g.names m) = σ m) ↔
        (∀ m ∈ g.vars.take a.vector.length, τ (mark g.names m) = τ m) ∧
          ∀ m ∈ g.vars.drop a.vector.length, τ (mark g.names m) = 0 := by
      conv_lhs => rw [← List.take_append_drop a.vector.length g.vars]
      rw [List.forall_mem_append]
      refine and_congr (forall₂_congr fun m hm => ?_) (forall₂_congr fun m hm => ?_)
      · rw [hτ m hm]
      · rw [hσ, embedded_of_mem_drop a.length_le hm]
    rw [true_and, hnames, List.forall_mem_cons, mark_of_not_mem hloops, forall_mem_names, hsplit,
      hconstant, hσ, embedded_loops, List.forall_mem_append, List.forall_mem_cons,
      List.forall_mem_cons, holds_copies, holds_zeros, List.forall_mem_map]
    simp only [Condition.Holds, Nat.cast_zero]
    tauto

/-- The embedding places an instance at the point of its number and its vector. -/
theorem embedding_relates {a : Instance c} {q : Point} :
    (embedding c statementPrefix).Relates ρ (a.point statementPrefix) q ↔
      q = (Layout.startArrangement c.maxDimension).point
        (embedded c.maxDimension a.nest a.vector) := by
  constructor
  · rintro ⟨clause, hclause, hrelates⟩
    obtain ⟨n, k, hn, rfl⟩ := mem_embedding.mp hclause
    have hk : a.nest = k := by
      have hname := congrArg String.toList hrelates.1
      change (_ ++ toString a.nest).toList = (_ ++ toString k).toList at hname
      rw [String.toList_append, String.toList_append, List.append_cancel_left_eq] at hname
      exact repr_injective (String.toList_inj.mp hname)
    subst hk
    exact (embeddingClause_relates hn).mp hrelates
  · intro hq
    obtain ⟨n, hn, -⟩ := Option.map_eq_some_iff.mp a.inside
    exact ⟨_, mem_embedding.mpr ⟨n, a.nest, hn, rfl⟩, (embeddingClause_relates hn).mpr hq⟩

variable {P : Transformation → Prop} {s : Schedule} {v : Arrangement}

/-- A traced schedule places an instance where its steps move the embedded instance. -/
theorem Traced.places (h : Traced P c statementPrefix s v) (hP : ∀ t, P t → PositiveSizes ρ t) :
    ∃ ms F, Moves ρ c.maxDimension P (Layout.startArrangement c.maxDimension) ms v F ∧
      ∀ (a : Instance c) q, s.Places ρ a q ↔
        q = v.point (F (embedded c.maxDimension a.nest a.vector)) := by
  obtain ⟨ms, hms, hsteps⟩ := h.maps
  obtain ⟨F, hF⟩ := hsteps.moves hP
  refine ⟨ms, F, hF, fun a q => ?_⟩
  rw [Places, hms, h.statement, Composed]
  simp only [embedding_relates, exists_eq_left, hF.graph]

/-- The constants of the start depend on the number of the nest alone. -/
theorem embedded_constants {width nest : ℕ} {x y : List ℤ} (hx : x.length ≤ width)
    (hy : y.length ≤ width) : ∀ n ∈ (Layout.startArrangement width).constants,
      embedded width nest x n = embedded width nest y n := by
  intro n hn
  have hvalid := Layout.valid_startArrangement width
  have hvars : n ∉ (nestGroup width).vars := hvalid.not_mem_vars hvalid.nest hn
  have hidx : (nestGroup width).vars.idxOf n = width := by
    rw [List.idxOf_eq_length hvars, length_vars_nestGroup]
  by_cases hloops : n = loopsGroup.constant
  · rw [hloops, embedded_loops, embedded_loops]
  · rw [embedded_eq_zero hloops (Nat.le_trans hx (Nat.le_of_eq hidx.symm)),
      embedded_eq_zero hloops (Nat.le_trans hy (Nat.le_of_eq hidx.symm))]

/-- The constant coordinates of a point of an arrangement. -/
theorem constantsOf_point {width : ℕ} {ids : List ℕ} {l : Layout} (h : l.Sound width v v ids)
    (σ : Valuation) :
    constantsOf l (v.point σ) = (v.names.filter (· ∈ v.constants)).map σ := by
  have hconstants : l.spaces.map (·.constant) = v.constants := by
    rw [Layout.spaces_eq, List.map_map, ← h.far_eq, Arrangement.constants, List.map_map]
    rfl
  rw [constantsOf, h.inputNames_eq, hconstants, Arrangement.point, ← List.map_prod_left_eq_zip,
    List.filter_map, List.map_map]
  rfl

theorem point_inj {σ τ : Valuation} (h : v.point σ = v.point τ) : ∀ n ∈ v.names, σ n = τ n :=
  map_eq_map_iff.mp (congrArg Point.coordinates h)

/-- Instances of one nest with equal values of the nest's iterators are equal. -/
theorem eq_of_embedded {a b : Instance c} (hnest : a.nest = b.nest)
    (h : ∀ n ∈ (nestGroup c.maxDimension).vars, embedded c.maxDimension a.nest a.vector n =
      embedded c.maxDimension b.nest b.vector n) : a = b := by
  refine Instance.ext hnest ?_
  rw [← map_embedded a.nest a.length_le, ← map_embedded b.nest b.length_le,
    Instance.length_vector_eq hnest]
  exact map_eq_map_iff.mpr fun n hn => h n (List.mem_of_mem_take hn)

/-- Two instances of one nest are never at one point. -/
theorem Traced.eq_of_places (h : Traced P c statementPrefix s v)
    (hP : ∀ t, P t → PositiveSizes ρ t) {a b : Instance c} {q : Point} (ha : s.Places ρ a q)
    (hb : s.Places ρ b q) (hnest : a.nest = b.nest) : a = b := by
  obtain ⟨ms, F, hF, hplaces⟩ := h.places hP
  have hpoint := point_inj (((hplaces a q).mp ha).symm.trans ((hplaces b q).mp hb))
  refine eq_of_embedded hnest ?_
  refine hF.iterators _ _ ?_ fun n hn => ?_
  · rw [hnest]
    exact embedded_constants a.length_le b.length_le
  · exact hpoint n (names_subset h.sound.valid.nest n (List.mem_append_left _ hn))

/-- Without a fusion the number of the nest stays. -/
theorem Traced.nest_eq_of_places (h : Traced P c statementPrefix s v)
    (hP : ∀ t, P t → PositiveSizes ρ t) (hfree : ∀ t, P t → ∀ loops, t ≠ .fusion loops)
    {a b : Instance c} {q : Point} (ha : s.Places ρ a q) (hb : s.Places ρ b q) :
    a.nest = b.nest := by
  obtain ⟨ms, F, hF, hplaces⟩ := h.places hP
  have hpoint := point_inj (((hplaces a q).mp ha).symm.trans ((hplaces b q).mp hb))
  have hloops := hpoint _ h.sound.valid.loops_mem
  rw [hF.loops hfree, hF.loops hfree, embedded_loops, embedded_loops] at hloops
  exact Int.ofNat_inj.mp hloops

/-- The texts of a schedule relate instances to their places, if the texts of the user have
values. -/
theorem textsRelate_iff_places {iteratorPrefix : String} {ts : List Transformation} {π : Valuation}
    (hrun : applyAll ts (make c statementPrefix iteratorPrefix) = .ok () s)
    (hroot : Identifier (rootOf statementPrefix))
    (hread : ∀ t ∈ ts, t.All (Transformation.Evaluated π ρ)) {a : Instance c} {q : Point} :
    TextsRelate π (s.maps.map UnionMap.render) (a.point statementPrefix) q ↔ s.Places ρ a q := by
  obtain ⟨v, htraced⟩ := (traced_make _ c statementPrefix iteratorPrefix).applyAll hread
  rw [Action.after_of_ok hrun] at htraced
  rw [htraced.textsRelate_iff hroot, Places, htraced.statement]

/-- A schedule places every instance at exactly one point.  The constant coordinates of the point
depend on the nest alone, and distinct instances at one point belong to nests with equal constants.
Without fusions no two instances are at one point.  The texts of the maps say where the instances
are placed, if the texts of the user in them have values. -/
theorem eq_of_places_of_constants (c : Chain) (statementPrefix iteratorPrefix : String)
    (ts : List Transformation) (ρ : Valuation) (s : Schedule)
    (hrun : applyAll ts (make c statementPrefix iteratorPrefix) = .ok () s)
    (hsizes : ∀ t ∈ ts, t.All (PositiveSizes ρ)) :
    (∃ number : ℕ → List ℤ,
      (∀ a : Instance c, ∃ q, s.Places ρ a q ∧ (∀ q', s.Places ρ a q' → q' = q) ∧
        constantsOf s.layout q = number a.nest) ∧
      ∀ (a b : Instance c) q, s.Places ρ a q → s.Places ρ b q →
        (number a.nest = number b.nest → a.nest = b.nest) → a = b) ∧
    ((∀ t ∈ ts, t.All fun t => ∀ loops, t ≠ .fusion loops) →
      ∀ (a b : Instance c) q, s.Places ρ a q → s.Places ρ b q → a = b) ∧
    ∀ π : Valuation, Identifier (rootOf statementPrefix) →
      (∀ t ∈ ts, t.All (Transformation.Evaluated π ρ)) →
      ∀ (a : Instance c) q, TextsRelate π (s.maps.map UnionMap.render) (a.point statementPrefix) q ↔
        s.Places ρ a q := by
  refine ⟨?_, ?_, ?_⟩
  · obtain ⟨v, htraced⟩ := (traced_make (PositiveSizes ρ) c statementPrefix iteratorPrefix).applyAll
      hsizes
    rw [Action.after_of_ok hrun] at htraced
    obtain ⟨ms, F, hF, hplaces⟩ := htraced.places fun _ h => h
    let number (k : ℕ) : List ℤ :=
      (v.names.filter (· ∈ v.constants)).map (F (embedded c.maxDimension k []))
    have hnumber : ∀ (a : Instance c) q, s.Places ρ a q →
        constantsOf s.layout q = number a.nest := by
      intro a q ha
      rw [(hplaces a q).mp ha, constantsOf_point htraced.sound]
      refine List.map_congr_left fun n hn => ?_
      refine hF.constants _ _ ?_ n (of_decide_eq_true (List.mem_filter.mp hn).2)
      exact embedded_constants a.length_le (Nat.zero_le _)
    refine ⟨number, fun a => ?_, fun a b q ha hb hdistinct => ?_⟩
    · have hq := (hplaces a _).mpr rfl
      exact ⟨_, hq, fun q' hq' => (hplaces a q').mp hq', hnumber a _ hq⟩
    · have hnest := hdistinct ((hnumber a q ha).symm.trans (hnumber b q hb))
      exact htraced.eq_of_places (fun _ h => h) ha hb hnest
  · intro hfree a b q ha hb
    obtain ⟨v, htraced⟩ := (traced_make _ c statementPrefix iteratorPrefix).applyAll
      fun t ht => (hsizes t ht).and (hfree t ht)
    rw [Action.after_of_ok hrun] at htraced
    have hnest := htraced.nest_eq_of_places (fun _ h => h.1) (fun _ h => h.2) ha hb
    exact htraced.eq_of_places (fun _ h => h.1) ha hb hnest
  · exact fun π hroot hread a q => textsRelate_iff_places hrun hroot hread

/-- A shift and a tiling with a wavefront over the tiles keep all instances apart. -/
theorem eq_of_places_tiled :
    let nest : Nest := ⟨⟨[("0", "N"), ("0", "N")], ["N"]⟩, []⟩
    let c : Chain := ⟨[nest, nest]⟩
    let ts : List Transformation := [.shift { loop := 1, extents := ["1", "-3"] },
      .tile 0 (.uniform "4") [.wavefront] []]
    let ρ : Valuation := fun text => if text = "4" then 4 else if text = "1" then 1 else -3
    ∃ s, applyAll ts (make c "" "c") = .ok () s ∧ s.maps.length = 4 ∧
      (∀ t ∈ ts, t.All (PositiveSizes ρ)) ∧
        (∀ (a b : Instance c) q, s.Places ρ a q → s.Places ρ b q → a = b) ∧
        ∀ π (a b : Instance c) q, TextsRelate π (s.maps.map UnionMap.render) (a.point "") q →
          TextsRelate π (s.maps.map UnionMap.render) (b.point "") q → a = b := by
  intro nest c ts ρ
  have hsize : ∀ (d : ℕ) (text : String), (TileSizes.uniform "4").get? d = some text →
      text = "4" := fun d text h => (Option.some.inj h).symm
  have hsizes : ∀ t ∈ ts, t.All (PositiveSizes ρ) := by
    refine List.forall_mem_cons.mpr ⟨trivial, List.forall_mem_singleton.mpr ?_⟩
    refine ⟨fun d text htext => ?_, ⟨trivial, trivial⟩, trivial⟩
    rw [hsize d text htext]
    decide
  have hfree : ∀ t ∈ ts, t.All fun t => ∀ loops, t ≠ .fusion loops := by
    refine List.forall_mem_cons.mpr ⟨?_, List.forall_mem_singleton.mpr
      ⟨?_, ⟨?_, trivial⟩, trivial⟩⟩
    all_goals
      intro loops h
      cases h
  have hread : ∀ π, ∀ t ∈ ts, t.All (Transformation.Evaluated π ρ) := by
    intro π
    refine List.forall_mem_cons.mpr ⟨?_, List.forall_mem_singleton.mpr ?_⟩
    · refine ⟨List.nodup_nil, by simp, List.forall_mem_cons.mpr ⟨denotes_int _ π 1, ?_⟩⟩
      exact List.forall_mem_singleton.mpr (denotes_int _ π (-3))
    · refine ⟨fun d text htext => ?_, ⟨trivial, trivial⟩, trivial⟩
      rw [hsize d text htext]
      exact denotesUnit_of_tokens (n := 4) (by decide)
  obtain ⟨s, hrun, hlength⟩ : ∃ s, applyAll ts (make c "" "c") = .ok () s ∧ s.maps.length = 4 :=
    ⟨_, rfl, by decide +kernel⟩
  obtain ⟨-, hdistinct, htexts⟩ := eq_of_places_of_constants c "" "c" ts ρ s hrun hsizes
  refine ⟨s, hrun, hlength, hsizes, hdistinct hfree, fun π a b q ha hb => ?_⟩
  rw [htexts π (by decide) (hread π)] at ha hb
  exact hdistinct hfree a b q ha hb

/-- Two nests that are fused twice: instances of both are at one point. -/
theorem exists_same_place_fused_twice :
    let nest : Nest := ⟨⟨[("0", "9")], []⟩, []⟩
    let c : Chain := ⟨[nest, nest]⟩
    ∃ s, applyAll [.fusion [0, 1], .fusion [0, 1]] (make c "" "c") = .ok () s ∧
      ∀ ρ, ∃ (a b : Instance c) (q : Point), a ≠ b ∧ (s.Places ρ a q ∧ s.Places ρ b q) ∧
        TextsRelate ρ (s.maps.map UnionMap.render) (a.point "") q ∧
        TextsRelate ρ (s.maps.map UnionMap.render) (b.point "") q := by
  intro nest c
  let v := Layout.startArrangement 1
  let m := fusionMap v loopsGroup (nestGroup 1) 0 [0, 1]
  obtain ⟨s, hrun, hmaps, hstatement⟩ :
      ∃ s, applyAll [.fusion [0, 1], .fusion [0, 1]] (make c "" "c") = .ok () s ∧
        s.maps = [embedding c "", m, m] ∧ s.statementPrefix = "" :=
    ⟨_, rfl, by decide +kernel, rfl⟩
  refine ⟨s, hrun, fun ρ => ?_⟩
  have hv := Layout.valid_startArrangement 1
  have hmoves := moves_fusion (ρ := ρ) (P := fun _ => True) hv hv.loops hv.nest (by decide) 0 [0, 1]
    fun hfree => hfree (.fusion []) trivial [] rfl
  let F (σ : Valuation) : Valuation :=
    if ∃ value ∈ ([0, 1] : List ℕ), σ loopsGroup.constant = value then
      fused loopsGroup (nestGroup 1) 0 σ
    else σ
  have hplaces : ∀ (a : Instance c) q, s.Places ρ a q ↔
      q = v.point (F (F (embedded 1 a.nest a.vector))) := by
    intro a q
    rw [Places, hmaps, hstatement, Composed]
    simp only [embedding_relates, exists_eq_left]
    exact (hmoves.comp hmoves).graph _ _
  have hread : ∀ t ∈ [Transformation.fusion [0, 1], .fusion [0, 1]],
      t.All (Transformation.Evaluated ρ ρ) :=
    List.forall_mem_cons.mpr ⟨trivial, List.forall_mem_singleton.mpr trivial⟩
  have htexts : ∀ (a : Instance c) q, s.Places ρ a q →
      TextsRelate ρ (s.maps.map UnionMap.render) (a.point "") q := fun a q h =>
    (textsRelate_iff_places hrun (by decide) hread).mpr h
  let a : Instance c := ⟨0, [5], rfl⟩
  let b : Instance c := ⟨1, [5], rfl⟩
  have hne : a ≠ b := fun heq => absurd (congrArg Instance.nest heq) (by decide)
  have ha : s.Places ρ a ⟨"", [0, 5, 0]⟩ := by
    rw [hplaces]
    decide +kernel
  have hb : s.Places ρ b ⟨"", [0, 5, 0]⟩ := by
    rw [hplaces]
    decide +kernel
  exact ⟨a, b, _, hne, ⟨ha, hb⟩, htexts a _ ha, htexts b _ hb⟩

end Schedule

end LoopSched
