import LoopSched.Proofs.Schedule.Scope
import LoopSched.Schedule.Code

/-!
# Texts of the maps

Every coordinate that a layout names is one token and none is a remainder.  That holds at the start
and after every step, so it holds of every schedule in which a transformation starts, and the texts
of the maps written there can be read.  The texts of a schedule go from one tuple to the next as the
maps do, up to the tuple in the script.
-/

namespace LoopSched

open Polyhedral LoopSched.Subspace

/-! ### Names are coordinates -/

/-- The text has the characters of names only. -/
def Nameable (text : String) : Prop := ∀ c ∈ text.toList, Token.isNameChar c = true

instance (text : String) : Decidable (Nameable text) :=
  decidable_of_iff (text.toList.all Token.isNameChar = true) List.all_eq_true

theorem coordinate_tileName {stem name : String} (hstem : Nameable stem) (hname : Nameable name)
    {c : Char} (hc : stem.toList.head? = some c) (halpha : c.isAlpha = true) (hr : c ≠ 'r') :
    Coordinate (tileName stem name) where
  chars := by
    rw [toList_tileName]
    intro d hd
    rcases List.mem_append.mp hd with hd | hd
    · exact hstem d hd
    · rcases List.mem_cons.mp hd with rfl | hd
      · decide
      · exact hname d hd
  underscore := by simp [toList_tileName]
  head := by
    rw [toList_tileName, List.head?_append, hc]
    exact halpha
  unbound := by
    rw [toList_tileName, List.head?_append, hc]
    simpa using hr

theorem nameable_repr (n : ℕ) : Nameable n.repr := by
  intro c hc
  rw [Nat.toList_repr] at hc
  exact isNameChar_of_mem_toDigits hc

theorem coordinate_tile (k : ℕ) {name : String} (h : Coordinate name) :
    Coordinate (tileName (Layout.repeated "t" (k + 1)) name) := by
  refine coordinate_tileName (c := 't') ?_ h.chars ?_ (by decide) (by decide)
  · intro c hc
    rw [toList_repeated] at hc
    rw [List.eq_of_mem_replicate hc]
    decide
  · rw [toList_repeated]
    rfl

/-- A second name is a coordinate as well. -/
theorem coordinate_mark {vs : List String} {name : String} (h : Coordinate name) :
    Coordinate (mark vs name) := by
  by_cases hmem : name ∈ vs
  · have halias : aliasOf name = tileName "alias" name := by
      rw [← String.toList_inj, toList_aliasOf, toList_tileName]
      rfl
    rw [mark_of_mem hmem, halias]
    exact coordinate_tileName (c := 'a') (by decide) h.chars rfl (by decide) (by decide)
  · rwa [mark_of_not_mem hmem]

namespace Arrangement

/-- All names are coordinates. -/
def Spelled (v : Arrangement) : Prop := ∀ n ∈ v.names, Coordinate n

variable {v w : Arrangement} {width : ℕ}

theorem spelled_start (width : ℕ) : (Layout.startArrangement width).Spelled := by
  intro n hn
  rw [Layout.names_startArrangement, List.mem_cons, Layout.names_nestGroup, List.mem_map] at hn
  rcases hn with rfl | ⟨m, hm, rfl⟩
  · decide
  · refine coordinate_tileName (c := 'i') (by decide) ?_ rfl (by decide) (by decide)
    rcases List.mem_append.mp hm with hm | hm
    · obtain ⟨k, -, rfl⟩ := List.mem_map.mp hm
      exact nameable_repr k
    · rw [List.mem_singleton.mp hm]
      decide

theorem Spelled.tiled (hv : v.Spelled) {g h : Group} {k count : ℕ} (ht : Tiled v w g h k count) :
    w.Spelled := by
  intro n hn
  rcases ht.mem_names.mp hn with hn | hn
  · rw [ht.tiles] at hn
    obtain ⟨m, hm, rfl⟩ := Group.names_tiles_subset hn
    exact coordinate_tile k (hv m (ht.target_subset m hm))
  · exact hv n hn

theorem Spelled.step (hv : v.Spelled) {t : Transformation} {m : UnionMap} (h : Step t v m w) :
    w.Spelled := by
  cases h with
  | shift => exact hv
  | wavefront => exact hv
  | fusion => exact hv
  | tile _ _ _ _ htiled => exact hv.tiled htiled

theorem Spelled.steps {P : Transformation → Prop} (hv : v.Spelled) {ms : List UnionMap}
    (h : Steps P width v ms w) : w.Spelled := by
  induction h with
  | nil => exact hv
  | cons _ _ hstep _ ih => exact ih (hv.step hstep)

/-! ### Steps can be read -/

variable {id next : ℕ} {g h : Group}

theorem Spelled.names (hv : v.Spelled) (hg : (id, g) ∈ v) : ∀ n ∈ g.names, Coordinate n :=
  fun n hn => hv n (names_subset hg n hn)

theorem Spelled.vars (hv : v.Spelled) (hg : (id, g) ∈ v) : ∀ n ∈ g.vars, Coordinate n :=
  fun n hn => hv.names hg n (List.mem_append_left _ hn)

/-- A tiling splits a variable of the group into its tile coordinate in each of its dimensions. -/
theorem getElem?_splits {sizes : TileSizes} {count d : ℕ} {vs : List String} {s : Split} :
    (splits sizes count g h vs)[d]? = some s ↔ d < count ∧ ∃ base tile, g.vars[d]? = some base ∧
      h.vars[d]? = some tile ∧ s = ⟨base, mark vs tile, (sizes.get? d).getD ""⟩ := by
  simp only [splits, List.getElem?_zipWith_eq_some, List.getElem?_zip_eq_some, Prod.exists,
    List.getElem?_map, Option.map_eq_some_iff]
  constructor
  · rintro ⟨d', base, _, hd, ⟨hbase, tile, htile, rfl⟩, rfl⟩
    obtain ⟨hlt, rfl⟩ := List.getElem?_eq_some_iff.mp hd
    rw [List.length_range] at hlt
    rw [List.getElem_range]
    exact ⟨hlt, base, tile, hbase, htile, rfl⟩
  · rintro ⟨hd, base, tile, hbase, htile, rfl⟩
    exact ⟨d, base, _, List.getElem?_range hd, ⟨hbase, tile, htile, rfl⟩, rfl⟩

theorem splits_ne_nil {sizes : TileSizes} {k count : ℕ} {vs : List String}
    (ht : Tiled v w g h k count) (hcount : 0 < count) : splits sizes count g h vs ≠ [] := by
  refine List.ne_nil_of_length_pos ?_
  simp [splits, ht.tiles, Group.tiles, ht.count_le, hcount]

theorem filled_copies {vs ns : List String} : ∀ condition ∈ copies vs ns, condition.Filled := by
  induction ns with
  | nil => simp [copies, Fragment.identities]
  | cons n ns ih => exact List.forall_mem_cons.mpr ⟨trivial, ih⟩

theorem filled_movedBy : ∀ (es : List String) (ps : List (String × String)),
    ∀ condition ∈ Fragment.movedBy es ps, condition.Filled := by
  intro es ps
  fun_induction Fragment.movedBy es ps with
  | case1 => simp
  | case2 out base rest ih => exact List.forall_mem_cons.mpr ⟨trivial, ih⟩
  | case3 e es out base rest ih => exact List.forall_mem_cons.mpr ⟨trivial, ih⟩

theorem Step.filled {t : Transformation} {m : UnionMap} (hstep : Step t v m w) :
    ∀ c ∈ m.clauses, ∀ condition ∈ c.conditions, condition.Filled := by
  cases hstep with
  | shift _ hg _ =>
    refine List.forall_mem_cons.mpr ⟨?_, List.forall_mem_singleton.mpr ?_⟩
    · exact List.forall_mem_cons.mpr ⟨trivial, filled_movedBy _ _⟩
    · exact List.forall_mem_singleton.mpr trivial
  | wavefront hg hvars =>
    refine List.forall_mem_singleton.mpr (List.forall_mem_cons.mpr ⟨?_, filled_copies⟩)
    exact hvars ▸ List.cons_ne_nil _ _
  | fusion first loops hg hh hne =>
    refine List.forall_mem_cons.mpr ⟨?_, List.forall_mem_singleton.mpr ?_⟩
    · refine List.forall_mem_cons.mpr ⟨trivial, List.forall_mem_cons.mpr ⟨trivial, ?_⟩⟩
      refine List.forall_mem_cons.mpr ⟨List.cons_ne_nil _ _, ?_⟩
      exact List.forall_mem_append.mpr ⟨filled_copies, filled_copies⟩
    · refine List.forall_mem_append.mpr ⟨List.forall_mem_append.mpr ⟨?_, filled_copies⟩,
        filled_copies⟩
      exact List.forall_mem_map.mpr fun _ _ => trivial
  | tile loop sizes outer inner ht hcount _ =>
    refine List.forall_mem_cons.mpr ⟨?_, List.forall_mem_singleton.mpr ?_⟩
    · refine List.forall_mem_cons.mpr ⟨trivial, List.forall_mem_cons.mpr ⟨trivial, ?_⟩⟩
      refine List.forall_mem_cons.mpr ⟨trivial, List.forall_mem_cons.mpr ⟨?_, filled_copies⟩⟩
      exact splits_ne_nil ht hcount
    · exact List.forall_mem_cons.mpr ⟨trivial, List.forall_mem_map.mpr fun _ _ => trivial⟩

theorem Step.legible {t : Transformation} {m : UnionMap} (hstep : Step t v m w)
    (hv : v.Valid width) (hw : w.Valid width) (hspelled : v.Spelled)
    (hsymbols : ∀ n ∈ m.symbols, Identifier n) : m.Legible where
  symbols := hsymbols
  clauses := by
    intro c hc
    have hscoped := (hstep.scope hv hw c hc).2.2
    have hfilled := hstep.filled c hc
    obtain ⟨vs, conditions, rfl⟩ := hstep.exists_clause c hc
    refine ⟨Or.inl rfl, fun n hn => ?_, hscoped, hfilled⟩
    rcases hn with hn | hn
    · exact hspelled n hn
    · obtain ⟨m, hm, rfl⟩ := List.mem_map.mp hn
      exact coordinate_mark (hspelled.step hstep m hm)

/-! ### Texts of the user in a step -/

theorem texts_copies (vs ns : List String) : (copies vs ns).flatMap Condition.extents = [] ∧
    (copies vs ns).flatMap Condition.sizes = [] := by
  induction ns with
  | nil => exact ⟨rfl, rfl⟩
  | cons n ns ih => exact ih

theorem texts_zeros (ns : List String) : (ns.map (Condition.is · 0)).flatMap Condition.extents = [] ∧
    (ns.map (Condition.is · 0)).flatMap Condition.sizes = [] := by
  induction ns with
  | nil => exact ⟨rfl, rfl⟩
  | cons n ns ih => exact ih

theorem extents_movedBy_subset (es : List String) (ps : List (String × String)) :
    (Fragment.movedBy es ps).flatMap Condition.extents ⊆ es := by
  fun_induction Fragment.movedBy es ps with
  | case1 => simp
  | case2 out base rest ih => exact ih
  | case3 e es out base rest ih => exact List.cons_subset_cons e ih

theorem sizes_movedBy (es : List String) (ps : List (String × String)) :
    (Fragment.movedBy es ps).flatMap Condition.sizes = [] := by
  fun_induction Fragment.movedBy es ps with
  | case1 => rfl
  | case2 out base rest ih => exact ih
  | case3 e es out base rest ih => exact ih

theorem texts_shiftMap (v : Arrangement) (g : Group) (sh : Shift) :
    (shiftMap v g sh).extents ⊆ sh.extents ∧ (shiftMap v g sh).sizes = [] := by
  constructor
  · intro text htext
    have htext := (List.mem_append.mp htext).resolve_right List.not_mem_nil
    exact extents_movedBy_subset _ _ htext
  · simp [UnionMap.sizes, shiftMap, Clause.sizes, clause, Condition.sizes, sizes_movedBy]

/-- The texts of the user in a step are those of a shift, or the sizes of a tiling. -/
theorem Step.texts {t : Transformation} {m : UnionMap} (hstep : Step t v m w) :
    (∃ sh, ShiftsBy t sh ∧ m.symbols = sh.symbols ∧ m.extents ⊆ sh.extents ∧ m.sizes = []) ∨
    m.symbols = [] ∧ m.extents = [] ∧ ∀ text ∈ m.sizes, ∃ loop sizes outer inner d,
      t = .tile loop sizes outer inner ∧ sizes.get? d = some text := by
  cases hstep with
  | shift hshift =>
    exact Or.inl ⟨_, hshift, rfl, texts_shiftMap _ _ _⟩
  | wavefront =>
    refine Or.inr ⟨rfl, ?_, ?_⟩
    · simp [UnionMap.extents, wavefrontMap, Clause.extents, clause, Condition.extents, texts_copies]
    · simp [UnionMap.sizes, wavefrontMap, Clause.sizes, clause, Condition.sizes, texts_copies]
  | fusion =>
    refine Or.inr ⟨rfl, ?_, ?_⟩
    · simp [UnionMap.extents, fusionMap, Clause.extents, clause, Condition.extents, texts_copies]
    · simp [UnionMap.sizes, fusionMap, Clause.sizes, clause, Condition.sizes, texts_copies]
  | tile loop sizes outer inner ht _ hsome =>
    refine Or.inr ⟨rfl, ?_, fun text htext => ?_⟩
    · simp only [UnionMap.extents, tileMap, Clause.extents, clause, Condition.extents, texts_copies,
        texts_zeros, List.flatMap_cons, List.flatMap_nil, List.append_nil]
    · simp only [UnionMap.sizes, tileMap, Clause.sizes, clause, Condition.sizes, texts_copies,
        texts_zeros, List.flatMap_cons, List.flatMap_nil, List.append_nil, List.nil_append,
        List.mem_map] at htext
      obtain ⟨s, hs, rfl⟩ := htext
      obtain ⟨d, hs⟩ := List.mem_iff_getElem?.mp hs
      obtain ⟨hd, base, tile, -, -, rfl⟩ := getElem?_splits.mp hs
      obtain ⟨size, hsize⟩ := Option.isSome_iff_exists.mp (hsome d hd)
      exact ⟨loop, sizes, outer, inner, d, rfl, by rw [hsize, Option.getD_some]⟩

/-- What holds of the map of every step with the property holds of all maps of a run. -/
theorem Steps.forall_maps {P : Transformation → Prop} {Q : UnionMap → Prop} {ms : List UnionMap}
    (h : Steps P width v ms w) (hspelled : v.Spelled)
    (hQ : ∀ {t : Transformation} {m : UnionMap} {v w : Arrangement}, v.Valid width →
      w.Valid width → v.Spelled → P t → Step t v m w → Q m) : ∀ m ∈ ms, Q m := by
  induction h with
  | nil => exact fun m hm => absurd hm List.not_mem_nil
  | cons hv ht hstep hsteps ih =>
    exact List.forall_mem_cons.mpr
      ⟨hQ hv hsteps.valid_start hspelled ht hstep, ih (hspelled.step hstep)⟩

end Arrangement

namespace Transformation

/-- The texts of the user in the transformation are expressions over the names in `U`, and its
symbols are names. -/
def Expressed (U : List String) : Transformation → Prop
  | .shift sh => (∀ n ∈ sh.symbols, Identifier n) ∧ ∀ text ∈ sh.extents, ExpressedIn U text
  | .tile _ sizes _ _ => ∀ d text, sizes.get? d = some text → ExpressedIn U text
  | _ => True

theorem Expressed.shift {U : List String} {t : Transformation} (ht : t.Expressed U) {sh : Shift}
    (hshift : Arrangement.ShiftsBy t sh) :
    (∀ n ∈ sh.symbols, Identifier n) ∧ ∀ text ∈ sh.extents, ExpressedIn U text := by
  cases hshift with
  | shift => exact ht
  | automaticShift _ _ loop offset =>
    refine ⟨fun n hn => absurd hn List.not_mem_nil, fun text htext => ?_⟩
    obtain ⟨z, -, rfl⟩ := List.mem_map.mp htext
    exact expressedIn_int U z

/-- The texts of the user in the transformation can be read, and where `π` gives the values of the
symbols, `ρ` has those of the texts.  No symbol is a coordinate. -/
def Evaluated (π ρ : Valuation) : Transformation → Prop
  | .shift sh => sh.symbols.Nodup ∧ (∀ n ∈ sh.symbols, Identifier n ∧ ¬ Coordinate n) ∧
      ∀ text ∈ sh.extents, Denotes sh.symbols π text (ρ text)
  | .automaticShift .. => ∀ z : ℤ, ρ (toString z) = z
  | .tile _ sizes _ _ => ∀ d text, sizes.get? d = some text → DenotesUnit text (ρ text)
  | _ => True

theorem Evaluated.shift {π ρ : Valuation} {t : Transformation} (ht : t.Evaluated π ρ) {sh : Shift}
    (hshift : Arrangement.ShiftsBy t sh) :
    sh.symbols.Nodup ∧ (∀ n ∈ sh.symbols, Identifier n ∧ ¬ Coordinate n) ∧
      ∀ text ∈ sh.extents, Denotes sh.symbols π text (ρ text) := by
  cases hshift with
  | shift => exact ht
  | automaticShift _ _ loop offset =>
    refine ⟨List.nodup_nil, fun n hn => absurd hn List.not_mem_nil, fun text htext => ?_⟩
    obtain ⟨z, -, rfl⟩ := List.mem_map.mp htext
    rw [ht z]
    exact denotes_int _ π z

end Transformation

namespace Arrangement

/-- A step with expressions of the user can be read. -/
theorem Step.expressed {width : ℕ} {v w : Arrangement} {t : Transformation} {m : UnionMap}
    {U : List String} (hstep : Step t v m w) (hv : v.Valid width) (hw : w.Valid width)
    (hspelled : v.Spelled) (ht : t.Expressed U) :
    m.Legible ∧ ∀ text ∈ m.extents ++ m.sizes, ExpressedIn U text := by
  rcases hstep.texts with ⟨sh, hshift, hsymbols, hextents, hsizes⟩ | ⟨hsymbols, hextents, hsizes⟩
  · obtain ⟨hnames, hexpressed⟩ := ht.shift hshift
    refine ⟨hstep.legible hv hw hspelled (hsymbols ▸ hnames), fun text htext => ?_⟩
    rw [hsizes, List.append_nil] at htext
    exact hexpressed text (hextents htext)
  · refine ⟨hstep.legible hv hw hspelled (by simp [hsymbols]), fun text htext => ?_⟩
    rw [hextents, List.nil_append] at htext
    obtain ⟨loop, sizes, outer, inner, d, rfl, hsize⟩ := hsizes text htext
    exact ht d text hsize

/-- A step whose texts of the user have values relates what its text relates. -/
theorem Step.textRelates_iff {width : ℕ} {v w : Arrangement} {t : Transformation} {m : UnionMap}
    {π ρ : Valuation} (hstep : Step t v m w) (hv : v.Valid width) (hw : w.Valid width)
    (hspelled : v.Spelled) (ht : t.Evaluated π ρ) {p q : Point} :
    TextRelates π m.render p q ↔ m.Relates ρ p q := by
  rcases hstep.texts with ⟨sh, hshift, hsymbols, hextents, hsizes⟩ | ⟨hsymbols, hextents, hsizes⟩
  · obtain ⟨hdistinct, hnames, hvalues⟩ := ht.shift hshift
    rw [← hsymbols] at hdistinct hnames hvalues
    have hlegible := hstep.legible hv hw hspelled fun n hn => (hnames n hn).1
    refine hlegible.textRelates_iff hdistinct (fun c hc n hn => ?_)
      (fun text htext => hvalues text (hextents htext)) (by simp [hsizes])
    -- all names in the tuples are those of coordinates
    have htuples := (hlegible.clauses c hc).names n
    exact not_or.mp fun hmem => (hnames n hn).2 (htuples hmem)
  · refine (hstep.legible hv hw hspelled (by simp [hsymbols])).textRelates_iff (by simp [hsymbols])
      (by simp [hsymbols]) (by simp [hextents]) fun text htext => ?_
    obtain ⟨loop, sizes, outer, inner, d, rfl, hsize⟩ := hsizes text htext
    exact ht d text hsize

end Arrangement

namespace Schedule

open Arrangement

variable {c : Chain} {statementPrefix : String}

/-- A statement is named by a root that is a name, and a number. -/
theorem identifier_statement (h : Identifier (rootOf statementPrefix)) (k : ℕ) :
    Identifier (rootOf statementPrefix ++ toString k) where
  chars := by
    intro d hd
    rw [String.toList_append] at hd
    rcases List.mem_append.mp hd with hd | hd
    · exact h.chars d hd
    · exact nameable_repr k d hd
  head := by
    have hhead := h.head
    rw [String.toList_append, List.head?_append]
    cases hc : (rootOf statementPrefix).toList.head? with
    | none => simp [hc] at hhead
    | some c =>
      rw [hc] at hhead
      exact hhead
  free := by
    refine keyword?_of_underscore ?_
    have hroot : (rootOf statementPrefix).toList = statementPrefix.toList ++ "statement_".toList :=
      String.toList_append
    rw [String.toList_append, hroot]
    exact List.mem_append_left _ (List.mem_append_right _ (by decide))

theorem legible_embedding (h : Identifier (rootOf statementPrefix)) :
    (embedding c statementPrefix).Legible where
  symbols := fun n hn => absurd hn List.not_mem_nil
  clauses := by
    intro clause hclause
    have hscoped := (embedding_scope clause hclause).2
    obtain ⟨n, k, hn, rfl⟩ := mem_embedding.mp hclause
    rw [embeddingClause_eq (List.mem_of_getElem? hn)] at hscoped ⊢
    have hspelled := spelled_start c.maxDimension
    have hnest := (Layout.valid_startArrangement c.maxDimension).nest
    refine ⟨Or.inr (identifier_statement h k), fun m hm => ?_, hscoped, ?_⟩
    · rcases hm with hm | hm
      · exact hspelled.vars hnest m (List.mem_of_mem_take hm)
      · obtain ⟨m', hm', rfl⟩ := List.mem_map.mp hm
        exact coordinate_mark (hspelled m' hm')
    · refine List.forall_mem_append.mpr ⟨?_, List.forall_mem_map.mpr fun _ _ => trivial⟩
      exact List.forall_mem_cons.mpr ⟨trivial, List.forall_mem_cons.mpr ⟨trivial, filled_copies⟩⟩

/-- There are no texts of the user in the embedding. -/
theorem texts_embedding : (embedding c statementPrefix).extents = [] ∧
    (embedding c statementPrefix).sizes = [] := by
  have hclause : ∀ clause ∈ (embedding c statementPrefix).clauses,
      clause.extents = [] ∧ clause.sizes = [] := by
    intro clause hclause
    obtain ⟨n, k, hn, rfl⟩ := mem_embedding.mp hclause
    rw [embeddingClause_eq (List.mem_of_getElem? hn), Clause.extents, Clause.sizes,
      List.flatMap_append, List.flatMap_append, (texts_zeros _).1, (texts_zeros _).2,
      List.append_nil, List.append_nil]
    exact texts_copies _ _
  exact ⟨List.flatMap_eq_nil_iff.mpr fun clause h => (hclause clause h).1,
    List.flatMap_eq_nil_iff.mpr fun clause h => (hclause clause h).2⟩

/-- The text of the embedding can be read if the statements have names. -/
theorem textRelates_embedding (h : Identifier (rootOf statementPrefix)) {π ρ : Valuation}
    {p q : Point} : TextRelates π (embedding c statementPrefix).render p q ↔
      (embedding c statementPrefix).Relates ρ p q :=
  (legible_embedding h).textRelates_iff_of_eq_nil rfl texts_embedding.1 texts_embedding.2

/-- The texts of a schedule relate what its maps relate, if the texts of the user have values. -/
theorem Traced.textsRelate_iff {π ρ : Valuation} {s : Schedule} {v : Arrangement}
    (h : Traced (Transformation.Evaluated π ρ) c statementPrefix s v)
    (hroot : Identifier (rootOf statementPrefix)) {p q : Point} :
    TextsRelate π (s.maps.map UnionMap.render) p q ↔ Composed ρ s.maps p q := by
  obtain ⟨ms, hms, hsteps⟩ := h.maps
  rw [hms]
  refine Polyhedral.textsRelate_iff (List.forall_mem_cons.mpr ⟨fun p q => ?_, ?_⟩)
  · exact textRelates_embedding hroot
  · exact hsteps.forall_maps (spelled_start _) fun hv hw hspelled ht hstep p q =>
      hstep.textRelates_iff hv hw hspelled ht

open Schedule.Action

/-- A schedule in which a transformation starts, by itself or as a part of a tiling. -/
inductive Reached (c : Chain) : Schedule → Prop
  | perform (statementPrefix iteratorPrefix : String) (ops : List Operation) :
      Reached c ((make c statementPrefix iteratorPrefix).perform ops)
  /-- The first transformation that a tiling carries. -/
  | within {s s' : Schedule} {loop id : ℕ} {sizes : TileSizes} {tiling : Fragment.Tiling} :
      Reached c s → Fragment.tile loop sizes id s = .ok tiling s' →
      Reached c (s'.deeper.withLayout s'.layout.nextStage)
  /-- The next transformation that a tiling carries. -/
  | after {s s' : Schedule} {t : Transformation} {id : ℕ} {maps : List UnionMap} :
      Reached c s → t.run id s = .ok maps s' → Reached c (s'.withLayout s'.layout.nextStage)

/-- Where a transformation starts, the layout is sound and spells its names. -/
theorem Reached.sound {s : Schedule} (h : Reached c s) :
    ∃ v, s.layout.Sound c.maxDimension v v [] ∧ v.Spelled := by
  induction h with
  | perform statementPrefix iteratorPrefix ops =>
    obtain ⟨v, htraced⟩ := traced_perform c statementPrefix iteratorPrefix ops
    obtain ⟨ms, -, hsteps⟩ := htraced.maps
    exact ⟨v, htraced.sound, (spelled_start _).steps hsteps⟩
  | within _ htile ih =>
    obtain ⟨v, hsound, hspelled⟩ := ih
    obtain ⟨w, g, hsound, hcovers⟩ := Fragment.tile_eq_ok hsound htile
    exact ⟨w, hsound.nextStage, hspelled.tiled hcovers.tiled⟩
  | @after s s' t id maps _ hrun ih =>
    obtain ⟨v, hsound, hspelled⟩ := ih
    have hall := Transformation.all_of_forall (P := fun _ => True) (fun _ => trivial) t
    obtain ⟨near, w, ids, hsound, hsteps⟩ := Transformation.run_steps t hall hsound hrun
    exact ⟨w, hsound.nextStage, hspelled.steps hsteps⟩

/-! ### The texts of a schedule -/

/-- The last tuple of the texts is the tuple in the script. -/
theorem script_eq (s : Schedule) : ∃ front separate, s.script = front ++ ")) using \x7b [" ++
    ",".intercalate s.layout.inputNames ++ "] -> separate[" ++ separate ++ "] \x7d;\n" :=
  ⟨_, _, rfl⟩

/-- The maps of a schedule can be read if the texts of the user in it are expressions. -/
theorem expressed_maps (iteratorPrefix : String) (h : Identifier (rootOf statementPrefix))
    {U : List String} {ops : List Operation}
    (hops : ∀ op ∈ ops, op.All (Transformation.Expressed U)) :
    ∀ m ∈ ((make c statementPrefix iteratorPrefix).perform ops).maps,
      m.Legible ∧ ∀ text ∈ m.extents ++ m.sizes, ExpressedIn U text := by
  obtain ⟨v, -, -, ms, hms, hsteps⟩ := (traced_make _ c statementPrefix iteratorPrefix).perform hops
  rw [hms]
  refine List.forall_mem_cons.mpr ⟨⟨legible_embedding h, fun text htext => ?_⟩,
    hsteps.forall_maps (spelled_start _) fun hv hw hspelled ht hstep =>
      hstep.expressed hv hw hspelled ht⟩
  rw [texts_embedding.1, texts_embedding.2] at htext
  exact absurd htext List.not_mem_nil

/-- Whatever was done to a schedule, failures included: each map starts where the one before it
ends, the last one ends at the coordinates that code is generated for, and every clause is well
scoped.  The texts of the maps say so too, if the texts of the user in them are expressions: besides
near coordinates, only names in these give values to the far ones. -/
theorem maps_wellScoped (c : Chain) (statementPrefix iteratorPrefix : String)
    (ops : List Operation) :
    let s := (make c statementPrefix iteratorPrefix).perform ops
    (s.maps.IsChain UnionMap.Meets ∧
      (∃ last, s.maps.getLast? = some last ∧
        ∀ clause ∈ last.clauses, clause.output.map unalias = s.layout.inputNames) ∧
      ∀ m ∈ s.maps, ∀ clause ∈ m.clauses, clause.WellScoped) ∧
    (∃ front separate, s.script = front ++ ")) using \x7b [" ++
        ",".intercalate s.layout.inputNames ++ "] -> separate[" ++ separate ++ "] \x7d;\n") ∧
    tokens (",".intercalate s.layout.inputNames) = listed s.layout.inputNames ∧
    ∀ U : List String, Identifier (rootOf statementPrefix) →
      (∀ op ∈ ops, op.All (Transformation.Expressed U)) →
      ∃ us : List ParsedMap, us.map ParsedMap.tokens = s.maps.map (tokens ·.render) ∧
        us.IsChain ParsedMap.Meets ∧
        (∃ last, us.getLast? = some last ∧
          ∀ clause ∈ last.clauses, clause.output.map unalias = s.layout.inputNames) ∧
        ∀ u ∈ us, ∀ clause ∈ u.clauses, clause.WellScoped U := by
  intro s
  obtain ⟨v, hsound, -, ms, hms, hsteps⟩ := traced_perform c statementPrefix iteratorPrefix ops
  obtain ⟨hchain, ⟨last, hlast, hend⟩, hall⟩ := steps_meet embedding_scope hsteps
  rw [← hms] at hchain hlast hall
  have hend : ∀ clause ∈ last.clauses, clause.output.map unalias = s.layout.inputNames := by
    intro clause hclause
    rw [hsound.inputNames_eq]
    exact (hend clause hclause).1
  have hspelled : ∀ n ∈ s.layout.inputNames, Identifier n := by
    rw [hsound.inputNames_eq]
    exact fun n hn => ((spelled_start _).steps hsteps n hn).toIdentifier
  refine ⟨⟨hchain, ⟨last, hlast, hend⟩, hall⟩, script_eq s, Clause.tokens_tuple hspelled, ?_⟩
  intro U hroot hops
  have hmaps := expressed_maps (c := c) iteratorPrefix hroot hops
  obtain ⟨E, hE⟩ := exists_reader U
  obtain ⟨us, hus⟩ : ∃ us, List.Forall₂ (UnionMap.ReadAs E E) s.maps us := by
    refine exists_forall₂ fun m hm => (hmaps m hm).1.exists_readAs (fun text htext => ?_)
      fun text htext => ?_
    · exact (hE text ((hmaps m hm).2 text (List.mem_append_left _ htext))).1
    · exact (hE text ((hmaps m hm).2 text (List.mem_append_right _ htext))).1
  refine ⟨us, ?_, isChain_of_forall₂ hus (fun h h' => h.meets h') hchain, ?_, ?_⟩
  · exact map_eq_of_forall₂ ((List.forall₂_and_left _ _).mpr ⟨hmaps, hus⟩)
      fun m u h => h.2.tokens_eq h.1.1
  · obtain ⟨last', hlast', hread⟩ := getLast?_of_forall₂ hus hlast
    refine ⟨last', hlast', fun d hd => ?_⟩
    obtain ⟨clause, hclause, hread⟩ := exists_of_forall₂ hread.clauses hd
    rw [hread.output]
    exact hend clause hclause
  · intro u hu
    obtain ⟨m, hm, hread⟩ := exists_of_forall₂ hus hu
    exact hread.wellScoped (hmaps m hm).1 fun text htext => (hE text ((hmaps m hm).2 text htext)).2

/-- Two nests are fused, then tiled with a wavefront over the tiles and a shift inside them; a
tiling of an unknown nest fails in between. -/
theorem maps_wellScoped_tiled :
    let nest : Nest := ⟨⟨[("0", "N"), ("0", "N")], ["N"]⟩, []⟩
    let inside : Transformation := .shift { loop := 0, extents := ["N-2", "2"], symbols := ["N"] }
    let s := (make ⟨[nest, nest]⟩ "" "c").perform [.apply (.fusion [0, 1]),
      .apply (.tile 7 (.uniform "4") [] []), .apply (.tile 0 (.uniform "8") [.wavefront] [inside])]
    s.maps.length = 5 ∧ s.layout.inputNames =
      ["loops_c", "t_i_0", "t_i_1", "t_i_c", "i_0", "i_1", "i_c"] ∧
        s.maps.IsChain UnionMap.Meets ∧ (∀ m ∈ s.maps, ∀ clause ∈ m.clauses, clause.WellScoped) ∧
        ∃ us : List ParsedMap, us.map ParsedMap.tokens = s.maps.map (tokens ·.render) ∧
          us.IsChain ParsedMap.Meets ∧ ∀ u ∈ us, ∀ clause ∈ u.clauses, clause.WellScoped ["N"] := by
  intro nest inside s
  obtain ⟨⟨hchain, -, hall⟩, -, -, htexts⟩ := maps_wellScoped ⟨[nest, nest]⟩ "" "c"
    [.apply (.fusion [0, 1]), .apply (.tile 7 (.uniform "4") [] []),
      .apply (.tile 0 (.uniform "8") [.wavefront] [inside])]
  have hnumber : ∀ n : ℕ, ExpressedIn ["N"] (toString (n : ℤ)) := fun n => expressedIn_int _ n
  have hdifference : ExpressedIn ["N"] "N-2" := by
    refine ⟨.minus (.ofName "N") (.single (.number 2)), by decide, fun n hn => ?_⟩
    simpa [Expression.tokens, Expression.ofName, Product.tokens, Factor.tokens] using hn
  have htile : ∀ (loop n : ℕ) (outer inner : List Transformation),
      (Transformation.tile loop (.uniform (toString (n : ℤ))) outer inner).Expressed ["N"] := by
    intro loop n outer inner d text htext
    exact Option.some.inj htext ▸ hnumber n
  have hinside : inside.Expressed ["N"] := by
    refine ⟨by decide, ?_⟩
    exact List.forall_mem_cons.mpr ⟨hdifference, List.forall_mem_singleton.mpr (hnumber 2)⟩
  obtain ⟨us, htokens, hmeets, -, hscoped⟩ := htexts ["N"] (by decide) (by
    refine List.forall_mem_cons.mpr ⟨trivial, List.forall_mem_cons.mpr ⟨?_,
      List.forall_mem_singleton.mpr ?_⟩⟩
    · exact ⟨htile 7 4 _ _, trivial, trivial⟩
    · exact ⟨htile 0 8 _ _, ⟨trivial, trivial⟩, hinside, trivial⟩)
  exact ⟨by decide +kernel, by decide +kernel, hchain, hall, us, htokens, hmeets, hscoped⟩

end Schedule

end LoopSched
