import LoopSched.Proofs.Layout.Arrangement

/-!
# Sound layouts

What holds of a layout at every point of every run: it shows a valid arrangement, and no name in it
starts with more `t`s than the stems that were handed out.  The start layout is sound, and so is a
sound layout after an alias is set, after a tile subspace is inserted and in the next stage.
-/

namespace LoopSched

open LoopSched.Subspace Arrangement

/-- The subspace has the names of the group, and on the far side of a map those of the map that
rewrites `vs`. -/
structure Subspace.Spells (sub : Subspace) (g : Group) (vs : List String) : Prop where
  vars : sub.vars = g.vars
  constant : sub.constant = g.constant
  variableNames : sub.variableNames = g.vars.map (mark vs)
  constantName : sub.constantName = mark vs g.constant

namespace Subspace.Spells

variable {sub : Subspace} {g : Group} {vs : List String}

theorem baseNames (h : sub.Spells g vs) : sub.baseNames = g.names := by
  rw [Subspace.baseNames, Group.names, h.vars, h.constant]

theorem names (h : sub.Spells g vs) : sub.names true = g.names.map (mark vs) := by
  rw [Group.names, List.map_append, ← h.variableNames, List.map_singleton, ← h.constantName]
  exact List.map_append

end Subspace.Spells

namespace Layout

/-- How many stems of tiles were handed out. -/
def taken (l : Layout) : ℕ := (l.stems.lookup "t").getD 0

/-- The layout shows valid arrangements, with `ids` aliased, and knows the longest stem in use. -/
structure Sound (width : ℕ) (l : Layout) (near far : Arrangement) (ids : List ℕ) : Prop
    extends l.Shows near far ids where
  placed : l.Placed
  valid : far.Valid width
  lead_le : ∀ n ∈ far.names, lead n ≤ l.taken

theorem entries_startLayout (c : Chain) : (Schedule.startLayout c).entries =
    [(loops, { Subspace.make Schedule.loopsStem 0 with stage := baseStage }),
      (nest, { Subspace.make Schedule.nestStem c.maxDimension with stage := baseStage })] := rfl

/-- The arrangement of every schedule before its first transformation. -/
def startArrangement (width : ℕ) : Arrangement := [(loops, loopsGroup), (nest, nestGroup width)]

/-- The names of the nests' iterators: `i_` and a number, or `i_c`. -/
theorem names_nestGroup (width : ℕ) : (nestGroup width).names =
    ((List.range width).map Nat.repr ++ ["c"]).map (tileName "i") := by
  rw [List.map_append, List.map_map]
  rfl

theorem nodup_names_nestGroup (width : ℕ) : (nestGroup width).names.Nodup := by
  have hrange : ((List.range width).map Nat.repr).Nodup := List.nodup_range.map repr_injective
  have hc : "c" ∉ (List.range width).map Nat.repr := by
    intro h
    obtain ⟨k, -, hk⟩ := List.mem_map.mp h
    exact repr_ne_c k hk
  rw [names_nestGroup]
  refine List.Nodup.map (tileName_injective "i") ?_
  exact hrange.append (List.nodup_singleton "c") (by simpa using hc)

theorem names_startArrangement (width : ℕ) :
    (startArrangement width).names = "loops_c" :: (nestGroup width).names := by
  rw [startArrangement, names_cons, names_cons]
  exact congrArg (List.cons _) (List.append_nil _)

theorem head_of_mem_nestGroup {width : ℕ} {n : String} (h : n ∈ (nestGroup width).names) :
    n.toList.head? = some 'i' := by
  rw [names_nestGroup] at h
  obtain ⟨m, -, rfl⟩ := List.mem_map.mp h
  rw [toList_tileName]
  rfl

/-- No name of the start begins like an alias or a tile coordinate. -/
theorem head_of_mem_start {width : ℕ} {n : String} (h : n ∈ (startArrangement width).names) :
    ∃ c, n.toList.head? = some c ∧ c ≠ 'a' ∧ c ≠ 't' := by
  rw [names_startArrangement] at h
  rcases List.mem_cons.mp h with rfl | h
  · exact ⟨'l', by decide, by decide, by decide⟩
  · exact ⟨'i', head_of_mem_nestGroup h, by decide, by decide⟩

theorem valid_startArrangement (width : ℕ) : (startArrangement width).Valid width where
  ids_nodup := by
    show [0, 1].Nodup
    decide
  names_nodup := by
    rw [names_startArrangement]
    refine List.nodup_cons.mpr ⟨fun hmem => ?_, nodup_names_nestGroup width⟩
    exact absurd (head_of_mem_nestGroup hmem) (by decide)
  plain := by
    intro n hn
    obtain ⟨c, hc, ha, -⟩ := head_of_mem_start hn
    exact plain_of_head hc ha
  loops := List.mem_cons_self
  nest := List.mem_cons_of_mem _ List.mem_cons_self

theorem sound_startLayout (c : Chain) :
    Sound c.maxDimension (Schedule.startLayout c) (startArrangement c.maxDimension)
      (startArrangement c.maxDimension) [] where
  near_eq := rfl
  far_eq := rfl
  staged := by
    intro e he
    rw [entries_startLayout] at he
    simp only [List.mem_cons, List.not_mem_nil, or_false] at he
    rcases he with rfl | rfl
    · show (0 : Int) ≤ 0 + 1
      decide
    · show (0 : Int) ≤ 0 + 1
      decide
  aliased := by
    intro e he
    rw [entries_startLayout] at he
    simp only [List.mem_cons, List.not_mem_nil, or_false] at he
    rcases he with rfl | rfl <;> simp [Subspace.make]
  placed := by
    intro i hi
    have hi : i ∈ [0, 1] := hi
    show i < 2
    simp at hi
    omega
  valid := valid_startArrangement c.maxDimension
  lead_le := by
    intro n hn
    obtain ⟨c, hc, -, ht⟩ := head_of_mem_start hn
    rw [lead_of_head hc ht]
    exact Nat.zero_le _

namespace Sound

variable {width : ℕ} {l : Layout} {near far v : Arrangement} {ids : List ℕ} {id : ℕ}

theorem setAlias (h : Sound width l near far ids) {on : Bool} {ids' : List ℕ}
    (hids : ∀ i, i ∈ ids' ↔ if i = id then on = true else i ∈ ids) :
    Sound width (l.setAlias id on) near far ids' where
  toShows := h.toShows.setAlias hids
  placed := by
    intro i hi
    have := h.placed i hi
    simpa [Layout.setAlias, Layout.modify] using this
  valid := h.valid
  lead_le := h.lead_le

theorem aliasing (h : Sound width l near far ids) (id : ℕ) :
    Sound width (l.setAlias id true) near far (id :: ids) := by
  refine h.setAlias fun i => ?_
  by_cases hi : i = id <;> simp [hi]

theorem clearing (h : Sound width l near far ids) (ids' : List ℕ)
    (hids : ∀ i, i ∈ ids' ↔ i ∈ ids ∧ i ≠ id) :
    Sound width (l.setAlias id false) near far ids' := by
  refine h.setAlias fun i => ?_
  rw [hids]
  by_cases hi : i = id <;> simp [hi]

theorem nextStage (h : Sound width l near far ids) : Sound width l.nextStage far far [] where
  toShows := h.toShows.nextStage
  placed := by
    intro i hi
    have := h.placed i hi
    simpa [Layout.nextStage] using this
  valid := h.valid
  lead_le := h.lead_le

theorem ids_eq (h : Sound width l near far ids) : far.map Prod.fst = l.order := by
  rw [← h.far_eq, List.map_map, ← ids_entries h.placed]
  rfl

/-- Every group belongs to a subspace of the layout. -/
theorem find_of_mem (h : Sound width l near far ids) {g : Group} (hg : (id, g) ∈ far) :
    ∃ sub, l.find id = .ok sub ∧ sub.group = g := by
  rw [← h.far_eq] at hg
  obtain ⟨⟨i, sub⟩, hsub, htag⟩ := List.mem_map.mp hg
  obtain ⟨rfl, hgroup⟩ := Prod.mk.inj htag
  exact ⟨sub, find_eq_ok.mpr hsub, hgroup⟩

/-- The number of the nest has its own coordinate. -/
theorem get?_loops (h : Sound width l near far ids) :
    (l.get? loops).map (·.constant) = some loopsGroup.constant := by
  obtain ⟨sub, hsub, hgroup⟩ := h.find_of_mem h.valid.loops
  have hconstant : sub.constant = loopsGroup.constant := congrArg Group.constant hgroup
  rw [get?, (mem_entries.mp (find_eq_ok.mp hsub)).2, Option.map_some, hconstant]

/-- A subspace spells its group's names as the map does that rewrites the aliased ones. -/
theorem spells (h : Sound width l near far ids) {vs : List String}
    (hvs : ∀ e ∈ far, ∀ n ∈ e.2.names, n ∈ vs ↔ e.1 ∈ ids) {sub : Subspace} {g : Group}
    (hg : (id, g) ∈ far) (hsub : l.find id = .ok sub) : sub.Spells g vs := by
  have hgroup : sub.group = g := h.valid.group_eq (h.tag_mem hsub) hg
  have hentry := find_eq_ok.mp hsub
  subst hgroup
  refine ⟨rfl, rfl, ?_, ?_⟩
  · exact List.map_congr_left fun n hn => h.decorate_eq hvs hentry (List.mem_append_left _ hn)
  · exact h.decorate_eq hvs hentry (Group.constant_mem_names _)

/-- What a layout shows after a subspace was inserted that only exists from the next map on. -/
theorem shows_insert (h : l.Shows v v []) {l' : Layout} {n : ℕ} {sub fresh : Subspace}
    {pre post : List (ℕ × Subspace)} (hstage : l'.stage = l.stage)
    (hentries : l.entries = pre ++ (id, sub) :: post)
    (hentries' : l'.entries =
      pre ++ (n, { fresh with stage := l.outputStage }) :: (id, sub) :: post)
    (haliased : fresh.aliased = false) :
    l'.Shows v (pre.map tag ++ (n, fresh.group) :: (id, sub.group) :: post.map tag) [] := by
  have hmem : ∀ e ∈ l'.entries, e ∈ l.entries ∨ e = (n, { fresh with stage := l.outputStage }) := by
    intro e he
    rw [hentries'] at he
    rw [hentries]
    simp only [List.mem_append, List.mem_cons] at he ⊢
    tauto
  refine ⟨?_, ?_, ?_, ?_⟩
  · have hnew : ¬ l.outputStage ≤ l.stage := Int.not_le.mpr (Int.lt_succ _)
    have hold : ∀ es : List (ℕ × Subspace), (∀ e ∈ es, e ∈ l.entries) →
        es.filter (·.2.stage ≤ l.stage) = es :=
      fun es hes => List.filter_eq_self.mpr fun e he => decide_eq_true (h.stage_le e (hes e he))
    rw [hentries', hstage]
    rw [List.filter_append, List.filter_cons_of_neg (by simpa using hnew),
      hold pre (by simp +contextual [hentries]),
      hold ((id, sub) :: post) (by simp +contextual [hentries]), ← hentries, h.far_eq]
  · rw [hentries', List.map_append, List.map_cons, List.map_cons, tag, tag]
    rfl
  · intro e he
    rw [hstage]
    rcases hmem e he with he | rfl
    · exact h.staged e he
    · exact Int.le_refl _
  · intro e he
    rcases hmem e he with he | rfl
    · exact h.aliased e he
    · simp [haliased]

/-- A group with a new stem may be inserted to the left of the group it is made for. -/
theorem insertTile (h : Sound width l v v []) {g : Group} (hg : (id, g) ∈ v) {count n : ℕ}
    {fresh : Subspace} (hfresh : fresh.group = g.tiles (l.freshStem "t").1 count)
    (haliased : fresh.aliased = false) {l' : Layout}
    (hl : (l.freshStem "t").2.insertLeft fresh id = .ok (n, l')) :
    ∃ pre post, v = pre ++ (id, g) :: post ∧
      Sound width l' v (pre ++ (n, fresh.group) :: (id, g) :: post) [] := by
  have hplaced : (l.freshStem "t").2.Placed := h.placed
  obtain ⟨rfl, hplaced', hstage, hstems, pre, sub, post, hentries, hentries'⟩ :=
    insertLeft_eq_ok hplaced hl
  -- taking the stem changed nothing but the count of stems
  have hentries : l.entries = pre ++ (id, sub) :: post := hentries
  have hshows := shows_insert h.toShows hstage hentries hentries' haliased
  have hv : v = pre.map tag ++ (id, sub.group) :: post.map tag := by
    rw [← h.far_eq, hentries]
    simp [tag]
  have hsub : sub.group = g := h.valid.group_eq (by simp [hv]) hg
  rw [hsub] at hv hshows
  have hids := h.ids_eq
  have hstem : (l.freshStem "t").1 = repeated "t" (l.taken + 1) := rfl
  have htaken : l'.taken = l.taken + 1 := by
    rw [taken, hstems]
    simp [freshStem, taken]
  -- the new names start with one more `t` than any old one
  have hlead : ∀ m ∈ fresh.group.names, lead m = l.taken + 1 := by
    intro m hm
    rw [hfresh, hstem] at hm
    obtain ⟨m, -, rfl⟩ := Group.names_tiles_subset hm
    exact lead_tileName _ m
  refine ⟨pre.map tag, post.map tag, hv, ⟨hshows, hplaced', ?_, ?_⟩⟩
  · refine Valid.insert (hv ▸ h.valid) ?_ ?_ ?_ ?_
    · rw [← hv, hids]
      intro hmem
      exact absurd (h.placed _ hmem) (Nat.lt_irrefl _)
    · rw [hfresh]
      exact Group.nodup_names_tiles (h.valid.group_nodup hg) _ _
    · intro m hm
      rw [hfresh, hstem] at hm
      obtain ⟨m, -, rfl⟩ := Group.names_tiles_subset hm
      exact plain_tileName _ m
    · intro m hm hold
      rw [← hv] at hold
      have := h.lead_le m hold
      have := hlead m hm
      omega
  · intro m hm
    rw [htaken]
    rcases mem_names_insert.mp hm with hm | hm
    · exact Nat.le_of_eq (hlead m hm)
    · rw [← hv] at hm
      exact Nat.le_succ_of_le (h.lead_le m hm)

end Sound

end Layout

end LoopSched
