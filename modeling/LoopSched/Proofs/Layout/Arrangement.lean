import LoopSched.Proofs.Layout.Names
import LoopSched.Schedule.Basic
import Mathlib.Data.List.Pairwise

/-!
# Arrangements

What a map can see of a layout: its groups of iterators from left to right.  A layout shows two
arrangements, the near one of the coordinates that exist already and the far one with those that are
new; `Shows` also says which subspaces are aliased.  Every change to a layout has one lemma here,
and no other module looks into a layout again.
-/

namespace LoopSched

open LoopSched.Subspace

/-- The iterators of a subspace, whatever its stage and alias. -/
structure Group where
  vars : List String
  constant : String
deriving DecidableEq, Repr

namespace Group

/-- All iterators, the constant one last. -/
def names (g : Group) : List String := g.vars ++ [g.constant]

theorem constant_mem_names (g : Group) : g.constant ∈ g.names :=
  List.mem_append_right _ (List.mem_singleton.mpr rfl)

/-- The tile coordinates for the first `count` variables. -/
def tiles (g : Group) (stem : String) (count : ℕ) : Group where
  vars := (g.vars.take count).map (tileName stem)
  constant := tileName stem g.constant

theorem names_tiles_subset {g : Group} {stem : String} {count : ℕ} {n : String}
    (h : n ∈ (g.tiles stem count).names) : ∃ m ∈ g.names, n = tileName stem m := by
  rcases List.mem_append.mp h with h | h
  · obtain ⟨m, hm, rfl⟩ := List.mem_map.mp h
    exact ⟨m, List.mem_append_left _ (List.mem_of_mem_take hm), rfl⟩
  · exact ⟨g.constant, g.constant_mem_names, List.mem_singleton.mp h⟩

theorem nodup_names_tiles {g : Group} (h : g.names.Nodup) (stem : String) (count : ℕ) :
    (g.tiles stem count).names.Nodup := by
  have hsub : (g.vars.take count ++ [g.constant]).Sublist g.names :=
    (List.take_sublist count g.vars).append_right [g.constant]
  have hmap : (g.tiles stem count).names =
      (g.vars.take count ++ [g.constant]).map (tileName stem) := by
    simp [names, tiles]
  rw [hmap]
  exact (h.sublist hsub).map (tileName_injective stem)

end Group

def Subspace.group (s : Subspace) : Group := ⟨s.vars, s.constant⟩

theorem Subspace.group_derived {stem : String} {count : ℕ} {source fresh : Subspace}
    (h : Subspace.derived stem count source = .ok fresh) :
    fresh.group = source.group.tiles stem count ∧ fresh.aliased = false ∧
      count ≤ source.vars.length := by
  unfold Subspace.derived at h
  split at h
  · cases h
  · rename_i hle
    cases h
    exact ⟨rfl, rfl, by omega⟩

theorem Subspace.group_eq_of_same {a b : Subspace} (h : a.same b = true) : a.group = b.group := by
  simp only [Subspace.same, Bool.and_eq_true, decide_eq_true_eq] at h
  rw [group, group, h.1, h.2]

/-- The groups of a layout from left to right, with their numbers. -/
abbrev Arrangement := List (ℕ × Group)

namespace Arrangement

/-- The coordinates from left to right. -/
def names (v : Arrangement) : List String := v.flatMap (·.2.names)

@[simp] theorem names_cons (e : ℕ × Group) (v : Arrangement) :
    names (e :: v) = e.2.names ++ names v := List.flatMap_cons

@[simp] theorem names_append (v w : Arrangement) : names (v ++ w) = names v ++ names w :=
  List.flatMap_append

theorem mem_names {v : Arrangement} {n : String} :
    n ∈ v.names ↔ ∃ e ∈ v, n ∈ e.2.names := List.mem_flatMap

theorem names_subset {v : Arrangement} {e : ℕ × Group} (he : e ∈ v) :
    ∀ n ∈ e.2.names, n ∈ v.names := fun _ hn => mem_names.mpr ⟨e, he, hn⟩

theorem pair_subset {v : Arrangement} {d e : ℕ × Group} (hd : d ∈ v) (he : e ∈ v) :
    ∀ n ∈ d.2.names ++ e.2.names, n ∈ v.names := fun n hn =>
  (List.mem_append.mp hn).elim (names_subset hd n) (names_subset he n)

theorem mem_names_insert {pre post : Arrangement} {e : ℕ × Group} {n : String} :
    n ∈ names (pre ++ e :: post) ↔ n ∈ e.2.names ∨ n ∈ names (pre ++ post) := by
  simp only [names_append, names_cons, List.mem_append]
  exact or_left_comm

/-- The group that tells the nests apart. -/
def loopsGroup : Group := (Subspace.make Schedule.loopsStem 0).group

/-- The group of the nests' own iterators. -/
def nestGroup (width : ℕ) : Group := (Subspace.make Schedule.nestStem width).group

/-- Numbers and names are distinct, and the two groups that every layout starts with are there. -/
structure Valid (width : ℕ) (v : Arrangement) : Prop where
  ids_nodup : (v.map Prod.fst).Nodup
  names_nodup : v.names.Nodup
  plain : ∀ n ∈ v.names, Plain n
  loops : (Layout.loops, loopsGroup) ∈ v
  nest : (Layout.nest, nestGroup width) ∈ v

namespace Valid

variable {width : ℕ} {v : Arrangement} {id id' : ℕ} {g g' : Group}

theorem group_eq (hv : v.Valid width) (hg : (id, g) ∈ v) (hg' : (id, g') ∈ v) : g = g' :=
  congrArg Prod.snd (List.inj_on_of_nodup_map hv.ids_nodup hg hg' rfl)

theorem group_nodup (hv : v.Valid width) (hg : (id, g) ∈ v) : g.names.Nodup :=
  (List.nodup_flatMap.mp hv.names_nodup).1 _ hg

/-- A name belongs to one group only. -/
theorem id_eq (hv : v.Valid width) (hg : (id, g) ∈ v) (hg' : (id', g') ∈ v) {n : String}
    (hn : n ∈ g.names) (hn' : n ∈ g'.names) : id = id' := by
  have hsymm : Std.Symm (Function.onFun List.Disjoint fun e : ℕ × Group => e.2.names) :=
    ⟨fun _ _ h _ hb ha => h ha hb⟩
  have hpair := (List.nodup_flatMap.mp hv.names_nodup).2.forall hg hg'
  by_contra hne
  exact hpair (fun h => hne (congrArg Prod.fst h)) hn hn'

/-- The names of two groups are distinct. -/
theorem pair_nodup (hv : v.Valid width) (hg : (id, g) ∈ v) (hg' : (id', g') ∈ v) (hne : id ≠ id') :
    (g.names ++ g'.names).Nodup :=
  (hv.group_nodup hg).append (hv.group_nodup hg') fun _ hn hn' => hne (hv.id_eq hg hg' hn hn')

theorem mem_names_iff (hv : v.Valid width) (hg : (id, g) ∈ v) {e : ℕ × Group} (he : e ∈ v)
    {n : String} (hn : n ∈ e.2.names) : n ∈ g.names ↔ e.1 = id := by
  constructor
  · intro h
    obtain ⟨i, k⟩ := e
    exact hv.id_eq he hg hn h
  · rintro rfl
    rwa [hv.group_eq hg he]

theorem mem_names_iff_mem_singleton (hv : v.Valid width) (hg : (id, g) ∈ v) :
    ∀ e ∈ v, ∀ n ∈ e.2.names, n ∈ g.names ↔ e.1 ∈ [id] := by
  intro e he n hn
  rw [hv.mem_names_iff hg he hn, List.mem_singleton]

theorem loops_mem (hv : v.Valid width) : loopsGroup.constant ∈ v.names :=
  names_subset hv.loops _ (by decide)

/-- A new group with new names may be put in anywhere. -/
theorem insert {pre post : Arrangement} (hv : Valid width (pre ++ post)) {n : ℕ} {h : Group}
    (hn : n ∉ (pre ++ post).map Prod.fst) (hnodup : h.names.Nodup)
    (hplain : ∀ m ∈ h.names, Plain m) (hnew : ∀ m ∈ h.names, m ∉ names (pre ++ post)) :
    Valid width (pre ++ (n, h) :: post) := by
  have hperm : List.Perm (pre ++ (n, h) :: post) ((n, h) :: (pre ++ post)) := List.perm_middle
  have hnames : (names (pre ++ (n, h) :: post)).Perm (h.names ++ names (pre ++ post)) :=
    hperm.flatMap_right _
  refine ⟨?_, ?_, ?_, ?_, ?_⟩
  · rw [(hperm.map Prod.fst).nodup_iff]
    exact List.nodup_cons.mpr ⟨hn, hv.ids_nodup⟩
  · rw [hnames.nodup_iff]
    exact hnodup.append hv.names_nodup hnew
  · intro m hm
    rcases mem_names_insert.mp hm with hm | hm
    · exact hplain m hm
    · exact hv.plain m hm
  · exact hperm.mem_iff.mpr (List.mem_cons_of_mem _ hv.loops)
  · exact hperm.mem_iff.mpr (List.mem_cons_of_mem _ hv.nest)

/-- The names of one group are not among those of the others. -/
theorem not_mem_rest {pre post : Arrangement} {n : ℕ} {h : Group}
    (hv : Valid width (pre ++ (n, h) :: post)) : ∀ m ∈ h.names, m ∉ names (pre ++ post) := by
  have hperm : (names (pre ++ (n, h) :: post)).Perm (h.names ++ names (pre ++ post)) :=
    List.Perm.flatMap_right _ List.perm_middle
  intro m hm hrest
  exact (List.nodup_append'.mp (hperm.nodup_iff.mp hv.names_nodup)).2.2 hm hrest

end Valid

end Arrangement

namespace Layout

open Arrangement

/-- The subspaces from left to right, with their numbers. -/
def entries (l : Layout) : List (ℕ × Subspace) :=
  l.order.filterMap fun id => l.arena[id]?.map (id, ·)

/-- What an arrangement keeps of a subspace. -/
def tag (e : ℕ × Subspace) : ℕ × Group := (e.1, e.2.group)

theorem mem_entries {l : Layout} {id : ℕ} {sub : Subspace} :
    (id, sub) ∈ l.entries ↔ id ∈ l.order ∧ l.arena[id]? = some sub := by
  simp only [entries, List.mem_filterMap, Option.map_eq_some_iff, Prod.mk.injEq]
  constructor
  · rintro ⟨_, hid, _, hsub, rfl, rfl⟩
    exact ⟨hid, hsub⟩
  · rintro ⟨hid, hsub⟩
    exact ⟨id, hid, sub, hsub, rfl, rfl⟩

theorem find_eq_ok {l : Layout} {id : ℕ} {sub : Subspace} :
    l.find id = .ok sub ↔ (id, sub) ∈ l.entries := by
  have hposition : (l.position? id).isSome ↔ id ∈ l.order := by
    simp [position?, List.findIdx?_isSome]
  rw [mem_entries, ← hposition]
  unfold find
  cases l.position? id <;> cases l.arena[id]? <;> simp

theorem spaces_eq (l : Layout) : l.spaces = l.entries.map Prod.snd := by
  unfold spaces entries
  rw [List.map_filterMap]
  congr 1
  funext id
  cases l.arena[id]? <;> rfl

theorem namesAt_eq (l : Layout) (stage : Stage) (useAliases : Bool) :
    l.namesAt stage useAliases = l.entries.flatMap fun e => e.2.namesAt stage useAliases := by
  rw [namesAt, spaces_eq, List.flatMap_map]

/-- The layout shows these arrangements, before and after the next map, and has the subspaces `ids`
aliased. -/
structure Shows (l : Layout) (near far : Arrangement) (ids : List ℕ) : Prop where
  near_eq : (l.entries.filter (·.2.stage ≤ l.stage)).map tag = near
  far_eq : l.entries.map tag = far
  staged : ∀ e ∈ l.entries, e.2.stage ≤ l.stage + 1
  aliased : ∀ e ∈ l.entries, e.2.aliased = true ↔ e.1 ∈ ids

namespace Shows

variable {l l' : Layout} {near far : Arrangement} {ids : List ℕ} {id : ℕ} {sub : Subspace}

theorem tag_mem (h : l.Shows near far ids) (hid : l.find id = .ok sub) :
    (id, sub.group) ∈ far := by
  rw [← h.far_eq]
  exact List.mem_map_of_mem (f := tag) (find_eq_ok.mp hid)

/-- Where both arrangements are one, every subspace exists already. -/
theorem stage_le {v : Arrangement} (h : l.Shows v v ids) :
    ∀ e ∈ l.entries, e.2.stage ≤ l.stage := by
  have hlength := congrArg List.length (h.near_eq.trans h.far_eq.symm)
  rw [List.length_map, List.length_map] at hlength
  intro e he
  exact of_decide_eq_true (List.length_filter_eq_length_iff.mp hlength e he)

/-- The near side of the next map: all that exists, by its plain names. -/
theorem inputNames_eq (h : l.Shows near far ids) : l.inputNames = near.names := by
  rw [inputNames, namesAt_eq, ← h.near_eq]
  generalize l.entries = es
  induction es with
  | nil => rfl
  | cons e es ih =>
    have hplain : e.2.names false = e.2.group.names := List.map_id _
    rw [List.flatMap_cons, ih, Subspace.namesAt]
    by_cases hstage : e.2.stage ≤ l.stage
    · rw [if_neg (Int.not_lt.mpr hstage), List.filter_cons_of_pos (by simpa using hstage),
        List.map_cons,
        names_cons, hplain]
      rfl
    · rw [if_pos (Int.not_le.mp hstage), List.filter_cons_of_neg (by simpa using hstage)]
      rfl

/-- The far name of a coordinate, when `vs` are the coordinates of the aliased subspaces. -/
theorem decorate_eq (h : l.Shows near far ids) {vs : List String}
    (hvs : ∀ e ∈ far, ∀ n ∈ e.2.names, n ∈ vs ↔ e.1 ∈ ids) {e : ℕ × Subspace} (he : e ∈ l.entries)
    {n : String} (hn : n ∈ e.2.group.names) : e.2.decorate true n = mark vs n := by
  have hmem : tag e ∈ far := h.far_eq ▸ List.mem_map_of_mem he
  have hn' := (hvs _ hmem n hn).trans (h.aliased e he).symm
  by_cases ha : e.2.aliased = true
  · rw [mark_of_mem (hn'.mpr ha), decorate, ha]
    rfl
  · rw [mark_of_not_mem (fun hc => ha (hn'.mp hc)), decorate, Bool.eq_false_iff.mpr ha]
    rfl

/-- The far side of the next map: everything, by the second name where it is aliased. -/
theorem outputNames_eq (h : l.Shows near far ids) {vs : List String}
    (hvs : ∀ e ∈ far, ∀ n ∈ e.2.names, n ∈ vs ↔ e.1 ∈ ids) :
    l.outputNames = far.names.map (mark vs) := by
  have hentry : ∀ e ∈ l.entries,
      e.2.namesAt l.outputStage true = (tag e).2.names.map (mark vs) := by
    intro e he
    have hstage : ¬ l.outputStage < e.2.stage := Int.not_lt.mpr (h.staged e he)
    rw [Subspace.namesAt, if_neg hstage]
    exact List.map_congr_left fun n hn => h.decorate_eq hvs he hn
  rw [outputNames, namesAt_eq, ← h.far_eq, Arrangement.names, List.map_flatMap, List.flatMap_map]
  exact List.flatMap_congr hentry

/-! ### Changes -/

/-- A change to the subspaces that keeps numbers, names and stages keeps the arrangements. -/
theorem map (h : l.Shows near far ids) {f : ℕ × Subspace → ℕ × Subspace}
    (hentries : l'.entries = l.entries.map f) (hstage : l'.stage = l.stage)
    (htag : ∀ e, tag (f e) = tag e) (hsame : ∀ e, (f e).2.stage = e.2.stage) {ids' : List ℕ}
    (haliased : ∀ e ∈ l.entries, (f e).2.aliased = true ↔ e.1 ∈ ids') : l'.Shows near far ids' := by
  have hfilter : l'.entries.filter (·.2.stage ≤ l'.stage) =
      (l.entries.filter (·.2.stage ≤ l.stage)).map f := by
    rw [hentries, hstage, List.filter_map]
    congr 2
    funext e
    simp only [Function.comp, hsame]
  have htag' : tag ∘ f = tag := funext htag
  refine ⟨?_, ?_, ?_, ?_⟩
  · rw [hfilter, List.map_map, htag', h.near_eq]
  · rw [hentries, List.map_map, htag', h.far_eq]
  · intro e he
    rw [hentries] at he
    obtain ⟨e₀, he₀, rfl⟩ := List.mem_map.mp he
    rw [hsame, hstage]
    exact h.staged e₀ he₀
  · intro e he
    rw [hentries] at he
    obtain ⟨e₀, he₀, rfl⟩ := List.mem_map.mp he
    have hid : (f e₀).1 = e₀.1 := congrArg (fun e : ℕ × Group => e.1) (htag e₀)
    rw [haliased e₀ he₀, hid]

theorem entries_setAlias (l : Layout) (id : ℕ) (on : Bool) : (l.setAlias id on).entries =
    l.entries.map fun e => if e.1 = id then (e.1, { e.2 with aliased := on }) else e := by
  unfold entries setAlias Layout.modify
  rw [List.map_filterMap]
  congr 1
  funext i
  rw [List.getElem?_modify]
  by_cases hi : id = i
  · cases l.arena[i]? <;> simp [hi]
  · cases l.arena[i]? <;> simp [hi, Ne.symm hi]

/-- Setting or clearing an alias changes the list of aliased subspaces at that number only. -/
theorem setAlias (h : l.Shows near far ids) {on : Bool} {ids' : List ℕ}
    (hids : ∀ i, i ∈ ids' ↔ if i = id then on = true else i ∈ ids) :
    (l.setAlias id on).Shows near far ids' := by
  refine h.map (entries_setAlias l id on) rfl ?_ ?_ ?_
  · intro e
    dsimp only
    split <;> rfl
  · intro e
    dsimp only
    split <;> rfl
  · intro e he
    dsimp only
    rw [hids]
    split
    · rfl
    · exact h.aliased e he

theorem entries_nextStage (l : Layout) :
    l.nextStage.entries = l.entries.map fun e => (e.1, { e.2 with aliased := false }) := by
  unfold entries nextStage
  rw [List.map_filterMap]
  congr 1
  funext i
  rw [List.getElem?_map]
  cases l.arena[i]? <;> rfl

/-- In the next stage all coordinates exist and none has a second name. -/
theorem nextStage (h : l.Shows near far ids) : l.nextStage.Shows far far [] := by
  have hentries := entries_nextStage l
  have htag : l.nextStage.entries.map tag = far := by
    rw [hentries, List.map_map, ← h.far_eq]
    rfl
  have hstaged : ∀ e ∈ l.nextStage.entries,
      e.2.stage ≤ l.nextStage.stage ∧ e.2.aliased = false := by
    intro e he
    rw [hentries] at he
    obtain ⟨e₀, he₀, rfl⟩ := List.mem_map.mp he
    exact ⟨h.staged e₀ he₀, rfl⟩
  refine ⟨?_, htag, ?_, ?_⟩
  · rw [List.filter_eq_self.mpr, htag]
    intro e he
    exact decide_eq_true (hstaged e he).1
  · intro e he
    have := (hstaged e he).1
    exact Int.le_trans this (Int.le_of_lt (Int.lt_succ _))
  · intro e he
    simp [(hstaged e he).2]

end Shows

/-! ### Places -/

/-- Every number in the order belongs to a subspace. -/
def Placed (l : Layout) : Prop := ∀ id ∈ l.order, id < l.arena.length

theorem position?_eq_some {l : Layout} {id p : ℕ} (h : l.position? id = some p) :
    ∃ left right, l.order = left ++ id :: right ∧ left.length = p := by
  obtain ⟨hp, hid, -⟩ := List.findIdx?_eq_some_iff_getElem.mp h
  have hid : l.order[p] = id := by simpa using hid
  refine ⟨l.order.take p, l.order.drop (p + 1), ?_, ?_⟩
  · rw [← hid, ← List.drop_eq_getElem_cons hp, List.take_append_drop]
  · rw [List.length_take]
    omega

theorem ids_entries {l : Layout} (h : l.Placed) : l.entries.map Prod.fst = l.order := by
  have hsome : ∀ id ∈ l.order, (l.arena[id]?.map (id, ·)).map Prod.fst = some id := by
    intro id hid
    rw [List.getElem?_eq_getElem (h id hid)]
    rfl
  unfold entries
  rw [List.map_filterMap, List.filterMap_congr hsome, List.filterMap_some]

/-- The entries follow a split of the order. -/
theorem entries_split {l : Layout} (h : l.Placed) {left right : List ℕ}
    (horder : l.order = left ++ right) : ∃ pre post,
      l.entries = pre ++ post ∧ pre.map Prod.fst = left ∧ post.map Prod.fst = right := by
  have hids := ids_entries h
  rw [horder] at hids
  exact List.map_eq_append_iff.mp hids

/-- The subspace to the right is the next entry. -/
theorem next?_eq_some {l : Layout} (h : l.Placed) {id next : ℕ} (hnext : l.next? id = some next) :
    ∃ pre sub sub' post, l.entries = pre ++ (id, sub) :: (next, sub') :: post := by
  simp only [next?, Option.bind_eq_bind, Option.bind_eq_some_iff] at hnext
  obtain ⟨p, hp, hnext⟩ := hnext
  obtain ⟨left, right, horder, rfl⟩ := position?_eq_some hp
  have hright : right = next :: right.tail := by
    rw [horder, List.getElem?_append_right (Nat.le_add_right _ 1), Nat.add_sub_cancel_left,
      List.getElem?_cons_succ] at hnext
    cases right with
    | nil => cases hnext
    | cons a right =>
      cases hnext
      rfl
  rw [hright] at horder
  obtain ⟨pre, rest, hentries, -, hrest⟩ := entries_split h horder
  obtain ⟨⟨_, sub⟩, rest, rfl, rfl, hnexts⟩ := List.map_eq_cons_iff.mp hrest
  obtain ⟨⟨_, sub'⟩, post, rfl, rfl, -⟩ := List.map_eq_cons_iff.mp hnexts
  exact ⟨pre, sub, sub', post, hentries⟩

theorem insertIdx_length {α : Type} (xs ys : List α) (x : α) :
    (xs ++ ys).insertIdx xs.length x = xs ++ x :: ys := by
  induction xs with
  | nil => rfl
  | cons a xs ih => rw [List.cons_append, List.length_cons, List.insertIdx_succ_cons, ih,
      List.cons_append]

/-- The next number may be put anywhere among the numbers below it. -/
theorem perm_range_succ {left right : List ℕ} {n : ℕ} (h : (left ++ right).Perm (List.range n)) :
    (left ++ n :: right).Perm (List.range (n + 1)) := by
  rw [List.range_succ]
  calc left ++ n :: right
      |>.Perm (n :: (left ++ right)) := List.perm_middle
    _ |>.Perm (n :: List.range n) := h.cons _
    _ |>.Perm (List.range n ++ [n]) := (List.perm_append_singleton _ _).symm

/-- Numbers that are taken already keep their subspaces when one is added. -/
theorem filterMap_push {arena : List Subspace} {ids : List ℕ} (h : ∀ id ∈ ids, id < arena.length)
    (s : Subspace) : ids.filterMap (fun id => (arena ++ [s])[id]?.map (id, ·)) =
      ids.filterMap fun id => arena[id]?.map (id, ·) := by
  refine List.filterMap_congr fun id hid => ?_
  rw [List.getElem?_append_left (h id hid)]

/-- A new subspace stands directly to the left of its cursor and has the next free number. -/
theorem insertLeft_eq_ok {l l' : Layout} (h : l.Placed) {fresh : Subspace} {cursor n : ℕ}
    (hl : l.insertLeft fresh cursor = .ok (n, l')) : n = l.arena.length ∧ l'.Placed ∧
      l'.stage = l.stage ∧ l'.stems = l.stems ∧ ∃ pre sub post,
        l.entries = pre ++ (cursor, sub) :: post ∧
        l'.entries =
          pre ++ (n, { fresh with stage := l.outputStage }) :: (cursor, sub) :: post := by
  unfold insertLeft at hl
  split at hl
  · rename_i p hp
    simp only [insertAt, Except.ok.injEq, Prod.mk.injEq] at hl
    obtain ⟨rfl, rfl⟩ := hl
    obtain ⟨left, right, horder, rfl⟩ := position?_eq_some hp
    have hinsert : l.order.insertIdx left.length l.arena.length =
        left ++ l.arena.length :: cursor :: right := by
      rw [horder, insertIdx_length]
    rw [hinsert]
    have hlt : ∀ id ∈ left ++ cursor :: right, id < l.arena.length := by rwa [← horder]
    have hcursor := hlt cursor (by simp)
    have hleft : ∀ id ∈ left, id < l.arena.length := fun id hid => hlt id (by simp [hid])
    have hright : ∀ id ∈ right, id < l.arena.length := fun id hid => hlt id (by simp [hid])
    refine ⟨rfl, ?_, rfl, rfl, left.filterMap fun id => l.arena[id]?.map (id, ·),
      l.arena[cursor], right.filterMap fun id => l.arena[id]?.map (id, ·), ?_, ?_⟩
    · intro id hid
      have hid : id ∈ left ∨ id = l.arena.length ∨ id = cursor ∨ id ∈ right := by
        simpa using hid
      rw [List.length_append]
      rcases hid with hid | rfl | rfl | hid
      · exact Nat.lt_succ_of_lt (hleft id hid)
      · exact Nat.lt_succ_self _
      · exact Nat.lt_succ_of_lt hcursor
      · exact Nat.lt_succ_of_lt (hright id hid)
    · unfold entries
      rw [horder]
      simp [List.filterMap_append, hcursor]
    · unfold entries
      simp only [List.filterMap_append, List.filterMap_cons, filterMap_push hleft,
        filterMap_push hright, List.getElem?_append_left hcursor,
        List.getElem?_eq_getElem hcursor, List.getElem?_concat_length, Option.map_some]
  · cases hl

end Layout

end LoopSched
