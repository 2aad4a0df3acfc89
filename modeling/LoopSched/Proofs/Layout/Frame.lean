import LoopSched.Proofs.Layout.Sound
import Mathlib.Data.List.Induction
import Mathlib.Data.List.Perm.Basic
import Mathlib.Logic.Relation

/-!
# The frame of a layout

The subspace that tells the nests apart stays at the left end of a layout and the nests' own
subspace at its right end, every subspace has exactly one place, and no name contains the character
that separates names in a map.  Tile coordinates are always put to the left of coordinates that have
variables, so never in front of the first subspace.

In such a layout the joined names can be taken apart again, and the names of a subspace are found
at its offset.
-/

namespace LoopSched

open LoopSched.Subspace Arrangement

namespace Layout

/-- The groups of all subspaces by number. -/
def groups (l : Layout) : List Group := l.arena.map Subspace.group

structure Framed (l : Layout) : Prop where
  perm : l.order.Perm (List.range l.arena.length)
  first : l.order.head? = some loops
  last : l.order.getLast? = some nest
  loops_eq : l.groups[loops]? = some loopsGroup
  unbroken : ∀ g ∈ l.groups, ∀ n ∈ g.names, ',' ∉ n.toList

theorem unbroken_tileName {stem name : String} (hstem : ',' ∉ stem.toList)
    (hname : ',' ∉ name.toList) : ',' ∉ (tileName stem name).toList := by
  rw [toList_tileName, List.mem_append, List.mem_cons]
  rintro (h | h | h)
  · exact hstem h
  · exact absurd h (by decide)
  · exact hname h

theorem unbroken_repeated (k : ℕ) : ',' ∉ (repeated "t" k).toList := by
  rw [toList_repeated]
  intro h
  exact absurd (List.eq_of_mem_replicate h) (by decide)

theorem unbroken_repr (k : ℕ) : ',' ∉ k.repr.toList := by
  rw [Nat.toList_repr]
  intro h
  exact absurd (Nat.isDigit_of_mem_toDigits (by decide) (by decide) h) (by decide)

theorem groups_startLayout (c : Chain) :
    (Schedule.startLayout c).groups = [loopsGroup, nestGroup c.maxDimension] := rfl

theorem framed_startLayout (c : Chain) : (Schedule.startLayout c).Framed where
  perm := List.Perm.refl [0, 1]
  first := rfl
  last := rfl
  loops_eq := rfl
  unbroken := by
    intro g hg n hn
    rw [groups_startLayout, List.mem_cons, List.mem_singleton] at hg
    rcases hg with rfl | rfl
    · obtain rfl : n = "loops_c" := List.mem_singleton.mp hn
      decide
    · rw [names_nestGroup] at hn
      obtain ⟨m, hm, rfl⟩ := List.mem_map.mp hn
      refine unbroken_tileName (by decide) ?_
      rcases List.mem_append.mp hm with hm | hm
      · obtain ⟨k, -, rfl⟩ := List.mem_map.mp hm
        exact unbroken_repr k
      · rw [List.mem_singleton.mp hm]
        decide

/-! ### Changes that keep the places -/

theorem groups_setAlias (l : Layout) (id : ℕ) (on : Bool) :
    (l.setAlias id on).groups = l.groups := by
  unfold groups setAlias Layout.modify
  refine List.ext_getElem? fun i => ?_
  rw [List.getElem?_map, List.getElem?_map, List.getElem?_modify]
  by_cases hi : id = i
  · cases l.arena[i]? <;> simp [hi, Subspace.group]
  · cases l.arena[i]? <;> simp [hi]

theorem groups_nextStage (l : Layout) : l.nextStage.groups = l.groups := List.map_map

namespace Framed

variable {l l' : Layout}

/-- The frame only depends on places and names. -/
theorem congr (h : l.Framed) (horder : l'.order = l.order) (hgroups : l'.groups = l.groups) :
    l'.Framed := by
  have hlength : l'.arena.length = l.arena.length := by
    have := congrArg List.length hgroups
    rwa [groups, groups, List.length_map, List.length_map] at this
  refine ⟨?_, ?_, ?_, ?_, ?_⟩
  · rw [horder, hlength]
    exact h.perm
  · rw [horder]
    exact h.first
  · rw [horder]
    exact h.last
  · rw [hgroups]
    exact h.loops_eq
  · rw [hgroups]
    exact h.unbroken

theorem mem_groups {id : ℕ} {sub : Subspace} (h : l.arena[id]? = some sub) :
    sub.group ∈ l.groups := List.mem_map_of_mem (List.mem_of_getElem? h)

theorem setAlias (h : l.Framed) (id : ℕ) (on : Bool) : (l.setAlias id on).Framed :=
  h.congr rfl (groups_setAlias l id on)

theorem nextStage (h : l.Framed) : l.nextStage.Framed := h.congr rfl (groups_nextStage l)

theorem takeStem (h : l.Framed) (base : String) : (l.freshStem base).2.Framed := h.congr rfl rfl

/-- A subspace with variables is not the one that tells the nests apart. -/
theorem ne_loops (h : l.Framed) {id : ℕ} {sub : Subspace} (hsub : l.arena[id]? = some sub)
    (hvars : 0 < sub.vars.length) : id ≠ loops := by
  rintro rfl
  have hgroup := h.loops_eq
  rw [groups, List.getElem?_map, hsub] at hgroup
  have hnil : sub.vars = [] := congrArg Group.vars (Option.some.inj hgroup)
  rw [hnil] at hvars
  exact absurd hvars (Nat.lt_irrefl 0)

end Framed

/-! ### Insertion -/

/-- Where a new subspace stands and what its number is. -/
theorem insertLeft_order {l l' : Layout} {fresh : Subspace} {cursor n : ℕ}
    (h : l.insertLeft fresh cursor = .ok (n, l')) : ∃ left right,
      l.order = left ++ cursor :: right ∧ n = l.arena.length ∧
      l'.order = left ++ n :: cursor :: right ∧
      l'.arena = l.arena ++ [{ fresh with stage := l.outputStage }] := by
  unfold insertLeft at h
  cases hp : l.position? cursor with
  | none =>
    rw [hp] at h
    cases h
  | some p =>
    rw [hp] at h
    simp only [insertAt, Except.ok.injEq, Prod.mk.injEq] at h
    obtain ⟨rfl, rfl⟩ := h
    obtain ⟨left, right, horder, rfl⟩ := position?_eq_some hp
    exact ⟨left, right, horder, rfl, by rw [horder, insertIdx_length], rfl⟩

/-- Tile coordinates are put to the left of the coordinates they are made for. -/
theorem Framed.insertTiles {l l' : Layout} (h : l.Framed) {k count cursor n : ℕ}
    {target fresh : Subspace} (htarget : l.find cursor = .ok target) (hcount : 0 < count)
    (hfresh : Subspace.derived (repeated "t" k) count target = .ok fresh)
    (hinsert : l.insertLeft fresh cursor = .ok (n, l')) : l'.Framed := by
  obtain ⟨left, right, horder, rfl, horder', harena⟩ := insertLeft_order hinsert
  obtain ⟨hgroup, -, hle⟩ := Subspace.group_derived hfresh
  have hget := (mem_entries.mp (find_eq_ok.mp htarget)).2
  have hgroups : l'.groups = l.groups ++ [target.group.tiles (repeated "t" k) count] := by
    rw [groups, harena, List.map_append, ← hgroup]
    rfl
  -- the target has variables, so something stands to its left
  obtain ⟨left, rfl⟩ : ∃ rest, left = loops :: rest := by
    have hfirst := h.first
    rw [horder] at hfirst
    cases left with
    | nil => exact absurd (Option.some.inj hfirst) (h.ne_loops hget (by omega))
    | cons a rest => exact ⟨rest, by rw [Option.some.inj hfirst]⟩
  refine ⟨?_, ?_, ?_, ?_, ?_⟩
  · have hperm := h.perm
    rw [horder] at hperm
    rw [horder', harena, List.length_append, List.length_singleton]
    exact perm_range_succ hperm
  · rw [horder']
    rfl
  · have hlast := h.last
    rw [horder, List.getLast?_append] at hlast
    rw [horder', List.getLast?_append, List.getLast?_cons_cons]
    simpa using hlast
  · rw [hgroups, List.getElem?_append_left (List.getElem?_eq_some_iff.mp h.loops_eq).1]
    exact h.loops_eq
  · intro g hg m hm
    rw [hgroups, List.mem_append, List.mem_singleton] at hg
    rcases hg with hg | rfl
    · exact h.unbroken g hg m hm
    · obtain ⟨m, hmem, rfl⟩ := Group.names_tiles_subset hm
      exact unbroken_tileName (unbroken_repeated k)
        (h.unbroken _ (Framed.mem_groups hget) m hmem)

/-- The changes that a run makes to a layout.  Subspaces are only ever inserted as tile coordinates,
next to coordinates that have variables. -/
inductive Change : Layout → Layout → Prop
  | setAlias (l : Layout) (id : ℕ) (on : Bool) : Change l (l.setAlias id on)
  | nextStage (l : Layout) : Change l l.nextStage
  | takeStem (l : Layout) (base : String) : Change l (l.freshStem base).2
  | insertTiles {l l' : Layout} {k count cursor n : ℕ} {target fresh : Subspace} :
      l.find cursor = .ok target → 0 < count →
      Subspace.derived (repeated "t" k) count target = .ok fresh →
      l.insertLeft fresh cursor = .ok (n, l') → Change l l'

/-- Any number of changes. -/
abbrev Changes : Layout → Layout → Prop := Relation.ReflTransGen Change

theorem Change.framed {l l' : Layout} (h : Change l l') (hl : l.Framed) : l'.Framed := by
  cases h with
  | setAlias id on => exact hl.setAlias id on
  | nextStage => exact hl.nextStage
  | takeStem base => exact hl.takeStem base
  | insertTiles htarget hcount hfresh hinsert => exact hl.insertTiles htarget hcount hfresh hinsert

theorem Changes.framed {l l' : Layout} (h : Changes l l') (hl : l.Framed) : l'.Framed := by
  induction h with
  | refl => exact hl
  | tail _ hchange ih => exact hchange.framed ih

/-! ### Coordinates -/

theorem Framed.placed {l : Layout} (h : l.Framed) : l.Placed := by
  intro id hid
  exact List.mem_range.mp (h.perm.mem_iff.mp hid)

theorem filterMap_range_getElem? {α : Type} (xs : List α) :
    (List.range xs.length).filterMap (xs[·]?) = xs := by
  induction xs using List.reverseRecOn with
  | nil => rfl
  | append_singleton xs x ih =>
    have hold : ∀ i ∈ List.range xs.length, (xs ++ [x])[i]? = xs[i]? := fun i hi =>
      List.getElem?_append_left (List.mem_range.mp hi)
    rw [List.length_append, List.length_singleton, List.range_succ, List.filterMap_append,
      List.filterMap_congr hold, ih]
    simp

/-- Every subspace has its place. -/
theorem Framed.spaces_perm {l : Layout} (h : l.Framed) : l.spaces.Perm l.arena := by
  have hperm := h.perm.filterMap (l.arena[·]?)
  rwa [filterMap_range_getElem?] at hperm

/-- The offset of a subspace counts the coordinates to its left. -/
theorem offset?_eq_some {l : Layout} (h : l.Placed) {id : ℕ} (hid : id ∈ l.order) :
    ∃ pre sub post, l.entries = pre ++ (id, sub) :: post ∧ l.find id = .ok sub ∧
      l.offset? id = some (total (pre.map fun e => e.2.completeSize)) := by
  obtain ⟨p, hp⟩ : ∃ p, l.position? id = some p := by
    rw [← Option.isSome_iff_exists, position?, List.findIdx?_isSome, List.any_eq_true]
    exact ⟨id, hid, by simp⟩
  obtain ⟨left, right, horder, rfl⟩ := position?_eq_some hp
  have hlt : id < l.arena.length := h id hid
  have hget : l.arena[id]? = some l.arena[id] := List.getElem?_eq_getElem hlt
  refine ⟨left.filterMap fun i => l.arena[i]?.map (i, ·), l.arena[id],
    right.filterMap fun i => l.arena[i]?.map (i, ·), ?_, ?_, ?_⟩
  · unfold entries
    rw [horder, List.filterMap_append, List.filterMap_cons, hget]
    rfl
  · exact find_eq_ok.mpr (mem_entries.mpr ⟨hid, hget⟩)
  · have hspaces : left.filterMap (l.arena[·]?) =
        (left.filterMap fun i => l.arena[i]?.map (i, ·)).map Prod.snd := by
      rw [List.map_filterMap]
      congr 1
      funext i
      cases l.arena[i]? <;> rfl
    unfold offset?
    rw [hp, horder]
    simp only [Option.bind_eq_bind, Option.bind_some, List.take_left, hspaces, List.map_map]
    rfl

theorem length_baseNames (sub : Subspace) : sub.baseNames.length = sub.completeSize :=
  List.length_append

theorem length_flatMap_baseNames (es : List (ℕ × Subspace)) :
    (es.flatMap fun e => e.2.baseNames).length = total (es.map fun e => e.2.completeSize) := by
  induction es with
  | nil => rfl
  | cons e es ih =>
    rw [List.flatMap_cons, List.length_append, List.map_cons, total_cons, ih, length_baseNames]

theorem size_eq (l : Layout) : l.size = total (l.entries.map fun e => e.2.completeSize) := by
  rw [size, spaces_eq, List.map_map]
  rfl

/-- Once all subspaces exist, the coordinates are all names in order. -/
theorem inputNames_of_staged {l : Layout} (h : ∀ e ∈ l.entries, e.2.stage ≤ l.stage) :
    l.inputNames = l.entries.flatMap fun e => e.2.baseNames := by
  have hentry : ∀ e ∈ l.entries, e.2.namesAt l.stage false = e.2.baseNames := by
    intro e he
    rw [Subspace.namesAt, if_neg (Int.not_lt.mpr (h e he))]
    exact List.map_id _
  rw [inputNames, namesAt_eq]
  exact List.flatMap_congr hentry

/-- The joined coordinates can be taken apart again. -/
theorem Framed.split_inputIterators {l : Layout} (h : l.Framed)
    (hstage : ∀ e ∈ l.entries, e.2.stage ≤ l.stage) :
    (l.inputIterators.split ',').toList.map (·.copy) = l.inputNames := by
  have hnames := inputNames_of_staged hstage
  have hunbroken : ∀ n ∈ l.inputNames, ',' ∉ n.toList := by
    intro n hn
    rw [hnames] at hn
    obtain ⟨⟨id, sub⟩, he, hn⟩ := List.mem_flatMap.mp hn
    exact h.unbroken _ (Framed.mem_groups (mem_entries.mp he).2) n hn
  have hne : l.inputNames ≠ [] := by
    obtain ⟨pre, sub, post, hentries, -⟩ :=
      offset?_eq_some h.placed (List.mem_of_mem_head? h.first)
    rw [hnames, hentries]
    simp [Subspace.baseNames]
  have hsplit := String.toList_split_intercalate hunbroken
  rwa [if_neg hne] at hsplit

/-- In a list without repetitions, the members of a part stand in its places only. -/
theorem mem_part_iff {left part right : List String} (h : (left ++ (part ++ right)).Nodup) {k : ℕ}
    {n : String} (hk : (left ++ (part ++ right))[k]? = some n) :
    n ∈ part ↔ left.length ≤ k ∧ k < left.length + part.length := by
  constructor
  · intro hn
    obtain ⟨j, hj, rfl⟩ := List.getElem_of_mem hn
    have hplace : (left ++ (part ++ right))[left.length + j]? = some part[j] := by
      rw [List.getElem?_append_right (by omega), Nat.add_sub_cancel_left,
        List.getElem?_append_left hj, List.getElem?_eq_getElem hj]
    have hlt := (List.getElem?_eq_some_iff.mp hplace).1
    have hkj := (List.getElem?_inj hlt h).mp (hplace.trans hk.symm)
    omega
  · rintro ⟨hle, hlt⟩
    rw [List.getElem?_append_right hle, List.getElem?_append_left (by omega)] at hk
    exact List.mem_of_getElem? hk

end Layout

end LoopSched
