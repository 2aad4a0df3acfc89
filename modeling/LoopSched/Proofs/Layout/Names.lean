import LoopSched.Layout.Basic
import Mathlib.Data.List.Nodup
import Mathlib.Data.Nat.Notation

/-!
# Names of coordinates

Plain names and aliases never meet, since no plain name starts like an alias.  The names of a new
tile subspace start with more `t`s than any name that was handed out before, so they are new.
-/

namespace LoopSched

namespace Subspace

/-- What an alias starts with. -/
def aliasMark : String := "alias_"

/-- The plain name behind an alias; other names stay. -/
def unalias (name : String) : String :=
  match aliasMark.toList.isPrefixOf? name.toList with
  | some rest => String.ofList rest
  | none => name

/-- The name does not look like an alias. -/
def Plain (name : String) : Prop := ¬ aliasMark.toList <+: name.toList

theorem toList_aliasOf (name : String) :
    (aliasOf name).toList = aliasMark.toList ++ name.toList := by
  rw [aliasOf, String.toList_append]
  rfl

@[simp] theorem unalias_aliasOf (name : String) : unalias (aliasOf name) = name := by
  have h : aliasMark.toList.isPrefixOf? (aliasOf name).toList = some name.toList := by
    rw [List.isPrefixOf?_eq_some_iff_append_eq, toList_aliasOf]
  unfold unalias
  rw [h]
  exact String.ofList_toList

theorem unalias_of_plain {name : String} (h : Plain name) : unalias name = name := by
  unfold unalias
  cases hr : aliasMark.toList.isPrefixOf? name.toList with
  | none => rfl
  | some rest =>
    rw [List.isPrefixOf?_eq_some_iff_append_eq] at hr
    exact absurd ⟨rest, hr⟩ h

theorem not_plain_aliasOf (name : String) : ¬ Plain (aliasOf name) := by
  intro h
  rw [Plain, toList_aliasOf] at h
  exact h (List.prefix_append _ _)

/-- A name that starts with another letter is no alias. -/
theorem plain_of_head {name : String} {c : Char} (h : name.toList.head? = some c) (hc : c ≠ 'a') :
    Plain name := by
  rintro ⟨rest, hrest⟩
  rw [← hrest] at h
  exact hc (Option.some.inj h).symm

/-! ### Names at work in a map -/

/-- The far name of a coordinate in a map that rewrites the coordinates `vs`. -/
def mark (vs : List String) (name : String) : String := if name ∈ vs then aliasOf name else name

theorem mark_of_mem {vs : List String} {name : String} (h : name ∈ vs) :
    mark vs name = aliasOf name := if_pos h

theorem mark_of_not_mem {vs : List String} {name : String} (h : name ∉ vs) :
    mark vs name = name := if_neg h

/-- The far names of rewritten and of new coordinates are not near names. -/
theorem mark_not_mem {names vs : List String} (hplain : ∀ n ∈ names, Plain n) {n : String}
    (hn : n ∈ vs ∨ n ∉ names) : mark vs n ∉ names := by
  intro hmem
  by_cases hvs : n ∈ vs
  · rw [mark_of_mem hvs] at hmem
    exact not_plain_aliasOf n (hplain _ hmem)
  · rw [mark_of_not_mem hvs] at hmem
    exact hn.elim hvs fun h => h hmem

theorem unalias_mark {vs : List String} {name : String} (h : Plain name) :
    unalias (mark vs name) = name := by
  unfold mark
  split
  · exact unalias_aliasOf name
  · exact unalias_of_plain h

theorem map_unalias_mark {vs names : List String} (h : ∀ n ∈ names, Plain n) :
    (names.map (mark vs)).map unalias = names := by
  have hid : ∀ n ∈ names, (unalias ∘ mark vs) n = id n := fun n hn => unalias_mark (h n hn)
  rw [List.map_map, List.map_congr_left hid, List.map_id]

/-! ### Numbers in names -/

theorem repr_injective : Function.Injective Nat.repr := by
  intro m n h
  have hdigits := congrArg String.toList h
  rw [Nat.toList_repr, Nat.toList_repr] at hdigits
  rw [← Nat.ofDigitChars_ten_toDigits (n := m), hdigits, Nat.ofDigitChars_ten_toDigits]

theorem repr_ne_c (n : ℕ) : n.repr ≠ "c" := by
  intro h
  have hc : 'c' ∈ Nat.toDigits 10 n := by
    rw [← Nat.toList_repr, h]
    decide
  exact absurd (Nat.isDigit_of_mem_toDigits (by decide) (by decide) hc) (by decide)

/-! ### Stems -/

/-- How many `t`s a name starts with. -/
def lead (name : String) : ℕ := (name.toList.takeWhile (· = 't')).length

theorem lead_of_head {name : String} {c : Char} (h : name.toList.head? = some c) (hc : c ≠ 't') :
    lead name = 0 := by
  obtain ⟨rest, hrest⟩ := List.head?_eq_some_iff.mp h
  rw [lead, hrest, List.takeWhile_cons_of_neg (by simpa using hc)]
  rfl

theorem toList_repeated (n : ℕ) : (Layout.repeated "t" n).toList = List.replicate n 't' := by
  have ht : "t".toList = ['t'] := rfl
  rw [Layout.repeated, String.toList_join]
  induction n with
  | zero => rfl
  | succ n ih =>
    rw [List.replicate_succ, List.flatMap_cons, ih, ht]
    rfl

/-- The name of a tile coordinate: the stem, then the name of the coordinate it tiles. -/
def tileName (stem name : String) : String := stem ++ "_" ++ name

theorem toList_tileName (stem name : String) :
    (tileName stem name).toList = stem.toList ++ '_' :: name.toList := by
  rw [tileName, String.toList_append, String.toList_append, List.append_assoc]
  rfl

theorem tileName_injective (stem : String) : Function.Injective (tileName stem) := by
  intro a b h
  have hlist := congrArg String.toList h
  rw [toList_tileName, toList_tileName, List.append_cancel_left_eq, List.cons_inj_right] at hlist
  exact String.toList_inj.mp hlist

theorem tileName_ne (stem name : String) : tileName stem name ≠ name := by
  intro h
  have hlength := congrArg (fun s : String => s.toList.length) h
  simp only [toList_tileName, List.length_append, List.length_cons] at hlength
  omega

theorem lead_tileName (n : ℕ) (name : String) :
    lead (tileName (Layout.repeated "t" n) name) = n := by
  have ht : ∀ c ∈ List.replicate n 't', decide (c = 't') = true := by
    intro c hc
    rw [List.eq_of_mem_replicate hc]
    rfl
  rw [lead, toList_tileName, toList_repeated, List.takeWhile_append_of_pos ht]
  simp

theorem plain_tileName (n : ℕ) (name : String) :
    Plain (tileName (Layout.repeated "t" (n + 1)) name) := by
  refine plain_of_head (c := 't') ?_ (by decide)
  rw [toList_tileName, toList_repeated]
  rfl

end Subspace

end LoopSched
