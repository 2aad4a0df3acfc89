import LoopSched.Access.Tuple.Basic
import LoopSched.Data.SortedList
import Mathlib.Algebra.Order.Group.Int
import Mathlib.Order.Compare

/-!
# Sorted sets

Building a set sorts its elements and drops repetitions.  A list that is in order already is the set
of its elements, so a sorted set that is taken apart and built again is the same.
-/

namespace LoopSched

open Std (LawfulEqCmp OrientedCmp ReflCmp TransCmp)

namespace SortedList

variable {α β : Type} {cmp : α → α → Ordering}

/-- Each element comes before all that follow it. -/
def Increasing (cmp : α → α → Ordering) (xs : List α) : Prop :=
  xs.Pairwise fun a b => cmp a b = .lt

instance (cmp : α → α → Ordering) (xs : List α) : Decidable (Increasing cmp xs) :=
  inferInstanceAs (Decidable (xs.Pairwise _))

theorem Increasing.insert [TransCmp cmp] [LawfulEqCmp cmp] {xs : List α}
    (h : Increasing cmp xs) (x : α) : Increasing cmp (insert cmp x xs) := by
  induction xs with
  | nil => exact List.pairwise_singleton _ _
  | cons y ys ih =>
    obtain ⟨hy, hys⟩ := List.pairwise_cons.mp h
    unfold SortedList.insert
    cases hxy : cmp x y with
    | lt =>
      refine List.pairwise_cons.mpr ⟨fun z hz => ?_, h⟩
      rcases List.mem_cons.mp hz with rfl | hz
      · exact hxy
      · exact TransCmp.lt_trans hxy (hy z hz)
    | eq => exact h
    | gt =>
      refine List.pairwise_cons.mpr ⟨fun z hz => ?_, ih hys⟩
      rcases (mem_insert fun a b => LawfulEqCmp.eq_of_compare).mp hz with rfl | hz
      · exact OrientedCmp.gt_iff_lt.mp hxy
      · exact hy z hz

theorem Increasing.foldl_insert [TransCmp cmp] [LawfulEqCmp cmp] {s : List α}
    (h : Increasing cmp s) (xs : List α) :
    Increasing cmp (xs.foldl (fun s x => SortedList.insert cmp x s) s) := by
  induction xs generalizing s with
  | nil => exact h
  | cons x xs ih => exact ih (h.insert x)

theorem increasing_ofList [TransCmp cmp] [LawfulEqCmp cmp] (xs : List α) :
    Increasing cmp (ofList cmp xs) :=
  Increasing.foldl_insert List.Pairwise.nil xs

/-- An element behind all others goes to the end. -/
theorem insert_eq_append [OrientedCmp cmp] {x : α} {xs : List α} (h : ∀ y ∈ xs, cmp y x = .lt) :
    insert cmp x xs = xs ++ [x] := by
  induction xs with
  | nil => rfl
  | cons y ys ih =>
    obtain ⟨hy, hys⟩ := List.forall_mem_cons.mp h
    rw [insert, OrientedCmp.gt_iff_lt.mpr hy, ih hys, List.cons_append]

/-- Elements in order are the set they make up. -/
theorem Increasing.ofList_eq [OrientedCmp cmp] {xs : List α} (h : Increasing cmp xs) :
    ofList cmp xs = xs := by
  suffices hfold : ∀ s : List α, Increasing cmp (s ++ xs) →
      xs.foldl (fun s x => SortedList.insert cmp x s) s = s ++ xs from hfold [] h
  clear h
  induction xs with
  | nil => intro s _; exact (List.append_nil s).symm
  | cons x xs ih =>
    intro s hs
    have hlast : ∀ y ∈ s, cmp y x = .lt := fun y hy =>
      (List.pairwise_append.mp hs).2.2 y hy x List.mem_cons_self
    have hsplit : s ++ x :: xs = s ++ [x] ++ xs := by simp
    rw [List.foldl_cons, insert_eq_append hlast, hsplit]
    exact ih _ (hsplit ▸ hs)

/-- A map that keeps the order of the elements keeps a list in order. -/
theorem Increasing.map {cmp' : β → β → Ordering} {xs : List α} {f : α → β}
    (h : Increasing cmp xs) (hf : ∀ a ∈ xs, ∀ b ∈ xs, cmp' (f a) (f b) = cmp a b) :
    Increasing cmp' (xs.map f) := by
  refine List.pairwise_map.mpr (h.imp_of_mem fun ha hb hab => ?_)
  rw [hf _ ha _ hb, hab]

/-! ### Maps -/

/-- The keys of a map are a set to which the key is added. -/
theorem keys_upsert {combine : β → β → β} {k : α} {v : β} {m : List (α × β)} :
    (upsert cmp combine k v m).map Prod.fst = insert cmp k (m.map Prod.fst) := by
  induction m with
  | nil => rfl
  | cons e m ih =>
    obtain ⟨l, w⟩ := e
    rw [upsert, List.map_cons, insert]
    cases cmp k l with
    | lt => rfl
    | eq => rfl
    | gt => rw [List.map_cons, ih]

theorem lookup_cons_eq [DecidableEq α] (j k : α) (v : β) (m : List (α × β)) :
    ((k, v) :: m).lookup j = if j = k then some v else m.lookup j := by
  rw [List.lookup_cons]
  by_cases hj : j = k
  · rw [if_pos hj, beq_iff_eq.mpr hj]
  · rw [if_neg hj, beq_false_of_ne hj]

theorem lookup_eq_none [DecidableEq α] {m : List (α × β)} {j : α}
    (h : ∀ k ∈ m.map Prod.fst, j ≠ k) : m.lookup j = none := by
  induction m with
  | nil => rfl
  | cons e m ih =>
    obtain ⟨hne, hrest⟩ := List.forall_mem_cons.mp h
    rw [lookup_cons_eq, if_neg hne, ih hrest]

/-- Setting a key combines its value with the one that is there and touches no other key. -/
theorem lookup_upsert [DecidableEq α] [TransCmp cmp] [LawfulEqCmp cmp] {combine : β → β → β} {k : α}
    {v : β} {m : List (α × β)} (h : Increasing cmp (m.map Prod.fst)) (j : α) :
    (upsert cmp combine k v m).lookup j =
      if j = k then some ((m.lookup k).elim v (combine · v)) else m.lookup j := by
  have hne : ∀ {a b : α}, cmp a b ≠ .eq → a ≠ b := fun hcmp heq =>
    hcmp (heq ▸ ReflCmp.compare_self)
  induction m with
  | nil => exact lookup_cons_eq j k v []
  | cons e m ih =>
    obtain ⟨l, w⟩ := e
    obtain ⟨hl, hm⟩ := List.pairwise_cons.mp h
    rw [upsert]
    cases hkl : cmp k l with
    | lt =>
      -- the key comes before all that are there
      have hnone : ((l, w) :: m).lookup k = none := by
        refine lookup_eq_none fun i hi => hne ?_
        rcases List.mem_cons.mp hi with rfl | hi
        · rw [hkl]
          decide
        · rw [TransCmp.lt_trans hkl (hl i hi)]
          decide
      rw [hnone]
      exact lookup_cons_eq j k v _
    | eq =>
      obtain rfl := LawfulEqCmp.eq_of_compare hkl
      simp only [lookup_cons_eq, if_true, Option.elim_some]
      split <;> rfl
    | gt =>
      have hlk : k ≠ l := hne (by rw [hkl]; decide)
      simp only [lookup_cons_eq, ih hm, if_neg hlk]
      by_cases hj : j = l
      · rw [if_pos hj, if_pos hj, if_neg (hj ▸ hlk.symm)]
      · rw [if_neg hj, if_neg hj]

end SortedList

/-! ### The order of tuples -/

namespace Tuple

theorem compareValues_eq (xs ys : List ℤ) :
    compareValues xs ys = List.compareLex compare xs ys := by
  fun_induction compareValues xs ys with
  | case1 => rfl
  | case2 => rfl
  | case3 => rfl
  | case4 a as b bs hlt => simp [List.compareLex_cons_cons, compare_lt_iff_lt.mpr hlt]
  | case5 a as b bs hlt hgt => simp [List.compareLex_cons_cons, compare_gt_iff_gt.mpr hgt]
  | case6 a as b bs hlt hgt ih =>
    have heq : compare a b = .eq := compare_eq_iff_eq.mpr (by omega)
    simp [List.compareLex_cons_cons, heq, ih]

theorem eq_of_compareValues {xs ys : List ℤ} (h : compareValues xs ys = .eq) : xs = ys := by
  fun_induction compareValues xs ys with
  | case1 => rfl
  | case2 => cases h
  | case3 => cases h
  | case4 => cases h
  | case5 => cases h
  | case6 a as b bs hab hba ih => rw [ih h, le_antisymm (not_lt.mp hba) (not_lt.mp hab)]

theorem eq_of_cmp {a b : Tuple} (h : a.cmp b = .eq) : a = b := by
  obtain ⟨-, h⟩ := Ordering.then_eq_eq.mp h
  cases a
  cases b
  exact congrArg _ (eq_of_compareValues h)

theorem cmp_eq : cmp = compareLex (fun a b => compare a.width b.width)
    fun a b => List.compareLex compare a.values b.values := by
  funext a b
  rw [cmp, compareValues_eq]
  rfl

/-- A tuple is compared by its width and its values, which are compared transitively. -/
instance : TransCmp cmp := by
  have hwidth : TransCmp fun a b : Tuple => compare a.width b.width :=
    { eq_swap := OrientedCmp.eq_swap, isLE_trans := TransCmp.isLE_trans }
  have hvalues : TransCmp fun a b : Tuple => List.compareLex compare a.values b.values :=
    { eq_swap := OrientedCmp.eq_swap, isLE_trans := TransCmp.isLE_trans }
  rw [cmp_eq]
  infer_instance

instance : LawfulEqCmp cmp where
  compare_self := ReflCmp.compare_self
  eq_of_compare := eq_of_cmp

end Tuple

end LoopSched
