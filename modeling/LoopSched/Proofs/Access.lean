import LoopSched.Access.Dataspace
import LoopSched.Proofs.Checked
import Mathlib.Algebra.Order.Group.Int
import Mathlib.Data.List.GetD
import Mathlib.Order.Bounds.Basic

/-!
# Extremes of a collection

In a collection whose members have one width, the componentwise extremes have that width and lie
beyond every member.  In each component an extreme is the value of some member.
-/

namespace LoopSched

/-- Components of a combination of two vectors. -/
theorem getD_zipWith (f : ℤ → ℤ → ℤ) {xs ys : List ℤ} {i : ℕ} (hx : i < xs.length)
    (hy : i < ys.length) :
    (List.zipWith f xs ys).getD i 0 = f (xs.getD i 0) (ys.getD i 0) := by
  simp [hx, hy]

theorem getD_map_range (f : ℕ → ℤ) {m i : ℕ} (hi : i < m) :
    ((List.range m).map f).getD i 0 = f i := by
  simp [hi]

/-- A combination that succeeds is exact, and its components are words. -/
theorem Tuple.zipWith_eq_ok {op : ℤ → ℤ → ℤ} {a b t : Tuple} (h : zipWith op a b = .ok t) :
    a.width = b.width ∧ t.values = List.zipWith op a.values b.values ∧
      ∀ v ∈ t.values, Word.Fits v := by
  unfold zipWith at h
  by_cases hw : a.width = b.width
  · rw [if_neg (not_not.mpr hw)] at h
    cases hm : (List.zipWith op a.values b.values).mapM Word.fit? with
    | none =>
      rw [hm] at h
      cases h
    | some values =>
      rw [hm] at h
      cases h
      refine ⟨hw, Checked.mapM_option_eq_self (fun v w hv => (Word.fit?_eq_some.mp hv).2.symm) hm,
        fun v hv => ?_⟩
      obtain ⟨w, -, hfit⟩ := (Checked.mapM_option_mem hm).2 v hv
      obtain ⟨hfits, rfl⟩ := Word.fit?_eq_some.mp hfit
      exact hfits
  · rw [if_pos hw] at h
    cases h

/-- A difference that succeeds is exact. -/
theorem Tuple.sub_eq_ok {a b t : Tuple} (h : a.sub b = .ok t) :
    a.width = b.width ∧ t.values = List.zipWith (· - ·) a.values b.values := by
  obtain ⟨hw, hvalues, -⟩ := zipWith_eq_ok h
  exact ⟨hw, hvalues⟩

theorem Tuple.fits_sub {a b t : Tuple} (h : a.sub b = .ok t) : ∀ v ∈ t.values, Word.Fits v :=
  (zipWith_eq_ok h).2.2

/-- Tuples of one width are combined unless a component is not a word. -/
theorem Tuple.zipWith_eq_error {op : ℤ → ℤ → ℤ} {a b : Tuple} {e : DimensionError}
    (hw : a.width = b.width) (h : zipWith op a b = .error e) :
    e = .combineOverflow a ∧ ∃ v ∈ List.zipWith op a.values b.values, ¬ Word.Fits v := by
  unfold zipWith at h
  rw [if_neg (not_not.mpr hw)] at h
  cases hm : (List.zipWith op a.values b.values).mapM Word.fit? with
  | some values =>
    rw [hm] at h
    cases h
  | none =>
    rw [hm] at h
    cases h
    refine ⟨rfl, ?_⟩
    by_contra hfits
    push Not at hfits
    obtain ⟨values, hvalues⟩ := Checked.exists_mapM_option fun v hv =>
      ⟨v, Word.fit?_eq_some.mpr ⟨hfits v hv, rfl⟩⟩
    rw [hm] at hvalues
    cases hvalues

theorem Tuple.neg_eq_ok {a t : Tuple} (h : a.neg = .ok t) : t.values = a.values.map (- ·) := by
  unfold neg at h
  cases hm : (a.values.map (- ·)).mapM Word.fit? with
  | none =>
    rw [hm] at h
    cases h
  | some values =>
    rw [hm] at h
    cases h
    exact Checked.mapM_option_eq_self (fun v w hv => (Word.fit?_eq_some.mp hv).2.symm) hm

namespace Collection

/-- The collection and every member have this width. -/
def Uniform (c : Collection) (m : ℕ) : Prop := c.width = m ∧ ∀ t ∈ c.tuples, t.width = m

theorem uniform_of_ofWidth {tuples : List Tuple} {m : ℕ} {c : Collection}
    (h : ofWidth tuples m = .ok c) : c.Uniform m := by
  unfold ofWidth at h
  by_cases hm : m = 0
  · rw [if_pos hm] at h
    cases h
  rw [if_neg hm] at h
  dsimp only at h
  cases hbad : (SortedList.ofList Tuple.cmp tuples).find? (·.width ≠ m) with
  | some bad =>
    rw [hbad] at h
    cases h
  | none =>
    rw [hbad] at h
    cases h
    exact ⟨rfl, fun t ht => by simpa using List.find?_eq_none.mp hbad t ht⟩

/-- The values of the members in one component. -/
def column (c : Collection) (i : ℕ) : Set ℤ := {x | ∃ t ∈ c.tuples, t.values.getD i 0 = x}

section Extremes

variable {c : Collection} {m i : ℕ} {pick : List ℤ → Option ℤ} {start : ℤ}

theorem extremes?_eq_none_iff : c.extremes? pick start = none ↔ c.tuples = [] := by
  unfold extremes? isEmpty
  by_cases h : c.tuples = []
  · simp [h]
  · rw [if_neg (mt List.isEmpty_iff.mp h)]
    exact iff_of_false (Option.some_ne_none _) h

/-- In a uniform collection every member has every component. -/
theorem mem_filterMap_get? (hc : c.Uniform m) (hi : i < m) {x : ℤ} :
    x ∈ c.tuples.filterMap (·.get? i) ↔ x ∈ c.column i := by
  rw [List.mem_filterMap]
  refine exists_congr fun t => and_congr_right fun ht => ?_
  have hlength : i < t.values.length := hi.trans_eq (hc.2 t ht).symm
  rw [Tuple.get?, List.getElem?_eq_getElem hlength, Option.some_inj, List.getD_eq_getElem _ _ hlength]

/-- The extremes of a uniform collection have its width, and each component is chosen among the
values of the members. -/
theorem extremes?_eq_some (hpick : ∀ xs, xs ≠ [] → (pick xs).isSome) (hc : c.Uniform m) {t : Tuple}
    (h : c.extremes? pick start = some t) : t.width = m ∧ ∀ i < m,
      pick (c.tuples.filterMap (·.get? i)) = some (t.values.getD i 0) := by
  unfold extremes? at h
  split_ifs at h with hempty
  cases h
  rw [hc.1]
  refine ⟨by simp [Tuple.width], fun i hi => ?_⟩
  rw [getD_map_range _ hi]
  -- there is a member, and it has a value in the component
  obtain ⟨t, ht⟩ := List.exists_mem_of_ne_nil c.tuples (mt List.isEmpty_iff.mpr hempty)
  have hx := (mem_filterMap_get? hc hi).mpr ⟨t, ht, rfl⟩
  obtain ⟨x, hsome⟩ := Option.isSome_iff_exists.mp (hpick _ (List.ne_nil_of_mem hx))
  rw [hsome, Option.getD_some]

theorem maxima?_eq_none_iff : c.maxima? = none ↔ c.tuples = [] := extremes?_eq_none_iff

theorem minima?_eq_none_iff : c.minima? = none ↔ c.tuples = [] := extremes?_eq_none_iff

theorem width_maxima? (hc : c.Uniform m) {hi : Tuple} (h : c.maxima? = some hi) : hi.width = m :=
  (extremes?_eq_some (fun _ => List.isSome_max?_of_ne_nil) hc h).1

theorem width_minima? (hc : c.Uniform m) {lo : Tuple} (h : c.minima? = some lo) : lo.width = m :=
  (extremes?_eq_some (fun _ => List.isSome_min?_of_ne_nil) hc h).1

theorem isGreatest_maxima? (hc : c.Uniform m) {hi : Tuple} (h : c.maxima? = some hi) (him : i < m) :
    IsGreatest (c.column i) (hi.values.getD i 0) := by
  have hmax := (extremes?_eq_some (fun _ => List.isSome_max?_of_ne_nil) hc h).2 i him
  obtain ⟨hmem, habove⟩ := List.max?_eq_some_iff.mp hmax
  exact ⟨(mem_filterMap_get? hc him).mp hmem,
    fun x hx => habove x ((mem_filterMap_get? hc him).mpr hx)⟩

theorem isLeast_minima? (hc : c.Uniform m) {lo : Tuple} (h : c.minima? = some lo) (him : i < m) :
    IsLeast (c.column i) (lo.values.getD i 0) := by
  have hmin := (extremes?_eq_some (fun _ => List.isSome_min?_of_ne_nil) hc h).2 i him
  obtain ⟨hmem, hbelow⟩ := List.min?_eq_some_iff.mp hmin
  exact ⟨(mem_filterMap_get? hc him).mp hmem,
    fun x hx => hbelow x ((mem_filterMap_get? hc him).mpr hx)⟩

end Extremes

end Collection

namespace Dataspace

/-- Every access has the width of the dataspace. -/
def Uniform (d : Dataspace) : Prop := d.reads.Uniform d.width ∧ d.writes.Uniform d.width

/-- Checked collections make a uniform dataspace. -/
theorem uniform_of_make {name : String} {rs ws : List Tuple} {m k : ℕ} {reads writes : Collection}
    {d : Dataspace} (hr : Collection.ofWidth rs m = .ok reads)
    (hw : Collection.ofWidth ws k = .ok writes) (h : make name reads writes = .ok d) :
    d.Uniform := by
  have hr := Collection.uniform_of_ofWidth hr
  have hw := Collection.uniform_of_ofWidth hw
  unfold make at h
  by_cases heq : reads.width = writes.width
  · rw [if_neg (not_not.mpr heq)] at h
    cases h
    refine ⟨?_, ?_⟩
    · show reads.Uniform reads.width
      rwa [hr.1]
    · show writes.Uniform reads.width
      rwa [heq, hw.1]
  · rw [if_pos heq] at h
    cases h

end Dataspace

end LoopSched
