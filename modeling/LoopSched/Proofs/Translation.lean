import LoopSched.Proofs.Dependence
import LoopSched.Proofs.SortedList
import Mathlib.Order.Bounds.Image

/-!
# Distances of translated accesses

Moving every access of a nest by one vector moves the extremes of its access sets by that vector.  A
distance then changes by the difference of the vectors of its two nests, and no link comes or goes:
all differences that are recorded under one link change by the same amount, so the greatest stays
the greatest.  Only a difference of extremes that is not a word any more can get in the way.
-/

namespace LoopSched

/-- The tuple moved by the vector, in numbers of any size. -/
def Tuple.moved (v : List ℤ) (t : Tuple) : Tuple := ⟨List.zipWith (· + ·) t.values v⟩

namespace Tuple

variable {a b : Tuple} {v : List ℤ}

theorem eq_of_getD {m : ℕ} (ha : a.width = m) (hb : b.width = m)
    (h : ∀ i < m, a.values.getD i 0 = b.values.getD i 0) : a = b := by
  cases a
  cases b
  refine congrArg _ (List.ext_getElem (ha.trans hb.symm) fun i hi hi' => ?_)
  rw [← List.getD_eq_getElem _ 0 hi, ← List.getD_eq_getElem _ 0 hi']
  exact h i (ha ▸ hi)

theorem width_moved (h : a.width = v.length) : (a.moved v).width = v.length := by
  show (List.zipWith (· + ·) a.values v).length = v.length
  rw [List.length_zipWith, show a.values.length = v.length from h, Nat.min_self]

theorem getD_moved (h : a.width = v.length) {i : ℕ} (hi : i < v.length) :
    (a.moved v).values.getD i 0 = a.values.getD i 0 + v.getD i 0 :=
  getD_zipWith _ (hi.trans_eq (Eq.symm h)) hi

/-- A tuple whose components are the moved ones is the moved tuple. -/
theorem eq_map_moved {x x' : Option Tuple} (hnone : x' = none ↔ x = none)
    (hwidth : ∀ t, x = some t → t.width = v.length)
    (hwidth' : ∀ t, x' = some t → t.width = v.length)
    (hvalue : ∀ t t', x = some t → x' = some t' → ∀ i < v.length,
      t'.values.getD i 0 = t.values.getD i 0 + v.getD i 0) : x' = x.map (moved v) := by
  cases x with
  | none => exact hnone.mpr rfl
  | some t =>
    cases x' with
    | none => cases hnone.mp rfl
    | some t' =>
      refine congrArg some (eq_of_getD (hwidth' t' rfl) (width_moved (hwidth t rfl))
        fun i hi => ?_)
      rw [hvalue t t' rfl rfl i hi, getD_moved (hwidth t rfl) hi]

end Tuple

/-! ### Translated collections -/

namespace Collection

variable {v : List ℤ} {c c' : Collection}

/-- The members of `c'` are those of `c`, moved by the vector. -/
structure Translates (v : List ℤ) (c c' : Collection) : Prop where
  uniform : c.Uniform v.length
  width_eq : c'.width = c.width
  mem_iff : ∀ t, t ∈ c'.tuples ↔ ∃ u ∈ c.tuples, u.moved v = t

theorem shift_eq_ok {extent : Tuple} (h : c.shift extent = .ok c') :
    extent.width = c.width ∧ c'.width = c.width ∧ ∃ tuples,
      c.tuples.mapM (·.add extent) = .ok tuples ∧
        c'.tuples = SortedList.ofList Tuple.cmp tuples := by
  unfold shift at h
  by_cases hw : extent.width = c.width
  · rw [if_neg (not_not.mpr hw)] at h
    obtain ⟨tuples, htuples, h⟩ := Checked.bind_eq_ok h
    cases h
    exact ⟨hw, rfl, tuples, htuples, rfl⟩
  · rw [if_pos hw] at h
    cases h

/-- A translation is refused unless the collection and all members have the width of the extent. -/
theorem translates_of_shift {extent : Tuple} (h : c.shift extent = .ok c') :
    c.Translates extent.values c' := by
  obtain ⟨hlength, hwidth, tuples, htuples, hsorted⟩ := shift_eq_ok h
  have hadd : ∀ u t, Tuple.add u extent = .ok t →
      u.width = extent.width ∧ u.moved extent.values = t := by
    intro u t hok
    obtain ⟨hw, hvalues, -⟩ := Tuple.zipWith_eq_ok hok
    cases t
    exact ⟨hw, congrArg _ hvalues.symm⟩
  refine ⟨⟨hlength.symm, fun u hu => ?_⟩, hwidth, fun t => ?_⟩
  · obtain ⟨t, -, hok⟩ := Checked.exists_mem_of_mapM htuples hu
    exact (hadd u t hok).1
  rw [hsorted, SortedList.mem_ofList fun _ _ => Tuple.eq_of_cmp]
  constructor
  · intro ht
    obtain ⟨u, hu, hok⟩ := Checked.exists_of_mem_mapM htuples ht
    exact ⟨u, hu, (hadd u t hok).2⟩
  · rintro ⟨u, hu, rfl⟩
    obtain ⟨t, ht, hok⟩ := Checked.exists_mem_of_mapM htuples hu
    rwa [(hadd u t hok).2]

namespace Translates

variable (h : c.Translates v c')
include h

theorem uniform_right : c'.Uniform v.length := by
  refine ⟨h.width_eq.trans h.uniform.1, fun t ht => ?_⟩
  obtain ⟨u, hu, rfl⟩ := (h.mem_iff t).mp ht
  exact Tuple.width_moved (h.uniform.2 u hu)

theorem tuples_eq_nil_iff : c'.tuples = [] ↔ c.tuples = [] := by
  simp only [List.eq_nil_iff_forall_not_mem, h.mem_iff, not_exists, not_and]
  exact ⟨fun hnone u hu => hnone _ u hu rfl, fun hnone t u hu => absurd hu (hnone u)⟩

theorem column_eq {i : ℕ} (hi : i < v.length) : c'.column i = (· + v.getD i 0) '' c.column i := by
  ext x
  constructor
  · rintro ⟨t, ht, rfl⟩
    obtain ⟨u, hu, rfl⟩ := (h.mem_iff t).mp ht
    exact ⟨_, ⟨u, hu, rfl⟩, (Tuple.getD_moved (h.uniform.2 u hu) hi).symm⟩
  · rintro ⟨_, ⟨u, hu, rfl⟩, rfl⟩
    exact ⟨u.moved v, (h.mem_iff _).mpr ⟨u, hu, rfl⟩, Tuple.getD_moved (h.uniform.2 u hu) hi⟩

theorem maxima?_eq : c'.maxima? = c.maxima?.map (Tuple.moved v) := by
  refine Tuple.eq_map_moved ?_ (fun t ht => width_maxima? h.uniform ht)
    (fun t ht => width_maxima? h.uniform_right ht) fun t t' ht ht' i hi => ?_
  · rw [maxima?_eq_none_iff, maxima?_eq_none_iff, h.tuples_eq_nil_iff]
  · have hgreatest := isGreatest_maxima? h.uniform_right ht' hi
    rw [h.column_eq hi] at hgreatest
    exact hgreatest.unique (add_left_mono.map_isGreatest (isGreatest_maxima? h.uniform ht hi))

theorem minima?_eq : c'.minima? = c.minima?.map (Tuple.moved v) := by
  refine Tuple.eq_map_moved ?_ (fun t ht => width_minima? h.uniform ht)
    (fun t ht => width_minima? h.uniform_right ht) fun t t' ht ht' i hi => ?_
  · rw [minima?_eq_none_iff, minima?_eq_none_iff, h.tuples_eq_nil_iff]
  · have hleast := isLeast_minima? h.uniform_right ht' hi
    rw [h.column_eq hi] at hleast
    exact hleast.unique (add_left_mono.map_isLeast (isLeast_minima? h.uniform ht hi))

end Translates

end Collection

/-! ### Translated nests -/

/-- All accesses of `d'` are those of `d`, moved by the vector. -/
structure Dataspace.Translates (v : List ℤ) (d d' : Dataspace) : Prop where
  name_eq : d'.name = d.name
  reads : d.reads.Translates v d'.reads
  writes : d.writes.Translates v d'.writes

theorem Dataspace.translates_of_shift {d d' : Dataspace} {extent : Tuple}
    (h : d.shift extent = .ok d') : d.Translates extent.values d' := by
  obtain ⟨reads, hreads, h⟩ := Checked.bind_eq_ok h
  obtain ⟨writes, hwrites, h⟩ := Checked.bind_eq_ok h
  cases h
  exact ⟨rfl, Collection.translates_of_shift hreads, Collection.translates_of_shift hwrites⟩

theorem Dataspace.Translates.uniform_right {v : List ℤ} {d d' : Dataspace}
    (h : d.Translates v d') : d'.Uniform := by
  have hwidth : v.length = d'.width := h.reads.uniform_right.1.symm
  exact ⟨hwidth ▸ h.reads.uniform_right, hwidth ▸ h.writes.uniform_right⟩

/-- All dataspaces of `n'` are those of `n`, moved by the vector. -/
structure Nest.Translates (v : List ℤ) (n n' : Nest) : Prop where
  domain_eq : n'.domain = n.domain
  dataspaces : List.Forall₂ (Dataspace.Translates v) n.dataspaces n'.dataspaces

namespace Nest

variable {v : List ℤ} {n n' : Nest}

theorem translates_of_shift {extent : Tuple} (h : n.shift extent = .ok n') :
    n.Translates extent.values n' := by
  obtain ⟨dataspaces, hdataspaces, h⟩ := Checked.bind_eq_ok h
  cases h
  exact ⟨rfl, (Checked.mapM_forall₂ hdataspaces).imp fun _ _ => Dataspace.translates_of_shift⟩

theorem Translates.dimensions_eq (h : n.Translates v n') : n'.dimensions = n.dimensions :=
  congrArg Domain.dimensions h.domain_eq

/-- The first dataspaces of a name correspond to each other. -/
theorem Translates.dataspace? (h : n.Translates v n') (name : String) :
    Option.Rel (Dataspace.Translates v) (n.dataspace? name) (n'.dataspace? name) := by
  unfold Nest.dataspace?
  have hall := h.dataspaces
  generalize n.dataspaces = ds, n'.dataspaces = ds' at hall ⊢
  induction hall with
  | nil => exact .none
  | cons hd _ ih =>
    rw [List.find?_cons, List.find?_cons, hd.name_eq]
    split
    · exact .some hd
    · exact ih

end Nest

/-- Each nest of `c'` is the one of `c` with its number, moved by the vector of that number. -/
def Chain.Translates (σ : ℕ → List ℤ) (c c' : Chain) : Prop :=
  List.Forall₂ (fun x x' : Nest × ℕ => x'.2 = x.2 ∧ x.1.Translates (σ x.2) x'.1)
    c.nests.zipIdx c'.nests.zipIdx

theorem Chain.Translates.uniform_right {σ : ℕ → List ℤ} {c c' : Chain} (h : c.Translates σ c') :
    Dependence.Uniform c' := by
  intro n' hn' d' hd'
  obtain ⟨k, hk⟩ := List.mem_iff_getElem?.mp hn'
  have hmem : (n', k) ∈ c'.nests.zipIdx := List.mk_mem_zipIdx_iff_getElem?.mpr hk
  obtain ⟨x, -, -, hnest⟩ := Checked.exists_of_mem_forall₂ h hmem
  obtain ⟨d, -, hd⟩ := Checked.exists_of_mem_forall₂ hnest.dataspaces hd'
  exact hd.uniform_right

/-! ### Translated distances -/

namespace Dependence

open Checked

variable {σ : ℕ → List ℤ} {p n : ℕ}

/-- What is added to the distance of a link when the nests are moved. -/
def gap (σ : ℕ → List ℤ) (link : Link) : ℤ :=
  (σ link.later).getD link.dimension 0 - (σ link.earlier).getD link.dimension 0

/-- The distances after the nests are moved, in numbers of any size. -/
def moved (σ : ℕ → List ℤ) (ds : Distances) : Distances := ds.map fun e => (e.1, e.2 + gap σ e.1)

theorem upsert_moved (link : Link) (v : ℤ) (ds : Distances) :
    SortedList.upsert Link.cmp max link (v + gap σ link) (moved σ ds) =
      moved σ (SortedList.upsert Link.cmp max link v ds) := by
  induction ds with
  | nil => rfl
  | cons e ds ih =>
    show SortedList.upsert _ _ _ _ ((e.1, e.2 + gap σ e.1) :: moved σ ds) = _
    unfold SortedList.upsert
    cases hcmp : link.cmp e.1 with
    | lt => rfl
    | eq =>
      have hmax : max (e.2 + gap σ e.1) (v + gap σ e.1) = max e.2 v + gap σ e.1 := by omega
      rw [Link.eq_of_cmp hcmp]
      exact congrArg (fun w => (e.1, w) :: moved σ ds) hmax
    | gt => exact congrArg _ ih

theorem record_moved {vs vs' : List ℤ} {d : ℕ} (hlength : vs'.length = vs.length)
    (hvs : ∀ i < vs.length, vs'.getD i 0 = vs.getD i 0 + gap σ ⟨p, n, d + i⟩) (ds : Distances) :
    record p n d vs' (moved σ ds) = moved σ (record p n d vs ds) := by
  induction vs generalizing vs' d ds with
  | nil =>
    rw [List.length_eq_zero_iff.mp hlength]
    rfl
  | cons v vs ih =>
    obtain ⟨v', vs', rfl⟩ := List.exists_cons_of_length_eq_add_one hlength
    have hfirst : v' = v + gap σ ⟨p, n, d⟩ := hvs 0 (Nat.succ_pos _)
    rw [record, record, hfirst, upsert_moved]
    refine ih (Nat.succ.inj hlength) (fun i hi => ?_) _
    rw [show d + 1 + i = d + (i + 1) by omega]
    exact hvs (i + 1) (Nat.succ_lt_succ hi)

/-- A difference of extremes is not a word. -/
def CombineOverflow (e : DimensionError) : Prop := ∃ t, e = .combineOverflow t

theorem sub_moved {u v : List ℤ} {hi lo diff : Tuple} (hhi : hi.width = v.length)
    (hlo : lo.width = u.length) (h : hi.sub lo = .ok diff) :
    Yields CombineOverflow ((hi.moved v).sub (lo.moved u)) fun diff' =>
      diff'.values.length = diff.values.length ∧ ∀ i < diff.values.length,
        diff'.values.getD i 0 = diff.values.getD i 0 + (v.getD i 0 - u.getD i 0) := by
  obtain ⟨hw, hvalues⟩ := Tuple.sub_eq_ok h
  have huv : u.length = v.length := by rw [← hlo, ← hw, hhi]
  have hwidth : (hi.moved v).width = (lo.moved u).width := by
    rw [Tuple.width_moved hhi, Tuple.width_moved hlo, huv]
  have hlength : diff.values.length = v.length := by
    rw [hvalues, List.length_zipWith]
    exact (congrArg₂ min hhi (hlo.trans huv)).trans (Nat.min_self _)
  cases hsub : (hi.moved v).sub (lo.moved u) with
  | error e => exact .inr ⟨e, rfl, _, (Tuple.zipWith_eq_error hwidth hsub).1⟩
  | ok diff' =>
    obtain ⟨-, hvalues'⟩ := Tuple.sub_eq_ok hsub
    refine .inl ⟨diff', rfl, ?_, fun i hi' => ?_⟩
    · rw [hvalues', List.length_zipWith, hlength]
      exact (congrArg₂ min (Tuple.width_moved hhi) ((Tuple.width_moved hlo).trans huv)).trans
        (Nat.min_self _)
    · rw [hlength] at hi'
      have hiu : i < u.length := huv ▸ hi'
      rw [hvalues', hvalues, getD_zipWith _ (hi'.trans_eq (Tuple.width_moved hhi).symm)
        (hiu.trans_eq (Tuple.width_moved hlo).symm), getD_zipWith _ (hi'.trans_eq hhi.symm)
        (hiu.trans_eq hlo.symm), Tuple.getD_moved hhi hi', Tuple.getD_moved hlo hiu]
      omega

theorem addAccesses_moved {pair pair' : Collection × Collection} {ds ds' : Distances}
    (hlater : pair.1.Translates (σ n) pair'.1) (hearlier : pair.2.Translates (σ p) pair'.2)
    (h : addAccesses p n ds pair = .ok ds') :
    Yields CombineOverflow (addAccesses p n (moved σ ds) pair') (· = moved σ ds') := by
  unfold addAccesses
  rcases addAccesses_eq_ok h with ⟨hnone, rfl⟩ | ⟨diff, hsome, rfl⟩
  · rw [maxDifference?_eq_none_iff, ← hlater.tuples_eq_nil_iff, ← hearlier.tuples_eq_nil_iff,
      ← maxDifference?_eq_none_iff] at hnone
    rw [hnone]
    exact .inl ⟨_, rfl, rfl⟩
  · obtain ⟨hi, lo, hhi, hlo, hsub⟩ := maxDifference?_eq_some hsome
    have hdiff' : maxDifference? pair'.1 pair'.2 =
        ((hi.moved (σ n)).sub (lo.moved (σ p))).map some := by
      refine maxDifference?_of_some ?_ ?_
      · rw [hlater.maxima?_eq, hhi]
        rfl
      · rw [hearlier.minima?_eq, hlo]
        rfl
    rcases sub_moved (Collection.width_maxima? hlater.uniform hhi)
      (Collection.width_minima? hearlier.uniform hlo) hsub with
      ⟨diff', hok, hlength, hvalue⟩ | ⟨e, herror, he⟩
    · rw [hdiff', hok]
      refine .inl ⟨_, rfl, record_moved hlength (fun i hi => ?_) ds⟩
      rw [Nat.zero_add]
      exact hvalue i hi
    · rw [hdiff', herror]
      exact .inr ⟨e, rfl, he⟩

theorem checkWidth_translates {v : List ℤ} {nest nest' : Nest} {d d' : Dataspace} {k : ℕ}
    (hnest : nest.Translates v nest') (hd : d.Translates v d') (hw : d.width = nest.dimensions) :
    checkWidth d' k nest'.dimensions = .ok () := by
  have hw' : d'.width = nest'.dimensions := by
    rw [hnest.dimensions_eq, ← hw]
    exact hd.reads.width_eq
  rw [checkWidth, if_neg (not_not.mpr hw')]

theorem addDataspace_moved {earlier earlier' later later' : Nest} {dp dp' : Dataspace}
    {ds ds' : Distances} (hearlier : earlier.Translates (σ p) earlier')
    (hlater : later.Translates (σ n) later') (hdp : dp.Translates (σ p) dp')
    (h : addDataspace p n earlier later ds dp = .ok ds') :
    Yields CombineOverflow (addDataspace p n earlier' later' (moved σ ds) dp')
      (· = moved σ ds') := by
  have hfind := hlater.dataspace? dp.name
  unfold addDataspace
  rw [hdp.name_eq]
  rcases addDataspace_eq_ok h with ⟨hnone, rfl⟩ | ⟨dn, hsome, hpw, hnw, hfold⟩
  · rw [hnone] at hfind
    generalize later'.dataspace? dp.name = found at hfind ⊢
    cases hfind
    exact .inl ⟨_, rfl, rfl⟩
  · rw [hsome] at hfind
    generalize later'.dataspace? dp.name = found at hfind ⊢
    cases hfind with
    | some hdn =>
      dsimp only
      rw [checkWidth_translates hearlier hdp hpw, bind_of_eq_ok rfl,
        checkWidth_translates hlater hdn hnw, bind_of_eq_ok rfl]
      refine foldlM_yields (R := fun x y => x.1.Translates (σ n) y.1 ∧ x.2.Translates (σ p) y.2)
        (fun x y hxy s s' => addAccesses_moved hxy.1 hxy.2) ?_ hfold
      exact .cons ⟨hdn.writes, hdp.writes⟩ (.cons ⟨hdn.reads, hdp.writes⟩
        (.cons ⟨hdn.writes, hdp.reads⟩ .nil))

theorem forall₂_pairs {α β : Type} {R : α → β → Prop} {xs : List α} {ys : List β}
    (h : List.Forall₂ R xs ys) :
    List.Forall₂ (fun x y => R x.1 y.1 ∧ R x.2 y.2) (pairs xs) (pairs ys) := by
  induction h with
  | nil => exact .nil
  | cons hxy hrest ih =>
    refine List.rel_append ?_ ih
    rw [List.forall₂_map_left_iff, List.forall₂_map_right_iff]
    exact hrest.imp fun _ _ hr => ⟨hxy, hr⟩

/-- The distances of a translated chain are the translated distances, unless a difference of
extremes is not a word. -/
theorem distances_moved {c c' : Chain} {ds : Distances} (h : c.Translates σ c')
    (hds : distances c = .ok ds) :
    Yields CombineOverflow (distances c') (· = moved σ ds) := by
  refine foldlM_yields (T := moved σ) (fun x y hxy s s' hpair => ?_) (forall₂_pairs h) hds
  obtain ⟨⟨earlier, p⟩, ⟨later, n⟩⟩ := x
  obtain ⟨⟨earlier', p'⟩, ⟨later', n'⟩⟩ := y
  obtain ⟨⟨rfl, hearlier⟩, ⟨rfl, hlater⟩⟩ := hxy
  exact foldlM_yields (fun dp dp' hdp t t' => addDataspace_moved hearlier hlater hdp)
    hearlier.dataspaces hpair

/-! ### Differences that are not words -/

/-- Two access sets whose extremes are subtracted in a dimension: those of a dataspace of an earlier
nest and of the first one of its name in a later nest, not both of reads. -/
def Compared (c : Chain) (later earlier : Collection) (i : ℕ) : Prop :=
  ∃ (p n : ℕ) (np nn : Nest) (dp dn : Dataspace), p < n ∧ c.nests[p]? = some np ∧
    c.nests[n]? = some nn ∧ dp ∈ np.dataspaces ∧ nn.dataspace? dp.name = some dn ∧
    i < nn.dimensions ∧
    (later, earlier) ∈ [(dn.writes, dp.writes), (dn.reads, dp.writes), (dn.writes, dp.reads)]

/-- Some greatest difference of two accesses that are compared is not a word. -/
def Overflows (c : Chain) : Prop :=
  ∃ later earlier i hi lo, Compared c later earlier i ∧ IsGreatest (later.column i) hi ∧
    IsLeast (earlier.column i) lo ∧ ¬ Word.Fits (hi - lo)

variable {ds ds' : Distances} {pair : Collection × Collection} {k m i : ℕ}

theorem fits_of_addAccesses (hlater : pair.1.Uniform k) (hearlier : pair.2.Uniform m) (hi : i < k)
    {x y : ℤ} (hx : IsGreatest (pair.1.column i) x) (hy : IsLeast (pair.2.column i) y)
    (h : addAccesses p n ds pair = .ok ds') : Word.Fits (x - y) := by
  obtain ⟨b, hb, -⟩ := hx.1
  obtain ⟨a, ha, -⟩ := hy.1
  rcases addAccesses_eq_ok h with ⟨hnone, -⟩ | ⟨diff, hsome, -⟩
  · rcases maxDifference?_eq_none_iff.mp hnone with hnil | hnil
    · rw [hnil] at hb
      cases hb
    · rw [hnil] at ha
      cases ha
  · obtain ⟨hi', lo', hhi, hlo, hsub⟩ := maxDifference?_eq_some hsome
    have hhiw : hi'.values.length = k := Collection.width_maxima? hlater hhi
    have hlow : lo'.values.length = m := Collection.width_minima? hearlier hlo
    obtain ⟨hw, hvalues⟩ := Tuple.sub_eq_ok hsub
    have hkm : k = m := hhiw.symm.trans (Eq.trans hw hlow)
    have hdiff : diff.values.getD i 0 = x - y := by
      rw [hvalues, getD_zipWith _ (by omega) (by omega),
        hx.unique (Collection.isGreatest_maxima? hlater hhi hi),
        hy.unique (Collection.isLeast_minima? hearlier hlo (hkm ▸ hi))]
    have hlength : i < diff.values.length := by
      rw [hvalues, List.length_zipWith]
      omega
    rw [← hdiff, List.getD_eq_getElem _ _ hlength]
    exact Tuple.fits_sub hsub _ (List.getElem_mem hlength)

theorem exists_not_fits_of_addAccesses (hlater : pair.1.Uniform k) (hearlier : pair.2.Uniform m)
    {t : Tuple} (h : addAccesses p n ds pair = .error (.combineOverflow t)) :
    ∃ i < k, ∃ x y, IsGreatest (pair.1.column i) x ∧ IsLeast (pair.2.column i) y ∧
      ¬ Word.Fits (x - y) := by
  rcases bind_eq_error h with hdiff | ⟨r, -, hrecord⟩
  · rcases maxDifference?_cases pair.1 pair.2 with ⟨hnone, -⟩ | ⟨hi, lo, hhi, hlo, hmap⟩
    · rw [hnone] at hdiff
      cases hdiff
    have hsub : hi.sub lo = .error (.combineOverflow t) := by
      rw [hmap] at hdiff
      cases hsub : hi.sub lo <;> rw [hsub] at hdiff <;> cases hdiff
      rfl
    have hhiw : hi.values.length = k := Collection.width_maxima? hlater hhi
    have hlow : lo.values.length = m := Collection.width_minima? hearlier hlo
    have hw : hi.width = lo.width := by
      by_contra hne
      unfold Tuple.sub Tuple.zipWith at hsub
      rw [if_pos hne] at hsub
      cases hsub
    obtain ⟨-, v, hv, hfits⟩ := Tuple.zipWith_eq_error hw hsub
    obtain ⟨i, hi', rfl⟩ := List.getElem_of_mem hv
    rw [List.length_zipWith] at hi'
    refine ⟨i, by omega, _, _, Collection.isGreatest_maxima? hlater hhi (by omega),
      Collection.isLeast_minima? hearlier hlo (by omega), ?_⟩
    rwa [List.getElem_zipWith, ← List.getD_eq_getElem _ 0, ← List.getD_eq_getElem _ 0] at hfits
  · cases r <;> cases hrecord

theorem Uniform.of_pair {c : Chain} (hc : Uniform c) {p n : ℕ} {np nn : Nest} {dp dn : Dataspace}
    (hp : c.nests[p]? = some np) (hn : c.nests[n]? = some nn) (hdp : dp ∈ np.dataspaces)
    (hdn : nn.dataspace? dp.name = some dn) {pair : Collection × Collection}
    (hpair : pair ∈ [(dn.writes, dp.writes), (dn.reads, dp.writes), (dn.writes, dp.reads)]) :
    pair.1.Uniform dn.width ∧ pair.2.Uniform dp.width := by
  have hmem : dn ∈ nn.dataspaces := List.mem_of_find?_eq_some hdn
  exact uniform_of_mem (hc np (List.mem_of_getElem? hp) dp hdp)
    (hc nn (List.mem_of_getElem? hn) dn hmem) hpair

/-- A search for distances that comes to its end has compared all accesses. -/
theorem not_overflows {c : Chain} (hc : Uniform c) (h : distances c = .ok ds) : ¬ Overflows c := by
  rintro ⟨later, earlier, i, x, y, hcompared, hx, hy, hfits⟩
  obtain ⟨p, n, np, nn, dp, dn, hlt, hp, hn, hdp, hdn, hi, hpair⟩ := hcompared
  refine hfits (foldlM_reaches (fun _ => Word.Fits (x - y)) (fun t t' hadd => ?_)
    (mem_pairs_zipIdx_iff.mpr ⟨hlt, hp, hn⟩) (fun _ _ _ _ ht _ => ht) h)
  refine foldlM_reaches (fun _ => Word.Fits (x - y)) (fun s s' hds => ?_) hdp
    (fun _ _ _ _ hs _ => hs) hadd
  rcases addDataspace_eq_ok hds with ⟨hnone, -⟩ | ⟨_, hsome, -, hnw, hfold⟩
  · rw [hdn] at hnone
    cases hnone
  · rw [hdn] at hsome
    cases hsome
    obtain ⟨hlater, hearlier⟩ := hc.of_pair hp hn hdp hdn hpair
    exact foldlM_reaches (fun _ => Word.Fits (x - y))
      (fun _ _ => fits_of_addAccesses hlater hearlier (hnw ▸ hi) hx hy) hpair
      (fun _ _ _ _ hr _ => hr) hfold

theorem checkWidth_eq_error {d : Dataspace} {loop dimensions : ℕ} {e : DimensionError}
    (h : checkWidth d loop dimensions = .error e) : e.kind = .dataspaceMismatch := by
  unfold checkWidth at h
  split at h <;> cases h
  rfl

/-- A search that fails has met a dataspace of the wrong width, or two access sets that it cannot
compare. -/
theorem exists_of_distances_eq_error {c : Chain} {e : DimensionError}
    (h : distances c = .error e) : e.kind = .dataspaceMismatch ∨
      ∃ p n np nn dp dn pair s, (p < n ∧ c.nests[p]? = some np ∧ c.nests[n]? = some nn) ∧
        (dp ∈ np.dataspaces ∧ nn.dataspace? dp.name = some dn ∧ dn.width = nn.dimensions) ∧
        pair ∈ [(dn.writes, dp.writes), (dn.reads, dp.writes), (dn.writes, dp.reads)] ∧
        addAccesses p n s pair = .error e := by
  obtain ⟨⟨⟨np, p⟩, ⟨nn, n⟩⟩, hmem, s, hadd⟩ := exists_of_foldlM_eq_error h
  obtain ⟨dp, hdp, s, hds⟩ := exists_of_foldlM_eq_error hadd
  unfold addDataspace at hds
  cases hdn : nn.dataspace? dp.name with
  | none =>
    rw [hdn] at hds
    cases hds
  | some dn =>
    rw [hdn] at hds
    rcases bind_eq_error hds with hwidth | ⟨_, -, hds⟩
    · exact .inl (checkWidth_eq_error hwidth)
    rcases bind_eq_error hds with hwidth | ⟨_, hwidth, hfold⟩
    · exact .inl (checkWidth_eq_error hwidth)
    obtain ⟨pair, hpair, s, hacc⟩ := exists_of_foldlM_eq_error hfold
    exact .inr ⟨p, n, np, nn, dp, dn, pair, s, mem_pairs_zipIdx_iff.mp hmem,
      ⟨hdp, hdn, checkWidth_eq_ok hwidth⟩, hpair, hacc⟩

theorem overflows_of_error {c : Chain} (hc : Uniform c) {t : Tuple}
    (h : distances c = .error (.combineOverflow t)) : Overflows c := by
  rcases exists_of_distances_eq_error h with hkind |
    ⟨p, n, np, nn, dp, dn, pair, s, ⟨hlt, hp, hn⟩, ⟨hdp, hdn, hwidth⟩, hpair, hacc⟩
  · cases hkind
  obtain ⟨hlater, hearlier⟩ := hc.of_pair hp hn hdp hdn hpair
  obtain ⟨i, hi, x, y, hx, hy, hfits⟩ := exists_not_fits_of_addAccesses hlater hearlier hacc
  rw [hwidth] at hi
  have hcompared : Compared c pair.1 pair.2 i :=
    ⟨p, n, np, nn, dp, dn, hlt, hp, hn, hdp, hdn, hi, hpair⟩
  exact ⟨pair.1, pair.2, i, x, y, hcompared, hx, hy, hfits⟩

end Dependence

end LoopSched
