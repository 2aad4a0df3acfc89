import LoopSched.Proofs.Translation

/-!
# Moving accesses

Moving the accesses of a nest by a vector is all or nothing.  Whether all members of a collection
can be moved shows at its extremes, since in each component the members lie between them.  The order
of tuples does not depend on where they are, so the moved members are in order already: none are
merged and none change places.  The opposite vector takes everything back.
-/

namespace LoopSched

/-! ### Tuples -/

namespace Tuple

/-- All components are words. -/
def Fits (t : Tuple) : Prop := ∀ x ∈ t.values, Word.Fits x

instance (t : Tuple) : Decidable t.Fits := List.decidableBAll _ _

variable {a b t extent : Tuple} {v : List ℤ}

theorem compareValues_moved {xs ys v : List ℤ} (hx : xs.length = v.length)
    (hy : ys.length = v.length) :
    compareValues (List.zipWith (· + ·) xs v) (List.zipWith (· + ·) ys v) =
      compareValues xs ys := by
  induction v generalizing xs ys with
  | nil => rw [List.length_eq_zero_iff.mp hx, List.length_eq_zero_iff.mp hy, List.zipWith_nil_left]
  | cons z v ih =>
    obtain ⟨x, xs, rfl⟩ := List.exists_cons_of_length_eq_add_one hx
    obtain ⟨y, ys, rfl⟩ := List.exists_cons_of_length_eq_add_one hy
    simp only [List.zipWith_cons_cons, compareValues, Int.add_lt_add_iff_right,
      ih (Nat.succ.inj hx) (Nat.succ.inj hy)]

/-- Tuples that are moved by one vector compare as before. -/
theorem cmp_moved (ha : a.width = v.length) (hb : b.width = v.length) :
    (a.moved v).cmp (b.moved v) = a.cmp b := by
  rw [cmp, cmp, width_moved ha, width_moved hb, ha, hb]
  exact congrArg _ (compareValues_moved ha hb)

theorem add_eq_ok_iff : a.add extent = .ok t ↔
    a.width = extent.width ∧ (a.moved extent.values).Fits ∧ t = a.moved extent.values := by
  constructor
  · intro h
    obtain ⟨hwidth, hvalues, hfits⟩ := zipWith_eq_ok h
    obtain rfl : t = a.moved extent.values := by
      cases t
      exact congrArg _ hvalues
    exact ⟨hwidth, hfits, rfl⟩
  · rintro ⟨hwidth, hfits, rfl⟩
    cases h : a.add extent with
    | error e =>
      obtain ⟨-, x, hx, hword⟩ := zipWith_eq_error hwidth h
      exact absurd (hfits x hx) hword
    | ok t =>
      obtain ⟨-, hvalues, -⟩ := zipWith_eq_ok h
      cases t
      exact congrArg (fun values => Except.ok (Tuple.mk values)) hvalues

/-- The opposite vector takes a tuple back. -/
theorem moved_neg (h : t.width = v.length) : (t.moved v).moved (v.map (- ·)) = t := by
  have hmap : (v.map (- ·)).length = v.length := List.length_map _
  have hmoved : (t.moved v).width = (v.map (- ·)).length := (width_moved h).trans hmap.symm
  refine eq_of_getD ((width_moved hmoved).trans hmap) h fun i hi => ?_
  have hneg : (v.map (- ·)).getD i 0 = - v.getD i 0 := by simp [hi]
  rw [getD_moved hmoved (hmap.symm ▸ hi), getD_moved h hi, hneg]
  omega

/-- The components of a moved tuple are words if each of them is. -/
theorem fits_moved_iff (h : t.width = v.length) :
    (t.moved v).Fits ↔ ∀ i < v.length, Word.Fits (t.values.getD i 0 + v.getD i 0) := by
  have hlength : (t.moved v).values.length = v.length := width_moved h
  constructor
  · intro hfits i hi
    rw [← getD_moved h hi, List.getD_eq_getElem _ 0 (hlength.symm ▸ hi)]
    exact hfits _ (List.getElem_mem _)
  · intro hall x hx
    obtain ⟨i, hi, rfl⟩ := List.getElem_of_mem hx
    rw [← List.getD_eq_getElem _ 0 hi, getD_moved h (hlength ▸ hi)]
    exact hall i (hlength ▸ hi)

end Tuple

/-! ### Collections -/

namespace Collection

variable {c c' : Collection} {extent : Tuple} {v : List ℤ}

/-- Collections as the constructors make them of words, and what becomes of them. -/
inductive Built : Collection → Prop
  | ofTuples {ts : List Tuple} {c : Collection} : (∀ t ∈ ts, t.Fits) →
      Collection.ofTuples ts = .ok c → Built c
  | ofWidth {ts : List Tuple} {m : ℕ} {c : Collection} : (∀ t ∈ ts, t.Fits) →
      Collection.ofWidth ts m = .ok c → Built c
  | empty {m : ℕ} {c : Collection} : Collection.empty m = .ok c → Built c
  | union {a b c : Collection} : Built a → Built b → a.union b = .ok c → Built c
  | shift {c c' : Collection} {extent : Tuple} : Built c → c.shift extent = .ok c' → Built c'

/-- What every such collection is: in order, of one width, and with words for components. -/
structure Valid (c : Collection) : Prop where
  increasing : SortedList.Increasing Tuple.cmp c.tuples
  uniform : c.Uniform c.width
  fits : ∀ t ∈ c.tuples, t.Fits

theorem mem_ofList {t : Tuple} {ts : List Tuple} : t ∈ SortedList.ofList Tuple.cmp ts ↔ t ∈ ts :=
  SortedList.mem_ofList (fun _ _ => Tuple.eq_of_cmp) ts

theorem ofWidth_eq_ok {ts : List Tuple} {m : ℕ} (h : ofWidth ts m = .ok c) :
    c.tuples = SortedList.ofList Tuple.cmp ts := by
  unfold ofWidth at h
  by_cases hm : m = 0
  · rw [if_pos hm] at h
    cases h
  rw [if_neg hm] at h
  dsimp only at h
  split at h
  · cases h
  · cases h
    rfl

theorem valid_of_ofWidth {ts : List Tuple} {m : ℕ} (hts : ∀ t ∈ ts, t.Fits)
    (h : ofWidth ts m = .ok c) : c.Valid := by
  have huniform := uniform_of_ofWidth h
  have htuples := ofWidth_eq_ok h
  refine ⟨htuples ▸ SortedList.increasing_ofList ts, huniform.1.symm ▸ huniform, fun t ht => ?_⟩
  rw [htuples, mem_ofList] at ht
  exact hts t ht

/-! ### Room for a translation -/

/-- The collection with every member moved, in numbers of any size. -/
def moved (v : List ℤ) (c : Collection) : Collection :=
  { c with tuples := c.tuples.map (Tuple.moved v) }

/-- There are no members, or both extremes are still words after the translation. -/
def HasRoom (c : Collection) (extent : Tuple) : Prop :=
  c.tuples = [] ∨ ∃ hi lo, c.maxima? = some hi ∧ c.minima? = some lo ∧
    (hi.moved extent.values).Fits ∧ (lo.moved extent.values).Fits

/-- The members lie between the extremes, and in each component the extremes are values of
members. -/
theorem hasRoom_iff (hc : c.Uniform extent.width) :
    c.HasRoom extent ↔ ∀ t ∈ c.tuples, (t.moved extent.values).Fits := by
  constructor
  · rintro (hempty | ⟨hi, lo, hhi, hlo, hfhi, hflo⟩) t ht
    · rw [hempty] at ht
      cases ht
    rw [Tuple.fits_moved_iff (hc.2 t ht)]
    intro i him
    have hmax := (Tuple.fits_moved_iff (width_maxima? hc hhi)).mp hfhi i him
    have hmin := (Tuple.fits_moved_iff (width_minima? hc hlo)).mp hflo i him
    have hle := (isGreatest_maxima? hc hhi him).2 ⟨t, ht, rfl⟩
    have hge := (isLeast_minima? hc hlo him).2 ⟨t, ht, rfl⟩
    exact ⟨hmin.1.trans (by omega), le_trans (by omega) hmax.2⟩
  · intro hall
    cases hhi : c.maxima? with
    | none => exact .inl (maxima?_eq_none_iff.mp hhi)
    | some hi =>
      cases hlo : c.minima? with
      | none => exact .inl (minima?_eq_none_iff.mp hlo)
      | some lo =>
        have hattained : ∀ u : Tuple, u.width = extent.width →
            (∀ i < extent.width, u.values.getD i 0 ∈ c.column i) →
            (u.moved extent.values).Fits := by
          intro u hu hmem
          rw [Tuple.fits_moved_iff hu]
          intro i him
          obtain ⟨t, ht, heq⟩ := hmem i him
          rw [← heq]
          exact (Tuple.fits_moved_iff (hc.2 t ht)).mp (hall t ht) i him
        refine .inr ⟨hi, lo, hhi, hlo, ?_, ?_⟩
        · exact hattained hi (width_maxima? hc hhi) fun i him => (isGreatest_maxima? hc hhi him).1
        · exact hattained lo (width_minima? hc hlo) fun i him => (isLeast_minima? hc hlo him).1

theorem increasing_moved (hc : c.Valid) (hwidth : v.length = c.width) :
    SortedList.Increasing Tuple.cmp (c.moved v).tuples :=
  hc.increasing.map fun a ha b hb => Tuple.cmp_moved ((hc.uniform.2 a ha).trans hwidth.symm)
    ((hc.uniform.2 b hb).trans hwidth.symm)

/-- A valid collection is moved if it has room, and the members stay in their order. -/
theorem shift_eq_ok_iff (hc : c.Valid) : c.shift extent = .ok c' ↔
    extent.width = c.width ∧ c.HasRoom extent ∧ c' = c.moved extent.values := by
  constructor
  · intro h
    obtain ⟨hwidth, hwidth', tuples, htuples, hsorted⟩ := shift_eq_ok h
    have hmap : tuples = c.tuples.map (Tuple.moved extent.values) :=
      Checked.mapM_eq_map (fun t _ u hu => (Tuple.add_eq_ok_iff.mp hu).2.2) htuples
    refine ⟨hwidth, (hasRoom_iff (hwidth ▸ hc.uniform)).mpr fun t ht => ?_, ?_⟩
    · obtain ⟨u, -, hu⟩ := Checked.exists_mem_of_mapM htuples ht
      exact (Tuple.add_eq_ok_iff.mp hu).2.1
    · have hordered := (increasing_moved hc hwidth).ofList_eq
      rw [hmap, show c.tuples.map _ = (c.moved extent.values).tuples from rfl, hordered] at hsorted
      cases c'
      cases hwidth'
      cases hsorted
      rfl
  · rintro ⟨hwidth, hroom, rfl⟩
    have hfits := (hasRoom_iff (hwidth ▸ hc.uniform)).mp hroom
    have hall : c.tuples.mapM (·.add extent) = .ok (c.tuples.map (Tuple.moved extent.values)) :=
      Checked.mapM_eq_ok_map fun t ht =>
        Tuple.add_eq_ok_iff.mpr ⟨(hc.uniform.2 t ht).trans hwidth.symm, hfits t ht, rfl⟩
    unfold shift
    rw [if_neg (not_not.mpr hwidth), hall]
    have hordered := (increasing_moved hc hwidth).ofList_eq
    exact congrArg (fun tuples => Except.ok { c with tuples := tuples }) hordered

theorem exists_shift_iff (hc : c.Valid) (hwidth : extent.width = c.width) :
    (∃ c', c.shift extent = .ok c') ↔ c.HasRoom extent := by
  simp [shift_eq_ok_iff hc, hwidth]

theorem valid_moved (hc : c.Valid) (hwidth : extent.width = c.width) (hroom : c.HasRoom extent) :
    (c.moved extent.values).Valid := by
  refine ⟨increasing_moved hc hwidth, ⟨rfl, fun u hu => ?_⟩, fun u hu => ?_⟩
  · obtain ⟨t, ht, rfl⟩ := List.mem_map.mp hu
    exact (Tuple.width_moved ((hc.uniform.2 t ht).trans hwidth.symm)).trans hwidth
  · obtain ⟨t, ht, rfl⟩ := List.mem_map.mp hu
    exact (hasRoom_iff (hwidth ▸ hc.uniform)).mp hroom t ht

theorem Built.valid (h : c.Built) : c.Valid := by
  induction h with
  | @ofTuples ts c hts h =>
    unfold Collection.ofTuples at h
    cases hsorted : SortedList.ofList Tuple.cmp ts with
    | nil =>
      rw [hsorted] at h
      cases h
    | cons first rest =>
      rw [hsorted] at h
      refine valid_of_ofWidth (fun t ht => hts t ?_) h
      rwa [← hsorted, mem_ofList] at ht
  | ofWidth hts h => exact valid_of_ofWidth hts h
  | empty h => exact valid_of_ofWidth (by simp) h
  | @union a b c _ _ h iha ihb =>
    unfold Collection.union at h
    by_cases hwidth : a.width = b.width
    · rw [if_neg (not_not.mpr hwidth)] at h
      cases h
      have hmem : ∀ t, t ∈ b.tuples.foldl (fun s t => SortedList.insert Tuple.cmp t s) a.tuples ↔
          t ∈ a.tuples ∨ t ∈ b.tuples := fun t =>
        SortedList.mem_foldl_insert (fun _ _ => Tuple.eq_of_cmp) b.tuples a.tuples
      refine ⟨iha.increasing.foldl_insert _, ⟨rfl, fun t ht => ?_⟩, fun t ht => ?_⟩
      · rcases (hmem t).mp ht with ht | ht
        · exact iha.uniform.2 t ht
        · exact (ihb.uniform.2 t ht).trans hwidth.symm
      · exact ((hmem t).mp ht).elim (iha.fits t) (ihb.fits t)
    · rw [if_pos hwidth] at h
      cases h
  | shift _ h ih =>
    obtain ⟨hwidth, hroom, rfl⟩ := (shift_eq_ok_iff ih).mp h
    exact valid_moved ih hwidth hroom

/-- The members are the moved ones in the same order, as many as before, and so are the extremes. -/
structure MovedBy (extent : Tuple) (c c' : Collection) : Prop where
  width_eq : c'.width = c.width
  tuples_eq : c'.tuples = c.tuples.map (Tuple.moved extent.values)
  size_eq : c'.size = c.size
  maxima?_eq : c'.maxima? = c.maxima?.map (Tuple.moved extent.values)
  minima?_eq : c'.minima? = c.minima?.map (Tuple.moved extent.values)

theorem movedBy_of_shift (hc : c.Valid) (h : c.shift extent = .ok c') : c.MovedBy extent c' := by
  obtain ⟨-, -, rfl⟩ := (shift_eq_ok_iff hc).mp h
  have htranslates := translates_of_shift h
  exact ⟨rfl, rfl, List.length_map _, htranslates.maxima?_eq, htranslates.minima?_eq⟩

/-- The opposite translation has room, since it leads back to words. -/
theorem shift_neg_of_shift (hc : c.Valid) (h : c.shift extent = .ok c') {back : Tuple}
    (hback : extent.neg = .ok back) : c'.shift back = .ok c := by
  obtain ⟨hwidth, hroom, rfl⟩ := (shift_eq_ok_iff hc).mp h
  have hvalues := Tuple.neg_eq_ok hback
  have hreturn : ∀ t ∈ c.tuples, (t.moved extent.values).moved back.values = t := by
    intro t ht
    rw [hvalues]
    exact Tuple.moved_neg ((hc.uniform.2 t ht).trans hwidth.symm)
  have hwidth' : back.width = c.width := by
    show back.values.length = c.width
    rw [hvalues, List.length_map]
    exact hwidth
  have hvalid := valid_moved hc hwidth hroom
  refine (shift_eq_ok_iff hvalid).mpr ⟨hwidth', (hasRoom_iff (hwidth' ▸ hvalid.uniform)).mpr ?_, ?_⟩
  · intro u hu
    obtain ⟨t, ht, rfl⟩ := List.mem_map.mp hu
    rw [hreturn t ht]
    exact hc.fits t ht
  · have hmap : (c.tuples.map (Tuple.moved extent.values)).map (Tuple.moved back.values) =
        c.tuples := by
      rw [List.map_map]
      exact (List.map_congr_left hreturn).trans (List.map_id _)
    exact congrArg (Collection.mk · c.width) hmap.symm

end Collection

/-! ### Dataspaces and nests -/

namespace Dataspace

variable {d d' : Dataspace} {extent : Tuple}

/-- Dataspaces as the constructor makes them, and what becomes of them. -/
inductive Built : Dataspace → Prop
  | make {name : String} {reads writes : Collection} {d : Dataspace} : reads.Built → writes.Built →
      Dataspace.make name reads writes = .ok d → Built d
  | shift {d d' : Dataspace} {extent : Tuple} : Built d → d.shift extent = .ok d' → Built d'

/-- Both access sets are valid and of one width. -/
structure Valid (d : Dataspace) : Prop where
  reads : d.reads.Valid
  writes : d.writes.Valid
  width_eq : d.writes.width = d.reads.width

/-- The extent has the width of the dataspace, and both access sets have room. -/
def HasRoom (d : Dataspace) (extent : Tuple) : Prop :=
  extent.width = d.width ∧ d.reads.HasRoom extent ∧ d.writes.HasRoom extent

/-- Both access sets are moved, and the name stays. -/
structure MovedBy (extent : Tuple) (d d' : Dataspace) : Prop where
  name_eq : d'.name = d.name
  reads : d.reads.MovedBy extent d'.reads
  writes : d.writes.MovedBy extent d'.writes

theorem shift_eq_ok_iff : d.shift extent = .ok d' ↔ d'.name = d.name ∧
    d.reads.shift extent = .ok d'.reads ∧ d.writes.shift extent = .ok d'.writes := by
  constructor
  · intro h
    obtain ⟨reads, hreads, h⟩ := Checked.bind_eq_ok h
    obtain ⟨writes, hwrites, h⟩ := Checked.bind_eq_ok h
    cases h
    exact ⟨rfl, hreads, hwrites⟩
  · rintro ⟨hname, hreads, hwrites⟩
    unfold shift
    rw [Checked.bind_of_eq_ok hreads, Checked.bind_of_eq_ok hwrites, ← hname]
    rfl

theorem exists_shift_iff (hd : d.Valid) : (∃ d', d.shift extent = .ok d') ↔ d.HasRoom extent := by
  constructor
  · rintro ⟨d', h⟩
    obtain ⟨-, hreads, hwrites⟩ := shift_eq_ok_iff.mp h
    obtain ⟨hwidth, hroom, -⟩ := (Collection.shift_eq_ok_iff hd.reads).mp hreads
    exact ⟨hwidth, hroom, ((Collection.shift_eq_ok_iff hd.writes).mp hwrites).2.1⟩
  · rintro ⟨hwidth, hreads, hwrites⟩
    refine ⟨⟨d.name, d.reads.moved extent.values, d.writes.moved extent.values⟩,
      shift_eq_ok_iff.mpr ⟨rfl, ?_, ?_⟩⟩
    · exact (Collection.shift_eq_ok_iff hd.reads).mpr ⟨hwidth, hreads, rfl⟩
    · exact (Collection.shift_eq_ok_iff hd.writes).mpr ⟨hwidth.trans hd.width_eq.symm, hwrites, rfl⟩

theorem Built.valid (h : d.Built) : d.Valid := by
  induction h with
  | @make name reads writes d hreads hwrites h =>
    unfold Dataspace.make at h
    by_cases hwidth : reads.width = writes.width
    · rw [if_neg (not_not.mpr hwidth)] at h
      cases h
      exact ⟨hreads.valid, hwrites.valid, hwidth.symm⟩
    · rw [if_pos hwidth] at h
      cases h
  | @shift d d' extent _ h ih =>
    obtain ⟨-, hreads, hwrites⟩ := shift_eq_ok_iff.mp h
    obtain ⟨hwidth, hroom, hreads⟩ := (Collection.shift_eq_ok_iff ih.reads).mp hreads
    obtain ⟨hwidth', hroom', hwrites⟩ := (Collection.shift_eq_ok_iff ih.writes).mp hwrites
    refine ⟨?_, ?_, ?_⟩
    · rw [hreads]
      exact Collection.valid_moved ih.reads hwidth hroom
    · rw [hwrites]
      exact Collection.valid_moved ih.writes hwidth' hroom'
    · rw [hreads, hwrites]
      exact ih.width_eq

theorem movedBy_of_shift (hd : d.Valid) (h : d.shift extent = .ok d') : d.MovedBy extent d' := by
  obtain ⟨hname, hreads, hwrites⟩ := shift_eq_ok_iff.mp h
  exact ⟨hname, Collection.movedBy_of_shift hd.reads hreads,
    Collection.movedBy_of_shift hd.writes hwrites⟩

theorem shift_neg_of_shift (hd : d.Valid) (h : d.shift extent = .ok d') {back : Tuple}
    (hback : extent.neg = .ok back) : d'.shift back = .ok d := by
  obtain ⟨hname, hreads, hwrites⟩ := shift_eq_ok_iff.mp h
  exact shift_eq_ok_iff.mpr ⟨hname.symm, Collection.shift_neg_of_shift hd.reads hreads hback,
    Collection.shift_neg_of_shift hd.writes hwrites hback⟩

end Dataspace

namespace Nest

variable {n n' : Nest} {extent : Tuple}

/-- Every dataspace is moved, in its place, and the domain stays. -/
structure MovedBy (extent : Tuple) (n n' : Nest) : Prop where
  domain_eq : n'.domain = n.domain
  dataspaces : List.Forall₂ (Dataspace.MovedBy extent) n.dataspaces n'.dataspaces

theorem shift_eq_ok_iff : n.shift extent = .ok n' ↔ n'.domain = n.domain ∧
    List.Forall₂ (fun d d' => Dataspace.shift d extent = .ok d') n.dataspaces n'.dataspaces := by
  constructor
  · intro h
    obtain ⟨dataspaces, hdataspaces, h⟩ := Checked.bind_eq_ok h
    cases h
    exact ⟨rfl, Checked.mapM_forall₂ hdataspaces⟩
  · rintro ⟨hdomain, hall⟩
    unfold shift
    rw [Checked.bind_of_eq_ok (Checked.mapM_of_forall₂ hall), ← hdomain]
    rfl

theorem exists_shift_iff (hn : ∀ d ∈ n.dataspaces, d.Valid) :
    (∃ n', n.shift extent = .ok n') ↔ ∀ d ∈ n.dataspaces, d.HasRoom extent := by
  constructor
  · rintro ⟨n', h⟩ d hd
    obtain ⟨dataspaces, hdataspaces, -⟩ := Checked.bind_eq_ok h
    obtain ⟨d', -, hd'⟩ := Checked.exists_mem_of_mapM hdataspaces hd
    exact (Dataspace.exists_shift_iff (hn d hd)).mp ⟨d', hd'⟩
  · intro hroom
    obtain ⟨dataspaces, hdataspaces⟩ := Checked.exists_mapM fun d hd =>
      (Dataspace.exists_shift_iff (hn d hd)).mpr (hroom d hd)
    exact ⟨⟨n.domain, dataspaces⟩,
      shift_eq_ok_iff.mpr ⟨rfl, Checked.mapM_forall₂ hdataspaces⟩⟩

theorem movedBy_of_shift (hn : ∀ d ∈ n.dataspaces, d.Valid) (h : n.shift extent = .ok n') :
    n.MovedBy extent n' := by
  obtain ⟨hdomain, hall⟩ := shift_eq_ok_iff.mp h
  have hvalid := (List.forall₂_and_left _ _).mpr ⟨hn, hall⟩
  exact ⟨hdomain, hvalid.imp fun d d' hd => Dataspace.movedBy_of_shift hd.1 hd.2⟩

theorem shift_neg_of_shift (hn : ∀ d ∈ n.dataspaces, d.Valid) (h : n.shift extent = .ok n')
    {back : Tuple} (hback : extent.neg = .ok back) : n'.shift back = .ok n := by
  obtain ⟨hdomain, hall⟩ := shift_eq_ok_iff.mp h
  have hvalid := (List.forall₂_and_left _ _).mpr ⟨hn, hall⟩
  refine shift_eq_ok_iff.mpr ⟨hdomain.symm, List.Forall₂.flip (hvalid.imp fun d d' hd => ?_)⟩
  exact Dataspace.shift_neg_of_shift hd.1 hd.2 hback

end Nest

/-! ### All or nothing -/

section

variable {σ : Type} {r : Except DimensionError σ} {s s' : σ}

/-- Putting a checked result in place of the state. -/
theorem assign_eq_ok_iff :
    (do set (← MonadExcept.ofExcept r) : EStateM DimensionError σ Unit) s = .ok () s' ↔
      r = .ok s' := by
  cases r with
  | error e => constructor <;> intro h <;> cases h
  | ok a => constructor <;> intro h <;> cases h <;> rfl

theorem eq_of_assign_eq_error {e : DimensionError}
    (h : (do set (← MonadExcept.ofExcept r) : EStateM DimensionError σ Unit) s = .error e s') :
    s' = s := by
  cases r with
  | error e =>
    cases h
    rfl
  | ok a => cases h

end

/-- A translation in place that works exactly if there is room, does what `After` says, is taken
back by the opposite extent, and changes nothing if it fails. -/
structure AllOrNothing {σ : Type} (move : Tuple → EStateM DimensionError σ Unit) (room : Prop)
    (After : σ → σ → Prop) (extent : Tuple) (s : σ) : Prop where
  succeeds_iff : (∃ s', move extent s = .ok () s') ↔ room
  after : ∀ s', move extent s = .ok () s' → After s s'
  restored : ∀ s' back, move extent s = .ok () s' → extent.neg = .ok back →
    move back s' = .ok () s
  unchanged : ∀ e s', move extent s = .error e s' → s' = s

/-- Collections are moved as a whole if their extremes leave room, dataspaces if both of their
access sets do, and nests if all of their dataspaces do. -/
theorem shift_all_or_nothing (extent : Tuple) :
    (∀ c : Collection, c.Built → extent.width = c.width →
      AllOrNothing Collection.shiftAll (c.HasRoom extent) (Collection.MovedBy extent) extent c) ∧
    (∀ d : Dataspace, d.Built →
      ((∃ d', d.shift extent = .ok d') ↔ d.HasRoom extent) ∧
      ∀ d', d.shift extent = .ok d' → d.MovedBy extent d' ∧
        ∀ back, extent.neg = .ok back → d'.shift back = .ok d) ∧
    ∀ n : Nest, (∀ d ∈ n.dataspaces, d.Built) →
      AllOrNothing Nest.shiftAll (∀ d ∈ n.dataspaces, d.HasRoom extent) (Nest.MovedBy extent)
        extent n := by
  refine ⟨fun c hc hwidth => ?_, fun d hd => ?_, fun n hn => ?_⟩
  · have hvalid := hc.valid
    refine ⟨?_, fun c' h => ?_, fun c' back h hback => ?_, fun e c' h => ?_⟩
    · rw [← Collection.exists_shift_iff hvalid hwidth]
      exact exists_congr fun c' => assign_eq_ok_iff
    · exact Collection.movedBy_of_shift hvalid (assign_eq_ok_iff.mp h)
    · exact assign_eq_ok_iff.mpr
        (Collection.shift_neg_of_shift hvalid (assign_eq_ok_iff.mp h) hback)
    · exact eq_of_assign_eq_error h
  · have hvalid := hd.valid
    exact ⟨Dataspace.exists_shift_iff hvalid, fun d' h => ⟨Dataspace.movedBy_of_shift hvalid h,
      fun back => Dataspace.shift_neg_of_shift hvalid h⟩⟩
  · have hvalid : ∀ d ∈ n.dataspaces, d.Valid := fun d hd => (hn d hd).valid
    refine ⟨?_, fun n' h => ?_, fun n' back h hback => ?_, fun e n' h => ?_⟩
    · rw [← Nest.exists_shift_iff hvalid]
      exact exists_congr fun n' => assign_eq_ok_iff
    · exact Nest.movedBy_of_shift hvalid (assign_eq_ok_iff.mp h)
    · exact assign_eq_ok_iff.mpr (Nest.shift_neg_of_shift hvalid (assign_eq_ok_iff.mp h) hback)
    · exact eq_of_assign_eq_error h

/-- One offset of the nest is next to the greatest word, and has room for one step but not for
two. -/
theorem shift_all_or_nothing_edge :
    let reads : Collection := ⟨[⟨[-3, 0]⟩, ⟨[9223372036854775806, -5]⟩], 2⟩
    let d : Dataspace := ⟨"A", reads, ⟨[], 2⟩⟩
    let n : Nest := ⟨⟨[], []⟩, [d]⟩
    (∀ d ∈ n.dataspaces, d.Built) ∧ (∃ n', Nest.shiftAll ⟨[1, -7]⟩ n = .ok () n') ∧
      ¬ ∃ n', Nest.shiftAll ⟨[2, -7]⟩ n = .ok () n' := by
  intro reads d n
  have hreads : reads.Built :=
    .ofWidth (m := 2) (show ∀ t ∈ reads.tuples, t.Fits by decide) rfl
  have hwrites : d.writes.Built := .empty (m := 2) rfl
  have hmake : Dataspace.make "A" reads d.writes = .ok d := rfl
  have hbuilt : ∀ d ∈ n.dataspaces, d.Built :=
    List.forall_mem_singleton.mpr (.make hreads hwrites hmake)
  refine ⟨hbuilt, ?_, fun h => ?_⟩
  · refine ((shift_all_or_nothing ⟨[1, -7]⟩).2.2 n hbuilt).succeeds_iff.mpr ?_
    refine List.forall_mem_singleton.mpr ⟨rfl, .inr ⟨_, _, rfl, rfl, ?_⟩, .inl rfl⟩
    decide
  · have hroom := ((shift_all_or_nothing ⟨[2, -7]⟩).2.2 n hbuilt).succeeds_iff.mp h
    obtain ⟨-, hempty | ⟨hi, lo, hhi, hlo, hfits, -⟩, -⟩ := List.forall_mem_singleton.mp hroom
    · cases hempty
    · cases hhi
      exact absurd hfits (by decide)

end LoopSched
