import LoopSched.Proofs.Translation

/-!
# Distances are greatest differences

The distances are a map from links to numbers.  Taking a pair of access sets into account replaces
the number of a link by the greater of itself and the difference of the extremes of the two sets, so
at any time it is the greatest of all differences that were looked at under this link.  In the end
these are the differences of all conflicting accesses of the two nests.
-/

namespace LoopSched.Dependence

open Std (LawfulEqCmp OrientedCmp ReflCmp TransCmp)

theorem Link.cmp_eq : Link.cmp = compareLex (fun a b => compare a.earlier b.earlier)
    (compareLex (fun a b => compare a.later b.later)
      fun a b => compare a.dimension b.dimension) := rfl

/-- Links are compared by their three numbers, one after another. -/
instance : TransCmp Link.cmp := by
  have hearlier : TransCmp fun a b : Link => compare a.earlier b.earlier :=
    { eq_swap := OrientedCmp.eq_swap, isLE_trans := TransCmp.isLE_trans }
  have hlater : TransCmp fun a b : Link => compare a.later b.later :=
    { eq_swap := OrientedCmp.eq_swap, isLE_trans := TransCmp.isLE_trans }
  have hdimension : TransCmp fun a b : Link => compare a.dimension b.dimension :=
    { eq_swap := OrientedCmp.eq_swap, isLE_trans := TransCmp.isLE_trans }
  rw [Link.cmp_eq]
  infer_instance

instance : LawfulEqCmp Link.cmp where
  compare_self := ReflCmp.compare_self
  eq_of_compare := Link.eq_of_cmp

/-! ### Differences of two access sets -/

/-- Differences of two members in one dimension, later minus earlier. -/
def spread (later earlier : Collection) (i : ℕ) : Set ℤ :=
  {x | ∃ b ∈ later.tuples, ∃ a ∈ earlier.tuples, b.values.getD i 0 - a.values.getD i 0 = x}

theorem spread_eq_empty {later earlier : Collection} (h : later.tuples = [] ∨ earlier.tuples = [])
    (i : ℕ) : spread later earlier i = ∅ := by
  refine Set.eq_empty_iff_forall_notMem.mpr ?_
  rintro x ⟨b, hb, a, ha, -⟩
  rcases h with h | h
  · rw [h] at hb
    cases hb
  · rw [h] at ha
    cases ha

/-- The greatest difference is that of the extremes. -/
theorem isGreatest_spread {later earlier : Collection} {i : ℕ} {hi lo : ℤ}
    (hhi : IsGreatest (later.column i) hi) (hlo : IsLeast (earlier.column i) lo) :
    IsGreatest (spread later earlier i) (hi - lo) := by
  obtain ⟨⟨b, hb, hbi⟩, habove⟩ := hhi
  obtain ⟨⟨a, ha, hai⟩, hbelow⟩ := hlo
  refine ⟨⟨b, hb, a, ha, by rw [hbi, hai]⟩, ?_⟩
  rintro x ⟨b', hb', a', ha', rfl⟩
  exact Int.sub_le_sub (habove ⟨b', hb', rfl⟩) (hbelow ⟨a', ha', rfl⟩)

/-! ### What a map of distances stands for -/

variable {ds ds' : Distances} {S : Link → Set ℤ} {p n : ℕ}

/-- Each link has the greatest member of its set, and those of empty sets have none. -/
structure Tracks (ds : Distances) (S : Link → Set ℤ) : Prop where
  increasing : SortedList.Increasing Link.cmp (ds.map Prod.fst)
  greatest : ∀ link v, ds.lookup link = some v → IsGreatest (S link) v
  empty : ∀ link, ds.lookup link = none → S link = ∅

theorem tracks_nil : Tracks [] fun _ => ∅ where
  increasing := List.Pairwise.nil
  greatest := by
    intro link v h
    cases h
  empty := fun _ _ => rfl

theorem Tracks.congr {T : Link → Set ℤ} (h : Tracks ds S) (hST : ∀ link, S link = T link) :
    Tracks ds T := funext hST ▸ h

theorem Tracks.upsert (h : Tracks ds S) (key : Link) {A : Set ℤ} {v : ℤ} (hA : IsGreatest A v) :
    Tracks (SortedList.upsert Link.cmp max key v ds)
      fun link => S link ∪ {x | link = key ∧ x ∈ A} := by
  have hlookup : ∀ link, (SortedList.upsert Link.cmp max key v ds).lookup link =
      if link = key then some ((ds.lookup key).elim v (max · v)) else ds.lookup link :=
    SortedList.lookup_upsert h.increasing
  have hself : ∀ link, link = key → S link ∪ {x | link = key ∧ x ∈ A} = S link ∪ A := by
    intro link hlink
    simp [hlink]
  have hother : ∀ link, link ≠ key → S link ∪ {x | link = key ∧ x ∈ A} = S link := by
    intro link hlink
    simp [hlink]
  refine ⟨?_, fun link w hw => ?_, fun link hnone => ?_⟩
  · rw [SortedList.keys_upsert]
    exact h.increasing.insert key
  · rw [hlookup] at hw
    by_cases hlink : link = key
    · rw [if_pos hlink] at hw
      rw [hself link hlink]
      subst hlink
      cases hold : ds.lookup link with
      | none =>
        rw [hold] at hw
        cases hw
        rw [h.empty link hold, Set.empty_union]
        exact hA
      | some u =>
        rw [hold] at hw
        cases hw
        exact (h.greatest link u hold).union hA
    · rw [if_neg hlink] at hw
      rw [hother link hlink]
      exact h.greatest link w hw
  · rw [hlookup] at hnone
    by_cases hlink : link = key
    · rw [if_pos hlink] at hnone
      cases hnone
    · rw [if_neg hlink] at hnone
      rw [hother link hlink]
      exact h.empty link hnone

/-- The sets of the links between two nests, in the dimensions from `d` on. -/
def between (p n d m : ℕ) (A : ℕ → Set ℤ) (link : Link) : Set ℤ :=
  {x | (link.earlier = p ∧ link.later = n) ∧ (d ≤ link.dimension ∧ link.dimension < m) ∧
    x ∈ A link.dimension}

theorem Tracks.record {A : ℕ → Set ℤ} {vs : List ℤ} {d : ℕ} (h : Tracks ds S)
    (hA : ∀ i < vs.length, IsGreatest (A (d + i)) (vs.getD i 0)) :
    Tracks (record p n d vs ds) fun link => S link ∪ between p n d (d + vs.length) A link := by
  induction vs generalizing d ds S with
  | nil =>
    refine h.congr fun link => ?_
    ext x
    simp only [between, Set.mem_union, Set.mem_ofPred_eq, List.length_nil]
    constructor
    · exact .inl
    · rintro (hx | ⟨-, ⟨hle, hlt⟩, -⟩)
      · exact hx
      · omega
  | cons v vs ih =>
    have hfirst : IsGreatest (A d) v := hA 0 (Nat.succ_pos _)
    have hrest : ∀ i < vs.length, IsGreatest (A (d + 1 + i)) (vs.getD i 0) := by
      intro i hi
      have := hA (i + 1) (Nat.succ_lt_succ hi)
      rwa [show d + (i + 1) = d + 1 + i by omega] at this
    rw [Dependence.record]
    refine (ih (h.upsert ⟨p, n, d⟩ hfirst) hrest).congr fun link => ?_
    obtain ⟨e, l, j⟩ := link
    ext x
    simp only [between, Set.mem_union, Set.mem_ofPred_eq, Link.mk.injEq, List.length_cons, or_assoc]
    refine or_congr_right ⟨?_, ?_⟩
    · rintro (⟨⟨rfl, rfl, rfl⟩, hx⟩ | ⟨hlink, hj, hx⟩)
      · exact ⟨⟨rfl, rfl⟩, ⟨le_rfl, by omega⟩, hx⟩
      · exact ⟨hlink, by omega, hx⟩
    · rintro ⟨⟨rfl, rfl⟩, hj, hx⟩
      rcases hj.1.eq_or_lt with rfl | hlt
      · exact .inl ⟨⟨rfl, rfl, rfl⟩, hx⟩
      · exact .inr ⟨⟨rfl, rfl⟩, by omega, hx⟩

/-- Steps of a fold that each add a set to every link add all of the sets. -/
theorem foldlM_tracks {α : Type} {f : Distances → α → Except DimensionError Distances}
    {A : α → Link → Set ℤ} {xs : List α}
    (hstep : ∀ x ∈ xs, ∀ {s s' : Distances} {T : Link → Set ℤ}, Tracks s T → f s x = .ok s' →
      Tracks s' fun link => T link ∪ A x link)
    (h : Tracks ds S) (hfold : xs.foldlM f ds = .ok ds') :
    Tracks ds' fun link => S link ∪ {x | ∃ a ∈ xs, x ∈ A a link} := by
  induction xs generalizing ds S with
  | nil =>
    cases hfold
    exact h.congr fun link => by simp
  | cons a xs ih =>
    obtain ⟨ha, hxs⟩ := List.forall_mem_cons.mp hstep
    rw [List.foldlM_cons] at hfold
    obtain ⟨s, hs, hfold⟩ := Checked.bind_eq_ok hfold
    refine (ih hxs (ha h hs) hfold).congr fun link => ?_
    ext x
    simp only [Set.mem_union, Set.mem_ofPred_eq, List.mem_cons, exists_eq_or_imp, or_assoc]

/-! ### The search for distances -/

theorem Tracks.addAccesses {pair : Collection × Collection} {k m : ℕ} (h : Tracks ds S)
    (hlater : pair.1.Uniform k) (hearlier : pair.2.Uniform m)
    (hok : addAccesses p n ds pair = .ok ds') :
    Tracks ds' fun link => S link ∪ between p n 0 k (spread pair.1 pair.2) link := by
  rcases addAccesses_eq_ok hok with ⟨hnone, rfl⟩ | ⟨diff, hsome, rfl⟩
  · refine h.congr fun link => ?_
    rw [between, spread_eq_empty (maxDifference?_eq_none_iff.mp hnone)]
    simp
  · obtain ⟨hi, lo, hhi, hlo, hsub⟩ := maxDifference?_eq_some hsome
    obtain ⟨hw, hvalues⟩ := Tuple.sub_eq_ok hsub
    have hhil : hi.values.length = k := Collection.width_maxima? hlater hhi
    have hlol : lo.values.length = m := Collection.width_minima? hearlier hlo
    have hkm : k = m := by
      rw [← hhil, ← hlol]
      exact hw
    have hlength : diff.values.length = k := by
      rw [hvalues, List.length_zipWith, hhil, hlol, hkm, Nat.min_self]
    have hgreatest : ∀ i < diff.values.length,
        IsGreatest (spread pair.1 pair.2 (0 + i)) (diff.values.getD i 0) := by
      intro i hi'
      rw [hlength] at hi'
      rw [Nat.zero_add, hvalues, getD_zipWith _ (by omega) (by omega)]
      exact isGreatest_spread (Collection.isGreatest_maxima? hlater hhi hi')
        (Collection.isLeast_minima? hearlier hlo (hkm ▸ hi'))
    have hrecord := h.record (p := p) (n := n) hgreatest
    rwa [hlength, Nat.zero_add] at hrecord

/-- Two dataspaces whose accesses are compared: one of an earlier nest, and the first one of its
name in a later nest. -/
def Partners (c : Chain) (p n : ℕ) (dp dn : Dataspace) : Prop :=
  p < n ∧ ∃ np nn, c.nests[p]? = some np ∧ c.nests[n]? = some nn ∧ dp ∈ np.dataspaces ∧
    nn.dataspace? dp.name = some dn

/-- Differences of conflicting accesses of the two nests of a link, in its dimension. -/
def differences (c : Chain) (link : Link) : Set ℤ :=
  {x | ∃ dp dn a b, Partners c link.earlier link.later dp dn ∧ Conflict dp dn a b ∧
    b.values.getD link.dimension 0 - a.values.getD link.dimension 0 = x}

/-- Differences of conflicting accesses of two dataspaces. -/
def clashes (dp dn : Dataspace) (i : ℕ) : Set ℤ :=
  {x | ∃ a b, Conflict dp dn a b ∧ b.values.getD i 0 - a.values.getD i 0 = x}

theorem mem_clashes_iff {dp dn : Dataspace} {i : ℕ} {x : ℤ} : x ∈ clashes dp dn i ↔
    ∃ pair ∈ [(dn.writes, dp.writes), (dn.reads, dp.writes), (dn.writes, dp.reads)],
      x ∈ spread pair.1 pair.2 i := by
  constructor
  · rintro ⟨a, b, hab, rfl⟩
    obtain ⟨pair, hpair, ha, hb⟩ := hab.exists_pair
    exact ⟨pair, hpair, b, hb, a, ha, rfl⟩
  · rintro ⟨pair, hpair, b, hb, a, ha, rfl⟩
    refine ⟨a, b, ?_, rfl⟩
    simp only [List.mem_cons, List.not_mem_nil, or_false] at hpair
    rcases hpair with rfl | rfl | rfl
    · exact .inl ⟨ha, hb⟩
    · exact .inr (.inl ⟨ha, hb⟩)
    · exact .inr (.inr ⟨ha, hb⟩)

theorem Tracks.addDataspace {earlier later : Nest} {dp : Dataspace} (h : Tracks ds S)
    (hp : dp.Uniform) (hn : ∀ d ∈ later.dataspaces, d.Uniform)
    (hok : addDataspace p n earlier later ds dp = .ok ds') :
    Tracks ds' fun link => S link ∪ between p n 0 later.dimensions
      (fun i => {x | ∃ dn, later.dataspace? dp.name = some dn ∧ x ∈ clashes dp dn i}) link := by
  rcases addDataspace_eq_ok hok with ⟨hnone, rfl⟩ | ⟨dn, hsome, -, hnw, hfold⟩
  · refine h.congr fun link => ?_
    simp [between, hnone]
  · have hdn : dn.Uniform := hn dn (List.mem_of_find?_eq_some hsome)
    have hall := foldlM_tracks
      (A := fun pair => between p n 0 dn.width (spread pair.1 pair.2))
      (fun pair hpair _ _ _ ht hadd => by
        obtain ⟨hlater, hearlier⟩ := uniform_of_mem hp hdn hpair
        exact ht.addAccesses hlater hearlier hadd) h hfold
    refine hall.congr fun link => ?_
    ext x
    simp only [between, Set.mem_union, Set.mem_ofPred_eq, hsome, Option.some.injEq, exists_eq_left',
      mem_clashes_iff, hnw]
    refine or_congr_right ⟨?_, ?_⟩
    · rintro ⟨pair, hpair, hlink, hdim, hx⟩
      exact ⟨hlink, hdim, pair, hpair, hx⟩
    · rintro ⟨hlink, hdim, pair, hpair, hx⟩
      exact ⟨pair, hpair, hlink, hdim, hx⟩

/-- The distances track the differences of all conflicting accesses, in the dimensions that the
later nest has. -/
theorem tracks_distances {c : Chain} (hc : Uniform c) (h : distances c = .ok ds) :
    Tracks ds fun link => {x | (∃ nn, c.nests[link.later]? = some nn ∧
      link.dimension < nn.dimensions) ∧ x ∈ differences c link} := by
  have hall := foldlM_tracks (A := fun pair : (Nest × ℕ) × (Nest × ℕ) => fun link =>
      {x | ∃ dp ∈ pair.1.1.dataspaces, x ∈ between pair.1.2 pair.2.2 0 pair.2.1.dimensions
        (fun i => {x | ∃ dn, pair.2.1.dataspace? dp.name = some dn ∧ x ∈ clashes dp dn i}) link})
    (fun pair hpair _ _ _ ht hadd => by
      obtain ⟨⟨earlier, p⟩, ⟨later, n⟩⟩ := pair
      obtain ⟨-, hp, hn⟩ := mem_pairs_zipIdx_iff.mp hpair
      refine foldlM_tracks (fun dp hdp _ _ _ hs hds => ?_) ht hadd
      exact hs.addDataspace (hc earlier (List.mem_of_getElem? hp) dp hdp)
        (hc later (List.mem_of_getElem? hn)) hds) tracks_nil h
  refine hall.congr fun link => ?_
  obtain ⟨e, l, j⟩ := link
  ext x
  simp only [between, differences, Set.empty_union, Set.mem_ofPred_eq, Nat.zero_le, true_and]
  constructor
  · rintro ⟨⟨⟨np, p⟩, ⟨nn, n⟩⟩, hpair, dp, hdp, ⟨rfl, rfl⟩, hj, dn, hdn, a, b, hab, rfl⟩
    obtain ⟨hlt, hp, hn⟩ := mem_pairs_zipIdx_iff.mp hpair
    exact ⟨⟨nn, hn, hj⟩, dp, dn, a, b, ⟨hlt, np, nn, hp, hn, hdp, hdn⟩, hab, rfl⟩
  · rintro ⟨⟨nn, hn, hj⟩, dp, dn, a, b, ⟨hlt, np, nn', hp, hn', hdp, hdn⟩, hab, rfl⟩
    obtain rfl : nn = nn' := Option.some.inj (hn.symm.trans hn')
    exact ⟨((np, e), (nn, l)), mem_pairs_zipIdx_iff.mpr ⟨hlt, hp, hn⟩, dp, hdp, ⟨rfl, rfl⟩, hj, dn,
      hdn, a, b, hab, rfl⟩

/-! ### Overflow -/

/-- Of the errors that the search can end with, only a difference that is not a word counts as an
overflow. -/
theorem combineOverflow_of_kind {c : Chain} {e : DimensionError} (h : distances c = .error e)
    (hkind : e.kind = .overflow) : CombineOverflow e := by
  rcases exists_of_distances_eq_error h with hwidth | ⟨p, n, _, _, _, _, pair, s, -, -, -, hacc⟩
  · rw [hwidth] at hkind
    cases hkind
  rcases Checked.bind_eq_error hacc with hdiff | ⟨r, -, hrecord⟩
  · rcases maxDifference?_cases pair.1 pair.2 with ⟨hnone, -⟩ | ⟨hi, lo, -, -, hmap⟩
    · rw [hnone] at hdiff
      cases hdiff
    rw [hmap] at hdiff
    cases hsub : hi.sub lo with
    | ok diff =>
      rw [hsub] at hdiff
      cases hdiff
    | error e' =>
      rw [hsub] at hdiff
      cases hdiff
      by_cases hw : hi.width = lo.width
      · exact ⟨hi, (Tuple.zipWith_eq_error hw hsub).1⟩
      · unfold Tuple.sub Tuple.zipWith at hsub
        rw [if_pos hw] at hsub
        cases hsub
        cases hkind
  · cases r <;> cases hrecord

/-! ### Exactness -/

theorem mem_keys_of_lookup {link : Link} {v : ℤ} (h : ds.lookup link = some v) :
    (link, v) ∈ ds := by
  obtain ⟨l₁, l₂, rfl, -⟩ := List.lookup_eq_some_iff.mp h
  simp

/-- The distances have exactly the links of nests with conflicting accesses, each with the greatest
difference; and the search overflows only where a greatest difference is not a word. -/
theorem distances_exact {c : Chain} (hc : Uniform c) :
    (∀ ds, distances c = .ok ds → ∀ link : Link,
      ((ds.lookup link).isSome ↔ link.earlier < link.later ∧ link.Inside c ∧
        ∃ dp dn a b, Partners c link.earlier link.later dp dn ∧ Conflict dp dn a b) ∧
      ∀ v, ds.lookup link = some v → IsGreatest (differences c link) v) ∧
    ∀ e, distances c = .error e → e.kind = .overflow →
      ∃ later earlier i x, Compared c later earlier i ∧ IsGreatest (spread later earlier i) x ∧
        ¬ Word.Fits x := by
  refine ⟨fun ds hds link => ?_, fun e he hkind => ?_⟩
  · have htracks := tracks_distances hc hds
    have hgreatest : ∀ v, ds.lookup link = some v → IsGreatest (differences c link) v := by
      intro v hv
      have hinside := inside_distances hc hds _ (mem_keys_of_lookup hv)
      have hset := htracks.greatest link v hv
      simpa [hinside.later] using hset
    refine ⟨⟨fun hsome => ?_, ?_⟩, hgreatest⟩
    · obtain ⟨v, hv⟩ := Option.isSome_iff_exists.mp hsome
      obtain ⟨dp, dn, a, b, hpartners, hab, -⟩ := (hgreatest v hv).1
      exact ⟨hpartners.1, inside_distances hc hds _ (mem_keys_of_lookup hv),
        dp, dn, a, b, hpartners, hab⟩
    · rintro ⟨-, hinside, dp, dn, a, b, hpartners, hab⟩
      by_contra hnone
      have hempty := htracks.empty link (Option.not_isSome_iff_eq_none.mp hnone)
      exact (Set.ext_iff.mp hempty _).mp ⟨hinside.later, dp, dn, a, b, hpartners, hab, rfl⟩
  · obtain ⟨t, rfl⟩ := combineOverflow_of_kind he hkind
    obtain ⟨later, earlier, i, hi, lo, hcompared, hhi, hlo, hfits⟩ := overflows_of_error hc he
    exact ⟨later, earlier, i, hi - lo, hcompared, isGreatest_spread hhi hlo, hfits⟩

/-- The greatest differences of the two dimensions come from different accesses of `A`; `B` adds
nothing to them, and `C` is only read.  Two accesses of `A` may also be too far apart. -/
theorem distances_exact_plane :
    let nest (dataspaces : List Dataspace) : Nest := ⟨⟨[("0", "N"), ("0", "N")], ["N"]⟩, dataspaces⟩
    let idle : Collection := ⟨[], 2⟩
    let c (far : ℤ) : Chain := ⟨[
      nest [⟨"A", idle, ⟨[⟨[0, 0]⟩, ⟨[2, -1]⟩], 2⟩⟩, ⟨"B", ⟨[⟨[0, 0]⟩], 2⟩, idle⟩,
        ⟨"C", ⟨[⟨[0, 0]⟩], 2⟩, idle⟩],
      nest [⟨"A", ⟨[⟨[-1, far]⟩, ⟨[1, 1]⟩], 2⟩, idle⟩, ⟨"B", idle, ⟨[⟨[-2, 0]⟩], 2⟩⟩,
        ⟨"C", ⟨[⟨[9, 9]⟩], 2⟩, idle⟩]]⟩
    (IsGreatest (differences (c 3) ⟨0, 1, 0⟩) 1 ∧ IsGreatest (differences (c 3) ⟨0, 1, 1⟩) 4 ∧
      ¬ (⟨0, 1, 2⟩ : Link).Inside (c 3)) ∧
    ∃ later earlier i x, Compared (c Word.hi) later earlier i ∧
      IsGreatest (spread later earlier i) x ∧ ¬ Word.Fits x := by
  intro nest idle c
  have hc : ∀ far, Uniform (c far) := by
    intro far
    simp [Uniform, c, nest, idle, Dataspace.Uniform, Collection.Uniform, Dataspace.width,
      Tuple.width]
  have hds : distances (c 3) = .ok [(⟨0, 1, 0⟩, 1), (⟨0, 1, 1⟩, 4)] := by decide +kernel
  have hfar : distances (c Word.hi) = .error (.combineOverflow ⟨[1, Word.hi]⟩) := by
    decide +kernel
  have hexact := (distances_exact (hc 3)).1 _ hds
  refine ⟨⟨(hexact ⟨0, 1, 0⟩).2 1 rfl, (hexact ⟨0, 1, 1⟩).2 4 rfl, ?_⟩,
    (distances_exact (hc Word.hi)).2 _ hfar rfl⟩
  rintro ⟨⟨_, hnest, hlt⟩, -⟩
  cases hnest
  exact absurd hlt (by decide)

end LoopSched.Dependence
