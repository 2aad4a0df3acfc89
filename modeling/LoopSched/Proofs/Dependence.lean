import LoopSched.Dependence
import LoopSched.Proofs.Access
import LoopSched.Proofs.Checked

/-!
# Distances bound the differences of accesses

The distance of a pair of nests in a dimension is at least the difference of every pair of
conflicting accesses that are looked at: any dataspace of the earlier nest against the one that the
later nest has first under its name.  An entry of the distances only ever grows, so it is enough to
see where a pair of accesses comes in.
-/

namespace LoopSched.Dependence

variable {ds ds' : Distances} {link : Link} {v : ℤ} {p n : ℕ}

/-! ### Entries only grow -/

/-- The link has a distance, and it is at least `v`. -/
def AtLeast (ds : Distances) (link : Link) (v : ℤ) : Prop := ∃ w, (link, w) ∈ ds ∧ v ≤ w

theorem AtLeast.mono {w : ℤ} (h : AtLeast ds link w) (hle : v ≤ w) : AtLeast ds link v := by
  obtain ⟨u, hu, hwu⟩ := h
  exact ⟨u, hu, hle.trans hwu⟩

theorem AtLeast.cons (h : AtLeast ds link v) (e : Link × ℤ) : AtLeast (e :: ds) link v := by
  obtain ⟨w, hw, hle⟩ := h
  exact ⟨w, List.mem_cons_of_mem _ hw, hle⟩

theorem Link.eq_of_cmp {a b : Link} (h : a.cmp b = .eq) : a = b := by
  unfold cmp at h
  simp only [Ordering.then_eq_eq, Nat.compare_eq_eq] at h
  obtain ⟨h₁, h₂, h₃⟩ := h
  cases a
  cases b
  simp_all

theorem AtLeast.upsert {key : Link} {w : ℤ} :
    ∀ {ds : Distances}, AtLeast ds link v → AtLeast (SortedList.upsert Link.cmp max key w ds) link v
  | [], h => by
    obtain ⟨_, hmem, _⟩ := h
    cases hmem
  | (l, u) :: rest, h => by
    obtain ⟨x, hx, hle⟩ := h
    unfold SortedList.upsert
    cases key.cmp l with
    | lt => exact ⟨x, List.mem_cons_of_mem _ hx, hle⟩
    | eq =>
      rcases List.mem_cons.mp hx with hx | hx
      · cases hx
        exact ⟨max u w, List.mem_cons_self, hle.trans (le_max_left u w)⟩
      · exact ⟨x, List.mem_cons_of_mem _ hx, hle⟩
    | gt =>
      rcases List.mem_cons.mp hx with hx | hx
      · cases hx
        exact ⟨u, List.mem_cons_self, hle⟩
      · exact (AtLeast.upsert ⟨x, hx, hle⟩).cons (l, u)

theorem atLeast_upsert (key : Link) (w : ℤ) :
    ∀ ds : Distances, AtLeast (SortedList.upsert Link.cmp max key w ds) key w
  | [] => ⟨w, List.mem_cons_self, le_rfl⟩
  | (l, u) :: rest => by
    unfold SortedList.upsert
    cases h : key.cmp l with
    | lt => exact ⟨w, List.mem_cons_self, le_rfl⟩
    | eq =>
      rw [Link.eq_of_cmp h]
      exact ⟨max u w, List.mem_cons_self, le_max_right u w⟩
    | gt => exact (atLeast_upsert key w rest).cons (l, u)

theorem AtLeast.record : ∀ {vs : List ℤ} {d : ℕ} {ds : Distances}, AtLeast ds link v →
    AtLeast (record p n d vs ds) link v
  | [], _, _, h => h
  | w :: vs, d, ds, h => by
    rw [Dependence.record]
    exact h.upsert.record

theorem atLeast_record : ∀ {vs : List ℤ} {i d : ℕ} {ds : Distances}, i < vs.length →
    AtLeast (record p n d vs ds) ⟨p, n, d + i⟩ (vs.getD i 0)
  | w :: vs, 0, d, ds, _ => by
    rw [record]
    exact (atLeast_upsert ⟨p, n, d⟩ w ds).record
  | w :: vs, i + 1, d, ds, h => by
    have hi : i < vs.length := by simpa using h
    rw [record, show d + (i + 1) = d + 1 + i by omega, List.getD_cons_succ]
    exact atLeast_record hi

theorem addAccesses_eq_ok {pair : Collection × Collection}
    (h : addAccesses p n ds pair = .ok ds') :
    (maxDifference? pair.1 pair.2 = .ok none ∧ ds' = ds) ∨
      ∃ diff, maxDifference? pair.1 pair.2 = .ok (some diff) ∧
        ds' = record p n 0 diff.values ds := by
  obtain ⟨r, hr, h⟩ := Checked.bind_eq_ok h
  cases r with
  | none =>
    cases h
    exact .inl ⟨hr, rfl⟩
  | some diff =>
    cases h
    exact .inr ⟨diff, hr, rfl⟩

theorem AtLeast.addAccesses {pair : Collection × Collection} (h : AtLeast ds link v)
    (hok : addAccesses p n ds pair = .ok ds') : AtLeast ds' link v := by
  rcases addAccesses_eq_ok hok with ⟨-, rfl⟩ | ⟨diff, -, rfl⟩
  · exact h
  · exact h.record

theorem checkWidth_eq_ok {d : Dataspace} {loop dimensions : ℕ} {u : Unit}
    (h : checkWidth d loop dimensions = .ok u) : d.width = dimensions := by
  unfold checkWidth at h
  by_contra hne
  rw [if_pos hne] at h
  cases h

theorem addDataspace_eq_ok {earlier later : Nest} {dp : Dataspace}
    (h : addDataspace p n earlier later ds dp = .ok ds') :
    (later.dataspace? dp.name = none ∧ ds' = ds) ∨
      ∃ dn, later.dataspace? dp.name = some dn ∧ dp.width = earlier.dimensions ∧
        dn.width = later.dimensions ∧
        [(dn.writes, dp.writes), (dn.reads, dp.writes), (dn.writes, dp.reads)].foldlM
          (Dependence.addAccesses p n) ds = .ok ds' := by
  unfold addDataspace at h
  cases hd : later.dataspace? dp.name with
  | none =>
    rw [hd] at h
    cases h
    exact .inl ⟨rfl, rfl⟩
  | some dn =>
    rw [hd] at h
    obtain ⟨_, hp, h⟩ := Checked.bind_eq_ok h
    obtain ⟨_, hn, h⟩ := Checked.bind_eq_ok h
    exact .inr ⟨dn, rfl, checkWidth_eq_ok hp, checkWidth_eq_ok hn, h⟩

theorem AtLeast.addDataspace {earlier later : Nest} {dp : Dataspace} (h : AtLeast ds link v)
    (hok : addDataspace p n earlier later ds dp = .ok ds') : AtLeast ds' link v := by
  rcases addDataspace_eq_ok hok with ⟨-, rfl⟩ | ⟨dn, -, -, -, hfold⟩
  · exact h
  · exact Checked.foldlM_invariant (AtLeast · link v) (fun _ _ _ _ ht => ht.addAccesses) h hfold

theorem AtLeast.addPair {pair : (Nest × ℕ) × (Nest × ℕ)} (h : AtLeast ds link v)
    (hok : addPair ds pair = .ok ds') : AtLeast ds' link v :=
  Checked.foldlM_invariant (AtLeast · link v) (fun _ _ _ _ ht => ht.addDataspace) h hok

/-! ### Where a pair of accesses comes in -/

/-- An access of each dataspace, at least one of them a write. -/
def Conflict (dp dn : Dataspace) (a b : Tuple) : Prop :=
  a ∈ dp.writes.tuples ∧ b ∈ dn.writes.tuples ∨ a ∈ dp.writes.tuples ∧ b ∈ dn.reads.tuples ∨
    a ∈ dp.reads.tuples ∧ b ∈ dn.writes.tuples

/-- In each of `m` dimensions the distance is at least the difference of the accesses. -/
def Bounded (ds : Distances) (p n m : ℕ) (a b : Tuple) : Prop :=
  ∀ i < m, AtLeast ds ⟨p, n, i⟩ (b.values.getD i 0 - a.values.getD i 0)

variable {a b : Tuple} {m : ℕ}

theorem maxDifference?_of_some {later earlier : Collection} {hi lo : Tuple}
    (hhi : later.maxima? = some hi) (hlo : earlier.minima? = some lo) :
    maxDifference? later earlier = (hi.sub lo).map some := by
  unfold maxDifference?
  rw [hhi, hlo]

/-- Two sets have a difference if both have members, and it is that of their extremes. -/
theorem maxDifference?_cases (later earlier : Collection) :
    (maxDifference? later earlier = .ok none ∧ (later.tuples = [] ∨ earlier.tuples = [])) ∨
      ∃ hi lo, later.maxima? = some hi ∧ earlier.minima? = some lo ∧
        maxDifference? later earlier = (hi.sub lo).map some := by
  cases hhi : later.maxima? with
  | none =>
    refine .inl ⟨?_, .inl (Collection.maxima?_eq_none_iff.mp hhi)⟩
    unfold maxDifference?
    rw [hhi]
  | some hi =>
    cases hlo : earlier.minima? with
    | none =>
      refine .inl ⟨?_, .inr (Collection.minima?_eq_none_iff.mp hlo)⟩
      unfold maxDifference?
      rw [hhi, hlo]
    | some lo => exact .inr ⟨hi, lo, rfl, rfl, maxDifference?_of_some hhi hlo⟩

theorem maxDifference?_eq_none_iff {later earlier : Collection} :
    maxDifference? later earlier = .ok none ↔ later.tuples = [] ∨ earlier.tuples = [] := by
  rcases maxDifference?_cases later earlier with ⟨hnone, hnil⟩ | ⟨hi, lo, hhi, hlo, hmap⟩
  · exact iff_of_true hnone hnil
  · refine iff_of_false (fun hnone => ?_) ?_
    · rw [hmap] at hnone
      cases hsub : hi.sub lo <;> rw [hsub] at hnone <;> cases hnone
    · rw [← Collection.maxima?_eq_none_iff, ← Collection.minima?_eq_none_iff, hhi, hlo]
      simp

theorem maxDifference?_eq_some {later earlier : Collection} {diff : Tuple}
    (h : maxDifference? later earlier = .ok (some diff)) :
    ∃ hi lo, later.maxima? = some hi ∧ earlier.minima? = some lo ∧ hi.sub lo = .ok diff := by
  rcases maxDifference?_cases later earlier with ⟨hnone, -⟩ | ⟨hi, lo, hhi, hlo, hmap⟩
  · rw [hnone] at h
    cases h
  · rw [hmap] at h
    cases hsub : hi.sub lo with
    | error e =>
      rw [hsub] at h
      cases h
    | ok t =>
      rw [hsub] at h
      cases h
      exact ⟨hi, lo, hhi, hlo, hsub⟩

theorem maxDifference?_above {later earlier : Collection} {k : ℕ} (hlater : later.Uniform k)
    (hearlier : earlier.Uniform m) (ha : a ∈ earlier.tuples) (hb : b ∈ later.tuples)
    {r : Option Tuple} (h : maxDifference? later earlier = .ok r) :
    ∃ diff, r = some diff ∧ diff.values.length = m ∧
      ∀ i < m, b.values.getD i 0 - a.values.getD i 0 ≤ diff.values.getD i 0 := by
  cases r with
  | none =>
    rcases maxDifference?_eq_none_iff.mp h with hnil | hnil
    · rw [hnil] at hb
      cases hb
    · rw [hnil] at ha
      cases ha
  | some diff =>
    obtain ⟨hi, lo, hhi, hlo, hsub⟩ := maxDifference?_eq_some h
    have hhiw := Collection.width_maxima? hlater hhi
    have hlow := Collection.width_minima? hearlier hlo
    obtain ⟨hw, hvalues⟩ := Tuple.sub_eq_ok hsub
    have hhil : hi.values.length = m := hw.trans hlow
    have hlol : lo.values.length = m := hlow
    have hk : k = m := hhiw.symm.trans hhil
    subst hk
    refine ⟨diff, rfl, by rw [hvalues, List.length_zipWith, hhil, hlol, Nat.min_self],
      fun i hi => ?_⟩
    rw [hvalues, getD_zipWith _ (by omega) (by omega)]
    exact Int.sub_le_sub ((Collection.isGreatest_maxima? hlater hhi hi).2 ⟨b, hb, rfl⟩)
      ((Collection.isLeast_minima? hearlier hlo hi).2 ⟨a, ha, rfl⟩)

theorem bounded_addAccesses {pair : Collection × Collection} {k : ℕ} (hlater : pair.1.Uniform k)
    (hearlier : pair.2.Uniform m) (ha : a ∈ pair.2.tuples) (hb : b ∈ pair.1.tuples)
    (h : addAccesses p n ds pair = .ok ds') : Bounded ds' p n m a b := by
  intro i hi
  rcases addAccesses_eq_ok h with ⟨hnone, -⟩ | ⟨diff, hsome, rfl⟩
  · obtain ⟨diff, hdiff, -⟩ := maxDifference?_above hlater hearlier ha hb hnone
    cases hdiff
  · obtain ⟨_, hdiff, hlen, hle⟩ := maxDifference?_above hlater hearlier ha hb hsome
    cases hdiff
    have hrecord : AtLeast (record p n 0 diff.values ds) ⟨p, n, 0 + i⟩ (diff.values.getD i 0) :=
      atLeast_record (hlen.symm ▸ hi)
    rw [Nat.zero_add] at hrecord
    exact hrecord.mono (hle i hi)

/-- The access sets of two dataspaces that are compared have the widths of the dataspaces. -/
theorem uniform_of_mem {dp dn : Dataspace} (hp : dp.Uniform) (hn : dn.Uniform)
    {pair : Collection × Collection}
    (h : pair ∈ [(dn.writes, dp.writes), (dn.reads, dp.writes), (dn.writes, dp.reads)]) :
    pair.1.Uniform dn.width ∧ pair.2.Uniform dp.width := by
  simp only [List.mem_cons, List.not_mem_nil, or_false] at h
  rcases h with rfl | rfl | rfl
  · exact ⟨hn.2, hp.2⟩
  · exact ⟨hn.1, hp.2⟩
  · exact ⟨hn.2, hp.1⟩

/-- A conflict belongs to one of the pairs of access sets that are looked at. -/
theorem Conflict.exists_pair {dp dn : Dataspace} (h : Conflict dp dn a b) :
    ∃ pair ∈ [(dn.writes, dp.writes), (dn.reads, dp.writes), (dn.writes, dp.reads)],
      a ∈ pair.2.tuples ∧ b ∈ pair.1.tuples := by
  rcases h with ⟨ha, hb⟩ | ⟨ha, hb⟩ | ⟨ha, hb⟩
  · exact ⟨(dn.writes, dp.writes), by simp, ha, hb⟩
  · exact ⟨(dn.reads, dp.writes), by simp, ha, hb⟩
  · exact ⟨(dn.writes, dp.reads), by simp, ha, hb⟩

theorem Conflict.width_eq {dp dn : Dataspace} (h : Conflict dp dn a b) (hp : dp.Uniform) :
    a.width = dp.width := by
  rcases h with ⟨ha, -⟩ | ⟨ha, -⟩ | ⟨ha, -⟩
  · exact hp.2.2 a ha
  · exact hp.2.2 a ha
  · exact hp.1.2 a ha

theorem bounded_addDataspace {earlier later : Nest} {dp dn : Dataspace}
    (hdn : later.dataspace? dp.name = some dn) (hp : dp.Uniform) (hn : dn.Uniform)
    (hab : Conflict dp dn a b) (h : addDataspace p n earlier later ds dp = .ok ds') :
    Bounded ds' p n dp.width a b := by
  rcases addDataspace_eq_ok h with ⟨hnone, -⟩ | ⟨dn', hsome, -, -, hfold⟩
  · rw [hdn] at hnone
    cases hnone
  · rw [hdn] at hsome
    cases hsome
    obtain ⟨pair, hpair, ha, hb⟩ := hab.exists_pair
    obtain ⟨hlater, hearlier⟩ := uniform_of_mem hp hn hpair
    exact Checked.foldlM_reaches (Bounded · p n dp.width a b)
      (fun _ _ hadd => bounded_addAccesses hlater hearlier ha hb hadd) hpair
      (fun _ _ _ _ ht hadd i hi => (ht i hi).addAccesses hadd) hfold

theorem mem_pairs {α : Type} {x y : α} : ∀ {xs : List α} {i j : ℕ}, i < j → xs[i]? = some x →
    xs[j]? = some y → (x, y) ∈ pairs xs
  | [], _, _, _, hx, _ => by simp at hx
  | z :: xs, 0, j + 1, _, hx, hy => by
    have hz : z = x := by simpa using hx
    subst hz
    exact List.mem_append_left _ (List.mem_map.mpr ⟨y, List.mem_of_getElem? hy, rfl⟩)
  | z :: xs, i + 1, j + 1, hij, hx, hy =>
    List.mem_append_right _ (mem_pairs (Nat.lt_of_succ_lt_succ hij) hx hy)

theorem exists_lt_of_mem_pairs {α : Type} {x y : α} {xs : List α} (h : (x, y) ∈ pairs xs) :
    ∃ i j : ℕ, i < j ∧ xs[i]? = some x ∧ xs[j]? = some y := by
  induction xs with
  | nil => cases h
  | cons z xs ih =>
    rcases List.mem_append.mp h with h | h
    · obtain ⟨w, hw, heq⟩ := List.mem_map.mp h
      cases heq
      obtain ⟨j, hj⟩ := List.mem_iff_getElem?.mp hw
      exact ⟨0, j + 1, Nat.succ_pos j, rfl, hj⟩
    · obtain ⟨i, j, hij, hx, hy⟩ := ih h
      exact ⟨i + 1, j + 1, Nat.succ_lt_succ hij, hx, hy⟩

/-- The pairs of nests of a chain are those of an earlier and a later one. -/
theorem mem_pairs_zipIdx_iff {c : Chain} {earlier later : Nest} :
    ((earlier, p), (later, n)) ∈ pairs c.nests.zipIdx ↔
      p < n ∧ c.nests[p]? = some earlier ∧ c.nests[n]? = some later := by
  constructor
  · intro h
    obtain ⟨i, j, hij, hi, hj⟩ := exists_lt_of_mem_pairs h
    rw [List.getElem?_zipIdx] at hi hj
    obtain ⟨_, hp, hi⟩ := Option.map_eq_some_iff.mp hi
    obtain ⟨_, hn, hj⟩ := Option.map_eq_some_iff.mp hj
    cases hi
    cases hj
    rw [Nat.zero_add, Nat.zero_add]
    exact ⟨hij, hp, hn⟩
  · rintro ⟨hlt, hp, hn⟩
    refine mem_pairs hlt ?_ ?_
    · rw [List.getElem?_zipIdx, hp, Option.map_some, Nat.zero_add]
    · rw [List.getElem?_zipIdx, hn, Option.map_some, Nat.zero_add]

/-- The distances bound every conflict with the first dataspace of the name in the later nest. -/
theorem bounded_distances {c : Chain} {earlier later : Nest} {dp dn : Dataspace}
    (h : distances c = .ok ds) (hlt : p < n) (hearlier : c.nests[p]? = some earlier)
    (hlater : c.nests[n]? = some later) (hdp : dp ∈ earlier.dataspaces)
    (hdn : later.dataspace? dp.name = some dn) (hp : dp.Uniform) (hn : dn.Uniform)
    (hab : Conflict dp dn a b) : Bounded ds p n dp.width a b := by
  have hpair : ((earlier, p), (later, n)) ∈ pairs c.nests.zipIdx :=
    mem_pairs_zipIdx_iff.mpr ⟨hlt, hearlier, hlater⟩
  refine Checked.foldlM_reaches (Bounded · p n dp.width a b) (fun t t' hadd => ?_) hpair
    (fun _ _ _ _ ht hadd i hi => (ht i hi).addPair hadd) h
  exact Checked.foldlM_reaches (Bounded · p n dp.width a b)
    (fun _ _ hds => bounded_addDataspace hdn hp hn hab hds) hdp
    (fun _ _ _ _ ht hds i hi => (ht i hi).addDataspace hds) hadd

/-! ### Links are between entries of the chain -/

/-- Accesses have the width that their dataspace declares. -/
def Uniform (c : Chain) : Prop := ∀ nest ∈ c.nests, ∀ d ∈ nest.dataspaces, d.Uniform

/-- Both nests of the link exist and have its dimension. -/
structure Link.Inside (c : Chain) (link : Link) : Prop where
  later : ∃ nest, c.nests[link.later]? = some nest ∧ link.dimension < nest.dimensions
  earlier : ∃ nest, c.nests[link.earlier]? = some nest ∧ link.dimension < nest.dimensions

section Entries

-- `P` is what the recorded entries have in common
variable {P : Link × ℤ → Prop}

theorem forall_mem_upsert {key : Link} {w : ℤ} (hkey : P (key, w)) :
    ∀ {ds : Distances}, (∀ e ∈ ds, P e) → ∀ e ∈ SortedList.upsert Link.cmp max key w ds, P e
  | [], _ => List.forall_mem_singleton.mpr hkey
  | (l, u) :: rest, h => by
    obtain ⟨hl, hrest⟩ := List.forall_mem_cons.mp h
    unfold SortedList.upsert
    cases hcmp : key.cmp l with
    | lt => exact List.forall_mem_cons.mpr ⟨hkey, h⟩
    | gt => exact List.forall_mem_cons.mpr ⟨hl, forall_mem_upsert hkey hrest⟩
    | eq =>
      obtain rfl := Link.eq_of_cmp hcmp
      refine List.forall_mem_cons.mpr ⟨?_, hrest⟩
      rcases max_choice u w with hmax | hmax <;> rw [hmax]
      · exact hl
      · exact hkey

theorem forall_mem_record : ∀ {vs : List ℤ} {d : ℕ} {ds : Distances}, (∀ e ∈ ds, P e) →
    (∀ i w, vs[i]? = some w → P (⟨p, n, d + i⟩, w)) → ∀ e ∈ record p n d vs ds, P e
  | [], _, _, h, _ => h
  | w :: vs, d, ds, h, hP => by
    rw [Dependence.record]
    refine forall_mem_record (forall_mem_upsert (hP 0 w rfl) h) fun i u hu => ?_
    have := hP (i + 1) u hu
    rwa [show d + (i + 1) = d + 1 + i by omega] at this

end Entries

/-- All links of the distances are of this kind. -/
def Keyed (K : Link → Prop) (ds : Distances) : Prop := ∀ e ∈ ds, K e.1

section Keyed

variable {K : Link → Prop}

theorem maxDifference?_length {later earlier : Collection} {k : ℕ} (hlater : later.Uniform k)
    (hearlier : earlier.Uniform m) {diff : Tuple}
    (h : maxDifference? later earlier = .ok (some diff)) :
    diff.values.length ≤ k ∧ diff.values.length ≤ m := by
  obtain ⟨hi, lo, hhi, hlo, hsub⟩ := maxDifference?_eq_some h
  have hhil : hi.values.length = k := Collection.width_maxima? hlater hhi
  have hlol : lo.values.length = m := Collection.width_minima? hearlier hlo
  rw [(Tuple.sub_eq_ok hsub).2, List.length_zipWith, hhil, hlol]
  exact ⟨Nat.min_le_left k m, Nat.min_le_right k m⟩

theorem Keyed.addAccesses {pair : Collection × Collection} {k : ℕ} (h : Keyed K ds)
    (hlater : pair.1.Uniform k) (hearlier : pair.2.Uniform m)
    (hK : ∀ i, i < k → i < m → K ⟨p, n, i⟩) (hok : addAccesses p n ds pair = .ok ds') :
    Keyed K ds' := by
  rcases addAccesses_eq_ok hok with ⟨-, rfl⟩ | ⟨diff, hdiff, rfl⟩
  · exact h
  · obtain ⟨hk, hm⟩ := maxDifference?_length hlater hearlier hdiff
    refine forall_mem_record h fun i w hw => ?_
    obtain ⟨hi, -⟩ := List.getElem?_eq_some_iff.mp hw
    rw [Nat.zero_add]
    exact hK i (hi.trans_le hk) (hi.trans_le hm)

theorem Keyed.addDataspace {earlier later : Nest} {dp : Dataspace} (h : Keyed K ds)
    (hp : dp.Uniform) (hn : ∀ d ∈ later.dataspaces, d.Uniform)
    (hK : ∀ i, i < later.dimensions → i < earlier.dimensions → K ⟨p, n, i⟩)
    (hok : addDataspace p n earlier later ds dp = .ok ds') : Keyed K ds' := by
  rcases addDataspace_eq_ok hok with ⟨-, rfl⟩ | ⟨dn, hdn, hpw, hnw, hfold⟩
  · exact h
  have hdn : dn.Uniform := hn dn (List.mem_of_find?_eq_some hdn)
  rw [← hpw, ← hnw] at hK
  refine Checked.foldlM_invariant (Keyed K) (fun pair hpair t t' ht hadd => ?_) h hfold
  obtain ⟨hlater, hearlier⟩ := uniform_of_mem hp hdn hpair
  exact ht.addAccesses hlater hearlier hK hadd

end Keyed

theorem inside_distances {c : Chain} (hc : Uniform c) (h : distances c = .ok ds) :
    Keyed (Link.Inside c) ds := by
  refine Checked.foldlM_invariant (Keyed (Link.Inside c)) (fun pair hpair t t' ht hadd => ?_)
    (fun e he => absurd he List.not_mem_nil) h
  obtain ⟨⟨earlier, p⟩, ⟨later, n⟩⟩ := pair
  obtain ⟨-, hp, hn⟩ := mem_pairs_zipIdx_iff.mp hpair
  refine Checked.foldlM_invariant (Keyed (Link.Inside c)) (fun dp hdp s s' hs hds => ?_) ht hadd
  refine hs.addDataspace (hc earlier (List.mem_of_getElem? hp) dp hdp)
    (hc later (List.mem_of_getElem? hn)) (fun i hlater hearlier => ?_) hds
  exact ⟨⟨later, hn, hlater⟩, ⟨earlier, hp, hearlier⟩⟩

/-! ### Distances are words -/

theorem maxDifference?_fits {later earlier : Collection} {diff : Tuple}
    (h : maxDifference? later earlier = .ok (some diff)) : ∀ v ∈ diff.values, Word.Fits v := by
  obtain ⟨hi, lo, -, -, hsub⟩ := maxDifference?_eq_some h
  exact Tuple.fits_sub hsub

theorem fits_distances {c : Chain} (h : distances c = .ok ds) : ∀ e ∈ ds, Word.Fits e.2 := by
  refine Checked.foldlM_invariant (fun ds => ∀ e ∈ ds, Word.Fits e.2)
    (fun pair _ t t' ht hadd => ?_) (fun e he => absurd he List.not_mem_nil) h
  refine Checked.foldlM_invariant (fun ds => ∀ e ∈ ds, Word.Fits e.2)
    (fun dp _ s s' hs hds => ?_) ht hadd
  rcases addDataspace_eq_ok hds with ⟨-, rfl⟩ | ⟨dn, -, -, -, hfold⟩
  · exact hs
  refine Checked.foldlM_invariant (fun ds => ∀ e ∈ ds, Word.Fits e.2)
    (fun accesses _ r r' hr hok => ?_) hs hfold
  rcases addAccesses_eq_ok hok with ⟨-, rfl⟩ | ⟨diff, hdiff, rfl⟩
  · exact hr
  · exact forall_mem_record hr fun i w hw => maxDifference?_fits hdiff w (List.mem_of_getElem? hw)

end LoopSched.Dependence
