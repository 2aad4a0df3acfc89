import LoopSched.Proofs.AutoShift
import LoopSched.Proofs.Dependence

/-!
# When shifted nests can be fused

Fusing all nests of a chain runs their shifted iterations in lexicographic order.  This is legal
when two iterations of different nests that touch one element, not both reading it, keep the order
of their nests.  The shifts see to that for each dataspace of the earlier nest and the first one of
the same name in the later nest.  A further dataspace of that name is overlooked, so whether the
fusion is legal depends on the accesses of such dataspaces alone.
-/

namespace LoopSched.AutoShift

open Dependence Linear

variable {c : Chain} {p n : ℕ} {earlier later : Nest} {dp dn : Dataspace} {ts : List (ℕ × Tuple)}

/-! ### Legality -/

/-- The shift of a nest; a nest that is not listed does not move. -/
def shiftOf (ts : List (ℕ × Tuple)) (k dimensions : ℕ) : List ℤ :=
  ((ts.lookup k).getD (.zeros dimensions)).values

/-- Iterations of two nests that touch the same element by these accesses. -/
structure Meet (earlier later : Nest) (a b : Tuple) (x y : List ℤ) : Prop where
  length_earlier : x.length = earlier.dimensions
  length_later : y.length = later.dimensions
  width_earlier : a.width = earlier.dimensions
  width_later : b.width = later.dimensions
  element : List.zipWith (· + ·) x a.values = List.zipWith (· + ·) y b.values

/-- An array that two nests of a chain list, with a dataspace of each. -/
structure Shared (c : Chain) (p n : ℕ) (earlier later : Nest) (dp dn : Dataspace) : Prop where
  lt : p < n
  getElem?_earlier : c.nests[p]? = some earlier
  getElem?_later : c.nests[n]? = some later
  mem_earlier : dp ∈ earlier.dataspaces
  mem_later : dn ∈ later.dataspaces
  name_eq : dp.name = dn.name

/-- After the shifts, conflicting iterations keep the order of their nests. -/
def InOrder (ts : List (ℕ × Tuple)) (p n : ℕ) (earlier later : Nest) (dp dn : Dataspace) : Prop :=
  ∀ a b, Conflict dp dn a b → ∀ x y, Meet earlier later a b x y →
    Tuple.compareValues (List.zipWith (· + ·) x (shiftOf ts p earlier.dimensions))
      (List.zipWith (· + ·) y (shiftOf ts n later.dimensions)) ≠ .gt

/-- All nests of the chain can be fused after the shifts. -/
def Legal (c : Chain) (ts : List (ℕ × Tuple)) : Prop :=
  ∀ p n earlier later dp dn, Shared c p n earlier later dp dn → InOrder ts p n earlier later dp dn

/-- The distances do not cover this pair of dataspaces: the later nest has another one first under
the name, or one of the two is not of one width. -/
def Overlooked (later : Nest) (dp dn : Dataspace) : Prop :=
  later.dataspace? dp.name ≠ some dn ∨ ¬ dp.Uniform ∨ ¬ dn.Uniform

/-! ### The shift of a nest -/

theorem lookup_filter {k : ℕ} {t : Tuple} {q : ℕ × Tuple → Bool} :
    ∀ {ts : List (ℕ × Tuple)}, (ts.map Prod.fst).Nodup → (k, t) ∈ ts →
      (ts.filter q).lookup k = if q (k, t) then some t else none
  | (l, u) :: ts, hnodup, hmem => by
    obtain ⟨hnot, hnodup⟩ := List.nodup_cons.mp hnodup
    rcases List.mem_cons.mp hmem with heq | hrest
    · cases heq
      have hnone : (ts.filter q).lookup k = none := by
        rw [List.lookup_eq_none_iff]
        intro e he
        rw [bne_iff_ne]
        intro hke
        exact hnot (List.mem_map.mpr ⟨e, List.mem_of_mem_filter he, hke.symm⟩)
      by_cases hq : q (k, t) = true
      · rw [List.filter_cons_of_pos hq, if_pos hq, List.lookup_cons_self]
      · rw [List.filter_cons_of_neg hq, if_neg hq, hnone]
    · have hne : (k == l) = false := by
        rw [beq_eq_false_iff_ne]
        intro hkl
        exact hnot (List.mem_map.mpr ⟨(k, t), hrest, hkl⟩)
      by_cases hq : q (l, u) = true
      · rw [List.filter_cons_of_pos hq, List.lookup_cons, hne]
        exact lookup_filter hnodup hrest
      · rw [List.filter_cons_of_neg hq]
        exact lookup_filter hnodup hrest

theorem nodup_family (c : Chain) (t : ℕ → ℕ → ℤ) : ((family c t).map Prod.fst).Nodup := by
  have hkeys : (family c t).map Prod.fst = c.nests.zipIdx.map Prod.snd := by
    rw [family, List.map_map]
    rfl
  rw [hkeys, List.zipIdx_map_snd]
  exact List.nodup_range' 1

/-- Leaving out zero shifts does not change the shift of any nest. -/
theorem shiftOf_family {t : ℕ → ℕ → ℤ} {k : ℕ} {nest : Nest} (hk : c.nests[k]? = some nest)
    (includeZero : Bool) :
    shiftOf ((family c t).filter (keep includeZero)) k nest.dimensions =
      (List.range nest.dimensions).map (t k) := by
  have hmem : (k, ⟨(List.range nest.dimensions).map (t k)⟩) ∈ family c t :=
    List.mem_map.mpr ⟨(nest, k), List.mk_mem_zipIdx_iff_getElem?.mpr hk, rfl⟩
  rw [shiftOf, lookup_filter (nodup_family c t) hmem]
  by_cases hkeep : keep includeZero (k, ⟨(List.range nest.dimensions).map (t k)⟩) = true
  · rw [if_pos hkeep, Option.getD_some]
  · have hzero : includeZero = false ∧ ∀ d < nest.dimensions, t k d = 0 := by
      simpa [keep, Tuple.isZero] using hkeep
    rw [if_neg hkeep, Option.getD_none, Tuple.zeros]
    refine (List.eq_replicate_iff.mpr ⟨by simp, fun v hv => ?_⟩).symm
    obtain ⟨d, hd, rfl⟩ := List.mem_map.mp hv
    exact hzero.2 d (List.mem_range.mp hd)

/-! ### Conflicts that are looked at -/

/-- Vectors of one length that are ordered in every component are ordered. -/
theorem compareValues_ne_gt : ∀ {xs ys : List ℤ}, xs.length = ys.length →
    (∀ i < xs.length, xs.getD i 0 ≤ ys.getD i 0) → Tuple.compareValues xs ys ≠ .gt
  | [], [], _, _ => by simp [Tuple.compareValues]
  | x :: xs, y :: ys, hlen, h => by
    have hhead : x ≤ y := h 0 (by simp)
    have htail : Tuple.compareValues xs ys ≠ .gt := by
      refine compareValues_ne_gt (by simpa using hlen) fun i hi => ?_
      simpa using h (i + 1) (by simpa using hi)
    rw [Tuple.compareValues]
    by_cases hlt : x < y
    · rw [if_pos hlt]
      simp
    · rwa [if_neg hlt, if_neg (not_lt.mpr hhead)]

/-- The order of two vectors only depends on their difference. -/
theorem compareValues_congr : ∀ {xs ys xs' ys' : List ℤ}, xs.length = ys.length →
    xs'.length = ys'.length → xs.length = xs'.length →
    (∀ i < xs.length, ys.getD i 0 - xs.getD i 0 = ys'.getD i 0 - xs'.getD i 0) →
    Tuple.compareValues xs ys = Tuple.compareValues xs' ys'
  | [], [], [], [], _, _, _, _ => rfl
  | x :: xs, y :: ys, x' :: xs', y' :: ys', hlen, hlen', heq, h => by
    have hhead : y - x = y' - x' := h 0 (by simp)
    have htail : Tuple.compareValues xs ys = Tuple.compareValues xs' ys' := by
      refine compareValues_congr (by simpa using hlen) (by simpa using hlen') (by simpa using heq)
        fun i hi => ?_
      simpa using h (i + 1) (by simpa using hi)
    have hlt : x < y ↔ x' < y' := by omega
    have hgt : y < x ↔ y' < x' := by omega
    simp only [Tuple.compareValues, hlt, hgt, htail]

section Difference

variable {a b : Tuple} {s u : List ℤ}

theorem Meet.dimensions_eq {x y : List ℤ} (h : Meet earlier later a b x y) :
    earlier.dimensions = later.dimensions := by
  obtain ⟨hx, hy, ha, hb, helement⟩ := h
  unfold Tuple.width at ha hb
  have hlen := congrArg List.length helement
  simpa [hx, hy, ha, hb] using hlen

/-- Where two iterations meet, their shifted order is that of the accesses against the shifts. -/
theorem Meet.compareValues_eq {x y : List ℤ} (h : Meet earlier later a b x y)
    (hs : s.length = earlier.dimensions) (hu : u.length = later.dimensions) :
    Tuple.compareValues (List.zipWith (· + ·) x s) (List.zipWith (· + ·) y u) =
      Tuple.compareValues (List.zipWith (· - ·) b.values a.values)
        (List.zipWith (· - ·) u s) := by
  have hdim := h.dimensions_eq
  obtain ⟨hx, hy, ha, hb, helement⟩ := h
  unfold Tuple.width at ha hb
  refine compareValues_congr (by simp; omega) (by simp; omega) (by simp; omega) fun i hi => ?_
  have hi : i < earlier.dimensions := by simpa [hx, hs] using hi
  have hsum := congrArg (fun zs => zs.getD i 0) helement
  rw [getD_zipWith _ (by omega) (by omega), getD_zipWith _ (by omega) (by omega)] at hsum
  rw [getD_zipWith _ (by omega) (by omega), getD_zipWith _ (by omega) (by omega),
    getD_zipWith _ (by omega) (by omega), getD_zipWith _ (by omega) (by omega)]
  omega

/-- Each offset, taken as an iteration of the other nest, gives a meeting. -/
theorem meet_offsets (ha : a.width = earlier.dimensions) (hb : b.width = later.dimensions)
    (hdim : earlier.dimensions = later.dimensions) :
    Meet earlier later a b b.values a.values :=
  ⟨hb.trans hdim.symm, ha.trans hdim, ha, hb, List.zipWith_comm_of_comm Int.add_comm⟩

end Difference

/-- The accesses of every conflict differ by no more than the shifts, lexicographically. -/
def Within (ts : List (ℕ × Tuple)) (p n : ℕ) (earlier later : Nest) (dp dn : Dataspace) : Prop :=
  ∀ a b, Conflict dp dn a b → a.width = earlier.dimensions → b.width = later.dimensions →
    earlier.dimensions = later.dimensions →
    Tuple.compareValues (List.zipWith (· - ·) b.values a.values)
      (List.zipWith (· - ·) (shiftOf ts n later.dimensions)
        (shiftOf ts p earlier.dimensions)) ≠ .gt

theorem inOrder_iff (hp : (shiftOf ts p earlier.dimensions).length = earlier.dimensions)
    (hn : (shiftOf ts n later.dimensions).length = later.dimensions) :
    InOrder ts p n earlier later dp dn ↔ Within ts p n earlier later dp dn := by
  constructor
  · intro h a b hab ha hb hdim
    have hmeet := meet_offsets ha hb hdim
    have hle := h a b hab b.values a.values hmeet
    rwa [hmeet.compareValues_eq hp hn] at hle
  · intro h a b hab x y hmeet
    have hdim : earlier.dimensions = later.dimensions := hmeet.dimensions_eq
    rw [hmeet.compareValues_eq hp hn]
    exact h a b hab hmeet.width_earlier hmeet.width_later hdim

/-! ### Legal shifts -/

section Answer

variable {includeZero : Bool} {limit : ℕ}

theorem length_shiftOf (h : tuples c includeZero (BranchAndBound.solver limit) = .ok ts) {k : ℕ}
    {nest : Nest} (hk : c.nests[k]? = some nest) :
    (shiftOf ts k nest.dimensions).length = nest.dimensions := by
  obtain ⟨ds, t, -, -, -, rfl⟩ := tuples_eq_ok h
  rw [shiftOf_family hk, List.length_map, List.length_range]

/-- The distance of two nests bounds every conflict that is looked at, in each dimension. -/
theorem within_of_not_overlooked
    (h : tuples c includeZero (BranchAndBound.solver limit) = .ok ts)
    (hs : Shared c p n earlier later dp dn) (ho : ¬ Overlooked later dp dn) :
    Within ts p n earlier later dp dn := by
  intro a b hab ha hb hdim
  obtain ⟨ds, t, hds, -, hleast, rfl⟩ := tuples_eq_ok h
  simp only [Overlooked, not_or, not_not] at ho
  obtain ⟨hfirst, hp, hn⟩ := ho
  have hbounded : Bounded ds p n dp.width a b := bounded_distances hds hs.lt hs.getElem?_earlier
    hs.getElem?_later hs.mem_earlier hfirst hp hn hab
  have hwidth : dp.width = earlier.dimensions := by rw [← hab.width_eq hp, ha]
  unfold Tuple.width at ha hb
  rw [shiftOf_family hs.getElem?_earlier, shiftOf_family hs.getElem?_later]
  refine compareValues_ne_gt (by simp; omega) fun i hi => ?_
  have hi : i < earlier.dimensions := by
    rw [List.length_zipWith] at hi
    omega
  obtain ⟨w, hw, hle⟩ := hbounded i (hwidth ▸ hi)
  have hdiff : t n i - t p i = w := hleast.difference _ w hw
  rw [getD_zipWith _ (by omega) (by omega), getD_zipWith _ (by simp; omega) (by simp; omega),
    getD_map_range (t n) (hdim ▸ hi), getD_map_range (t p) hi]
  omega

theorem dataspace?_eq_some {nest : Nest} (hnodup : (nest.dataspaces.map (·.name)).Nodup)
    (hmem : dn ∈ nest.dataspaces) : nest.dataspace? dn.name = some dn := by
  unfold Nest.dataspace?
  cases hfind : nest.dataspaces.find? (·.name = dn.name) with
  | none => simpa using List.find?_eq_none.mp hfind dn hmem
  | some d =>
    have hname : d.name = dn.name := by simpa using List.find?_some hfind
    rw [List.inj_on_of_nodup_map hnodup (List.mem_of_find?_eq_some hfind) hmem hname]

/-- Fusing the shifted nests is legal exactly if the accesses of every overlooked conflict differ
by no more than the shifts, so always when no nest lists an array twice. -/
theorem legal_iff (h : tuples c includeZero (BranchAndBound.solver limit) = .ok ts) :
    (Legal c ts ↔ ∀ p n earlier later dp dn, Shared c p n earlier later dp dn →
      Overlooked later dp dn → Within ts p n earlier later dp dn) ∧
      ((∀ nest ∈ c.nests, (nest.dataspaces.map (·.name)).Nodup ∧
        ∀ d ∈ nest.dataspaces, d.Uniform) → Legal c ts) := by
  have hiff : ∀ {p n earlier later dp dn}, Shared c p n earlier later dp dn →
      (InOrder ts p n earlier later dp dn ↔ Within ts p n earlier later dp dn) := fun hs =>
    inOrder_iff (length_shiftOf h hs.getElem?_earlier) (length_shiftOf h hs.getElem?_later)
  refine ⟨⟨fun hl p n earlier later dp dn hs _ => (hiff hs).mp (hl _ _ _ _ _ _ hs), ?_⟩, ?_⟩
  · intro hw p n earlier later dp dn hs
    rw [hiff hs]
    by_cases ho : Overlooked later dp dn
    · exact hw p n earlier later dp dn hs ho
    · exact within_of_not_overlooked h hs ho
  · intro hc p n earlier later dp dn hs
    obtain ⟨-, hp⟩ := hc earlier (List.mem_of_getElem? hs.getElem?_earlier)
    obtain ⟨hnodup, hn⟩ := hc later (List.mem_of_getElem? hs.getElem?_later)
    rw [hiff hs]
    refine within_of_not_overlooked h hs ?_
    simp only [Overlooked, not_or, not_not]
    exact ⟨hs.name_eq ▸ dataspace?_eq_some hnodup hs.mem_later, hp dp hs.mem_earlier,
      hn dn hs.mem_later⟩

/-- Two sweeps of a stencil can be fused after a shift by one. -/
theorem legal_iff_stencil :
    let nest (dataspaces : List Dataspace) : Nest := ⟨⟨[("1", "N")], ["N"]⟩, dataspaces⟩
    let around : Collection := ⟨[⟨[-1]⟩, ⟨[0]⟩, ⟨[1]⟩], 1⟩
    let here : Collection := ⟨[⟨[0]⟩], 1⟩
    let c : Chain := ⟨[nest [⟨"A", around, ⟨[], 1⟩⟩, ⟨"B", ⟨[], 1⟩, here⟩],
      nest [⟨"B", around, ⟨[], 1⟩⟩, ⟨"A", ⟨[], 1⟩, here⟩]]⟩
    tuples c false (BranchAndBound.solver 100) = .ok [(1, ⟨[1]⟩)] ∧ Legal c [(1, ⟨[1]⟩)] := by
  intro nest around here c
  have h : tuples c false (BranchAndBound.solver 100) = .ok [(1, ⟨[1]⟩)] := by decide +kernel
  refine ⟨h, (legal_iff h).2 ?_⟩
  simp [c, nest, around, here, Dataspace.Uniform, Collection.Uniform, Dataspace.width, Tuple.width]

/-- The second dataspace of `A` reads five elements ahead of what the first nest writes, and the
shifts do not see it. -/
theorem not_legal_repeated :
    let nest (dataspaces : List Dataspace) : Nest := ⟨⟨[("1", "N")], ["N"]⟩, dataspaces⟩
    let single (i : ℤ) : Collection := ⟨[⟨[i]⟩], 1⟩
    let c : Chain := ⟨[nest [⟨"A", ⟨[], 1⟩, single 0⟩],
      nest [⟨"A", single 0, ⟨[], 1⟩⟩, ⟨"A", single 5, ⟨[], 1⟩⟩]]⟩
    tuples c false (BranchAndBound.solver 100) = .ok [] ∧ ¬ Legal c [] := by
  intro nest single c
  refine ⟨by decide +kernel, fun hlegal => ?_⟩
  have hs : Shared c 0 1 (nest [⟨"A", ⟨[], 1⟩, single 0⟩])
      (nest [⟨"A", single 0, ⟨[], 1⟩⟩, ⟨"A", single 5, ⟨[], 1⟩⟩]) ⟨"A", ⟨[], 1⟩, single 0⟩
      ⟨"A", single 5, ⟨[], 1⟩⟩ :=
    ⟨by decide, rfl, rfl, by simp [nest], by simp [nest], rfl⟩
  refine hlegal _ _ _ _ _ _ hs ⟨[0]⟩ ⟨[5]⟩ (.inr (.inl ⟨by simp [single], by simp [single]⟩)) [5] [0]
    ⟨rfl, rfl, rfl, rfl, rfl⟩ ?_
  decide

end Answer

end LoopSched.AutoShift
