import LoopSched.Proofs.Schedule.Placement
import LoopSched.Proofs.Schedule.Spelling
import Mathlib.Data.List.Lex

/-!
# Order of the instances

Instances run in the lexicographic order of their points.  A schedule starts with the order of the
chain: one nest after another, each nest in the order of its iterators.  A fusion puts instances
with equal iterators next to each other, and then the number of the nest decides: nests that are
fused run in the order of the chain, whatever the order in which they are listed.
-/

namespace LoopSched

open Polyhedral Arrangement LoopSched.Subspace

/-! ### Lexicographic order -/

/-- Behind equally long parts, what follows decides only where the parts are equal. -/
theorem lex_append_iff (zs ws : List ℤ) : ∀ {xs ys : List ℤ}, xs.length = ys.length →
    (List.Lex (· < ·) (xs ++ zs) (ys ++ ws) ↔
      List.Lex (· < ·) xs ys ∨ xs = ys ∧ List.Lex (· < ·) zs ws)
  | [], [], _ => by simp
  | [], _ :: _, h => nomatch h
  | _ :: _, [], h => nomatch h
  | x :: xs, y :: ys, h => by
    have ih := lex_append_iff zs ws (Nat.succ.inj h)
    simp only [List.cons_append, List.cons_lex_cons_iff, ih, List.cons.injEq]
    tauto

theorem lex_append_left_iff (zs xs ys : List ℤ) :
    List.Lex (· < ·) (zs ++ xs) (zs ++ ys) ↔ List.Lex (· < ·) xs ys := by
  have hirrefl : ¬ List.Lex (· < ·) zs zs := List.lt_irrefl zs
  rw [lex_append_iff xs ys rfl, or_iff_right hirrefl, and_iff_right rfl]

theorem lex_append_right_iff {xs ys : List ℤ} (h : xs.length = ys.length) (zs : List ℤ) :
    List.Lex (· < ·) (xs ++ zs) (ys ++ zs) ↔ List.Lex (· < ·) xs ys := by
  rw [lex_append_iff zs zs h, or_iff_left fun h => List.lt_irrefl zs h.2]

namespace Instance

variable {c : Chain}

/-- The vector with zeros up to the width of the widest nest. -/
def padded (a : Instance c) : List ℤ :=
  a.vector ++ List.replicate (c.maxDimension - a.vector.length) 0

theorem length_padded (a : Instance c) : a.padded.length = c.maxDimension := by
  have := a.length_le
  simp [padded]
  omega

end Instance

namespace Schedule

variable {c : Chain} {statementPrefix : String}

/-- The iterators of an instance at the start. -/
theorem map_vars_embedded (a : Instance c) :
    (nestGroup c.maxDimension).vars.map (embedded c.maxDimension a.nest a.vector) = a.padded := by
  set vars := (nestGroup c.maxDimension).vars with hvars
  have hlength : vars.length = c.maxDimension := length_vars_nestGroup c.maxDimension
  have hzero : ∀ n ∈ vars.drop a.vector.length,
      embedded c.maxDimension a.nest a.vector n = (fun _ => 0) n := fun _ hn =>
    embedded_of_mem_drop a.length_le hn
  conv_lhs => rw [← List.take_append_drop a.vector.length vars]
  rw [List.map_append, map_embedded a.nest a.length_le, List.map_congr_left hzero, List.map_const',
    List.length_drop, hlength]
  rfl

theorem point_start (width : ℕ) (σ : Valuation) :
    (Layout.startArrangement width).point σ = ⟨"", σ loopsGroup.constant ::
      ((nestGroup width).vars.map σ ++ [σ (nestGroup width).constant])⟩ := by
  rw [Arrangement.point, Layout.names_startArrangement, List.map_cons, Group.names, List.map_append]
  rfl

/-! ### The start -/

/-- Points of the start are ordered like the chain. -/
theorem lex_start_iff (a b : Instance c) :
    List.Lex (· < ·) ((a.nest : ℤ) :: (a.padded ++ [0])) ((b.nest : ℤ) :: (b.padded ++ [0])) ↔
      a.nest < b.nest ∨ a.nest = b.nest ∧ List.Lex (· < ·) a.vector b.vector := by
  rw [List.cons_lex_cons_iff, Nat.cast_lt, Nat.cast_inj]
  refine or_congr_right (and_congr_right fun hnest => ?_)
  -- in one nest all vectors are equally long, and so are the zeros behind them
  have hlength := Instance.length_vector_eq hnest
  rw [lex_append_right_iff (by rw [a.length_padded, b.length_padded]), Instance.padded,
    Instance.padded, hlength, lex_append_right_iff hlength]

/-- A schedule starts with one text, which is the order of the chain: every instance has one point,
instances have distinct points, and the points are ordered by the number of the nest and then by the
iterators. -/
theorem make_reads_in_order (c : Chain) (statementPrefix iteratorPrefix : String)
    (hroot : Identifier (rootOf statementPrefix)) :
    ∃ (text : String) (place : Instance c → List ℤ),
      (make c statementPrefix iteratorPrefix).maps.map UnionMap.render = [text] ∧
      (∀ π a q, TextRelates π text (a.point statementPrefix) q ↔ q = ⟨"", place a⟩) ∧
      (∀ a, (place a).length = c.maxDimension + 2) ∧ Function.Injective place ∧
      ∀ a b, List.Lex (· < ·) (place a) (place b) ↔
        a.nest < b.nest ∨ a.nest = b.nest ∧ List.Lex (· < ·) a.vector b.vector := by
  refine ⟨(embedding c statementPrefix).render, fun a => a.nest :: (a.padded ++ [0]), rfl, ?_, ?_,
    ?_, lex_start_iff⟩
  · intro π a q
    rw [textRelates_embedding hroot (ρ := fun _ => 0), embedding_relates, point_start,
      embedded_loops, map_vars_embedded, embedded_constant a.length_le]
  · intro a
    simp [a.length_padded]
  · intro a b hplace
    simp only [List.cons.injEq, Nat.cast_inj] at hplace
    obtain ⟨hnest, hpadded⟩ := hplace
    exact Instance.ext hnest (List.append_inj_left (List.append_cancel_right hpadded)
      (Instance.length_vector_eq hnest))

/-- A nest with one iterator before one with two: the instance of the second nest has the greater
point, although its iterators are smaller. -/
theorem make_reads_in_order_mixed :
    let c : Chain := ⟨[⟨⟨[("0", "9")], []⟩, []⟩, ⟨⟨[("0", "9"), ("0", "9")], []⟩, []⟩]⟩
    let a : Instance c := ⟨0, [5], rfl⟩
    let b : Instance c := ⟨1, [3, 4], rfl⟩
    ∃ text p q, (make c "" "c").maps.map UnionMap.render = [text] ∧
      (∀ π r, TextRelates π text (a.point "") r ↔ r = ⟨"", p⟩) ∧
      (∀ π r, TextRelates π text (b.point "") r ↔ r = ⟨"", q⟩) ∧
      p.length = 4 ∧ q.length = 4 ∧ List.Lex (· < ·) p q := by
  intro c a b
  obtain ⟨text, place, htext, hreads, hlength, -, horder⟩ :=
    make_reads_in_order c "" "c" (by decide)
  exact ⟨text, place a, place b, htext, fun π => hreads π a, fun π => hreads π b, hlength a,
    hlength b, (horder a b).mpr (Or.inl (by decide))⟩

/-! ### A fusion -/

open Schedule.Action

theorem forM_nestOf_of_valid {s : Schedule} {transform : String} : ∀ {loops : List ℕ},
    (∀ loop ∈ loops, loop < s.chain.nests.length) →
      (loops.forM fun loop => do let _ ← nestOf loop transform : Action PUnit) s = .ok ⟨⟩ s
  | [], _ => rfl
  | loop :: loops, h => by
    obtain ⟨hloop, hloops⟩ := List.forall_mem_cons.mp h
    have hnest : s.chain.nest loop = .ok s.chain.nests[loop] := by
      rw [Chain.nest, List.getElem?_eq_getElem hloop]
    refine bind_eq_ok.mpr ⟨⟨⟩, s, ?_, forM_nestOf_of_valid hloops⟩
    exact bind_eq_ok.mpr ⟨_, s, nestOf_eq_ok.mpr ⟨hnest, rfl⟩, rfl⟩

theorem exists_fusion (statementPrefix iteratorPrefix : String) {loops : List ℕ} (hne : loops ≠ [])
    (hvalid : ∀ loop ∈ loops, loop < c.nests.length) :
    ∃ m s', Fragment.fusion loops Layout.loops (make c statementPrefix iteratorPrefix) =
      .ok m s' := by
  obtain ⟨first, rest, rfl⟩ := List.exists_cons_of_ne_nil hne
  exact ⟨_, _, bind_eq_ok.mpr ⟨first, _, rfl,
    bind_eq_ok.mpr ⟨_, _, forM_nestOf_of_valid hvalid, rfl⟩⟩⟩

/-- A fusion of nests that are there is accepted at the start. -/
theorem apply_fusion_make (statementPrefix iteratorPrefix : String) {first : ℕ} {rest : List ℕ}
    (hvalid : ∀ loop ∈ first :: rest, loop < c.nests.length) :
    ∃ s, apply (.fusion (first :: rest)) (make c statementPrefix iteratorPrefix) = .ok () s ∧
      s.maps = [embedding c statementPrefix, fusionMap (Layout.startArrangement c.maxDimension)
        loopsGroup (nestGroup c.maxDimension) first (first :: rest)] := by
  have hvalidv := Layout.valid_startArrangement c.maxDimension
  obtain ⟨m, s₁, hm⟩ :=
    exists_fusion statementPrefix iteratorPrefix (List.cons_ne_nil first rest) hvalid
  obtain ⟨-, _, _, next, g, k, hloops, hnext, hg, hk, -, hmap⟩ :=
    Fragment.fusion_eq_ok (Layout.sound_startLayout c) hm
  obtain ⟨rfl, rfl⟩ := List.cons.inj hloops
  obtain rfl : Layout.nest = next := Except.ok.inj hnext
  rw [hvalidv.group_eq hg hvalidv.loops, hvalidv.group_eq hk hvalidv.nest] at hmap
  have hrun : (Transformation.fusion (first :: rest)).run Layout.loops
      (make c statementPrefix iteratorPrefix) = .ok [m] s₁ := by
    rw [Transformation.run]
    exact bind_eq_ok.mpr ⟨m, s₁, hm, rfl⟩
  have hrecord : SameRecord (make c statementPrefix iteratorPrefix) s₁ :=
    after_of_ok hrun ▸ Transformation.confined_run _ _ _
  have happly : applyTo (.fusion (first :: rest)) Layout.loops
      (make c statementPrefix iteratorPrefix) = .ok ()
        { s₁ with maps := s₁.maps ++ [m], layout := s₁.layout.nextStage } :=
    applyTo_eq_ok.mpr ⟨[m], s₁, hrun, rfl⟩
  refine ⟨_, bind_eq_ok.mpr ⟨_, _, rfl, happly⟩, ?_⟩
  show s₁.maps ++ [m] = _
  rw [hrecord.maps, hmap]
  rfl

/-- The point of an instance of a nest that is fused. -/
theorem composed_fusion {first : ℕ} {loops : List ℕ} {a : Instance c} (ha : a.nest ∈ loops)
    {ρ : Valuation} {q : Point} :
    Composed ρ [embedding c statementPrefix, fusionMap (Layout.startArrangement c.maxDimension)
        loopsGroup (nestGroup c.maxDimension) first loops] (a.point statementPrefix) q ↔
      q = ⟨"", first :: (a.padded ++ [(a.nest : ℤ)])⟩ := by
  set v := Layout.startArrangement c.maxDimension
  set σ := embedded c.maxDimension a.nest a.vector with hσ
  have hv : v.Valid c.maxDimension := Layout.valid_startArrangement c.maxDimension
  have hmoves := moves_fusion (ρ := ρ) (P := fun _ => True) hv hv.loops hv.nest (by decide)
    first loops fun hfree => hfree (.fusion []) trivial [] rfl
  have hlisted : ∃ value ∈ loops, σ loopsGroup.constant = (value : ℕ) :=
    ⟨a.nest, ha, embedded_loops _ _ _⟩
  rw [Composed]
  simp only [embedding_relates, exists_eq_left]
  refine (hmoves.graph σ q).trans ?_
  rw [if_pos hlisted, point_start]
  -- the fusion writes the two constants only
  have hfirst : fused loopsGroup (nestGroup c.maxDimension) first σ loopsGroup.constant = first :=
    if_pos rfl
  have hnest : fused loopsGroup (nestGroup c.maxDimension) first σ
      (nestGroup c.maxDimension).constant = a.nest := by
    have hne : (nestGroup c.maxDimension).constant ≠ loopsGroup.constant := fun heq =>
      loops_not_mem_nestGroup c.maxDimension (heq ▸ Group.constant_mem_names _)
    rw [fused, if_neg hne, if_pos rfl, hσ, embedded_loops]
  have hvars : (nestGroup c.maxDimension).vars.map
      (fused loopsGroup (nestGroup c.maxDimension) first σ) = a.padded := by
    rw [← map_vars_embedded]
    refine List.map_congr_left fun n hn => fused_of_ne ?_ ?_
    · exact fun heq => hv.not_mem_vars hv.nest (constant_mem hv.loops) (heq ▸ hn)
    · exact fun heq => hv.not_mem_vars hv.nest (constant_mem hv.nest) (heq ▸ hn)
  rw [hfirst, hvars, hnest]

/-- The texts of a fusion at the start relate what its maps relate. -/
theorem textsRelate_fusion (h : Identifier (rootOf statementPrefix)) {first : ℕ} {rest : List ℕ}
    {π ρ : Valuation} {p q : Point} :
    TextsRelate π ([embedding c statementPrefix, fusionMap (Layout.startArrangement c.maxDimension)
        loopsGroup (nestGroup c.maxDimension) first (first :: rest)].map UnionMap.render) p q ↔
      Composed ρ [embedding c statementPrefix, fusionMap (Layout.startArrangement c.maxDimension)
        loopsGroup (nestGroup c.maxDimension) first (first :: rest)] p q := by
  have hv := Layout.valid_startArrangement c.maxDimension
  have hstep := Step.fusion first rest hv.loops hv.nest (by decide)
  refine textsRelate_iff (List.forall_mem_cons.mpr ⟨fun p q => textRelates_embedding h,
    List.forall_mem_singleton.mpr fun p q => ?_⟩)
  exact hstep.textRelates_iff hv hv (spelled_start _) trivial

theorem lex_fused_iff (first : ℕ) {a b : Instance c} (h : a.vector = b.vector) :
    List.Lex (· < ·) ((first : ℤ) :: (a.padded ++ [(a.nest : ℤ)]))
      ((first : ℤ) :: (b.padded ++ [(b.nest : ℤ)])) ↔ a.nest < b.nest := by
  have hpadded : a.padded = b.padded := by rw [Instance.padded, Instance.padded, h]
  rw [hpadded, ← List.singleton_append, ← List.singleton_append (l := b.padded ++ [(b.nest : ℤ)]),
    lex_append_left_iff, lex_append_left_iff, List.lex_singleton_iff, Nat.cast_lt]

/-- Nests that are fused at the start run in the order of the chain, whatever the order in which
they are listed. -/
theorem fused_precedes_iff (c : Chain) (statementPrefix iteratorPrefix : String) (loops : List ℕ)
    (hne : loops ≠ []) (hvalid : ∀ loop ∈ loops, loop < c.nests.length) :
    ∃ (s : Schedule) (place : Instance c → List ℤ),
      apply (.fusion loops) (make c statementPrefix iteratorPrefix) = .ok () s ∧
      (∀ a : Instance c, a.nest ∈ loops → ∀ (ρ : Valuation) (q : Point),
        (Composed ρ s.maps (a.point statementPrefix) q ↔ q = ⟨"", place a⟩) ∧
        (Identifier (rootOf statementPrefix) → (TextsRelate ρ (s.maps.map UnionMap.render)
          (a.point statementPrefix) q ↔ q = ⟨"", place a⟩))) ∧
      ∀ a b : Instance c, a.nest ∈ loops → b.nest ∈ loops → a.vector = b.vector →
        (List.Lex (· < ·) (place a) (place b) ↔ a.nest < b.nest) := by
  obtain ⟨first, rest, rfl⟩ := List.exists_cons_of_ne_nil hne
  obtain ⟨s, happly, hmaps⟩ := apply_fusion_make statementPrefix iteratorPrefix hvalid
  refine ⟨s, fun a => first :: (a.padded ++ [(a.nest : ℤ)]), happly, fun a ha ρ q => ?_,
    fun a b _ _ hvector => lex_fused_iff first hvector⟩
  rw [hmaps]
  refine ⟨composed_fusion ha, fun hroot => ?_⟩
  rw [textsRelate_fusion hroot (ρ := ρ)]
  exact composed_fusion ha

/-- Two of three nests, the one with the smaller number first: they run as listed. -/
theorem fused_precedes_iff_ascending :
    let nest : Nest := ⟨⟨[("0", "9")], []⟩, []⟩
    let c : Chain := ⟨[nest, nest, nest]⟩
    let a : Instance c := ⟨0, [5], rfl⟩
    let b : Instance c := ⟨2, [5], rfl⟩
    ∃ s p q, apply (.fusion [0, 2]) (make c "" "c") = .ok () s ∧
      (∀ π, TextsRelate π (s.maps.map UnionMap.render) (a.point "") ⟨"", p⟩) ∧
      (∀ π, TextsRelate π (s.maps.map UnionMap.render) (b.point "") ⟨"", q⟩) ∧
        List.Lex (· < ·) p q := by
  intro nest c a b
  obtain ⟨s, place, happly, hreads, hprecedes⟩ :=
    fused_precedes_iff c "" "c" [0, 2] (by decide) (by decide)
  have hroot : Identifier (rootOf "") := by decide
  refine ⟨s, place a, place b, happly, fun π => ?_, fun π => ?_, ?_⟩
  · exact ((hreads a (by decide) π _).2 hroot).mpr rfl
  · exact ((hreads b (by decide) π _).2 hroot).mpr rfl
  · exact (hprecedes a b (by decide) (by decide) rfl).mpr (by decide)

/-- Two nests, the one with the greater number first: the second of the list runs first. -/
theorem exists_fused_out_of_order :
    let nest : Nest := ⟨⟨[("0", "9")], []⟩, []⟩
    let c : Chain := ⟨[nest, nest]⟩
    let a : Instance c := ⟨1, [5], rfl⟩
    let b : Instance c := ⟨0, [5], rfl⟩
    ∃ s, apply (.fusion [1, 0]) (make c "" "c") = .ok () s ∧
      (∀ π p, TextsRelate π (s.maps.map UnionMap.render) (a.point "") p ↔
        p = ⟨"", [1, 5, 1]⟩) ∧
      (∀ π q, TextsRelate π (s.maps.map UnionMap.render) (b.point "") q ↔
        q = ⟨"", [1, 5, 0]⟩) ∧
      List.Lex (· < ·) [(1 : ℤ), 5, 0] [1, 5, 1] := by
  intro nest c a b
  have hvalid : ∀ loop ∈ [1, 0], loop < c.nests.length := by decide
  have hroot : Identifier (rootOf "") := by decide
  obtain ⟨s, happly, hmaps⟩ := apply_fusion_make "" "c" hvalid
  have hreads : ∀ a : Instance c, a.nest ∈ [1, 0] → ∀ π q, TextsRelate π
      (s.maps.map UnionMap.render) (a.point "") q ↔
        q = ⟨"", ((1 : ℕ) : ℤ) :: (a.padded ++ [(a.nest : ℤ)])⟩ := by
    intro a ha π q
    rw [hmaps, textsRelate_fusion hroot (ρ := π)]
    exact composed_fusion ha
  exact ⟨s, happly, hreads a (by decide), hreads b (by decide), .cons (.cons (.rel (by decide)))⟩

end Schedule

end LoopSched
