import LoopSched.Proofs.Polyhedral.Meaning
import LoopSched.Proofs.Schedule.Steps

/-!
# What steps do to points

Every step is a function on points.  The constant coordinates of the image depend on the constant
coordinates alone, and for given constants no two values of the nests' iterators have one image.
Both survive composition, so they hold of every chain of steps.
-/

namespace LoopSched.Arrangement

open Polyhedral LoopSched.Subspace

/-- The constant coordinates from left to right. -/
def constants (v : Arrangement) : List String := v.map (·.2.constant)

/-- The point that a valuation gives in an arrangement. -/
def point (v : Arrangement) (σ : Valuation) : Point where
  coordinates := v.names.map σ

/-- The maps send the point of `σ` to the point of `F σ`. -/
structure Moves (ρ : Valuation) (width : ℕ) (P : Transformation → Prop) (v : Arrangement)
    (ms : List UnionMap) (w : Arrangement) (F : Valuation → Valuation) : Prop where
  graph : ∀ σ q, Composed ρ ms (v.point σ) q ↔ q = w.point (F σ)
  constants : ∀ σ τ, (∀ n ∈ v.constants, σ n = τ n) → ∀ n ∈ w.constants, F σ n = F τ n
  iterators : ∀ σ τ, (∀ n ∈ v.constants, σ n = τ n) →
    (∀ n ∈ (nestGroup width).vars, F σ n = F τ n) → ∀ n ∈ (nestGroup width).vars, σ n = τ n
  loops : (∀ t, P t → ∀ loops, t ≠ .fusion loops) →
    ∀ σ, F σ loopsGroup.constant = σ loopsGroup.constant

variable {ρ σ τ φ : Valuation} {width : ℕ} {P : Transformation → Prop}
  {v w x near far : Arrangement}
  {ms ms' : List UnionMap} {F G : Valuation → Valuation}

theorem Moves.id (ρ : Valuation) (width : ℕ) (P : Transformation → Prop) (v : Arrangement) :
    Moves ρ width P v [] v id where
  graph := fun _ _ => Iff.rfl
  constants := fun _ _ h => h
  iterators := fun _ _ _ h => h
  loops := fun _ _ => rfl

theorem Moves.comp (h : Moves ρ width P v ms w F) (h' : Moves ρ width P w ms' x G) :
    Moves ρ width P v (ms ++ ms') x (G ∘ F) where
  graph := by
    intro σ q
    rw [composed_append]
    simp only [h.graph, exists_eq_left, h'.graph]
    rfl
  constants := fun σ τ hστ => h'.constants _ _ (h.constants σ τ hστ)
  iterators := fun σ τ hστ hFG =>
    h.iterators σ τ hστ (h'.iterators _ _ (h.constants σ τ hστ) hFG)
  loops := fun hP σ => (h'.loops hP (F σ)).trans (h.loops hP σ)

/-! ### Constants and variables -/

theorem Valid.loops_constant (hv : v.Valid width) : loopsGroup.constant ∈ v.constants :=
  List.mem_map_of_mem (f := fun e : ℕ × Group => e.2.constant) hv.loops

/-- No constant is also a variable. -/
theorem Valid.not_mem_vars (hv : v.Valid width) {id : ℕ} {g : Group} (hg : (id, g) ∈ v) {n : String}
    (hn : n ∈ v.constants) : n ∉ g.vars := by
  obtain ⟨⟨id', g'⟩, hg', rfl⟩ := List.mem_map.mp hn
  intro hmem
  have hid : id = id' := hv.id_eq hg hg' (List.mem_append_left _ hmem) g'.constant_mem_names
  subst hid
  obtain rfl := hv.group_eq hg hg'
  exact (List.nodup_append'.mp (hv.group_nodup hg)).2.2 hmem (List.mem_singleton.mpr rfl)

/-! ### Clauses as functions -/

theorem map_eq_map_iff {ns : List String} : ns.map σ = ns.map τ ↔ ∀ n ∈ ns, σ n = τ n :=
  List.map_inj_left

/-- A clause whose conditions say that `G` holds and that the coordinates `ns`, which are the
rewritten and the new ones, have the values `φ`, is the graph of `φ` where `G` holds. -/
theorem relates_of_conditions (ns : List String) {source : String} {input outs vs : List String}
    {conditions : List Condition} {G : Prop} (hinput : ∀ n ∈ input, Plain n)
    (houts : ∀ n ∈ outs, Plain n) (hsub : ∀ n ∈ ns, n ∈ outs)
    (hwritten : ∀ n ∈ outs, n ∈ ns ↔ n ∈ vs ∨ n ∉ input) (hcopy : ∀ n ∈ outs, n ∉ ns → φ n = σ n)
    (hconditions : ∀ τ : Valuation, (∀ n ∈ input, τ n = σ n) →
      ((∀ condition ∈ conditions, condition.Holds ρ τ) ↔ G ∧ ∀ n ∈ ns, τ (mark vs n) = φ n))
    {q : Point} :
    Clause.Relates ρ { source, input, output := outs.map (mark vs), conditions }
      ⟨source, input.map σ⟩ q ↔ G ∧ q = ⟨"", outs.map φ⟩ := by
  -- values that agree with `σ` on near names and with `φ` on `ns` give the point of `φ`
  have hout : ∀ τ : Valuation, (∀ n ∈ input, τ n = σ n) → (∀ n ∈ ns, τ (mark vs n) = φ n) →
      (outs.map (mark vs)).map τ = outs.map φ := by
    intro τ hagree hns
    rw [List.map_map]
    refine List.map_congr_left fun n hn => ?_
    by_cases hmem : n ∈ ns
    · exact hns n hmem
    · have hcopied := fun h => hmem ((hwritten n hn).mpr h)
      have hvs : n ∉ vs := fun h => hcopied (Or.inl h)
      have hnear : n ∈ input := not_not.mp fun h => hcopied (Or.inr h)
      rw [Function.comp, mark_of_not_mem hvs, hagree n hnear, hcopy n hn hmem]
  constructor
  · rintro ⟨-, hname, τ, hτ, hq, hholds⟩
    have hagree := map_eq_map_iff.mp hτ
    obtain ⟨hG, hns⟩ := (hconditions τ hagree).mp hholds
    refine ⟨hG, ?_⟩
    have hcoordinates : q.coordinates = outs.map φ := hq ▸ hout τ hagree hns
    cases q
    simp only at hname hcoordinates
    rw [hname, hcoordinates]
  · rintro ⟨hG, rfl⟩
    -- near names keep their values, and the others are names of rewritten or new coordinates
    let τ : Valuation := fun n => if n ∈ input then σ n else φ (unalias n)
    have hagree : ∀ n ∈ input, τ n = σ n := fun n hn => if_pos hn
    have hns : ∀ n ∈ ns, τ (mark vs n) = φ n := by
      intro n hn
      have hnot := mark_not_mem hinput ((hwritten n (hsub n hn)).mp hn)
      show (if mark vs n ∈ input then _ else _) = _
      rw [if_neg hnot, unalias_mark (houts n (hsub n hn))]
    exact ⟨rfl, rfl, τ, map_eq_map_iff.mpr hagree, hout τ hagree hns,
      (hconditions τ hagree).mpr ⟨hG, hns⟩⟩

/-- Of two clauses the guard chooses one. -/
theorem relates_pair {symbols : List String} {c c' : Clause} {p q r r' : Point} {G : Prop}
    [Decidable G] (h : c.Relates ρ p q ↔ G ∧ q = r) (h' : c'.Relates ρ p q ↔ ¬ G ∧ q = r') :
    UnionMap.Relates ρ { symbols, clauses := [c, c'] } p q ↔ q = if G then r else r' := by
  simp only [UnionMap.Relates, List.mem_cons, List.not_mem_nil, or_false, exists_eq_or_imp,
    exists_eq_left, h, h']
  split <;> simp_all

/-! ### Conditions -/

theorem holds_copies {vs ns : List String} :
    (∀ condition ∈ copies vs ns, condition.Holds ρ τ) ↔ ∀ n ∈ ns, τ (mark vs n) = τ n := by
  induction ns with
  | nil => simp [copies, Fragment.identities]
  | cons n ns ih =>
    rw [List.forall_mem_cons, ← ih]
    exact List.forall_mem_cons

theorem holds_zeros {ns : List String} :
    (∀ condition ∈ ns.map (Condition.is · 0), condition.Holds ρ τ) ↔ ∀ n ∈ ns, τ n = 0 := by
  rw [List.forall_mem_map]
  rfl

/-- How far a shift moves a coordinate. -/
def offset (ρ : Valuation) (extents names : List String) (n : String) : ℤ :=
  (extents[names.idxOf n]?).elim 0 ρ

theorem holds_movedBy (vs : List String) : ∀ (extents : List String) {ns : List String}, ns.Nodup →
    ((∀ condition ∈ Fragment.movedBy extents ((ns.map (mark vs)).zip ns), condition.Holds ρ τ) ↔
      ∀ n ∈ ns, τ (mark vs n) = τ n + offset ρ extents ns n)
  | _, [], _ => by simp [Fragment.movedBy]
  | [], n :: ns, h => by
    have ih := holds_movedBy vs [] (List.nodup_cons.mp h).2
    simp only [offset, List.getElem?_nil, Option.elim_none, add_zero] at ih ⊢
    rw [List.forall_mem_cons, ← ih]
    exact List.forall_mem_cons
  | e :: extents, n :: ns, h => by
    have ih := holds_movedBy vs extents (List.nodup_cons.mp h).2
    have hhead : offset ρ (e :: extents) (n :: ns) n = ρ e := by
      rw [offset, List.idxOf_cons_self]
      rfl
    have htail : ∀ m ∈ ns, offset ρ (e :: extents) (n :: ns) m = offset ρ extents ns m := by
      intro m hm
      have hne : n ≠ m := fun hnm => (List.nodup_cons.mp h).1 (hnm ▸ hm)
      rw [offset, List.idxOf_cons_ne _ hne]
      rfl
    have htails : (∀ m ∈ ns, τ (mark vs m) = τ m + offset ρ (e :: extents) (n :: ns) m) ↔
        ∀ m ∈ ns, τ (mark vs m) = τ m + offset ρ extents ns m :=
      forall₂_congr fun m hm => by rw [htail m hm]
    rw [List.forall_mem_cons, hhead, htails, ← ih]
    exact List.forall_mem_cons

theorem forall_mem_names {g : Group} {p : String → Prop} :
    (∀ n ∈ g.names, p n) ↔ (∀ n ∈ g.vars, p n) ∧ p g.constant := by
  rw [Group.names, List.forall_mem_append, List.forall_mem_singleton]

/-! ### Steps as functions -/

/-- A clause that keeps all coordinates where its guard holds. -/
theorem keep_relates (hv : v.Valid width) {conditions : List Condition} {G : Prop}
    (hG : ∀ τ : Valuation, (∀ n ∈ v.names, τ n = σ n) →
      ((∀ condition ∈ conditions, condition.Holds ρ τ) ↔ G)) {q : Point} :
    (clause v v [] conditions).Relates ρ (v.point σ) q ↔ G ∧ q = v.point σ := by
  refine relates_of_conditions [] hv.plain hv.plain (by simp) (by simp +contextual)
    (fun _ _ _ => rfl) ?_
  intro τ hτ
  simpa using hG τ hτ

theorem offset_eq_zero {extents names : List String} {n : String}
    (h : extents.length ≤ names.idxOf n) : offset ρ extents names n = 0 := by
  rw [offset, List.getElem?_eq_none h]
  rfl

/-- Extents are for variables. -/
theorem offset_constant (hv : v.Valid width) {id : ℕ} {g : Group} (hg : (id, g) ∈ v)
    {extents : List String} (hlength : extents.length ≤ g.vars.length) {n : String}
    (hn : n ∈ v.constants) : offset ρ extents g.names n = 0 := by
  refine offset_eq_zero ?_
  rw [Group.names, List.idxOf_append_of_notMem (hv.not_mem_vars hg hn)]
  omega

theorem moves_shift (hv : v.Valid width) {id : ℕ} {g : Group} (hg : (id, g) ∈ v) (sh : Shift)
    (hlength : sh.extents.length ≤ g.vars.length) :
    Moves ρ width P v [shiftMap v g sh] v fun σ =>
      if σ loopsGroup.constant = sh.loop then fun n => σ n + offset ρ sh.extents g.names n
      else σ where
  graph := by
    intro σ q
    rw [composed_singleton, shiftMap, apply_ite v.point]
    refine relates_pair ?_ ?_
    · refine relates_of_conditions g.names hv.plain hv.plain (names_subset hg)
        (by simp +contextual) ?_ ?_
      · intro n _ hn
        have hlong : sh.extents.length ≤ g.names.idxOf n := by
          rw [List.idxOf_eq_length hn]
          simp [Group.names]
          omega
        rw [offset_eq_zero hlong, add_zero]
      · intro τ hτ
        rw [List.forall_mem_cons, holds_movedBy _ _ (hv.group_nodup hg)]
        refine and_congr ?_ ?_
        · show τ _ = _ ↔ _
          rw [hτ _ hv.loops_mem]
        · refine forall₂_congr fun n hn => ?_
          rw [hτ n (names_subset hg n hn)]
    · refine keep_relates hv fun τ hτ => ?_
      rw [List.forall_mem_singleton]
      show τ _ ≠ _ ↔ _
      rw [hτ _ hv.loops_mem]
  constants := by
    intro σ τ hστ n hn
    rw [hστ _ hv.loops_constant]
    split
    · show σ n + _ = τ n + _
      rw [hστ n hn]
    · exact hστ n hn
  iterators := by
    intro σ τ hστ hF n hn
    have hn := hF n hn
    rw [hστ _ hv.loops_constant] at hn
    split at hn
    · exact add_right_cancel hn
    · exact hn
  loops := by
    intro _ σ
    split
    · show σ _ + _ = σ _
      rw [offset_constant hv hg hlength hv.loops_constant, add_zero]
    · rfl

/-- Only the nests' own group has their iterators. -/
theorem Valid.eq_nestGroup (hv : v.Valid width) {id : ℕ} {g : Group} (hg : (id, g) ∈ v) {n : String}
    (hn : n ∈ g.vars) (hnest : n ∈ (nestGroup width).vars) : g = nestGroup width := by
  have hid : id = Layout.nest :=
    hv.id_eq hg hv.nest (List.mem_append_left _ hn) (List.mem_append_left _ hnest)
  subst hid
  exact hv.group_eq hg hv.nest

theorem moves_wavefront (hv : v.Valid width) {id : ℕ} {g : Group} (hg : (id, g) ∈ v) {x : String}
    {xs : List String} (hvars : g.vars = x :: xs) :
    Moves ρ width P v [wavefrontMap v g x xs] v fun σ n =>
      if n = x then (g.vars.map σ).sum else σ n := by
  have hnames : g.names = x :: (xs ++ [g.constant]) := by
    rw [Group.names, hvars, List.cons_append]
  have hrest : ∀ n ∈ xs ++ [g.constant], n ≠ x := by
    have hnodup := hv.group_nodup hg
    rw [hnames] at hnodup
    rintro n hn rfl
    exact (List.nodup_cons.mp hnodup).1 hn
  have hconstant : ∀ n ∈ v.constants, n ≠ x :=
    fun n hn h => hv.not_mem_vars hg hn (by simp [h, hvars])
  refine ⟨?_, ?_, ?_, ?_⟩
  · intro σ q
    have hclause : UnionMap.Relates ρ (wavefrontMap v g x xs) (v.point σ) q ↔
        (clause v v g.names (.sum (mark g.names x) g.vars ::
          copies g.names (xs ++ [g.constant]))).Relates ρ (v.point σ) q := by
      simp [UnionMap.Relates, wavefrontMap]
    rw [composed_singleton, hclause]
    refine (relates_of_conditions (G := True) g.names hv.plain hv.plain (names_subset hg)
      (by simp +contextual) ?_ ?_).trans (by rw [true_and, point])
    · intro n _ hn
      exact if_neg fun h => hn (by simp [h, hnames])
    · intro τ hτ
      have hsum : g.vars.map τ = g.vars.map σ := List.map_congr_left fun n hn =>
        hτ n (names_subset hg n (List.mem_append_left _ hn))
      rw [List.forall_mem_cons, holds_copies, true_and, hnames, List.forall_mem_cons, if_pos rfl,
        ← hsum]
      refine and_congr Iff.rfl (forall₂_congr fun n hn => ?_)
      rw [if_neg (hrest n hn), hτ n (names_subset hg n (by simp [hnames, hn]))]
  · intro σ τ hστ n hn
    rw [if_neg (hconstant n hn), if_neg (hconstant n hn)]
    exact hστ n hn
  · intro σ τ _ hF
    have hothers : ∀ n ∈ (nestGroup width).vars, n ≠ x → σ n = τ n := by
      intro n hn hne
      have := hF n hn
      rwa [if_neg hne, if_neg hne] at this
    intro n hn
    by_cases hne : n = x
    · subst hne
      -- the group is the nests' own, so all other terms of the sum are equal
      have hnest := hv.eq_nestGroup hg (by simp [hvars]) hn
      have hxs : xs.map σ = xs.map τ := map_eq_map_iff.mpr fun m hm =>
        hothers m (by simp [← hnest, hvars, hm]) (hrest m (List.mem_append_left _ hm))
      have hsum := hF n hn
      rw [if_pos rfl, if_pos rfl, hvars, List.map_cons, List.map_cons, List.sum_cons, List.sum_cons,
        hxs] at hsum
      exact add_right_cancel hsum
    · exact hothers n hn hne
  · intro _ σ
    exact if_neg (hconstant _ hv.loops_constant)

theorem constant_mem {id : ℕ} {g : Group} (hg : (id, g) ∈ v) : g.constant ∈ v.constants :=
  List.mem_map_of_mem (f := fun e : ℕ × Group => e.2.constant) hg

/-- The values after a fusion of the group `g` with its right neighbour `h`. -/
def fused (g h : Group) (first : ℕ) (σ : Valuation) : Valuation := fun n =>
  if n = g.constant then first else if n = h.constant then σ g.constant else σ n

section Fusion

variable {id next : ℕ} {g h : Group}

theorem fused_of_ne {first : ℕ} {n : String} (hg : n ≠ g.constant) (hh : n ≠ h.constant) :
    fused g h first σ n = σ n := by
  rw [fused, if_neg hg, if_neg hh]

/-- The clause for the nests that are fused. -/
theorem fused_relates (hv : v.Valid width) (hg : (id, g) ∈ v) (hh : (next, h) ∈ v) (hne : id ≠ next)
    (first : ℕ) (loops : List ℕ) {q : Point} :
    let vs := g.names ++ h.names
    (clause v v vs (.is (mark vs g.constant) first :: .same (mark vs h.constant) g.constant ::
      .oneOf g.constant loops :: (copies vs g.vars ++ copies vs h.vars))).Relates ρ (v.point σ) q ↔
      (∃ value ∈ loops, σ g.constant = (value : ℕ)) ∧ q = v.point (fused g h first σ) := by
  intro vs
  have hgc : g.constant ∈ g.names := g.constant_mem_names
  have hsub : ∀ n ∈ g.names ++ h.names, n ∈ v.names := pair_subset hg hh
  have hconstants : h.constant ≠ g.constant := fun heq =>
    hne (hv.id_eq hg hh (heq ▸ hgc) h.constant_mem_names)
  have hvars : ∀ n ∈ g.vars ++ h.vars, ∀ c ∈ v.constants, n ≠ c := by
    rintro n hn c hc rfl
    exact (List.mem_append.mp hn).elim (hv.not_mem_vars hg hc) (hv.not_mem_vars hh hc)
  refine relates_of_conditions (g.names ++ h.names) hv.plain hv.plain hsub
    (by simp +contextual [vs]) ?_ ?_
  · intro n _ hn
    have hn := not_or.mp (List.mem_append.not.mp hn)
    exact fused_of_ne (fun heq => hn.1 (heq ▸ hgc)) fun heq => hn.2 (heq ▸ h.constant_mem_names)
  · intro τ hτ
    have hfirst : fused g h first σ g.constant = first := if_pos rfl
    have hinner : fused g h first σ h.constant = τ g.constant := by
      rw [fused, if_neg hconstants, if_pos rfl, hτ _ (names_subset hg _ hgc)]
    have hkept : ∀ n ∈ g.vars ++ h.vars, fused g h first σ n = τ n := by
      intro n hn
      rw [fused_of_ne (hvars n hn _ (constant_mem hg)) (hvars n hn _ (constant_mem hh)),
        hτ n (hsub n ?_)]
      rcases List.mem_append.mp hn with hn | hn
      · exact List.mem_append_left _ (List.mem_append_left _ hn)
      · exact List.mem_append_right _ (List.mem_append_left _ hn)
    have hcopies : ∀ ns : List String, (∀ n ∈ ns, n ∈ g.vars ++ h.vars) →
        ((∀ n ∈ ns, τ (mark vs n) = fused g h first σ n) ↔ ∀ n ∈ ns, τ (mark vs n) = τ n) :=
      fun ns hns => forall₂_congr fun n hn => by rw [hkept n (hns n hn)]
    rw [List.forall_mem_append (p := fun n => τ (mark vs n) = _), forall_mem_names,
      forall_mem_names, hfirst, hinner, hcopies g.vars fun n hn => List.mem_append_left _ hn,
      hcopies h.vars fun n hn => List.mem_append_right _ hn, ← hτ _ (names_subset hg _ hgc),
      List.forall_mem_cons, List.forall_mem_cons, List.forall_mem_cons, List.forall_mem_append,
      holds_copies, holds_copies]
    simp only [Condition.Holds]
    tauto

/-- The clause for all other nests. -/
theorem unfused_relates (hv : v.Valid width) (hg : (id, g) ∈ v) (hh : (next, h) ∈ v)
    (loops : List ℕ) {q : Point} :
    let vs := g.names ++ h.names
    (clause v v vs (loops.map (.isNot g.constant ·) ++ copies vs g.names ++
      copies vs h.names)).Relates ρ (v.point σ) q ↔
      (¬ ∃ value ∈ loops, σ g.constant = (value : ℕ)) ∧ q = v.point σ := by
  intro vs
  have hsub : ∀ n ∈ g.names ++ h.names, n ∈ v.names := pair_subset hg hh
  refine relates_of_conditions (g.names ++ h.names) hv.plain hv.plain hsub
    (by simp +contextual [vs]) (fun _ _ _ => rfl) ?_
  intro τ hτ
  rw [List.forall_mem_append, List.forall_mem_append, holds_copies, holds_copies, and_assoc,
    ← List.forall_mem_append]
  refine and_congr ?_ (forall₂_congr fun n hn => by rw [hτ n (hsub n hn)])
  rw [List.forall_mem_map, ← hτ _ (names_subset hg _ g.constant_mem_names)]
  simp only [not_exists, not_and]
  rfl

theorem moves_fusion (hv : v.Valid width) (hg : (id, g) ∈ v) (hh : (next, h) ∈ v) (hne : id ≠ next)
    (first : ℕ) (loops : List ℕ) (hP : ¬ ∀ t, P t → ∀ loops, t ≠ .fusion loops) :
    Moves ρ width P v [fusionMap v g h first loops] v fun σ =>
      if ∃ value ∈ loops, σ g.constant = (value : ℕ) then fused g h first σ else σ := by
  refine ⟨?_, ?_, ?_, fun hfree => absurd hfree hP⟩
  · intro σ q
    rw [composed_singleton, fusionMap, apply_ite v.point]
    exact relates_pair (fused_relates hv hg hh hne first loops) (unfused_relates hv hg hh loops)
  · intro σ τ hστ n hn
    rw [hστ _ (constant_mem hg)]
    split
    · unfold fused
      rw [hστ _ (constant_mem hg), hστ n hn]
    · exact hστ n hn
  · intro σ τ hστ hF n hn
    have hkeep : ∀ σ, fused g h first σ n = σ n := by
      intro σ
      have hnot : ∀ m ∈ v.constants, n ≠ m := fun m hm heq => hv.not_mem_vars hv.nest hm (heq ▸ hn)
      exact fused_of_ne (hnot _ (constant_mem hg)) (hnot _ (constant_mem hh))
    have hn := hF n hn
    rw [hστ _ (constant_mem hg)] at hn
    split at hn
    · rwa [hkeep, hkeep] at hn
    · exact hn

end Fusion

/-- A reading gives every tile size a positive value. -/
def PositiveSizes (ρ : Valuation) : Transformation → Prop
  | .tile _ sizes _ _ => ∀ d size, sizes.get? d = some size → 0 < ρ size
  | _ => True

/-- The values after a tiling of `g` into the tile coordinates `h`. -/
def tiledInto (ρ : Valuation) (sizes : TileSizes) (g h : Group) (σ : Valuation) : Valuation :=
  fun n =>
  if n = h.constant then 0
  else if n ∈ h.vars then
    σ ((g.vars[h.vars.idxOf n]?).getD "") / ρ ((sizes.get? (h.vars.idxOf n)).getD "")
  else σ n

/-- The values of the nests that are not tiled. -/
def zeroed (v : Arrangement) (h : Group) (σ : Valuation) : Valuation := fun n =>
  if n ∈ h.names ∧ n ∉ v.names then 0 else σ n

/-- With positive sizes a tiling rounds down, in every tiled dimension. -/
theorem holds_splits {sizes : TileSizes} {count : ℕ} {g h : Group} {vs : List String}
    (hg : count ≤ g.vars.length) (hh : h.vars.length = count) (hnodup : h.vars.Nodup)
    (hsizes : ∀ d < count, 0 < ρ ((sizes.get? d).getD "")) :
    (Condition.tiled (splits sizes count g h vs)).Holds ρ τ ↔ ∀ n ∈ h.vars,
      τ (mark vs n) = τ ((g.vars[h.vars.idxOf n]?).getD "") /
        ρ ((sizes.get? (h.vars.idxOf n)).getD "") := by
  have hlength : (splits sizes count g h vs).length = count := by
    simp [splits]
    omega
  -- both sides go through the dimensions
  have hdim : ∀ d (hd : d < count),
      (∃ r, 0 ≤ r ∧ r < ρ (splits sizes count g h vs)[d].size ∧
        τ (splits sizes count g h vs)[d].base =
          τ (splits sizes count g h vs)[d].tile * ρ (splits sizes count g h vs)[d].size + r) ↔
      τ (mark vs h.vars[d]) = τ ((g.vars[h.vars.idxOf h.vars[d]]?).getD "") /
        ρ ((sizes.get? (h.vars.idxOf h.vars[d])).getD "") := by
    intro d hd
    have hsplit : (splits sizes count g h vs)[d] =
        ⟨g.vars[d], mark vs h.vars[d], (sizes.get? d).getD ""⟩ := by
      simp [splits]
    rw [hsplit, exists_remainder_iff (hsizes d hd), hnodup.idxOf_getElem,
      List.getElem?_eq_getElem (by omega)]
    rfl
  rw [Condition.Holds, List.forall_mem_iff_forall_getElem, List.forall_mem_iff_forall_getElem]
  constructor
  · intro hall d hd
    exact (hdim d (by omega)).mp (hall d (by omega))
  · intro hall d hd
    exact (hdim d (by omega)).mpr (hall d (by omega))

/-- A constant after a tiling is one from before it or that of the new group. -/
theorem Tiled.constants {k count : ℕ} {g h : Group} (ht : Tiled v w g h k count)
    (hw : w.Valid width) {n : String} (hn : n ∈ w.constants) :
    n ∈ v.constants ∨ n ∈ h.names ∧ n ∉ v.names := by
  obtain ⟨tile, -, hgrown⟩ := ht.grown
  rcases hgrown with rfl | ⟨pre, post, rfl, rfl⟩
  · exact Or.inl hn
  · simp only [Arrangement.constants, List.map_append, List.map_cons, List.mem_append,
      List.mem_cons] at hn ⊢
    have hconstant : h.constant ∈ h.names := h.constant_mem_names
    rcases hn with hn | rfl | hn
    · exact Or.inl (Or.inl hn)
    · exact Or.inr ⟨hconstant, hw.not_mem_rest _ hconstant⟩
    · exact Or.inl (Or.inr hn)

theorem tiledInto_of_not_mem {sizes : TileSizes} {g h : Group} {n : String} (hn : n ∉ h.names) :
    tiledInto ρ sizes g h σ n = σ n := by
  have hc : n ≠ h.constant := fun heq => hn (heq ▸ h.constant_mem_names)
  have hvars : n ∉ h.vars := fun hmem => hn (List.mem_append_left _ hmem)
  rw [tiledInto, if_neg hc, if_neg hvars]

theorem zeroed_of_not_mem {h : Group} {n : String} (hn : n ∉ h.names) : zeroed v h σ n = σ n :=
  if_neg fun hmem => hn hmem.1

section Tile

variable {k count loop : ℕ} {g h : Group} {sizes : TileSizes} {q : Point}

/-- Tile coordinates start with `t`. -/
theorem Tiled.head (ht : Tiled v w g h k count) {n : String} (hn : n ∈ h.names) :
    n.toList.head? = some 't' := by
  rw [ht.tiles] at hn
  obtain ⟨m, -, rfl⟩ := Group.names_tiles_subset hn
  rw [toList_tileName, toList_repeated]
  rfl

theorem Tiled.loops_not_mem (ht : Tiled v w g h k count) : loopsGroup.constant ∉ h.names :=
  fun hn => absurd (ht.head hn) (by decide)

theorem Tiled.nest_not_mem (ht : Tiled v w g h k count) {n : String}
    (hn : n ∈ (nestGroup width).vars) : n ∉ h.names := by
  intro hmem
  have hhead := ht.head hmem
  rw [Layout.head_of_mem_nestGroup (List.mem_append_left _ hn)] at hhead
  exact absurd hhead (by decide)

/-- The clause for the tiled nest. -/
theorem tiled_relates (hv : v.Valid width) (hw : w.Valid width) (ht : Tiled v w g h k count)
    (hsizes : ∀ d < count, 0 < ρ ((sizes.get? d).getD "")) :
    let vs := g.names ++ h.names.filter (· ∈ v.names)
    (clause v w vs (.is loopsGroup.constant loop :: .same (mark vs g.constant) g.constant ::
      .is (mark vs h.constant) 0 :: .tiled (splits sizes count g h vs) ::
      copies vs g.vars)).Relates ρ (v.point σ) q ↔
      σ loopsGroup.constant = loop ∧ q = w.point (tiledInto ρ sizes g h σ) := by
  intro vs
  have hnodup := List.nodup_append'.mp (ht.pair_nodup hw)
  have hhnodup := List.nodup_append'.mp hnodup.2.1
  have hcount : h.vars.length = count := by
    rw [ht.tiles, Group.tiles, List.length_map, List.length_take, Nat.min_eq_left ht.count_le]
  refine relates_of_conditions (g.names ++ h.names) hv.plain hw.plain ht.pair_subset
    ht.mem_pair_iff ?_ ?_
  · intro n _ hn
    exact tiledInto_of_not_mem fun hmem => hn (List.mem_append_right _ hmem)
  · intro τ hτ
    have hkept : ∀ n ∈ g.names, tiledInto ρ sizes g h σ n = τ n := by
      intro n hn
      rw [tiledInto_of_not_mem fun hmem => hnodup.2.2 hn hmem, hτ n (ht.target_subset n hn)]
    have hvars : ∀ n ∈ h.vars, tiledInto ρ sizes g h σ n =
        τ ((g.vars[h.vars.idxOf n]?).getD "") / ρ ((sizes.get? (h.vars.idxOf n)).getD "") := by
      intro n hn
      have hc : n ≠ h.constant := fun heq => hhnodup.2.2 hn (List.mem_singleton.mpr heq)
      have hidx : h.vars.idxOf n < g.vars.length := by
        have := List.idxOf_lt_length_of_mem hn
        have := ht.count_le
        omega
      rw [tiledInto, if_neg hc, if_pos hn, List.getElem?_eq_getElem hidx, Option.getD_some,
        hτ _ (ht.target_subset _ (List.mem_append_left _ (List.getElem_mem hidx)))]
    have hzero : tiledInto ρ sizes g h σ h.constant = 0 := if_pos rfl
    have hbases : (∀ n ∈ g.vars, τ (mark vs n) = tiledInto ρ sizes g h σ n) ↔
        ∀ n ∈ g.vars, τ (mark vs n) = τ n :=
      forall₂_congr fun n hn => by rw [hkept n (List.mem_append_left _ hn)]
    have htiles : (∀ n ∈ h.vars, τ (mark vs n) = tiledInto ρ sizes g h σ n) ↔
        (Condition.tiled (splits sizes count g h vs)).Holds ρ τ := by
      rw [holds_splits ht.count_le hcount hhnodup.1 hsizes]
      exact forall₂_congr fun n hn => by rw [hvars n hn]
    rw [List.forall_mem_append (p := fun n => τ (mark vs n) = _), forall_mem_names,
      forall_mem_names,
      hbases, htiles, hzero, hkept _ g.constant_mem_names, ← hτ _ hv.loops_mem,
      List.forall_mem_cons, List.forall_mem_cons, List.forall_mem_cons, List.forall_mem_cons,
      holds_copies]
    simp only [Condition.Holds, Nat.cast_zero]
    tauto

/-- The clause for the other nests. -/
theorem untiled_relates (hv : v.Valid width) (hw : w.Valid width) (ht : Tiled v w g h k count) :
    (clause v w [] (.isNot loopsGroup.constant loop ::
      (h.names.filter (· ∉ v.names)).map (.is · 0))).Relates ρ (v.point σ) q ↔
        ¬ σ loopsGroup.constant = loop ∧ q = w.point (zeroed v h σ) := by
  refine relates_of_conditions (h.names.filter (· ∉ v.names)) hv.plain hw.plain ht.added_subset
    ht.mem_added_iff ?_ ?_
  · intro n _ hn
    exact if_neg fun hmem => hn (by simpa using hmem)
  · intro τ hτ
    rw [List.forall_mem_cons, holds_zeros, ← hτ _ hv.loops_mem]
    refine and_congr Iff.rfl (forall₂_congr fun n hn => ?_)
    have hfresh : n ∈ h.names ∧ n ∉ v.names := by simpa using hn
    rw [mark_of_not_mem List.not_mem_nil, zeroed, if_pos hfresh]

theorem moves_tile (hv : v.Valid width) (hw : w.Valid width) (ht : Tiled v w g h k count)
    (hsizes : ∀ d < count, 0 < ρ ((sizes.get? d).getD "")) :
    Moves ρ width P v [tileMap v w g h loop sizes count] w fun σ =>
      if σ loopsGroup.constant = loop then tiledInto ρ sizes g h σ else zeroed v h σ where
  graph := by
    intro σ q
    rw [composed_singleton, tileMap, apply_ite w.point]
    exact relates_pair (tiled_relates hv hw ht hsizes) (untiled_relates hv hw ht)
  constants := by
    intro σ τ hστ n hn
    obtain ⟨tile, htile, -⟩ := ht.grown
    have hvars : n ∉ h.vars := hw.not_mem_vars htile hn
    have hequal : tiledInto ρ sizes g h σ n = tiledInto ρ sizes g h τ n ∧
        zeroed v h σ n = zeroed v h τ n := by
      unfold tiledInto zeroed
      rcases ht.constants hw hn with hn | hfresh
      · rw [if_neg hvars, if_neg hvars, hστ n hn]
        exact ⟨rfl, rfl⟩
      · have hc : n = h.constant := (List.mem_append.mp hfresh.1).elim (fun hn => absurd hn hvars)
          List.mem_singleton.mp
        rw [if_pos hc, if_pos hc, if_pos hfresh, if_pos hfresh]
        exact ⟨rfl, rfl⟩
    rw [hστ _ hv.loops_constant]
    split
    · exact hequal.1
    · exact hequal.2
  iterators := by
    intro σ τ hστ hF n hn
    have hnot := ht.nest_not_mem hn
    have heq := hF n hn
    rw [hστ _ hv.loops_constant] at heq
    split at heq
    · rwa [tiledInto_of_not_mem hnot, tiledInto_of_not_mem hnot] at heq
    · rwa [zeroed_of_not_mem hnot, zeroed_of_not_mem hnot] at heq
  loops := by
    intro _ σ
    split
    · exact tiledInto_of_not_mem ht.loops_not_mem
    · exact zeroed_of_not_mem ht.loops_not_mem

end Tile

/-! ### Chains of steps -/

theorem Step.moves {t : Transformation} {m : UnionMap} (hstep : Step t v m w) (hv : v.Valid width)
    (hw : w.Valid width) (ht : P t) (hP : ∀ t, P t → PositiveSizes ρ t) :
    ∃ F, Moves ρ width P v [m] w F := by
  cases hstep with
  | shift _ hg hlength => exact ⟨_, moves_shift hv hg _ hlength⟩
  | wavefront hg hvars => exact ⟨_, moves_wavefront hv hg hvars⟩
  | fusion first loops hg hh hne =>
    exact ⟨_, moves_fusion hv hg hh hne first _ fun hfree => hfree _ ht _ rfl⟩
  | tile loop sizes outer inner htiled _ hsome =>
    refine ⟨_, moves_tile hv hw htiled fun d hd => ?_⟩
    obtain ⟨size, hsize⟩ := Option.isSome_iff_exists.mp (hsome d hd)
    rw [hsize]
    exact hP _ ht d size hsize

/-- With positive tile sizes every chain of steps is a function on points. -/
theorem Steps.moves (h : Steps P width v ms w) (hP : ∀ t, P t → PositiveSizes ρ t) :
    ∃ F, Moves ρ width P v ms w F := by
  induction h with
  | nil _ => exact ⟨id, .id ρ width P _⟩
  | cons hv ht hstep hrest ih =>
    obtain ⟨F, hF⟩ := hstep.moves hv hrest.valid_start ht hP
    obtain ⟨G, hG⟩ := ih
    exact ⟨G ∘ F, hF.comp hG⟩

end LoopSched.Arrangement
