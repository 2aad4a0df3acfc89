import LoopSched.Proofs.Polyhedral.Rendering
import LoopSched.Proofs.Schedule.Operation

/-!
# Scopes of the maps

Each map of a schedule starts where the one before it ends, and the last one ends at the coordinates
that code is generated for.  Inside a clause every far coordinate that is not a near one has exactly
one condition that gives its value, and conditions speak of near coordinates otherwise.
-/

namespace LoopSched

namespace Polyhedral

open LoopSched.Subspace

/-- The first map ends where the second starts. -/
def UnionMap.Meets (m m' : UnionMap) : Prop :=
  ∀ c ∈ m.clauses, ∀ c' ∈ m'.clauses, c.output.map unalias = c'.input

def ParsedMap.Meets (u u' : ParsedMap) : Prop :=
  ∀ d ∈ u.clauses, ∀ d' ∈ u'.clauses, d.output.map unalias = d'.input

theorem UnionMap.ReadAs.meets {E S : String → Expression} {m m' : UnionMap} {u u' : ParsedMap}
    (h : m.ReadAs E S u) (h' : m'.ReadAs E S u') (hmeets : m.Meets m') : u.Meets u' := by
  intro d hd d' hd'
  obtain ⟨c, hc, hread⟩ := exists_of_forall₂ h.clauses hd
  obtain ⟨c', hc', hread'⟩ := exists_of_forall₂ h'.clauses hd'
  rw [hread.output, hread'.input]
  exact hmeets c hc c' hc'

end Polyhedral

open Polyhedral LoopSched.Subspace

namespace Arrangement

/-! ### Conditions -/

theorem fixes_copies (vs ns : List String) :
    (copies vs ns).flatMap Condition.fixes = ns.map (mark vs) := by
  induction ns with
  | nil => rfl
  | cons n ns ih => exact congrArg (List.cons _) ih

theorem uses_copies (vs ns : List String) : (copies vs ns).flatMap Condition.uses = ns := by
  induction ns with
  | nil => rfl
  | cons n ns ih => exact congrArg (List.cons _) ih

theorem fixes_zeros (ns : List String) :
    (ns.map (Condition.is · 0)).flatMap Condition.fixes = ns := by
  induction ns with
  | nil => rfl
  | cons n ns ih => exact congrArg (List.cons _) ih

theorem uses_zeros (ns : List String) :
    (ns.map (Condition.is · 0)).flatMap Condition.uses = [] := by
  induction ns with
  | nil => rfl
  | cons n ns ih => exact ih

theorem fixes_movedBy : ∀ (es : List String) (ps : List (String × String)),
    (Fragment.movedBy es ps).flatMap Condition.fixes = ps.map Prod.fst
  | [], [] => rfl
  | _ :: _, [] => rfl
  | [], (_, _) :: ps => congrArg (List.cons _) (fixes_movedBy [] ps)
  | _ :: es, (_, _) :: ps => congrArg (List.cons _) (fixes_movedBy es ps)

theorem uses_movedBy : ∀ (es : List String) (ps : List (String × String)),
    (Fragment.movedBy es ps).flatMap Condition.uses = ps.map Prod.snd
  | [], [] => rfl
  | _ :: _, [] => rfl
  | [], (_, _) :: ps => congrArg (List.cons _) (uses_movedBy [] ps)
  | _ :: es, (_, _) :: ps => congrArg (List.cons _) (uses_movedBy es ps)

/-- A tiling has one split for each tiled coordinate. -/
theorem splits_eq (sizes : TileSizes) {count : ℕ} {g : Group} (stem : String) (vs : List String)
    (hcount : count ≤ g.vars.length) :
    (splits sizes count g (g.tiles stem count) vs).map (·.tile) =
        (g.tiles stem count).vars.map (mark vs) ∧
      (splits sizes count g (g.tiles stem count) vs).map (·.base) = g.vars.take count := by
  have hlength : (splits sizes count g (g.tiles stem count) vs).length = count := by
    simp [splits, Group.tiles]
    omega
  have htiles : (g.tiles stem count).vars.length = count := by
    simp [Group.tiles, hcount]
  constructor
  · refine List.ext_getElem ?_ fun i hi hi' => ?_
    · rw [List.length_map, List.length_map, hlength, htiles]
    · simp [splits]
  · refine List.ext_getElem ?_ fun i hi hi' => ?_
    · rw [List.length_map, hlength, List.length_take, Nat.min_eq_left hcount]
    · simp [splits]

/-! ### Clauses -/

theorem mark_injOn {vs : List String} {a b : String} (ha : Plain a) (hb : Plain b)
    (h : mark vs a = mark vs b) : a = b := by
  rw [← unalias_mark ha, h, unalias_mark hb]

/-- A clause is well scoped if its conditions give values to the coordinates `ns`, once to each, and
these are the ones that are rewritten or new.  Besides them, `guards` may be required to have a
value. -/
theorem wellScoped_of_fixes (ns guards : List String) {source : String}
    {input outs vs : List String}
    {conditions : List Condition} (hinput : ∀ n ∈ input, Plain n) (houts : ∀ n ∈ outs, Plain n)
    (hfixes : (conditions.flatMap Condition.fixes).Perm (guards ++ ns.map (mark vs)))
    (huses : ∀ n ∈ conditions.flatMap Condition.uses, n ∈ input)
    (hguards : ∀ n ∈ guards, n ∈ input) (hnodup : guards.Nodup) (hns : ns.Nodup)
    (hsub : ∀ n ∈ ns, n ∈ outs) (hwritten : ∀ n ∈ outs, n ∈ ns ↔ n ∈ vs ∨ n ∉ input) :
    Clause.WellScoped { source, input, output := outs.map (mark vs), conditions } := by
  have hnew : ∀ n ∈ ns, mark vs n ∉ input := fun n hn =>
    mark_not_mem hinput ((hwritten n (hsub n hn)).mp hn)
  have hall : (conditions.flatMap Condition.fixes).Nodup := by
    rw [hfixes.nodup_iff]
    refine hnodup.append ?_ ?_
    · exact List.Nodup.map_on (fun a ha b hb h =>
        mark_injOn (houts a (hsub a ha)) (houts b (hsub b hb)) h) hns
    · intro n hn hmem
      obtain ⟨m, hm, rfl⟩ := List.mem_map.mp hmem
      exact hnew m hm (hguards _ hn)
  refine ⟨?_, ?_, ?_⟩
  · intro n hn hnot
    obtain ⟨m, hm, rfl⟩ := List.mem_map.mp hn
    refine List.count_eq_one_of_mem hall (hfixes.mem_iff.mpr (List.mem_append_right _ ?_))
    refine List.mem_map_of_mem ((hwritten m hm).mpr ?_)
    by_contra hcopy
    obtain ⟨hvs, hmem⟩ := not_or.mp hcopy
    rw [mark_of_not_mem hvs] at hnot
    exact hmem hnot
  · intro condition hcondition n hn
    exact huses n (List.mem_flatMap.mpr ⟨condition, hcondition, hn⟩)
  · intro condition hcondition n hn
    have hmem := hfixes.mem_iff.mp (List.mem_flatMap.mpr ⟨condition, hcondition, hn⟩)
    rcases List.mem_append.mp hmem with hmem | hmem
    · exact Or.inl (hguards n hmem)
    · obtain ⟨m, hm, rfl⟩ := List.mem_map.mp hmem
      exact Or.inr (List.mem_map_of_mem (hsub m hm))

variable {width : ℕ} {v w : Arrangement}

/-- A clause that changes nothing may be restricted to some points. -/
theorem wellScoped_guard (hv : v.Valid width) {conditions : List Condition}
    (hfixes : conditions.flatMap Condition.fixes = [])
    (huses : ∀ n ∈ conditions.flatMap Condition.uses, n ∈ v.names) :
    (clause v v [] conditions).WellScoped :=
  wellScoped_of_fixes [] [] hv.plain hv.plain (by simp [hfixes]) huses (by simp)
    (by simp) (by simp) (by simp) (by simp +contextual)

theorem wellScoped_shiftMap (hv : v.Valid width) {id : ℕ} {g : Group} (hg : (id, g) ∈ v)
    (sh : Shift) :
    ∀ c ∈ (shiftMap v g sh).clauses, c.WellScoped := by
  intro c hc
  simp only [shiftMap, List.mem_cons, List.not_mem_nil, or_false] at hc
  rcases hc with rfl | rfl
  · refine wellScoped_of_fixes g.names [loopsGroup.constant] hv.plain hv.plain ?_ ?_
      ?_ (by simp) (hv.group_nodup hg) (names_subset hg) ?_
    · rw [List.flatMap_cons, fixes_movedBy, List.map_fst_zip (by simp)]
      rfl
    · rw [List.flatMap_cons, uses_movedBy, List.map_snd_zip (by simp)]
      exact names_subset hg
    · simpa using hv.loops_mem
    · simp +contextual
  · exact wellScoped_guard hv rfl (by simpa [Condition.uses] using hv.loops_mem)

theorem wellScoped_wavefrontMap (hv : v.Valid width) {id : ℕ} {g : Group} (hg : (id, g) ∈ v)
    {x : String} {xs : List String} (hvars : g.vars = x :: xs) :
    ∀ c ∈ (wavefrontMap v g x xs).clauses, c.WellScoped := by
  have hnames : g.names = x :: (xs ++ [g.constant]) := by
    rw [Group.names, hvars, List.cons_append]
  intro c hc
  simp only [wavefrontMap, List.mem_cons, List.not_mem_nil, or_false] at hc
  subst hc
  refine wellScoped_of_fixes g.names [] hv.plain hv.plain ?_ ?_ (by simp) (by simp)
    (hv.group_nodup hg) (names_subset hg) (by simp +contextual)
  · rw [List.flatMap_cons, fixes_copies, List.nil_append]
    exact List.Perm.of_eq (congrArg (List.map (mark g.names)) hnames.symm)
  · intro n hn
    rw [List.flatMap_cons, uses_copies] at hn
    rcases List.mem_append.mp hn with hn | hn
    · exact names_subset hg n (List.mem_append_left _ hn)
    · exact names_subset hg n (hnames ▸ List.mem_cons_of_mem _ hn)

theorem map_names (f : String → String) (g : Group) :
    g.names.map f = g.vars.map f ++ [f g.constant] := by
  rw [Group.names, List.map_append, List.map_singleton]

theorem wellScoped_fusionMap (hv : v.Valid width) {id next : ℕ} {g h : Group} (hg : (id, g) ∈ v)
    (hh : (next, h) ∈ v) (hne : id ≠ next) (first : ℕ) (loops : List ℕ) :
    ∀ c ∈ (fusionMap v g h first loops).clauses, c.WellScoped := by
  have hsub : ∀ n ∈ g.names ++ h.names, n ∈ v.names := pair_subset hg hh
  have hconstant : g.constant ∈ g.names := g.constant_mem_names
  have hfixes : ∀ loops : List ℕ,
      (loops.map (Condition.isNot g.constant ·)).flatMap Condition.fixes = [] := by
    simp [Condition.fixes]
  intro c hc
  simp only [fusionMap, List.mem_cons, List.not_mem_nil, or_false] at hc
  rcases hc with rfl | rfl
  · refine wellScoped_of_fixes (g.names ++ h.names) [] hv.plain hv.plain ?_ ?_ (by simp)
      (by simp) (hv.pair_nodup hg hh hne) hsub (by simp +contextual)
    · simp only [List.flatMap_cons, List.flatMap_append, fixes_copies, Condition.fixes,
        List.map_append, map_names]
      generalize mark (g.names ++ h.names) = f
      -- the constants stand in front here and behind their variables there
      rw [List.perm_iff_count]
      intro n
      simp only [List.count_append, List.count_nil]
      omega
    · intro n hn
      simp only [List.flatMap_cons, List.flatMap_append, uses_copies, Condition.uses,
        List.mem_append, List.mem_singleton, List.not_mem_nil, false_or] at hn
      refine hsub n ?_
      rcases hn with rfl | rfl | hn | hn
      · exact List.mem_append_left _ hconstant
      · exact List.mem_append_left _ hconstant
      · exact List.mem_append_left _ (List.mem_append_left _ hn)
      · exact List.mem_append_right _ (List.mem_append_left _ hn)
  · refine wellScoped_of_fixes (g.names ++ h.names) [] hv.plain hv.plain ?_ ?_ (by simp)
      (by simp) (hv.pair_nodup hg hh hne) hsub (by simp +contextual)
    · rw [List.flatMap_append, List.flatMap_append, hfixes, fixes_copies, fixes_copies,
        List.map_append]
      rfl
    · intro n hn
      rw [List.flatMap_append, List.flatMap_append, uses_copies, uses_copies] at hn
      refine hsub n ?_
      simp only [Condition.uses, List.flatMap_map, List.mem_append, List.mem_flatMap,
        List.mem_singleton] at hn
      rcases hn with (⟨_, -, rfl⟩ | hn) | hn
      · exact List.mem_append_left _ hconstant
      · exact List.mem_append_left _ hn
      · exact List.mem_append_right _ hn

theorem wellScoped_tileMap (hv : v.Valid width) (hw : w.Valid width) {k count : ℕ} {g h : Group}
    (ht : Tiled v w g h k count) (loop : ℕ) (sizes : TileSizes) :
    ∀ c ∈ (tileMap v w g h loop sizes count).clauses, c.WellScoped := by
  have hguard : loopsGroup.constant ∈ v.names := hv.loops_mem
  obtain ⟨hsplitTiles, hsplitBases⟩ := splits_eq sizes (Layout.repeated "t" (k + 1))
    (g.names ++ h.names.filter (· ∈ v.names)) ht.count_le
  rw [← ht.tiles] at hsplitTiles hsplitBases
  intro c hc
  simp only [tileMap, List.mem_cons, List.not_mem_nil, or_false] at hc
  rcases hc with rfl | rfl
  · refine wellScoped_of_fixes (g.names ++ h.names) [loopsGroup.constant] hv.plain
      hw.plain ?_ ?_ (by simpa using hguard) (by simp) (ht.pair_nodup hw) ht.pair_subset
      ht.mem_pair_iff
    · simp only [List.flatMap_cons, fixes_copies, Condition.fixes, hsplitTiles, List.map_append,
        map_names]
      generalize mark _ = f
      rw [List.perm_iff_count]
      intro n
      simp only [List.count_append]
      omega
    · intro n hn
      simp only [List.flatMap_cons, uses_copies, Condition.uses, hsplitBases, List.mem_append,
        List.mem_singleton, List.not_mem_nil, false_or] at hn
      refine ht.target_subset n ?_
      rcases hn with rfl | hn | hn
      · exact Group.constant_mem_names _
      · exact List.mem_append_left _ (List.mem_of_mem_take hn)
      · exact List.mem_append_left _ hn
  · refine wellScoped_of_fixes (h.names.filter (· ∉ v.names)) [] hv.plain hw.plain ?_ ?_
      (by simp) (by simp) ((List.nodup_append.mp (ht.pair_nodup hw)).2.1.filter _)
      ht.added_subset ht.mem_added_iff
    · have hmark : mark [] = id := funext fun n => mark_of_not_mem List.not_mem_nil
      rw [List.flatMap_cons, fixes_zeros, hmark, List.map_id]
      rfl
    · intro n hn
      rw [List.flatMap_cons, uses_zeros, List.append_nil] at hn
      exact List.mem_singleton.mp hn ▸ hguard

theorem Step.exists_clause {t : Transformation} {m : UnionMap} (hstep : Step t v m w) :
    ∀ c ∈ m.clauses, ∃ vs conditions, c = clause v w vs conditions := by
  cases hstep with
  | shift => simp [shiftMap]
  | wavefront => simp [wavefrontMap]
  | fusion => simp [fusionMap]
  | tile => simp [tileMap]

/-- Every step is well scoped and goes from the coordinates before it to those after it. -/
theorem Step.scope {t : Transformation} {m : UnionMap} (hstep : Step t v m w) (hv : v.Valid width)
    (hw : w.Valid width) : ∀ c ∈ m.clauses,
      c.input = v.names ∧ c.output.map unalias = w.names ∧ c.WellScoped := by
  have hscoped : ∀ c ∈ m.clauses, c.WellScoped := by
    cases hstep with
    | shift _ hg _ => exact wellScoped_shiftMap hv hg _
    | wavefront hg hvars => exact wellScoped_wavefrontMap hv hg hvars
    | fusion first loops hg hh hne => exact wellScoped_fusionMap hv hg hh hne first _
    | tile loop sizes _ _ ht _ _ => exact wellScoped_tileMap hv hw ht loop sizes
  intro c hc
  have hwellScoped := hscoped c hc
  obtain ⟨vs, conditions, rfl⟩ := hstep.exists_clause c hc
  exact ⟨rfl, map_unalias_mark hw.plain, hwellScoped⟩

end Arrangement

namespace Schedule

open Arrangement

variable {c : Chain} {statementPrefix : String}

/-- The embedding is well scoped and ends at the start arrangement. -/
theorem embedding_scope : ∀ clause ∈ (embedding c statementPrefix).clauses,
    clause.output.map unalias = (Layout.startArrangement c.maxDimension).names ∧
      clause.WellScoped := by
  have hvalid := Layout.valid_startArrangement c.maxDimension
  set g := nestGroup c.maxDimension with hg
  have hnames : (Layout.startArrangement c.maxDimension).names = loopsGroup.constant :: g.names :=
    Layout.names_startArrangement c.maxDimension
  have hloops : loopsGroup.constant ∉ g.names := by
    have := hvalid.names_nodup
    rw [hnames] at this
    exact (List.nodup_cons.mp this).1
  intro clause hclause
  obtain ⟨n, k, hn, rfl⟩ := mem_embedding.mp hclause
  rw [embeddingClause_eq (List.mem_of_getElem? hn)]
  have hinput : ∀ m ∈ g.vars.take n.dimensions, m ∈ g.names := fun m hm =>
    List.mem_append_left _ (List.mem_of_mem_take hm)
  refine ⟨map_unalias_mark hvalid.plain, ?_⟩
  refine wellScoped_of_fixes (Layout.startArrangement c.maxDimension).names []
    (fun m hm => hvalid.plain m (hnames ▸ List.mem_cons_of_mem _ (hinput m hm))) hvalid.plain ?_ ?_
    (by simp) (by simp) hvalid.names_nodup (fun m hm => hm) ?_
  · rw [List.flatMap_append, List.flatMap_cons, List.flatMap_cons, fixes_copies, fixes_zeros,
      hnames, List.map_cons, mark_of_not_mem hloops, map_names, List.nil_append, List.append_assoc,
      List.append_assoc, ← List.map_append, List.take_append_drop]
    exact List.Perm.cons _ (List.perm_append_singleton _ _).symm
  · intro m hm
    rw [List.flatMap_append, uses_zeros, List.append_nil, List.flatMap_cons, List.flatMap_cons,
      uses_copies] at hm
    exact hm
  · intro m hm
    refine ⟨fun _ => ?_, fun _ => hm⟩
    rw [hnames] at hm
    rcases List.mem_cons.mp hm with rfl | hm
    · exact Or.inr fun hmem => hloops (hinput _ hmem)
    · exact Or.inl hm

/-- A map that ends at the arrangement `v`, with all its clauses well scoped. -/
def EndsAt (m : UnionMap) (v : Arrangement) : Prop :=
  ∀ clause ∈ m.clauses, clause.output.map unalias = v.names ∧ clause.WellScoped

/-- Steps that follow a map go on where it ends. -/
theorem steps_meet {P : Transformation → Prop} {width : ℕ} :
    ∀ {ms : List UnionMap} {m : UnionMap} {v w : Arrangement}, EndsAt m v → Steps P width v ms w →
      (m :: ms).IsChain UnionMap.Meets ∧ (∃ last, (m :: ms).getLast? = some last ∧ EndsAt last w) ∧
        ∀ m' ∈ m :: ms, ∀ clause ∈ m'.clauses, clause.WellScoped
  | [], m, v, w, hm, hsteps => by
    cases hsteps
    refine ⟨List.IsChain.singleton m, ⟨m, rfl, hm⟩, ?_⟩
    intro m' hm' clause hclause
    rw [List.mem_singleton.mp hm'] at hclause
    exact (hm clause hclause).2
  | m₁ :: ms, m, v, w, hm, hsteps => by
    cases hsteps with
    | cons hv ht hstep hsteps =>
      have hscope := hstep.scope hv hsteps.valid_start
      have hm₁ : EndsAt m₁ _ := fun clause hclause => (hscope clause hclause).2
      obtain ⟨hchain, hlast, hall⟩ := steps_meet hm₁ hsteps
      refine ⟨List.IsChain.cons_cons ?_ hchain, ?_, ?_⟩
      · intro c hc c' hc'
        rw [(hm c hc).1, (hscope c' hc').1]
      · rwa [List.getLast?_cons_cons]
      · intro m' hm' clause hclause
        rcases List.mem_cons.mp hm' with rfl | hm'
        · exact (hm clause hclause).2
        · exact hall m' hm' clause hclause

end Schedule

end LoopSched
