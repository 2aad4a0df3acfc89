import LoopSched.Proofs.Schedule.Growth

/-!
# Parallel annotations

An annotation says of a subspace how far into it a parallel iterator is.  The schedule keeps one
mark for each subspace, so of several annotations of a subspace the last one counts and the others
are replaced.  Marks belong to subspaces and not to coordinates, so they move along when tile
coordinates are inserted to their left.

The depth of an annotation is not compared with the size of its subspace.  A mark is on a variable
iterator of its own subspace exactly if the depth is below the size; otherwise it is on the constant
iterator, on a coordinate of a subspace further right, or behind the last coordinate.
-/

namespace LoopSched

open Polyhedral

/-! ### Maps with increasing keys -/

namespace SortedList

/-- The keys of the map increase. -/
def Ascending (m : List (ℕ × ℕ)) : Prop := m.Pairwise fun a b => a.1 < b.1

/-- Setting a key to a new value replaces the old one and touches no other key. -/
theorem mem_upsert {m : List (ℕ × ℕ)} (h : Ascending m) {key value : ℕ} {a : ℕ × ℕ} :
    a ∈ upsert compare (fun _ new => new) key value m ↔
      a = (key, value) ∨ a.1 ≠ key ∧ a ∈ m := by
  induction m with
  | nil => simp [upsert]
  | cons b m ih =>
    obtain ⟨hb, hm⟩ := List.pairwise_cons.mp h
    unfold upsert
    rcases lt_trichotomy key b.1 with hlt | heq | hgt
    · have hne : ∀ c ∈ b :: m, c.1 ≠ key := by
        intro c hc
        rcases List.mem_cons.mp hc with rfl | hc
        · omega
        · have := hb c hc
          omega
      rw [Nat.compare_eq_lt.mpr hlt, List.mem_cons]
      exact or_congr_right ⟨fun ha => ⟨hne a ha, ha⟩, fun ha => ha.2⟩
    · have hne : ∀ c ∈ m, c.1 ≠ key := by
        intro c hc
        have := hb c hc
        omega
      rw [Nat.compare_eq_eq.mpr heq, List.mem_cons, List.mem_cons, heq]
      refine or_congr_right ⟨fun ha => ⟨heq ▸ hne a ha, Or.inr ha⟩, ?_⟩
      rintro ⟨ha, rfl | hmem⟩
      · exact absurd rfl ha
      · exact hmem
    · rw [Nat.compare_eq_gt.mpr hgt, List.mem_cons, List.mem_cons, ih hm]
      constructor
      · rintro (rfl | rfl | ⟨hne, ha⟩)
        · exact Or.inr ⟨by omega, Or.inl rfl⟩
        · exact Or.inl rfl
        · exact Or.inr ⟨hne, Or.inr ha⟩
      · rintro (rfl | ⟨hne, rfl | ha⟩)
        · exact Or.inr (Or.inl rfl)
        · exact Or.inl rfl
        · exact Or.inr (Or.inr ⟨hne, ha⟩)

theorem Ascending.upsert {m : List (ℕ × ℕ)} (h : Ascending m) (key value : ℕ) :
    Ascending (upsert compare (fun _ new => new) key value m) := by
  induction m with
  | nil => exact List.pairwise_singleton _ _
  | cons b m ih =>
    obtain ⟨hb, hm⟩ := List.pairwise_cons.mp h
    unfold SortedList.upsert
    rcases lt_trichotomy key b.1 with hlt | heq | hgt
    · rw [Nat.compare_eq_lt.mpr hlt]
      refine List.pairwise_cons.mpr ⟨fun c hc => ?_, h⟩
      rcases List.mem_cons.mp hc with rfl | hc
      · exact hlt
      · exact hlt.trans (hb c hc)
    · rw [Nat.compare_eq_eq.mpr heq]
      exact List.pairwise_cons.mpr ⟨hb, hm⟩
    · rw [Nat.compare_eq_gt.mpr hgt]
      refine List.pairwise_cons.mpr ⟨fun c hc => ?_, ih hm⟩
      rcases (mem_upsert hm).mp hc with rfl | ⟨-, hc⟩
      · exact hgt
      · exact hb c hc

end SortedList

/-! ### Annotations that count -/

namespace Schedule

open SortedList

/-- The annotations that no later one of the same subspace replaces. -/
def current (log : List (ℕ × ℕ)) : List (ℕ × ℕ) :=
  log.filter fun a => log.reverse.lookup a.1 = some a.2

theorem mem_current {log : List (ℕ × ℕ)} {a : ℕ × ℕ} :
    a ∈ current log ↔ log.reverse.lookup a.1 = some a.2 := by
  rw [current, List.mem_filter, decide_eq_true_eq]
  refine ⟨fun h => h.2, fun h => ⟨?_, h⟩⟩
  obtain ⟨l₁, l₂, hlog, -⟩ := List.lookup_eq_some_iff.mp h
  rw [← List.mem_reverse, hlog]
  simp

theorem mem_current_concat {log : List (ℕ × ℕ)} {key value : ℕ} {a : ℕ × ℕ} :
    a ∈ current (log ++ [(key, value)]) ↔ a = (key, value) ∨ a.1 ≠ key ∧ a ∈ current log := by
  rw [mem_current, mem_current, List.reverse_concat, List.lookup_cons]
  by_cases hkey : a.1 = key
  · subst hkey
    simp only [BEq.rfl, Option.some.injEq, ne_eq, not_true_eq_false, false_and, or_false,
      Prod.ext_iff, true_and]
    exact eq_comm
  · have hne : (a.1 == key) = false := beq_false_of_ne hkey
    simp [hne, hkey, Prod.ext_iff]

/-- Every subspace that was annotated has an annotation that counts. -/
theorem exists_current {log : List (ℕ × ℕ)} {a : ℕ × ℕ} (h : a ∈ log) :
    ∃ k, (a.1, k) ∈ current log := by
  simp only [mem_current]
  rw [← Option.isSome_iff_exists]
  by_contra hnone
  rw [Option.not_isSome_iff_eq_none, List.lookup_eq_none_iff] at hnone
  have := hnone a (List.mem_reverse.mpr h)
  simp at this

theorem current_subset {log : List (ℕ × ℕ)} {a : ℕ × ℕ} (h : a ∈ current log) : a ∈ log :=
  (List.mem_filter.mp h).1

/-- The marks after some annotations. -/
def record (marks log : List (ℕ × ℕ)) : List (ℕ × ℕ) :=
  log.foldl (fun marks a => upsert compare (fun _ new => new) a.1 a.2 marks) marks

theorem record_append (marks log log' : List (ℕ × ℕ)) :
    record marks (log ++ log') = record (record marks log) log' := List.foldl_append

theorem ascending_record (log : List (ℕ × ℕ)) : Ascending (record [] log) := by
  induction log using List.reverseRecOn with
  | nil => exact List.Pairwise.nil
  | append_singleton log a ih =>
    rw [record_append]
    exact ih.upsert a.1 a.2

/-- The marks are the annotations that count. -/
theorem mem_record {log : List (ℕ × ℕ)} {a : ℕ × ℕ} : a ∈ record [] log ↔ a ∈ current log := by
  induction log using List.reverseRecOn with
  | nil => rfl
  | append_singleton log b ih =>
    have hstep : record [] (log ++ [b]) =
        upsert compare (fun _ new => new) b.1 b.2 (record [] log) := record_append [] log [b]
    rw [hstep, mem_upsert (ascending_record log), ih, ← mem_current_concat]

end Schedule

/-! ### The annotations of a run -/

namespace Transformation

open Schedule Schedule.Action

mutual

/-- The annotations that a transformation makes, in order.  Those in the lists of a tiling are for
its tile subspace and for the tiled one. -/
def annotations : Transformation → ℕ → Schedule → List (ℕ × ℕ)
  | .parallel extra, id, _ => [(id, extra)]
  | .tile loop sizes outer inner, id, s =>
    match Fragment.tile loop sizes id s with
    | .error _ _ => []
    | .ok tiling s₁ =>
      annotationsEach outer tiling.tile s₁.deeper ++
        annotationsEach inner id ((runEach outer tiling.tile).after s₁.deeper)
  | .identity, _, _ => []
  | .shift _, _, _ => []
  | .fusion _, _, _ => []
  | .wavefront, _, _ => []
  | .automaticShift _ _, _, _ => []

def annotationsEach : List Transformation → ℕ → Schedule → List (ℕ × ℕ)
  | [], _, _ => []
  | t :: ts, id, s =>
    let s := s.withLayout s.layout.nextStage
    annotations t id s ++ annotationsEach ts id ((t.run id).after s)

end

theorem parallel_of_reshapes {α : Type} {x : Action α} (hx : Reshapes x) {a : α}
    {s s' : Schedule} (h : x s = .ok a s') : s'.parallel = s.parallel := by
  obtain ⟨l, -, rfl⟩ := hx s a s' h
  rfl

mutual

/-- A transformation that succeeds has recorded its annotations and left the other marks alone. -/
theorem run_parallel : ∀ (t : Transformation) {id : ℕ} {s s' : Schedule} {maps : List UnionMap},
    t.run id s = .ok maps s' → s'.parallel = record s.parallel (t.annotations id s)
  | .identity, id, _, _, _, hrun => parallel_of_reshapes (reshapes_run (by simp) (by simp) id) hrun
  | .shift _, id, _, _, _, hrun => parallel_of_reshapes (reshapes_run (by simp) (by simp) id) hrun
  | .fusion _, id, _, _, _, hrun => parallel_of_reshapes (reshapes_run (by simp) (by simp) id) hrun
  | .wavefront, id, _, _, _, hrun => parallel_of_reshapes (reshapes_run (by simp) (by simp) id) hrun
  | .automaticShift _ _, id, _, _, _, hrun =>
    parallel_of_reshapes (reshapes_run (by simp) (by simp) id) hrun
  | .parallel extra, id, s, s', maps, hrun => by
    obtain ⟨-, rfl⟩ := run_parallel_eq_ok hrun
    rfl
  | .tile loop sizes outer inner, id, s, s', maps, hrun => by
    obtain ⟨tiling, s₁, outerMaps, s₂, innerMaps, s₃, htile, houter, hinner, -, rfl⟩ :=
      run_tile_eq_ok hrun
    have hfirst := parallel_of_reshapes (Fragment.reshapes_tile loop sizes id) htile
    have hsecond : s₂.parallel =
        record s₁.parallel (annotationsEach outer tiling.tile s₁.deeper) :=
      runEach_parallel outer (s := s₁.deeper) houter
    have hthird := runEach_parallel inner hinner
    have hlog : annotations (.tile loop sizes outer inner) id s =
        annotationsEach outer tiling.tile s₁.deeper ++ annotationsEach inner id s₂ := by
      simp only [annotations, htile, after_of_ok houter]
    rw [hlog, record_append, ← hfirst, ← hsecond]
    exact hthird

theorem runEach_parallel : ∀ (ts : List Transformation) {id : ℕ} {s s' : Schedule}
    {maps : List UnionMap}, runEach ts id s = .ok maps s' →
      s'.parallel = record s.parallel (annotationsEach ts id s)
  | [], id, s, s', maps, hrun => by
    rw [runEach] at hrun
    exact parallel_of_reshapes (reshapes_pure _) hrun
  | t :: ts, id, s, s', maps, hrun => by
    obtain ⟨first, s₁, rest, hfirst, hrest, -⟩ := runEach_cons_eq_ok hrun
    have hlog : annotationsEach (t :: ts) id s =
        annotations t id (s.withLayout s.layout.nextStage) ++ annotationsEach ts id s₁ := by
      simp only [annotationsEach, after_of_ok hfirst]
    have hhead : s₁.parallel =
        record s.parallel (annotations t id (s.withLayout s.layout.nextStage)) :=
      run_parallel t (s := s.withLayout s.layout.nextStage) hfirst
    rw [hlog, record_append, ← hhead]
    exact runEach_parallel ts hrest

end

end Transformation

namespace Schedule

open Schedule.Action Transformation

/-- The annotations of a transformation that is applied to a subspace; one that is refused makes
none. -/
def annotationsTo (t : Transformation) (id : ℕ) (s : Schedule) : List (ℕ × ℕ) :=
  if ((applyTo t id).result? s).isSome then t.annotations id s else []

/-- The annotations of a transformation that is applied to its default subspace. -/
def annotationsOf (t : Transformation) (s : Schedule) : List (ℕ × ℕ) :=
  match t.defaultTarget s with
  | .ok id => annotationsTo t id s
  | .error _ => []

/-- The annotations of transformations that are applied until one fails. -/
def annotationsAll : List Transformation → Schedule → List (ℕ × ℕ)
  | [], _ => []
  | t :: ts, s =>
    if ((apply t).result? s).isSome then
      annotationsOf t s ++ annotationsAll ts ((apply t).after s)
    else []

def Operation.annotations (s : Schedule) : Operation → List (ℕ × ℕ)
  | .apply t => annotationsOf t s
  | .applyTo t id => annotationsTo t id s
  | .applyAll ts => annotationsAll ts s
  | .addParallel id extra => [(id, extra)]
  | .deeper => []
  | .shallower => []
  | .modifyLength _ => []

/-- The annotations that are made in a run, in order. -/
def annotations (s : Schedule) : List Operation → List (ℕ × ℕ)
  | [] => []
  | op :: ops => op.annotations s ++ annotations (op.act s) ops

theorem applyTo_parallel (t : Transformation) (id : ℕ) (s : Schedule) :
    ((applyTo t id).after s).parallel = record s.parallel (annotationsTo t id s) := by
  unfold annotationsTo
  cases hrun : applyTo t id s with
  | ok u s' =>
    have hresult : (applyTo t id).result? s = some u := result?_eq_some.mpr ⟨s', hrun⟩
    rw [after_of_ok hrun, hresult, Option.isSome_some, if_pos rfl]
    obtain ⟨maps, s₁, hmaps, rfl⟩ := applyTo_eq_ok.mp hrun
    exact (run_parallel t hmaps : s₁.parallel = _)
  | error e s' =>
    have hresult : (applyTo t id).result? s = none := by rw [result?, hrun]
    rw [after_of_error hrun, hresult, applyTo_error_unchanged hrun]
    rfl

theorem apply_parallel (t : Transformation) (s : Schedule) :
    ((apply t).after s).parallel = record s.parallel (annotationsOf t s) := by
  unfold annotationsOf
  cases htarget : t.defaultTarget s with
  | ok id =>
    have happly : apply t s = applyTo t id s := by
      unfold apply
      rw [get_bind, htarget]
      rfl
    rw [after, happly]
    exact applyTo_parallel t id s
  | error e =>
    have happly : apply t s = .error e s := by
      unfold apply
      rw [get_bind, htarget]
      rfl
    rw [after_of_error happly]
    rfl

theorem applyAll_parallel : ∀ (ts : List Transformation) (s : Schedule),
    ((applyAll ts).after s).parallel = record s.parallel (annotationsAll ts s)
  | [], s => rfl
  | t :: ts, s => by
    unfold annotationsAll
    cases hfirst : apply t s with
    | ok u s₁ =>
      have hresult : (apply t).result? s = some u := result?_eq_some.mpr ⟨s₁, hfirst⟩
      have hrest : applyAll (t :: ts) s = applyAll ts s₁ := by
        show (apply t >>= fun _ => applyAll ts) s = _
        show EStateM.bind _ _ s = _
        rw [EStateM.bind, hfirst]
      have hhead := apply_parallel t s
      rw [after_of_ok hfirst] at hhead
      rw [hresult, Option.isSome_some, if_pos rfl, record_append, ← hhead, after_of_ok hfirst,
        after, hrest]
      exact applyAll_parallel ts s₁
    | error e s₁ =>
      have hresult : (apply t).result? s = none := by rw [result?, hfirst]
      have hrest : applyAll (t :: ts) s = .error e s₁ := bind_eq_error.mpr (Or.inl hfirst)
      rw [hresult, after_of_error hrest, apply_error_unchanged hfirst]
      rfl

theorem Operation.act_parallel (s : Schedule) (op : Operation) :
    (op.act s).parallel = record s.parallel (op.annotations s) := by
  cases op with
  | apply t => exact apply_parallel t s
  | applyTo t id => exact applyTo_parallel t id s
  | applyAll ts => exact applyAll_parallel ts s
  | deeper => rfl
  | shallower => rfl
  | addParallel id extra => rfl
  | modifyLength delta =>
    obtain ⟨d, hd⟩ := modifyLength_after delta s
    show ((Schedule.modifyLength delta).after s).parallel = _
    rw [hd]
    rfl

/-- The marks after a run are those of its annotations, in order. -/
theorem perform_parallel (s : Schedule) (ops : List Operation) :
    (s.perform ops).parallel = record s.parallel (s.annotations ops) := by
  induction ops generalizing s with
  | nil => rfl
  | cons op ops ih =>
    show ((op.act s).perform ops).parallel = _
    rw [annotations, record_append, ← op.act_parallel]
    exact ih (op.act s)

/-! ### Where the marks are -/

/-- The coordinates of some annotations, each counted from the first coordinate of its subspace. -/
def coordinatesOf (l : Layout) (log : List (ℕ × ℕ)) : Set ℕ :=
  {p | ∃ a ∈ log, ∃ o, l.offset? a.1 = some o ∧ p = o + a.2}

theorem mem_coordinatesOf {l : Layout} {log : List (ℕ × ℕ)} {p : ℕ} :
    p ∈ coordinatesOf l log ↔ ∃ a ∈ log, ∃ o, l.offset? a.1 = some o ∧ p = o + a.2 := Iff.rfl

theorem coordinatesOf_congr {l : Layout} {log log' : List (ℕ × ℕ)}
    (h : ∀ a, a ∈ log ↔ a ∈ log') : coordinatesOf l log = coordinatesOf l log' := by
  ext p
  simp only [mem_coordinatesOf, h]

/-- The marks after a run are at the coordinates of the annotations that count. -/
theorem coordinatesOf_perform (c : Chain) (statementPrefix iteratorPrefix : String)
    (ops : List Operation) :
    let s₀ := make c statementPrefix iteratorPrefix
    let s := s₀.perform ops
    coordinatesOf s.layout s.parallel = coordinatesOf s.layout (current (s₀.annotations ops)) := by
  intro s₀ s
  refine coordinatesOf_congr fun a => ?_
  rw [perform_parallel]
  exact mem_record

/-- The coordinates that the marks are resolved to, before they are sorted. -/
theorem mem_found {s : Schedule} {p : ℕ} :
    p ∈ (s.parallel.filterMap fun (id, extra) => (s.layout.offset? id).map (· + extra)) ↔
      p ∈ coordinatesOf s.layout s.parallel := by
  simp only [mem_coordinatesOf, List.mem_filterMap, Option.map_eq_some_iff]
  refine exists_congr fun a => and_congr_right fun _ => exists_congr fun o => ?_
  exact and_congr_right fun _ => eq_comm

theorem parallelDimensions?_eq_none {s : Schedule} :
    s.parallelDimensions? = none ↔ ∃ p ∈ coordinatesOf s.layout s.parallel, Word.count ≤ p := by
  unfold parallelDimensions?
  simp only [ite_eq_right_iff, reduceCtorEq, imp_false, List.all_eq_true, decide_eq_true_eq,
    not_forall, mem_found, not_lt, exists_prop]

theorem mem_parallelDimensions? {s : Schedule} {ds : List ℕ} (h : s.parallelDimensions? = some ds)
    {p : ℕ} : p ∈ ds ↔ p ∈ coordinatesOf s.layout s.parallel := by
  unfold parallelDimensions? at h
  dsimp only at h
  split_ifs at h with hall
  obtain rfl := Option.some.inj h
  rw [SortedList.mem_ofList fun _ _ => Nat.compare_eq_eq.mp, mem_found]

end Schedule

namespace Layout

/-- The coordinate is a variable iterator of the subspace. -/
def IteratorAt (l : Layout) (id p : ℕ) : Prop :=
  ∃ sub n, l.find id = .ok sub ∧ l.inputNames[p]? = some n ∧ n ∈ sub.vars

section Places

variable {width : ℕ} {l : Layout} {v : Arrangement} {id o : ℕ}

theorem mem_order_of_offset? (h : l.offset? id = some o) : id ∈ l.order := by
  unfold offset? at h
  cases hp : l.position? id with
  | none =>
    rw [hp] at h
    cases h
  | some p =>
    obtain ⟨left, right, horder, -⟩ := position?_eq_some hp
    rw [horder]
    exact List.mem_append_right _ List.mem_cons_self

/-- The names of a subspace start at its offset. -/
theorem Sound.inputNames_split (h : l.Sound width v v []) (ho : l.offset? id = some o) :
    ∃ sub left right, l.find id = .ok sub ∧ left.length = o ∧
      l.inputNames = left ++ (sub.baseNames ++ right) := by
  obtain ⟨pre, sub, post, hentries, hfind, hoffset⟩ :=
    offset?_eq_some h.placed (mem_order_of_offset? ho)
  refine ⟨sub, pre.flatMap fun e => e.2.baseNames, post.flatMap fun e => e.2.baseNames, hfind, ?_,
    ?_⟩
  · rw [length_flatMap_baseNames]
    exact Option.some.inj (hoffset.symm.trans ho)
  · rw [inputNames_of_staged h.stage_le, hentries, List.flatMap_append, List.flatMap_cons]

theorem Sound.inputNames_nodup (h : l.Sound width v v []) : l.inputNames.Nodup := by
  rw [h.inputNames_eq]
  exact h.valid.names_nodup

theorem Sound.length_inputNames (h : l.Sound width v v []) : l.inputNames.length = l.size := by
  rw [inputNames_of_staged h.stage_le, length_flatMap_baseNames, size_eq]

/-- A coordinate belongs to the subspace at whose offset it is counted. -/
theorem Sound.mem_baseNames_iff (h : l.Sound width v v []) {sub : Subspace}
    (hsub : l.find id = .ok sub) (ho : l.offset? id = some o) {p : ℕ} {n : String}
    (hn : l.inputNames[p]? = some n) :
    n ∈ sub.baseNames ↔ o ≤ p ∧ p < o + sub.completeSize := by
  obtain ⟨sub', left, right, hfind, rfl, hnames⟩ := h.inputNames_split ho
  obtain rfl : sub' = sub := Except.ok.inj (hfind.symm.trans hsub)
  have hnodup := h.inputNames_nodup
  rw [hnames] at hnodup hn
  rw [mem_part_iff hnodup hn, length_baseNames]

/-- The variable iterators of a subspace come first. -/
theorem Sound.mem_vars_iff (h : l.Sound width v v []) {sub : Subspace}
    (hsub : l.find id = .ok sub) (ho : l.offset? id = some o) {p : ℕ} {n : String}
    (hn : l.inputNames[p]? = some n) : n ∈ sub.vars ↔ o ≤ p ∧ p < o + sub.size := by
  obtain ⟨sub', left, right, hfind, rfl, hnames⟩ := h.inputNames_split ho
  obtain rfl : sub' = sub := Except.ok.inj (hfind.symm.trans hsub)
  have hparts : l.inputNames = left ++ (sub'.vars ++ (sub'.constant :: right)) := by
    rw [hnames, Subspace.baseNames, List.append_assoc, List.singleton_append]
  have hnodup := h.inputNames_nodup
  rw [hparts] at hnodup hn
  exact mem_part_iff hnodup hn

/-- The subspaces end where the layout does. -/
theorem Sound.offset_add_le (h : l.Sound width v v []) {sub : Subspace}
    (hsub : l.find id = .ok sub) (ho : l.offset? id = some o) : o + sub.completeSize ≤ l.size := by
  obtain ⟨sub', left, right, hfind, rfl, hnames⟩ := h.inputNames_split ho
  obtain rfl : sub' = sub := Except.ok.inj (hfind.symm.trans hsub)
  rw [← h.length_inputNames, hnames, List.length_append, List.length_append, length_baseNames]
  omega

theorem Sound.exists_name (h : l.Sound width v v []) {p : ℕ} (hp : p < l.size) :
    ∃ n, l.inputNames[p]? = some n := by
  rw [← h.length_inputNames] at hp
  exact ⟨l.inputNames[p], List.getElem?_eq_getElem hp⟩

theorem Sound.iteratorAt_iff (h : l.Sound width v v []) {sub : Subspace}
    (hsub : l.find id = .ok sub) (ho : l.offset? id = some o) {p : ℕ} :
    l.IteratorAt id p ↔ o ≤ p ∧ p < o + sub.size := by
  constructor
  · rintro ⟨sub', n, hsub', hn, hmem⟩
    obtain rfl : sub' = sub := Except.ok.inj (hsub'.symm.trans hsub)
    exact (h.mem_vars_iff hsub ho hn).mp hmem
  · intro hp
    have hle := h.offset_add_le hsub ho
    have hsize : sub.completeSize = sub.size + 1 := rfl
    obtain ⟨n, hn⟩ := h.exists_name (p := p) (by omega)
    exact ⟨sub, n, hsub, hn, (h.mem_vars_iff hsub ho hn).mpr hp⟩

/-- No coordinate belongs to two subspaces. -/
theorem Sound.id_eq_of_offset (h : l.Sound width v v []) {id' o' k k' : ℕ} {sub sub' : Subspace}
    (hsub : l.find id = .ok sub) (ho : l.offset? id = some o) (hk : k < sub.completeSize)
    (hsub' : l.find id' = .ok sub') (ho' : l.offset? id' = some o') (hk' : k' < sub'.completeSize)
    (heq : o + k = o' + k') : id = id' := by
  have hle := h.offset_add_le hsub ho
  obtain ⟨n, hn⟩ := h.exists_name (p := o + k) (by omega)
  have hmem := (h.mem_baseNames_iff hsub ho hn).mpr (by omega)
  have hmem' := (h.mem_baseNames_iff hsub' ho' hn).mpr (by omega)
  exact h.valid.id_eq (h.tag_mem hsub) (h.tag_mem hsub') hmem hmem'

theorem Sound.find_of_offset? (h : l.Sound width v v []) (ho : l.offset? id = some o) :
    ∃ sub, l.find id = .ok sub := by
  obtain ⟨sub, _, _, hsub, -⟩ := h.inputNames_split ho
  exact ⟨sub, hsub⟩

end Places

end Layout

namespace Schedule

open Schedule.Action Transformation

variable {c : Chain} {statementPrefix iteratorPrefix : String} {ops : List Operation}

theorem sound_perform (c : Chain) (statementPrefix iteratorPrefix : String)
    (ops : List Operation) :
    let l := ((make c statementPrefix iteratorPrefix).perform ops).layout
    ∃ v, l.Sound c.maxDimension v v [] := by
  intro l
  obtain ⟨v, htraced⟩ := traced_perform c statementPrefix iteratorPrefix ops
  exact ⟨v, htraced.sound⟩

/-- All annotations of a subspace in the layout name the same iterator. -/
def Agree (l : Layout) (log : List (ℕ × ℕ)) : Prop :=
  ∀ a ∈ log, ∀ b ∈ log, a.1 = b.1 → a.1 ∈ l.order → a.2 = b.2

/-- The annotations of subspaces in the layout name iterators of their own subspace, its constant
one at most. -/
def Within (l : Layout) (log : List (ℕ × ℕ)) : Prop :=
  ∀ a ∈ log, ∀ sub, l.find a.1 = .ok sub → a.2 < sub.completeSize

theorem coordinatesOf_current_of_agree {l : Layout} {log : List (ℕ × ℕ)} (h : Agree l log) :
    coordinatesOf l (current log) = coordinatesOf l log := by
  ext p
  constructor
  · rintro ⟨a, ha, o, ho, rfl⟩
    exact ⟨a, current_subset ha, o, ho, rfl⟩
  · rintro ⟨a, ha, o, ho, rfl⟩
    obtain ⟨k, hk⟩ := exists_current ha
    have hdepth : a.2 = k :=
      h a ha (a.1, k) (current_subset hk) rfl (Layout.mem_order_of_offset? ho)
    exact ⟨(a.1, k), hk, o, ho, by rw [hdepth]⟩

/-- An annotation that counts no more is lost, unless the mark of another one is at its place. -/
theorem agree_of_coordinatesOf {width : ℕ} {l : Layout} {v : Arrangement} {log : List (ℕ × ℕ)}
    (hl : l.Sound width v v []) (hwithin : Within l log)
    (h : coordinatesOf l (current log) = coordinatesOf l log) : Agree l log := by
  -- it is enough that every annotation is the one that counts
  have hlast : ∀ a ∈ log, a.1 ∈ l.order → a ∈ current log := by
    intro a ha hid
    obtain ⟨pre, sub, post, -, hsub, ho⟩ := Layout.offset?_eq_some hl.placed hid
    have hplace : total (pre.map fun e => e.2.completeSize) + a.2 ∈ coordinatesOf l log :=
      ⟨a, ha, _, ho, rfl⟩
    rw [← h] at hplace
    obtain ⟨b, hb, o', ho', heq⟩ := hplace
    obtain ⟨sub', hsub'⟩ := hl.find_of_offset? ho'
    have hids : a.1 = b.1 := hl.id_eq_of_offset hsub ho (hwithin a ha sub hsub) hsub' ho'
      (hwithin b (current_subset hb) sub' hsub') heq
    rw [← hids, ho] at ho'
    obtain rfl := Option.some.inj ho'
    have hab : a = b := Prod.ext hids (by omega)
    rwa [hab]
  intro a ha b hb hid hmem
  have ha' := mem_current.mp (hlast a ha hmem)
  have hb' := mem_current.mp (hlast b hb (hid ▸ hmem))
  rw [← hid, ha'] at hb'
  exact Option.some.inj hb'

/-- After any run the coordinates are those of the annotations that count; there is no answer
exactly if one of them is too large.  If the annotations of each subspace agree, no annotation is
lost, and if they all stay within their subspaces, none is lost only then. -/
theorem marks_complete_iff (c : Chain) (statementPrefix iteratorPrefix : String)
    (ops : List Operation) :
    let s₀ := make c statementPrefix iteratorPrefix
    let s := s₀.perform ops
    let log := s₀.annotations ops
    (s.parallelDimensions? = none ↔
      ∃ p ∈ coordinatesOf s.layout (current log), Word.count ≤ p) ∧
    ∀ ds, s.parallelDimensions? = some ds →
      (∀ p, p ∈ ds ↔ p ∈ coordinatesOf s.layout (current log)) ∧
      (Agree s.layout log → ∀ p, p ∈ ds ↔ p ∈ coordinatesOf s.layout log) ∧
      (Within s.layout log →
        ((∀ p, p ∈ ds ↔ p ∈ coordinatesOf s.layout log) ↔ Agree s.layout log)) := by
  intro s₀ s log
  obtain ⟨v, hsound⟩ := sound_perform c statementPrefix iteratorPrefix ops
  have hmarks : coordinatesOf s.layout s.parallel = coordinatesOf s.layout (current log) :=
    coordinatesOf_perform c statementPrefix iteratorPrefix ops
  refine ⟨by rw [parallelDimensions?_eq_none, hmarks], fun ds hds => ?_⟩
  have hcurrent : ∀ p, p ∈ ds ↔ p ∈ coordinatesOf s.layout (current log) := fun p => by
    rw [mem_parallelDimensions? hds, hmarks]
  have hagree : Agree s.layout log → ∀ p, p ∈ ds ↔ p ∈ coordinatesOf s.layout log := by
    intro h p
    rw [hcurrent, coordinatesOf_current_of_agree h]
  refine ⟨hcurrent, hagree, fun hwithin => ⟨fun h => ?_, hagree⟩⟩
  apply agree_of_coordinatesOf hsound hwithin
  ext p
  rw [← hcurrent, h]

/-- The nest is annotated, moved to the right by a tiling with an annotation of its own, and
annotated once more; a transformation in between is refused. -/
theorem marks_complete_iff_tiled :
    let s₀ := make ⟨[⟨⟨[("0", "9"), ("0", "9")], []⟩, []⟩]⟩ "" "c"
    let ops : List Operation := [.apply (.parallel 1),
      .apply (.tile 0 (.uniform "4") [.parallel 0] []),
      .apply (.tile 0 (.uniform "2") [.parallel 1] [.shift ⟨7, [], []⟩]), .addParallel 1 1]
    let s := s₀.perform ops
    s₀.annotations ops = [(1, 1), (2, 0), (1, 1)] ∧ s.parallelDimensions? = some [1, 5] ∧
      ∀ p, p ∈ [1, 5] ↔ p ∈ coordinatesOf s.layout [(1, 1), (2, 0), (1, 1)] := by
  intro s₀ ops s
  have hlog : s₀.annotations ops = [(1, 1), (2, 0), (1, 1)] := by decide +kernel
  have hds : s.parallelDimensions? = some [1, 5] := by decide +kernel
  have hagree : Agree s.layout (s₀.annotations ops) := by
    rw [hlog]
    simp [Agree]
  obtain ⟨-, hmarks⟩ := marks_complete_iff ⟨[⟨⟨[("0", "9"), ("0", "9")], []⟩, []⟩]⟩ "" "c" ops
  have hall := (hmarks [1, 5] hds).2.1 hagree
  refine ⟨hlog, hds, fun p => ?_⟩
  rw [hall p]
  show p ∈ coordinatesOf s.layout (s₀.annotations ops) ↔ _
  rw [hlog]

/-- Two iterators of one subspace are annotated, and only the second one is marked. -/
theorem exists_mark_replaced :
    let s₀ := make ⟨[⟨⟨[("0", "9"), ("0", "9")], []⟩, []⟩]⟩ "" "c"
    let ops : List Operation := [.apply (.parallel 0), .apply (.parallel 1)]
    let s := s₀.perform ops
    s₀.annotations ops = [(1, 0), (1, 1)] ∧ s.layout.offset? 1 = some 1 ∧
      s.parallelDimensions? = some [2] := by
  decide +kernel

/-! ### Marks outside their subspace -/

/-- The operation applies transformations. -/
def Operation.isTransformation : Operation → Bool
  | .apply _ => true
  | .applyTo _ _ => true
  | .applyAll _ => true
  | .deeper => false
  | .shallower => false
  | .addParallel _ _ => false
  | .modifyLength _ => false

/-- Transformations do not correct the length. -/
theorem corrections_eq_nil {s : Schedule} (h : ∀ op ∈ ops, op.isTransformation = true) :
    s.corrections ops = [] := by
  induction ops generalizing s with
  | nil => rfl
  | cons op ops ih =>
    have hop := h op List.mem_cons_self
    rw [corrections, ih fun o ho => h o (List.mem_cons_of_mem _ ho), List.append_nil]
    cases op with
    | apply t => rfl
    | applyTo t id => rfl
    | applyAll ts => rfl
    | deeper => cases hop
    | shallower => cases hop
    | addParallel id extra => cases hop
    | modifyLength delta => cases hop

/-- Without corrections the vector is as long as the layout. -/
theorem length?_eq_size (h : ∀ op ∈ ops, op.isTransformation = true) {n : ℕ} :
    let s := (make c statementPrefix iteratorPrefix).perform ops
    s.length? = some n → n = s.layout.size := by
  intro s hn
  have hstart := traced_make (fun _ => True) c statementPrefix iteratorPrefix
  have hmeasured := (measured_make c statementPrefix iteratorPrefix).perform hstart ops
  rw [corrections_eq_nil h, List.sum_nil, add_zero] at hmeasured
  have hdelta : s.lengthDelta = 0 := hmeasured.lengthDelta
  rw [length?, hdelta, add_zero] at hn
  obtain ⟨m, hm, rfl⟩ := Option.map_eq_some_iff.mp hn
  rw [← (Word.fit?_eq_some.mp hm).2, Int.toNat_natCast]

/-- After a run of transformations every mark is on a variable iterator of an annotated subspace
exactly if every annotation that counts has a depth below the size of its subspace, or has slid onto
a variable iterator of another one.  Depths below the sizes keep the marks within the vector. -/
theorem marks_on_targets_iff (c : Chain) (statementPrefix iteratorPrefix : String)
    (ops : List Operation) (hops : ∀ op ∈ ops, op.isTransformation = true) :
    let s₀ := make c statementPrefix iteratorPrefix
    let s := s₀.perform ops
    let log := s₀.annotations ops
    ∀ ds, s.parallelDimensions? = some ds →
      ((∀ p ∈ ds, ∃ a ∈ log, s.layout.IteratorAt a.1 p) ↔
        ∀ a ∈ current log, ∀ sub o, s.layout.find a.1 = .ok sub → s.layout.offset? a.1 = some o →
          a.2 < sub.size ∨ ∃ b ∈ log, b.1 ≠ a.1 ∧ s.layout.IteratorAt b.1 (o + a.2)) ∧
      ((∀ a ∈ current log, ∀ sub, s.layout.find a.1 = .ok sub → a.2 < sub.size) →
        ∀ p ∈ ds, (∃ a ∈ current log, s.layout.IteratorAt a.1 p) ∧
          ∀ n, s.length? = some n → p < n) := by
  intro s₀ s log ds hds
  obtain ⟨v, hsound⟩ := sound_perform c statementPrefix iteratorPrefix ops
  have hcurrent : ∀ p, p ∈ ds ↔ p ∈ coordinatesOf s.layout (current log) := fun p => by
    rw [mem_parallelDimensions? hds, coordinatesOf_perform]
  refine ⟨⟨fun h a ha sub o hsub ho => ?_, fun h p hp => ?_⟩, fun h p hp => ?_⟩
  · obtain ⟨b, hb, hat⟩ := h (o + a.2) ((hcurrent _).mpr ⟨a, ha, o, ho, rfl⟩)
    by_cases hid : b.1 = a.1
    · rw [hid, hsound.iteratorAt_iff hsub ho] at hat
      exact Or.inl (by omega)
    · exact Or.inr ⟨b, hb, hid, hat⟩
  · obtain ⟨a, ha, o, ho, rfl⟩ := (hcurrent p).mp hp
    obtain ⟨sub, hsub⟩ := hsound.find_of_offset? ho
    rcases h a ha sub o hsub ho with hdepth | ⟨b, hb, -, hat⟩
    · refine ⟨a, current_subset ha, (hsound.iteratorAt_iff hsub ho).mpr ?_⟩
      omega
    · exact ⟨b, hb, hat⟩
  · obtain ⟨a, ha, o, ho, rfl⟩ := (hcurrent p).mp hp
    obtain ⟨sub, hsub⟩ := hsound.find_of_offset? ho
    have hdepth := h a ha sub hsub
    refine ⟨⟨a, ha, (hsound.iteratorAt_iff hsub ho).mpr (by omega)⟩, fun n hn => ?_⟩
    have hle := hsound.offset_add_le hsub ho
    have hsize : sub.completeSize = sub.size + 1 := rfl
    rw [length?_eq_size hops hn]
    omega

/-- The tile coordinates and the nest are annotated within their sizes, and the marks move along
with the second tiling. -/
theorem marks_on_targets_iff_tiled :
    let s₀ := make ⟨[⟨⟨[("0", "9"), ("0", "9")], []⟩, []⟩]⟩ "" "c"
    let ops : List Operation := [.apply (.tile 0 (.uniform "4") [.parallel 0] []),
      .applyTo (.parallel 1) 1, .apply (.tile 0 (.perDimension ["2", "2"]) [] [.wavefront])]
    let s := s₀.perform ops
    s₀.annotations ops = [(2, 0), (1, 1)] ∧ s.parallelDimensions? = some [1, 5] ∧
      s.length? = some 7 ∧
        ∀ p ∈ [1, 5], (∃ a ∈ current (s₀.annotations ops), s.layout.IteratorAt a.1 p) ∧ p < 7 := by
  intro s₀ ops s
  have hops : ∀ op ∈ ops, op.isTransformation = true := by decide
  have hlog : s₀.annotations ops = [(2, 0), (1, 1)] := by decide +kernel
  have hds : s.parallelDimensions? = some [1, 5] := by decide +kernel
  have hlength : s.length? = some 7 := by decide +kernel
  have htile : (s.layout.find 2).toOption.map Subspace.size = some 2 := by decide +kernel
  have hnest : (s.layout.find 1).toOption.map Subspace.size = some 2 := by decide +kernel
  have hdepth : ∀ a ∈ current (s₀.annotations ops), ∀ sub, s.layout.find a.1 = .ok sub →
      a.2 < sub.size := by
    rw [hlog]
    intro a ha sub hsub
    have hmem : a = (2, 0) ∨ a = (1, 1) := by simpa using current_subset ha
    rcases hmem with rfl | rfl
    · rw [hsub] at htile
      have hsize : sub.size = 2 := Option.some.inj htile
      omega
    · rw [hsub] at hnest
      have hsize : sub.size = 2 := Option.some.inj hnest
      omega
  have hmarks := (marks_on_targets_iff ⟨[⟨⟨[("0", "9"), ("0", "9")], []⟩, []⟩]⟩ "" "c" ops hops
    [1, 5] hds).2 hdepth
  exact ⟨hlog, hds, hlength, fun p hp => ⟨(hmarks p hp).1, (hmarks p hp).2 7 hlength⟩⟩

/-- The third coordinate from the first tile coordinate on is the iterator of the nest, which nobody
annotated; the third one from the iterator of the nest on is behind the end of the vector. -/
theorem exists_mark_elsewhere :
    let s₀ := make ⟨[⟨⟨[("0", "9")], []⟩, []⟩]⟩ "" "c"
    let slid : List Operation := [.apply (.tile 0 (.uniform "4") [.parallel 2] [])]
    let behind : List Operation := [.apply (.parallel 2)]
    (s₀.annotations slid = [(2, 2)] ∧ (s₀.perform slid).parallelDimensions? = some [3] ∧
      ¬ (s₀.perform slid).layout.IteratorAt 2 3 ∧ (s₀.perform slid).layout.IteratorAt 1 3) ∧
    (s₀.annotations behind = [(1, 2)] ∧ (s₀.perform behind).parallelDimensions? = some [3] ∧
      (s₀.perform behind).length? = some 3) := by
  intro s₀ slid behind
  have hname : (s₀.perform slid).layout.inputNames[3]? = some "i_0" := by decide +kernel
  have htile : ((s₀.perform slid).layout.find 2).toOption.map Subspace.vars = some ["t_i_0"] := by
    decide +kernel
  have hnest : ((s₀.perform slid).layout.find 1).toOption.map Subspace.vars = some ["i_0"] := by
    decide +kernel
  refine ⟨⟨by decide +kernel, by decide +kernel, ?_, ?_⟩, by decide +kernel⟩
  · rintro ⟨sub, n, hsub, hn, hmem⟩
    rw [hsub] at htile
    have hvars : sub.vars = ["t_i_0"] := Option.some.inj htile
    rw [hname] at hn
    rw [hvars, ← Option.some.inj hn] at hmem
    exact absurd hmem (by decide)
  · cases hfind : (s₀.perform slid).layout.find 1 with
    | error e =>
      rw [hfind] at hnest
      cases hnest
    | ok sub =>
      rw [hfind] at hnest
      have hvars : sub.vars = ["i_0"] := Option.some.inj hnest
      exact ⟨sub, "i_0", hfind, hname, by rw [hvars]; decide⟩

end Schedule

end LoopSched
