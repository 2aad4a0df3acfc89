import LoopSched.Proofs.Schedule.Rollback
import LoopSched.Proofs.Schedule.Steps

/-!
# Runs of a schedule

A schedule is only ever changed by the operations here, each of which may fail.  Whatever was done
to it, its maps are the embedding and then steps from the start arrangement to the one its layout
shows.
-/

namespace LoopSched

open Polyhedral Arrangement

namespace Transformation

variable {P : Transformation → Prop}

mutual

theorem all_of_forall (h : ∀ t, P t) : ∀ t : Transformation, t.All P
  | .tile loop sizes outer inner => by
    rw [All]
    exact ⟨h _, allOf_of_forall h outer, allOf_of_forall h inner⟩
  | .identity => h _
  | .shift sh => h _
  | .fusion loops => h _
  | .wavefront => h _
  | .parallel extra => h _
  | .automaticShift includeZero nodeLimit => h _

theorem allOf_of_forall (h : ∀ t, P t) : ∀ ts : List Transformation, AllOf P ts
  | [] => trivial
  | t :: ts => ⟨all_of_forall h t, allOf_of_forall h ts⟩

end

mutual

theorem All.and {Q : Transformation → Prop} : ∀ {t : Transformation}, t.All P → t.All Q →
    t.All fun t => P t ∧ Q t
  | .tile loop sizes outer inner, hp, hq => by
    rw [All] at hp hq ⊢
    exact ⟨⟨hp.1, hq.1⟩, AllOf.and hp.2.1 hq.2.1, AllOf.and hp.2.2 hq.2.2⟩
  | .identity, hp, hq => ⟨hp, hq⟩
  | .shift sh, hp, hq => ⟨hp, hq⟩
  | .fusion loops, hp, hq => ⟨hp, hq⟩
  | .wavefront, hp, hq => ⟨hp, hq⟩
  | .parallel extra, hp, hq => ⟨hp, hq⟩
  | .automaticShift includeZero nodeLimit, hp, hq => ⟨hp, hq⟩

theorem AllOf.and {Q : Transformation → Prop} : ∀ {ts : List Transformation}, AllOf P ts →
    AllOf Q ts → AllOf (fun t => P t ∧ Q t) ts
  | [], _, _ => trivial
  | _ :: _, hp, hq => ⟨All.and hp.1 hq.1, AllOf.and hp.2 hq.2⟩

end

end Transformation

theorem le_foldl_max {n : ℕ} : ∀ {ns : List ℕ} {m : ℕ}, n ≤ m ∨ n ∈ ns → n ≤ ns.foldl max m
  | [], _, h => h.elim (fun h => h) fun h => absurd h List.not_mem_nil
  | a :: ns, m, h => by
    rw [List.foldl_cons]
    refine le_foldl_max ?_
    rcases h with h | h
    · exact Or.inl (Nat.le_trans h (Nat.le_max_left m a))
    · rcases List.mem_cons.mp h with rfl | h
      · exact Or.inl (Nat.le_max_right m n)
      · exact Or.inr h

theorem Chain.dimensions_le {c : Chain} {n : Nest} (h : n ∈ c.nests) :
    n.dimensions ≤ c.maxDimension :=
  le_foldl_max (Or.inr (List.mem_map_of_mem h))

namespace Schedule

open Schedule.Action LoopSched.Subspace

/-! ### The embedding -/

/-- The map that every schedule starts with. -/
def embedding (c : Chain) (statementPrefix : String) : UnionMap where
  clauses := c.nests.zipIdx.map fun (n, k) => embeddingClause statementPrefix (startLayout c) n k

theorem mem_embedding {c : Chain} {statementPrefix : String} {clause : Clause} :
    clause ∈ (embedding c statementPrefix).clauses ↔ ∃ n k, c.nests[k]? = some n ∧
      clause = embeddingClause statementPrefix (startLayout c) n k := by
  simp only [embedding, List.mem_map, Prod.exists, List.mem_zipIdx_iff_getElem?]
  constructor
  · rintro ⟨n, k, hn, rfl⟩
    exact ⟨n, k, hn, rfl⟩
  · rintro ⟨n, k, hn, rfl⟩
    exact ⟨n, k, hn, rfl⟩

theorem nestIterators_eq {n : Nest} {width : ℕ} (h : n.dimensions ≤ width) :
    nestIterators n = (nestGroup width).vars.take n.dimensions := by
  rw [nestGroup, Subspace.group, Subspace.make, ← List.map_take, List.take_range, Nat.min_eq_left h]
  rfl

theorem zipWith_same_take (vs ns : List String) (d : ℕ) :
    List.zipWith Condition.same (ns.map (mark vs)) (ns.take d) = copies vs (ns.take d) := by
  induction ns generalizing d with
  | nil =>
    rw [List.take_nil]
    rfl
  | cons n ns ih =>
    cases d with
    | zero => rfl
    | succ d => exact congrArg (List.cons _) (ih d)

/-- The clause of a nest: its number, its own iterators, and zeros for the rest. -/
theorem embeddingClause_eq {c : Chain} {n : Nest} (hn : n ∈ c.nests) (statementPrefix : String)
    (k : ℕ) :
    let g := nestGroup c.maxDimension
    embeddingClause statementPrefix (startLayout c) n k =
      { source := rootOf statementPrefix ++ toString k
        input := g.vars.take n.dimensions
        output := (Layout.startArrangement c.maxDimension).names.map (mark g.names)
        conditions := .is loopsGroup.constant k :: .is (mark g.names g.constant) 0 ::
          copies g.names (g.vars.take n.dimensions) ++
            ((g.vars.drop n.dimensions).map (mark g.names)).map (.is · 0) } := by
  intro g
  have hvalid := Layout.valid_startArrangement c.maxDimension
  have hon := (Layout.sound_startLayout c).aliasing Layout.nest
  have hvs : ∀ e ∈ Layout.startArrangement c.maxDimension, ∀ m ∈ e.2.names,
      m ∈ g.names ↔ e.1 ∈ [Layout.nest] := by
    intro e he m hm
    rw [hvalid.mem_names_iff hvalid.nest he hm, List.mem_singleton]
  have hfind : ∃ sub, ((startLayout c).setAlias Layout.nest true).find Layout.nest = .ok sub ∧
      ((startLayout c).setAlias Layout.nest true).get? Layout.nest = some sub := ⟨_, rfl, rfl⟩
  obtain ⟨sub, hsub, hget⟩ := hfind
  have hspells := hon.spells hvs hvalid.nest hsub
  simp only [embeddingClause, hget, Option.getD_some, hon.outputNames_eq hvs, hspells.constantName,
    hspells.variableNames, nestIterators_eq (Chain.dimensions_le hn), zipWith_same_take,
    ← List.map_drop]
  rfl

/-! ### Traced schedules -/

/-- The schedule shows the arrangement, and its maps lead there from the embedding of the chain. -/
structure Traced (P : Transformation → Prop) (c : Chain) (statementPrefix : String) (s : Schedule)
    (v : Arrangement) : Prop where
  sound : s.layout.Sound c.maxDimension v v []
  statement : s.statementPrefix = statementPrefix
  maps : ∃ ms, s.maps = embedding c statementPrefix :: ms ∧
    Steps P c.maxDimension (Layout.startArrangement c.maxDimension) ms v

variable {P : Transformation → Prop} {c : Chain} {statementPrefix : String} {s s' : Schedule}
  {v : Arrangement}

theorem traced_make (P : Transformation → Prop) (c : Chain)
    (statementPrefix iteratorPrefix : String) :
    Traced P c statementPrefix (make c statementPrefix iteratorPrefix)
      (Layout.startArrangement c.maxDimension) where
  sound := Layout.sound_startLayout c
  statement := rfl
  maps := ⟨[], rfl, .nil (Layout.valid_startArrangement c.maxDimension)⟩

theorem Traced.applyTo (h : Traced P c statementPrefix s v) {t : Transformation} (ht : t.All P)
    {id : ℕ} {u : Unit} (hrun : applyTo t id s = .ok u s') :
    ∃ w, Traced P c statementPrefix s' w := by
  obtain ⟨maps, s₁, hmaps, rfl⟩ := applyTo_eq_ok.mp hrun
  have hrecord : SameRecord s s₁ := after_of_ok hmaps ▸ Transformation.confined_run t id s
  obtain ⟨near, w, ids, hsound, hsteps⟩ := Transformation.run_steps t ht h.sound hmaps
  obtain ⟨ms, hms, hsteps₀⟩ := h.maps
  refine ⟨w, hsound.nextStage, hrecord.statementPrefix.trans h.statement, ms ++ maps, ?_,
    hsteps₀.append hsteps⟩
  show s₁.maps ++ maps = _
  rw [hrecord.maps, hms, List.cons_append]

theorem Traced.apply (h : Traced P c statementPrefix s v) {t : Transformation} (ht : t.All P)
    {u : Unit} (hrun : apply t s = .ok u s') : ∃ w, Traced P c statementPrefix s' w := by
  obtain ⟨id, -, hrun⟩ := apply_eq_ok hrun
  exact h.applyTo ht hrun

/-- Transformations that are applied until one fails leave a traced schedule. -/
theorem Traced.applyAll : ∀ {ts : List Transformation} {s : Schedule} {v : Arrangement},
    Traced P c statementPrefix s v → (∀ t ∈ ts, t.All P) →
      ∃ w, Traced P c statementPrefix ((applyAll ts).after s) w
  | [], s, v, h, _ => ⟨v, h⟩
  | t :: ts, s, v, h, hts => by
    have ht := hts t List.mem_cons_self
    have hrest : ∀ t ∈ ts, t.All P := fun t ht => hts t (List.mem_cons_of_mem _ ht)
    refine after_cases (Q := fun s' => ∃ w, Traced P c statementPrefix s' w) (fun u s' hrun => ?_)
      (fun e s' hrun => ?_)
    · obtain ⟨_, s₁, hfirst, hrun⟩ := bind_eq_ok.mp hrun
      obtain ⟨w, hw⟩ := h.apply ht hfirst
      exact after_of_ok hrun ▸ hw.applyAll hrest
    · rcases bind_eq_error.mp hrun with hfirst | ⟨_, s₁, hfirst, hrun⟩
      · exact ⟨v, apply_error_unchanged hfirst ▸ h⟩
      · obtain ⟨w, hw⟩ := h.apply ht hfirst
        exact after_of_error hrun ▸ hw.applyAll hrest

/-- What can be done to a schedule. -/
inductive Operation where
  | apply (t : Transformation)
  | applyTo (t : Transformation) (id : ℕ)
  | applyAll (ts : List Transformation)
  | deeper
  | shallower
  | addParallel (id extra : ℕ)
  | modifyLength (delta : Int)

/-- The property holds of all transformations that the operation applies. -/
def Operation.All (P : Transformation → Prop) : Operation → Prop
  | apply t => t.All P
  | applyTo t _ => t.All P
  | applyAll ts => ∀ t ∈ ts, t.All P
  | deeper | shallower | addParallel .. | modifyLength _ => True

theorem Operation.all_of_forall (h : ∀ t, P t) (op : Operation) : op.All P := by
  cases op with
  | apply t => exact Transformation.all_of_forall h t
  | applyTo t id => exact Transformation.all_of_forall h t
  | applyAll ts => exact fun t _ => Transformation.all_of_forall h t
  | _ => trivial

/-- The schedule after an operation, whether it succeeded or failed. -/
def Operation.act (s : Schedule) : Operation → Schedule
  | apply t => (Schedule.apply t).after s
  | applyTo t id => (Schedule.applyTo t id).after s
  | applyAll ts => (Schedule.applyAll ts).after s
  | deeper => s.deeper
  | shallower => s.shallower
  | addParallel id extra => s.addParallel id extra
  | modifyLength delta => (Schedule.modifyLength delta).after s

/-- Correcting the length changes nothing that maps depend on. -/
theorem modifyLength_after (delta : Int) (s : Schedule) :
    ∃ d, (modifyLength delta).after s = { s with lengthDelta := d } := by
  unfold after modifyLength
  dsimp only
  split_ifs
  · exact ⟨s.lengthDelta, rfl⟩
  · exact ⟨s.lengthDelta, rfl⟩
  · exact ⟨s.lengthDelta + delta, rfl⟩

theorem Traced.act (h : Traced P c statementPrefix s v) {op : Operation} (hop : op.All P) :
    ∃ w, Traced P c statementPrefix (op.act s) w := by
  cases op with
  | apply t =>
    refine after_cases (Q := fun s' => ∃ w, Traced _ c statementPrefix s' w) (fun u s' hrun => ?_)
      (fun e s' hrun => ?_)
    · exact h.apply hop hrun
    · exact ⟨v, apply_error_unchanged hrun ▸ h⟩
  | applyTo t id =>
    refine after_cases (Q := fun s' => ∃ w, Traced _ c statementPrefix s' w) (fun u s' hrun => ?_)
      (fun e s' hrun => ?_)
    · exact h.applyTo hop hrun
    · exact ⟨v, applyTo_error_unchanged hrun ▸ h⟩
  | applyAll ts => exact h.applyAll hop
  | deeper => exact ⟨v, h.sound, h.statement, h.maps⟩
  | shallower => exact ⟨v, h.sound, h.statement, h.maps⟩
  | addParallel id extra => exact ⟨v, h.sound, h.statement, h.maps⟩
  | modifyLength delta =>
    obtain ⟨d, hd⟩ := modifyLength_after delta s
    show ∃ w, Traced _ c statementPrefix ((Schedule.modifyLength delta).after s) w
    rw [hd]
    exact ⟨v, h.sound, h.statement, h.maps⟩

/-- The schedule after some operations. -/
def perform (s : Schedule) (ops : List Operation) : Schedule := ops.foldl Operation.act s

theorem Traced.perform {s : Schedule} {v : Arrangement} (h : Traced P c statementPrefix s v)
    {ops : List Operation} (hops : ∀ op ∈ ops, op.All P) :
    ∃ w, Traced P c statementPrefix (s.perform ops) w := by
  induction ops generalizing s v with
  | nil => exact ⟨v, h⟩
  | cons op ops ih =>
    obtain ⟨hop, hops⟩ := List.forall_mem_cons.mp hops
    obtain ⟨w, hw⟩ := h.act hop
    exact ih hw hops

/-- Whatever is done to a new schedule, it is traced. -/
theorem traced_perform (c : Chain) (statementPrefix iteratorPrefix : String)
    (ops : List Operation) :
    ∃ v, Traced (fun _ => True) c statementPrefix
      ((make c statementPrefix iteratorPrefix).perform ops) v :=
  (traced_make _ c statementPrefix iteratorPrefix).perform fun op _ =>
    op.all_of_forall fun _ => trivial

end Schedule

end LoopSched
