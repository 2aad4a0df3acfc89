import LoopSched.Proofs.Schedule.Evolution

/-!
# Coordinates of a schedule

Whatever was done to a schedule, its coordinates line up with its layout: names are distinct, the
two subspaces of the start are at the ends, and each subspace finds its iterators at its offset.
-/

namespace LoopSched.Schedule

open Layout

theorem framed_perform (c : Chain) (statementPrefix iteratorPrefix : String)
    (ops : List Operation) :
    ((make c statementPrefix iteratorPrefix).perform ops).layout.Framed :=
  perform_keeps (fun hrun => (applyTo_evolved hrun).layout.framed) (framed_startLayout c) ops

/-- After any run all iterators have different names, the first subspace is the one that tells the
nests apart and the last one that of the nests' iterators, all subspaces exist, and the coordinates
on the near side of the next map fall into the names of the subspaces, each at its offset. -/
theorem coordinates_aligned (c : Chain) (statementPrefix iteratorPrefix : String)
    (ops : List Operation) :
    let l := ((make c statementPrefix iteratorPrefix).perform ops).layout
    let names := (l.inputIterators.split ',').toList.map (·.copy)
    (l.arena.flatMap Subspace.baseNames).Nodup ∧
      l.order.head? = some Layout.loops ∧ l.order.getLast? = some Layout.nest ∧
      (∀ sub ∈ l.arena, sub.stage ≤ l.stage) ∧ names.length = l.size ∧
      ∀ id ∈ l.order, ∃ sub p, l.find id = .ok sub ∧ l.offset? id = some p ∧
        (names.drop p).take sub.completeSize = sub.baseNames ∧
        ∀ k n, names[k]? = some n →
          (n ∈ sub.baseNames ↔ p ≤ k ∧ k < p + sub.completeSize) := by
  intro l names
  have hframed : l.Framed := framed_perform c statementPrefix iteratorPrefix ops
  obtain ⟨v, htraced⟩ := traced_perform c statementPrefix iteratorPrefix ops
  have hsound : l.Sound c.maxDimension v v [] := htraced.sound
  have hstage := hsound.stage_le
  have hspaces := spaces_eq l
  have hnames : names = l.entries.flatMap fun e => e.2.baseNames := by
    rw [← inputNames_of_staged hstage]
    exact hframed.split_inputIterators hstage
  have hnodup : names.Nodup := by
    rw [hnames, ← inputNames_of_staged hstage, hsound.inputNames_eq]
    exact hsound.valid.names_nodup
  refine ⟨?_, hframed.first, hframed.last, ?_, ?_, ?_⟩
  · have hperm := hframed.spaces_perm.flatMap_right Subspace.baseNames
    rwa [← hperm.nodup_iff, hspaces, List.flatMap_map, ← hnames]
  · intro sub hsub
    rw [← hframed.spaces_perm.mem_iff, hspaces] at hsub
    obtain ⟨e, he, rfl⟩ := List.mem_map.mp hsub
    exact hstage e he
  · rw [hnames, length_flatMap_baseNames, size_eq]
  · intro id hid
    obtain ⟨pre, sub, post, hentries, hfind, hoffset⟩ := offset?_eq_some hframed.placed hid
    refine ⟨sub, _, hfind, hoffset, ?_, fun k n hk => ?_⟩
    · rw [hnames, hentries, List.flatMap_append, List.flatMap_cons,
        List.drop_left' (length_flatMap_baseNames pre), List.take_left' (length_baseNames sub)]
    · rw [hnames, hentries, List.flatMap_append, List.flatMap_cons] at hk hnodup
      rw [mem_part_iff hnodup hk, length_flatMap_baseNames, length_baseNames]

end LoopSched.Schedule
