import LoopSched.Proofs.Layout.Arrangement
import Mathlib.Data.List.Perm.Basic

/-!
# Places in a layout

A layout keeps its subspaces by number in one list and their numbers from left to right in another,
and counts the coordinates to the left of a subspace anew each time.  Whatever is done to a layout,
the second list is a rearrangement of the numbers of the first, and all ways to look a subspace up
follow from that: in a list without repetition, an element and its place determine each other.
-/

namespace LoopSched

namespace Layout

/-! ### Operations -/

/-- The side of its cursor on which a subspace is put. -/
inductive Side where
  | left
  | right
deriving DecidableEq, Repr

/-- Put a new subspace directly beside another. -/
def insert (l : Layout) : Side → Subspace → ℕ → Except ConfigError (ℕ × Layout)
  | .left => l.insertLeft
  | .right => l.insertRight

/-- Where a new subspace comes from. -/
inductive Origin where
  | given (s : Subspace)
  | derived (stem : String) (count source : ℕ)
deriving DecidableEq, Repr

def Origin.subspace (l : Layout) : Origin → Except Failure Subspace
  | given s => .ok s
  | derived stem count source => do
    let s ← (l.find source).mapError Failure.config
    (Subspace.derived stem count s).mapError Failure.dimension

/-- What can be done to a layout. -/
inductive Operation where
  | insert (side : Side) (origin : Origin) (cursor : ℕ)
  | setAlias (id : ℕ) (on : Bool)
  | setStage (id : ℕ) (stage : Stage)
  | takeStem (base : String)
  | advance
  | nextStage
deriving DecidableEq, Repr

/-- The layout after an operation.  One that fails leaves it as it is, and so does a change to a
subspace that does not exist. -/
def Operation.act (l : Layout) : Operation → Layout
  | insert side origin cursor =>
    match origin.subspace l with
    | .ok fresh =>
      match l.insert side fresh cursor with
      | .ok placed => placed.2
      | .error _ => l
    | .error _ => l
  | setAlias id on => l.setAlias id on
  | setStage id stage => l.modify id ({ · with stage })
  | takeStem base => (l.freshStem base).2
  | advance => l.advance
  | nextStage => l.nextStage

/-- The layout after some operations. -/
def perform (l : Layout) (ops : List Operation) : Layout := ops.foldl Operation.act l

/-! ### The order -/

/-- Every subspace has exactly one place. -/
def Ordered (l : Layout) : Prop := l.order.Perm (List.range l.arena.length)

/-- A subspace is inserted where the order is cut, and the cut is beside the cursor. -/
theorem insert_eq_ok {l : Layout} {cursor p : ℕ} (h : l.position? cursor = some p) (side : Side)
    (fresh : Subspace) : ∃ left right, l.order = left ++ right ∧
      l.insert side fresh cursor = .ok (l.insertAt fresh left.length) ∧
      (side = .left → right.head? = some cursor) ∧
      (side = .right → left.getLast? = some cursor) := by
  obtain ⟨left, right, horder, rfl⟩ := position?_eq_some h
  cases side with
  | left =>
    refine ⟨left, cursor :: right, horder, ?_, fun _ => rfl, fun h => by cases h⟩
    rw [insert, insertLeft, h]
  | right =>
    refine ⟨left ++ [cursor], right, ?_, ?_, ?_, fun _ => List.getLast?_concat⟩
    · rw [horder, List.append_assoc, List.singleton_append]
    · rw [insert, insertRight, h, List.length_append, List.length_singleton]
    · intro h
      cases h

theorem insert_eq_error {l : Layout} {cursor : ℕ} (h : l.position? cursor = none) (side : Side)
    (fresh : Subspace) :
    l.insert side fresh cursor = .error ⟨.unmanagedSubspace cursor, none⟩ := by
  cases side with
  | left => rw [insert, insertLeft, h]
  | right => rw [insert, insertRight, h]

theorem order_insertAt {l : Layout} {left right : List ℕ} (h : l.order = left ++ right)
    (fresh : Subspace) :
    (l.insertAt fresh left.length).2.order = left ++ l.arena.length :: right := by
  rw [insertAt, h, insertIdx_length]

theorem Ordered.insertAt {l : Layout} (h : l.Ordered) {left right : List ℕ}
    (horder : l.order = left ++ right) (fresh : Subspace) :
    (l.insertAt fresh left.length).2.Ordered := by
  have hlength : (l.insertAt fresh left.length).2.arena.length = l.arena.length + 1 :=
    List.length_append
  unfold Ordered at h ⊢
  rw [horder] at h
  rw [order_insertAt horder, hlength]
  exact perm_range_succ h

/-- An insertion with an unknown cursor changes nothing, whatever is to be inserted. -/
theorem act_insert_of_unknown {l : Layout} {cursor : ℕ} (h : l.position? cursor = none)
    (side : Side) (origin : Origin) : (Operation.insert side origin cursor).act l = l := by
  simp only [Operation.act, insert_eq_error h]
  split <;> rfl

/-- An insertion changes nothing or cuts the order somewhere. -/
theorem act_insert (l : Layout) (side : Side) (origin : Origin) (cursor : ℕ) :
    (Operation.insert side origin cursor).act l = l ∨ ∃ fresh left right,
      l.order = left ++ right ∧
      (Operation.insert side origin cursor).act l = (l.insertAt fresh left.length).2 := by
  cases hp : l.position? cursor with
  | none => exact Or.inl (act_insert_of_unknown hp side origin)
  | some p =>
    cases horigin : origin.subspace l with
    | error e =>
      left
      simp only [Operation.act, horigin]
    | ok fresh =>
      obtain ⟨left, right, horder, hinsert, -⟩ := insert_eq_ok hp side fresh
      refine Or.inr ⟨fresh, left, right, horder, ?_⟩
      simp only [Operation.act, horigin, hinsert]

theorem ordered_make (loops nest : Subspace) : (make loops nest).Ordered := List.Perm.refl _

theorem Ordered.congr {l l' : Layout} (h : l.Ordered) (horder : l'.order = l.order)
    (hlength : l'.arena.length = l.arena.length) : l'.Ordered := by
  unfold Ordered
  rwa [horder, hlength]

theorem Ordered.act {l : Layout} (h : l.Ordered) (op : Operation) : (op.act l).Ordered := by
  cases op with
  | insert side origin cursor =>
    rcases l.act_insert side origin cursor with hsame | ⟨fresh, left, right, horder, hcut⟩
    · rwa [hsame]
    · rw [hcut]
      exact h.insertAt horder fresh
  | setAlias id on => exact h.congr rfl (List.length_modify ..)
  | setStage id stage => exact h.congr rfl (List.length_modify ..)
  | takeStem base => exact h
  | advance => exact h
  | nextStage => exact h.congr rfl (List.length_map ..)

theorem Ordered.perform {l : Layout} (h : l.Ordered) (ops : List Operation) :
    (l.perform ops).Ordered := by
  induction ops generalizing l with
  | nil => exact h
  | cons op ops ih => exact ih (h.act op)

/-! ### Looking up -/

namespace Ordered

variable {l : Layout} {id : ℕ}

theorem nodup (h : l.Ordered) : l.order.Nodup := h.nodup_iff.mpr List.nodup_range

theorem mem_iff (h : l.Ordered) : id ∈ l.order ↔ id < l.arena.length :=
  (List.Perm.mem_iff h).trans List.mem_range

theorem position?_iff (h : l.Ordered) {p : ℕ} :
    l.position? id = some p ↔ l.order[p]? = some id := by
  rw [position?, List.findIdx?_eq_some_iff_getElem, List.getElem?_eq_some_iff]
  constructor
  · rintro ⟨hp, hid, -⟩
    exact ⟨hp, of_decide_eq_true hid⟩
  · rintro ⟨hp, rfl⟩
    refine ⟨hp, decide_eq_true rfl, fun j hj hsame => ?_⟩
    have := (h.nodup.getElem_inj_iff).mp (of_decide_eq_true hsame)
    omega

theorem exists_position (h : l.Ordered) :
    (∃ p, l.position? id = some p) ↔ id < l.arena.length := by
  rw [← h.mem_iff, List.mem_iff_getElem?]
  exact exists_congr fun p => h.position?_iff

theorem isSome_position? (h : l.Ordered) : (l.position? id).isSome ↔ (l.get? id).isSome := by
  rw [Option.isSome_iff_exists, h.exists_position, get?, isSome_getElem?]

theorem exists_find (h : l.Ordered) : (∃ s, l.find id = .ok s) ↔ (l.get? id).isSome := by
  rw [Option.isSome_iff_exists]
  refine exists_congr fun s => ?_
  rw [find_eq_ok, mem_entries, get?, h.mem_iff]
  exact ⟨And.right, fun hs => ⟨(List.getElem?_eq_some_iff.mp hs).1, hs⟩⟩

theorem next?_iff (h : l.Ordered) {next : ℕ} : l.next? id = some next ↔
    ∃ p, l.position? id = some p ∧ l.position? next = some (p + 1) := by
  rw [next?, Option.bind_eq_bind, Option.bind_eq_some_iff]
  exact exists_congr fun p => and_congr_right fun _ => h.position?_iff.symm

theorem leftOf_iff (h : l.Ordered) {k left : ℕ} : (l.leftOf id)[k]? = some left ↔
    ∃ p, l.position? left = some p ∧ l.position? id = some (p + k + 1) := by
  unfold leftOf
  cases hid : l.position? id with
  | none => simp
  | some q =>
    have hq : q < l.order.length := by
      obtain ⟨hq, -⟩ := List.getElem?_eq_some_iff.mp (h.position?_iff.mp hid)
      exact hq
    have hlength : (l.order.take q).length = q := List.length_take_of_le (Nat.le_of_lt hq)
    simp only [h.position?_iff, Option.some.injEq]
    constructor
    · intro hk
      obtain ⟨hlt, -⟩ := List.getElem?_eq_some_iff.mp hk
      rw [List.length_reverse, hlength] at hlt
      rw [List.getElem?_reverse (hlength.symm ▸ hlt), hlength,
        List.getElem?_take_of_lt (by omega)] at hk
      exact ⟨q - 1 - k, hk, by omega⟩
    · rintro ⟨p, hp, rfl⟩
      rw [List.getElem?_reverse (by omega), hlength, List.getElem?_take_of_lt (by omega), ← hp]
      congr 1
      omega

end Ordered

/-! ### Offsets -/

/-- Number of coordinates of some subspaces. -/
def width (l : Layout) (ids : List ℕ) : ℕ :=
  total ((ids.filterMap (l.arena[·]?)).map Subspace.completeSize)

theorem width_append (l : Layout) (ids ids' : List ℕ) :
    l.width (ids ++ ids') = l.width ids + l.width ids' := by
  simp only [width, List.filterMap_append, List.map_append, total_append]

theorem offset?_of_position {l : Layout} {id p : ℕ} (h : l.position? id = some p) :
    l.offset? id = some (l.width (l.order.take p)) := by
  rw [offset?, h]
  rfl

/-- Subspaces keep their widths when one is added. -/
theorem width_insertAt {l : Layout} {ids : List ℕ} (h : ∀ id ∈ ids, id < l.arena.length)
    (fresh : Subspace) (p : ℕ) : (l.insertAt fresh p).2.width ids = l.width ids := by
  have hsame : ids.filterMap ((l.insertAt fresh p).2.arena[·]?) = ids.filterMap (l.arena[·]?) :=
    List.filterMap_congr fun id hid => List.getElem?_append_left (h id hid)
  rw [width, width, hsame]

theorem width_inserted (l : Layout) (fresh : Subspace) (p : ℕ) :
    (l.insertAt fresh p).2.width [l.arena.length] = fresh.completeSize := by
  simp [width, insertAt, Subspace.completeSize, Subspace.size]

/-- What an insertion has done to a layout. -/
structure Inserted (l : Layout) (side : Side) (fresh : Subspace) (cursor n : ℕ) (l' : Layout) :
    Prop where
  /-- The number was not taken. -/
  new : l.get? n = none
  get : ∀ id, l'.get? id = if id = n then some { fresh with stage := l.outputStage } else l.get? id
  beside_left : side = .left → l'.next? n = some cursor
  beside_right : side = .right → l'.next? cursor = some n
  /-- All others keep their relative order. -/
  others : l'.order.filter (· ≠ n) = l.order
  /-- What stands to the right moves by the width of the new subspace, and nothing else moves. -/
  offset : ∀ id p q, id ≠ n → l'.position? n = some p → l'.position? id = some q →
    ∃ o, l.offset? id = some o ∧
      l'.offset? id = some (if p < q then o + fresh.completeSize else o)

namespace Ordered

variable {l : Layout} {left right : List ℕ} {fresh : Subspace}

theorem not_mem_order (h : l.Ordered) : l.arena.length ∉ l.order := fun hmem =>
  absurd (h.mem_iff.mp hmem) (Nat.lt_irrefl _)

/-- A subspace at a place left of the cut keeps its place, one right of it moves by one place. -/
theorem offset_insertAt (h : l.Ordered) (horder : l.order = left ++ right) {id q : ℕ}
    (hid : id ≠ l.arena.length)
    (hq : (l.insertAt fresh left.length).2.position? id = some q) : ∃ o, l.offset? id = some o ∧
      (l.insertAt fresh left.length).2.offset? id =
        some (if left.length < q then o + fresh.completeSize else o) := by
  have hlt : ∀ i ∈ left ++ right, i < l.arena.length := fun i hi => h.mem_iff.mp (horder ▸ hi)
  have hplace := (h.insertAt horder fresh).position?_iff.mp hq
  rw [order_insertAt horder] at hplace
  rw [offset?_of_position hq, order_insertAt horder]
  rcases Nat.lt_trichotomy q left.length with hlower | rfl | hupper
  · have hold : l.position? id = some q := by
      rw [h.position?_iff, horder, List.getElem?_append_left hlower]
      rwa [List.getElem?_append_left hlower] at hplace
    refine ⟨_, offset?_of_position hold, ?_⟩
    rw [if_neg (by omega), horder, List.take_append_of_le_length (Nat.le_of_lt hlower),
      List.take_append_of_le_length (Nat.le_of_lt hlower), width_insertAt]
    exact fun i hi => hlt i (List.mem_append_left _ (List.mem_of_mem_take hi))
  · rw [List.getElem?_append_right (Nat.le_refl _), Nat.sub_self] at hplace
    exact absurd (Option.some.inj hplace).symm hid
  · obtain ⟨r, rfl⟩ : ∃ r, q = left.length + (r + 1) := ⟨q - left.length - 1, by omega⟩
    have hold : l.position? id = some (left.length + r) := by
      rw [h.position?_iff, horder, List.getElem?_append_right (Nat.le_add_right _ _),
        Nat.add_sub_cancel_left]
      rwa [List.getElem?_append_right (Nat.le_add_right _ _), Nat.add_sub_cancel_left,
        List.getElem?_cons_succ] at hplace
    have hrest : ∀ i ∈ right.take r, i < l.arena.length := fun i hi =>
      hlt i (List.mem_append_right _ (List.mem_of_mem_take hi))
    refine ⟨_, offset?_of_position hold, ?_⟩
    rw [if_pos hupper, horder, List.take_length_add_append, List.take_length_add_append,
      List.take_succ_cons, ← List.singleton_append, width_append, width_append, width_append,
      width_insertAt fun i hi => hlt i (List.mem_append_left _ hi), width_inserted,
      width_insertAt hrest]
    congr 1
    omega

theorem inserted (h : l.Ordered) (horder : l.order = left ++ right) {side : Side} {cursor : ℕ}
    (hleft : side = .left → right.head? = some cursor)
    (hright : side = .right → left.getLast? = some cursor) (fresh : Subspace) :
    l.Inserted side fresh cursor l.arena.length (l.insertAt fresh left.length).2 := by
  have hnew := h.insertAt horder fresh
  have horder' := order_insertAt horder fresh
  have hplace : (l.insertAt fresh left.length).2.position? l.arena.length = some left.length := by
    rw [hnew.position?_iff, horder', List.getElem?_append_right (Nat.le_refl _), Nat.sub_self]
    rfl
  refine ⟨List.getElem?_eq_none (Nat.le_refl _), ?_, ?_, ?_, ?_, ?_⟩
  · intro id
    show (l.arena ++ [_])[id]? = _
    split_ifs with hid
    · rw [hid, List.getElem?_concat_length]
    · rcases Nat.lt_or_ge id l.arena.length with hlt | hge
      · exact List.getElem?_append_left hlt
      · have hid : l.arena.length + 1 ≤ id := by omega
        rw [get?, List.getElem?_eq_none hge, List.getElem?_eq_none]
        rwa [List.length_append]
  · intro hside
    refine hnew.next?_iff.mpr ⟨left.length, hplace, hnew.position?_iff.mpr ?_⟩
    rw [horder', List.getElem?_append_right (Nat.le_add_right _ _), Nat.add_sub_cancel_left,
      List.getElem?_cons_succ, ← List.head?_eq_getElem?]
    exact hleft hside
  · intro hside
    obtain ⟨init, rfl⟩ := List.getLast?_eq_some_iff.mp (hright hside)
    refine hnew.next?_iff.mpr ⟨init.length, hnew.position?_iff.mpr ?_, ?_⟩
    · rw [horder', List.append_assoc, List.getElem?_append_right (Nat.le_refl _), Nat.sub_self]
      rfl
    · rw [hplace, List.length_append, List.length_singleton]
  · have hfilter : l.order.filter (· ≠ l.arena.length) = l.order :=
      List.filter_eq_self.mpr fun i hi =>
        decide_eq_true fun hsame => h.not_mem_order (hsame ▸ hi)
    rw [horder', ← List.singleton_append, List.filter_append, List.filter_append,
      List.filter_singleton]
    rw [horder, List.filter_append] at hfilter
    simpa [horder] using hfilter
  · intro id p q hid hp hq
    obtain rfl : left.length = p := Option.some.inj (hplace.symm.trans hp)
    exact h.offset_insertAt horder hid hq

end Ordered

/-- The list of subspaces, the order and all ways to look a subspace up agree, and stay so when one
is inserted. -/
structure Consistent (l : Layout) : Prop where
  perm : l.order.Perm (List.range l.arena.length)
  nodup : l.order.Nodup
  find : ∀ id, (∃ s, l.find id = .ok s) ↔ (l.get? id).isSome
  position : ∀ id, (l.position? id).isSome ↔ (l.get? id).isSome
  /-- An insertion with an unknown cursor fails and changes nothing. -/
  unknown : ∀ side cursor, l.get? cursor = none →
    (∀ fresh, l.insert side fresh cursor = .error ⟨.unmanagedSubspace cursor, none⟩) ∧
      ∀ origin, (Operation.insert side origin cursor).act l = l
  /-- An insertion with any other cursor succeeds. -/
  insert : ∀ side fresh cursor, (l.get? cursor).isSome →
    ∃ n l', l.insert side fresh cursor = .ok (n, l') ∧ l.Inserted side fresh cursor n l'
  next : ∀ id next, l.next? id = some next ↔
    ∃ p, l.position? id = some p ∧ l.position? next = some (p + 1)
  /-- The subspaces to the left are those at lower places, the nearest first. -/
  leftOf : ∀ id k left, (l.leftOf id)[k]? = some left ↔
    ∃ p, l.position? left = some p ∧ l.position? id = some (p + k + 1)

theorem Ordered.consistent {l : Layout} (h : l.Ordered) : l.Consistent where
  perm := h
  nodup := h.nodup
  find _ := h.exists_find
  position _ := h.isSome_position?
  unknown side cursor hcursor := by
    have hp : l.position? cursor = none := by
      rw [← Option.not_isSome_iff_eq_none, h.isSome_position?, hcursor]
      exact Bool.false_ne_true
    exact ⟨insert_eq_error hp side, act_insert_of_unknown hp side⟩
  insert side fresh cursor hcursor := by
    obtain ⟨p, hp⟩ := Option.isSome_iff_exists.mp (h.isSome_position?.mpr hcursor)
    obtain ⟨left, right, horder, hinsert, hleft, hright⟩ := insert_eq_ok hp side fresh
    exact ⟨_, _, hinsert, h.inserted horder hleft hright fresh⟩
  next _ _ := h.next?_iff
  leftOf _ _ _ := h.leftOf_iff

/-- Whatever is done to a layout, its subspaces, their places and their offsets agree. -/
theorem consistent_perform (loops nest : Subspace) (ops : List Operation) :
    ((make loops nest).perform ops).Consistent :=
  ((ordered_make loops nest).perform ops).consistent

end Layout

end LoopSched
