/-!
# Sets and maps as sorted lists

A set is a list in increasing order without repetitions, a map one of pairs with increasing keys.
The order is given by a comparison function.
-/

namespace LoopSched.SortedList

variable {α β : Type}

/-- Add an element to a sorted set. -/
def insert (cmp : α → α → Ordering) (x : α) : List α → List α
  | [] => [x]
  | y :: ys =>
    match cmp x y with
    | .lt => x :: y :: ys
    | .eq => y :: ys
    | .gt => y :: insert cmp x ys

/-- The set of the elements of a list. -/
def ofList (cmp : α → α → Ordering) (xs : List α) : List α :=
  xs.foldl (fun s x => insert cmp x s) []

/-- Set the value of a key, combining it with a value that is there already. -/
def upsert (cmp : α → α → Ordering) (combine : β → β → β) (k : α) (v : β) :
    List (α × β) → List (α × β)
  | [] => [(k, v)]
  | (l, w) :: rest =>
    match cmp k l with
    | .lt => (k, v) :: (l, w) :: rest
    | .eq => (l, combine w v) :: rest
    | .gt => (l, w) :: upsert cmp combine k v rest

/-- The strings of a list as a set, in the order of their code points. -/
def ofStrings (xs : List String) : List String := ofList compare xs

theorem mem_insert {cmp : α → α → Ordering} (heq : ∀ a b, cmp a b = .eq → a = b) {x y : α}
    {xs : List α} : y ∈ insert cmp x xs ↔ y = x ∨ y ∈ xs := by
  induction xs with
  | nil => simp [insert]
  | cons z zs ih =>
    unfold insert
    cases h : cmp x z with
    | lt => simp
    | eq => have := heq _ _ h; subst this; simp
    | gt => simp [ih]; grind

theorem mem_foldl_insert {cmp : α → α → Ordering} (heq : ∀ a b, cmp a b = .eq → a = b) {y : α}
    (xs s : List α) : y ∈ xs.foldl (fun s x => insert cmp x s) s ↔ y ∈ s ∨ y ∈ xs := by
  induction xs generalizing s with
  | nil => simp
  | cons x xs ih => simp [ih, mem_insert heq]; grind

theorem mem_ofList {cmp : α → α → Ordering} (heq : ∀ a b, cmp a b = .eq → a = b) {y : α}
    (xs : List α) : y ∈ ofList cmp xs ↔ y ∈ xs := by
  simp [ofList, mem_foldl_insert heq]

end LoopSched.SortedList
