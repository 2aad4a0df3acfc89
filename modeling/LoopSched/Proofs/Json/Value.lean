import LoopSched.Json.Decode
import LoopSched.Proofs.Json.Token

/-!
# Values are read back

A value is read back from its own tokens, whatever follows them, so also from its text.  Along with
that come the two facts about a value on which typed readers depend: how deep its arrays and objects
are nested, and that nothing in it is out of range.
-/

namespace LoopSched.Json

/-- A fact about all values follows when it passes from the parts of arrays and objects to the
whole. -/
theorem induct {P : Json → Prop} (null : P .null) (bool : ∀ b, P (.bool b))
    (number : ∀ n, P (.number n)) (string : ∀ s, P (.string s))
    (array : ∀ xs, (∀ x ∈ xs, P x) → P (.array xs))
    (object : ∀ ms, (∀ m ∈ ms, P m.2) → P (.object ms)) : ∀ j, P j
  | .null => null
  | .bool b => bool b
  | .number n => number n
  | .string s => string s
  | .array xs => array xs fun x _ => induct null bool number string array object x
  | .object ms => object ms fun m _ => induct null bool number string array object m.2
termination_by j => sizeOf j
decreasing_by
  · decreasing_tactic
  · rename_i hm
    have hlt := List.sizeOf_lt_of_mem hm
    cases m
    simp only [Prod.mk.sizeOf_spec, Json.object.sizeOf_spec] at hlt ⊢
    omega

/-! ### Tokens -/

theorem itemTokens_cons (x : Json) (xs : List Json) :
    itemTokens (x :: xs) = x.tokens ++ xs.flatMap fun y => .comma :: y.tokens := by
  induction xs generalizing x with
  | nil => rw [itemTokens, List.flatMap_nil, List.append_nil]
  | cons y ys ih => rw [itemTokens, ih, List.flatMap_cons, List.cons_append]

/-- Tokens of a member. -/
def memberToken (m : Option String × Json) : List Token := .string m.1 :: .colon :: m.2.tokens

theorem memberTokens_cons (m : Option String × Json) (ms : List (Option String × Json)) :
    memberTokens (m :: ms) = memberToken m ++ ms.flatMap fun k => .comma :: memberToken k := by
  induction ms generalizing m with
  | nil =>
    obtain ⟨k, x⟩ := m
    rw [memberTokens, List.flatMap_nil, List.append_nil]
    rfl
  | cons n ns ih =>
    obtain ⟨k, x⟩ := m
    rw [memberTokens, ih, List.flatMap_cons, List.cons_append]
    rfl

theorem separated_flatMap_comma {α : Type} {f : α → List Token} {xs : List α}
    (h : ∀ x ∈ xs, Token.Separated (f x)) {ts : List Token} (hts : Token.Separated ts) :
    Token.Separated (ts ++ xs.flatMap fun x => .comma :: f x) := by
  induction xs generalizing ts with
  | nil => rwa [List.flatMap_nil, List.append_nil]
  | cons x xs ih =>
    obtain ⟨hx, hxs⟩ := List.forall_mem_cons.mp h
    rw [List.flatMap_cons, List.cons_append, Token.separated_middle rfl]
    exact ⟨hts, ih hxs hx⟩

/-- Brackets, commas and colons keep the numbers of a value apart. -/
theorem separated_tokens (j : Json) : Token.Separated j.tokens := by
  have hbetween : ∀ {a b : Token} {ts : List Token}, a.isNumber = false → b.isNumber = false →
      Token.Separated ts → Token.Separated (a :: ts ++ [b]) := by
    intro a b ts ha hb hts
    rw [Token.separated_middle hb, ← List.nil_append (a :: ts), Token.separated_middle ha]
    exact ⟨⟨List.isChain_nil, hts⟩, List.isChain_nil⟩
  induction j using induct with
  | null => exact List.isChain_singleton _
  | bool b => exact List.isChain_singleton _
  | number n => exact List.isChain_singleton _
  | string s => exact List.isChain_singleton _
  | array xs ih =>
    refine hbetween rfl rfl ?_
    cases xs with
    | nil => exact List.isChain_nil
    | cons x xs =>
      obtain ⟨hx, hxs⟩ := List.forall_mem_cons.mp ih
      rw [itemTokens_cons]
      exact separated_flatMap_comma hxs hx
  | object ms ih =>
    refine hbetween rfl rfl ?_
    have hmember : ∀ m ∈ ms, Token.Separated (memberToken m) := by
      intro m hm
      rw [memberToken, ← List.singleton_append, Token.separated_middle rfl]
      exact ⟨List.isChain_singleton _, ih m hm⟩
    cases ms with
    | nil => exact List.isChain_nil
    | cons m ms =>
      obtain ⟨hm, hms⟩ := List.forall_mem_cons.mp hmember
      rw [memberTokens_cons]
      exact separated_flatMap_comma hms hm

/-! ### Reading tokens -/

/-- The first token of a value does not end an array. -/
theorem head?_tokens_append (j : Json) (ts : List Token) :
    (j.tokens ++ ts).head? ≠ some .closeArray := by
  cases j <;> rintro ⟨⟩

/-- The value is read back from its tokens. -/
def ReadsBack (j : Json) : Prop :=
  ∀ n rest, 2 * j.tokens.length ≤ n → value n (j.tokens ++ rest) = some (j, rest)

theorem items_tokens {x : Json} {xs : List Json} (hx : x.ReadsBack) (hxs : ∀ y ∈ xs, y.ReadsBack)
    {n : ℕ} (hn : 2 * (itemTokens (x :: xs)).length + 1 ≤ n) (rest : List Token) :
    items n (itemTokens (x :: xs) ++ .closeArray :: rest) = some (x :: xs, rest) := by
  obtain ⟨n, rfl⟩ : ∃ k, n = k + 1 := ⟨n - 1, by omega⟩
  induction xs generalizing x n with
  | nil =>
    rw [itemTokens] at hn
    rw [itemTokens, items, hx n _ (by omega)]
    rfl
  | cons y ys ih =>
    obtain ⟨hy, hys⟩ := List.forall_mem_cons.mp hxs
    rw [itemTokens, List.length_append, List.length_cons] at hn
    obtain ⟨n, rfl⟩ : ∃ k, n = k + 1 := ⟨n - 1, by omega⟩
    have hrest := ih hy hys n (by omega)
    rw [itemTokens, List.append_assoc, List.cons_append, items, hx (n + 1) _ (by omega)]
    simp only [Option.bind_eq_bind, Option.bind_some, hrest, Option.map_some]

theorem members_tokens {m : Option String × Json} {ms : List (Option String × Json)}
    (hm : m.2.ReadsBack) (hms : ∀ k ∈ ms, k.2.ReadsBack) {n : ℕ}
    (hn : 2 * (memberTokens (m :: ms)).length + 1 ≤ n) (rest : List Token) :
    members n (memberTokens (m :: ms) ++ .closeObject :: rest) = some (m :: ms, rest) := by
  obtain ⟨n, rfl⟩ : ∃ k, n = k + 1 := ⟨n - 1, by omega⟩
  induction ms generalizing m n with
  | nil =>
    obtain ⟨k, x⟩ := m
    rw [memberTokens, List.length_cons, List.length_cons] at hn
    rw [memberTokens, List.cons_append, List.cons_append, members, hm n _ (by dsimp only; omega)]
    rfl
  | cons l ls ih =>
    obtain ⟨k, x⟩ := m
    obtain ⟨hl, hls⟩ := List.forall_mem_cons.mp hms
    rw [memberTokens, List.cons_append, List.cons_append, List.length_cons, List.length_cons,
      List.length_append, List.length_cons] at hn
    obtain ⟨n, rfl⟩ : ∃ k, n = k + 1 := ⟨n - 1, by omega⟩
    have hrest := ih hl hls n (by omega)
    rw [memberTokens, List.cons_append, List.cons_append, List.cons_append, List.cons_append,
      List.append_assoc, List.cons_append, members, hm (n + 1) _ (by dsimp only; omega)]
    simp only [Option.bind_eq_bind, Option.bind_some, hrest, Option.map_some]

theorem value_openArray {n : ℕ} {ts : List Token} (h : ts.head? ≠ some .closeArray) :
    value (n + 1) (.openArray :: ts) = (items n ts).map fun r => (.array r.1, r.2) := by
  rw [value]
  rintro us rfl
  exact absurd rfl h

theorem value_openObject {n : ℕ} {ts : List Token} (h : ts.head? ≠ some .closeObject) :
    value (n + 1) (.openObject :: ts) = (members n ts).map fun r => (.object r.1, r.2) := by
  rw [value]
  rintro us rfl
  exact absurd rfl h

/-- Fuel for twice the tokens is enough: a value takes one step for itself and one for each of its
parts. -/
theorem readsBack (j : Json) : j.ReadsBack := by
  induction j using induct with
  | array xs ih =>
    intro n rest hn
    rw [tokens, List.cons_append, List.length_cons, List.length_append, List.length_singleton] at hn
    obtain ⟨n, rfl⟩ : ∃ k, n = k + 1 := ⟨n - 1, by omega⟩
    cases xs with
    | nil => rfl
    | cons x xs =>
      obtain ⟨hx, hxs⟩ := List.forall_mem_cons.mp ih
      rw [tokens, List.cons_append, List.cons_append, List.append_assoc, List.singleton_append,
        value_openArray, items_tokens hx hxs (by omega)]
      · rfl
      · rw [itemTokens_cons, List.append_assoc]
        exact head?_tokens_append x _
  | object ms ih =>
    intro n rest hn
    rw [tokens, List.cons_append, List.length_cons, List.length_append, List.length_singleton] at hn
    obtain ⟨n, rfl⟩ : ∃ k, n = k + 1 := ⟨n - 1, by omega⟩
    cases ms with
    | nil => rfl
    | cons m ms =>
      obtain ⟨hm, hms⟩ := List.forall_mem_cons.mp ih
      rw [tokens, List.cons_append, List.cons_append, List.append_assoc, List.singleton_append,
        value_openObject, members_tokens hm hms (by omega)]
      · rfl
      · rw [memberTokens_cons]
        rintro ⟨⟩
  | _ =>
    intro n rest hn
    rw [tokens, List.length_singleton] at hn
    obtain ⟨n, rfl⟩ : ∃ k, n = k + 1 := ⟨n - 1, by omega⟩
    rfl

/-! ### Plain values -/

/-- Every number is a word as it is written, and every string has a text. -/
inductive Plain : Json → Prop
  | null : Plain .null
  | bool (b : Bool) : Plain (.bool b)
  | number {n : Numeral} : n.Whole → n.whole < Word.count → Plain (.number n)
  | string (s : String) : Plain (.string (some s))
  | array {xs : List Json} : (∀ x ∈ xs, Plain x) → Plain (.array xs)
  | object {ms : List (Option String × Json)} : (∀ m ∈ ms, m.1.isSome = true) →
      (∀ m ∈ ms, Plain m.2) → Plain (.object ms)

theorem mem_itemTokens {xs : List Json} {t : Token} (h : t ∈ itemTokens xs) :
    t = .comma ∨ ∃ x ∈ xs, t ∈ x.tokens := by
  cases xs with
  | nil => cases h
  | cons x xs =>
    rw [itemTokens_cons] at h
    simp only [List.mem_append, List.mem_flatMap, List.mem_cons] at h
    rcases h with h | ⟨y, hy, rfl | h⟩
    · exact Or.inr ⟨x, List.mem_cons_self, h⟩
    · exact Or.inl rfl
    · exact Or.inr ⟨y, List.mem_cons_of_mem _ hy, h⟩

theorem mem_memberTokens {ms : List (Option String × Json)} {t : Token}
    (h : t ∈ memberTokens ms) : t = .comma ∨ ∃ m ∈ ms, t ∈ memberToken m := by
  cases ms with
  | nil => cases h
  | cons m ms =>
    rw [memberTokens_cons] at h
    simp only [List.mem_append, List.mem_flatMap, List.mem_cons] at h
    rcases h with h | ⟨k, hk, rfl | h⟩
    · exact Or.inr ⟨m, List.mem_cons_self, h⟩
    · exact Or.inl rfl
    · exact Or.inr ⟨k, List.mem_cons_of_mem _ hk, h⟩

theorem Plain.writable {j : Json} (h : j.Plain) : ∀ t ∈ j.tokens, t.Writable := by
  induction h with
  | null => exact List.forall_mem_singleton.mpr trivial
  | bool b => exact List.forall_mem_singleton.mpr trivial
  | number hwhole _ => exact List.forall_mem_singleton.mpr hwhole
  | string s => exact List.forall_mem_singleton.mpr trivial
  | array _ ih =>
    intro t ht
    simp only [tokens, List.mem_append, List.mem_cons, List.not_mem_nil, or_false] at ht
    rcases ht with (rfl | ht) | rfl
    · trivial
    · rcases mem_itemTokens ht with rfl | ⟨x, hx, ht⟩
      · trivial
      · exact ih x hx t ht
    · trivial
  | object _ _ ih =>
    intro t ht
    simp only [tokens, List.mem_append, List.mem_cons, List.not_mem_nil, or_false] at ht
    rcases ht with (rfl | ht) | rfl
    · trivial
    · rcases mem_memberTokens ht with rfl | ⟨m, hm, ht⟩
      · trivial
      · simp only [memberToken, List.mem_cons] at ht
        rcases ht with rfl | rfl | ht
        · trivial
        · trivial
        · exact ih m hm t ht
    · trivial

/-- A plain value is read back from its text. -/
theorem Plain.parse?_render {j : Json} (h : j.Plain) : parse? j.render = some j := by
  have hchars : j.render.toList = Token.chars j.tokens := by
    rw [render, String.toList_join, List.flatMap_map, Token.chars]
  have hvalue := j.readsBack (2 * j.tokens.length + 1) [] (Nat.le_succ _)
  rw [List.append_nil] at hvalue
  rw [parse?, hchars, Token.scan_chars h.writable j.separated_tokens]
  simp only [Option.bind_eq_bind, Option.bind_some, ofTokens?, hvalue]

/-! ### Nesting -/

mutual

/-- How deep arrays and objects are nested. -/
def depth : Json → ℕ
  | .array xs => itemsDepth xs + 1
  | .object ms => membersDepth ms + 1
  | _ => 0

def itemsDepth : List Json → ℕ
  | [] => 0
  | x :: xs => max x.depth (itemsDepth xs)

def membersDepth : List (Option String × Json) → ℕ
  | [] => 0
  | m :: ms => max m.2.depth (membersDepth ms)

end

theorem itemsDepth_le {xs : List Json} {room : ℕ} :
    itemsDepth xs ≤ room ↔ ∀ x ∈ xs, x.depth ≤ room := by
  induction xs with
  | nil => simp [itemsDepth]
  | cons x xs ih => rw [itemsDepth, Nat.max_le, ih, List.forall_mem_cons]

theorem membersDepth_le {ms : List (Option String × Json)} {room : ℕ} :
    membersDepth ms ≤ room ↔ ∀ m ∈ ms, m.2.depth ≤ room := by
  induction ms with
  | nil => simp [membersDepth]
  | cons m ms ih => rw [membersDepth, Nat.max_le, ih, List.forall_mem_cons]

theorem depth_array_le {xs : List Json} {room : ℕ} :
    (array xs).depth ≤ room ↔ ∃ k, room = k + 1 ∧ ∀ x ∈ xs, x.depth ≤ k := by
  simp only [depth, ← itemsDepth_le]
  exact ⟨fun h => ⟨room - 1, by omega, by omega⟩, fun ⟨k, hk, h⟩ => by omega⟩

theorem depth_object_le {ms : List (Option String × Json)} {room : ℕ} :
    (object ms).depth ≤ room ↔ ∃ k, room = k + 1 ∧ ∀ m ∈ ms, m.2.depth ≤ k := by
  simp only [depth, ← membersDepth_le]
  exact ⟨fun h => ⟨room - 1, by omega, by omega⟩, fun ⟨k, hk, h⟩ => by omega⟩

theorem itemsReadable_iff {xs : List Json} {room : ℕ} :
    Decode.itemsReadable room xs = true ↔ ∀ x ∈ xs, Decode.readable room x = true := by
  induction xs with
  | nil => simp [Decode.itemsReadable]
  | cons x xs ih => rw [Decode.itemsReadable, Bool.and_eq_true, ih, List.forall_mem_cons]

theorem membersReadable_iff {ms : List (Option String × Json)} {room : ℕ} :
    Decode.membersReadable room ms = true ↔
      ∀ m ∈ ms, m.1.isSome = true ∧ Decode.readable room m.2 = true := by
  induction ms with
  | nil => simp [Decode.membersReadable]
  | cons m ms ih => rw [Decode.membersReadable, Bool.and_eq_true, Bool.and_eq_true, ih,
      List.forall_mem_cons]

/-- Only its nesting can keep a plain value from being readable. -/
theorem Plain.readable_iff {j : Json} (h : j.Plain) {room : ℕ} :
    Decode.readable room j = true ↔ j.depth ≤ room := by
  induction h generalizing room with
  | null => simp [Decode.readable, depth]
  | bool b => simp [Decode.readable, depth]
  | number hwhole hlt =>
    simp [Decode.readable, depth, Numeral.finite_of_lt hlt hwhole.1 hwhole.2]
  | string s => simp [Decode.readable, depth]
  | @array xs _ ih =>
    have hitems : ∀ k, Decode.itemsReadable k xs = true ↔ itemsDepth xs ≤ k := fun k => by
      rw [itemsReadable_iff, itemsDepth_le]
      exact forall₂_congr fun x hx => ih x hx
    rw [Decode.readable, Bool.and_eq_true, decide_eq_true_eq, hitems, depth]
    omega
  | @object ms hnamed _ ih =>
    have hmembers : ∀ k, Decode.membersReadable k ms = true ↔ membersDepth ms ≤ k := fun k => by
      rw [membersReadable_iff, membersDepth_le]
      exact forall₂_congr fun m hm => (and_iff_right (hnamed m hm)).trans (ih m hm)
    rw [Decode.readable, Bool.and_eq_true, decide_eq_true_eq, hmembers, depth]
    omega

end LoopSched.Json
