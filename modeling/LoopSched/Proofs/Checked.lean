import LoopSched.Arith.Word
import Mathlib.Data.List.Forall2

/-!
# Checked computations and the functions they check

A checked step either stops or agrees with a plain function.  Running it over a list does the
same: when `mapM`, `foldlM` or `findM?` succeeds, the result is that of `map`, `foldl` or `find?`
with the plain function in place of the checked one.  `StopsOnly` tells for which reasons a
computation can stop; a sequence of steps stops only for the reasons of its steps.
-/

namespace LoopSched.Checked

variable {ε α β σ : Type}

/-- Renaming errors does not touch a result. -/
theorem mapError_eq_ok_iff {δ : Type} {x : Except ε α} {f : ε → δ} {a : α} :
    x.mapError f = .ok a ↔ x = .ok a := by
  constructor
  · intro h
    cases x with
    | error e => cases h
    | ok b =>
      cases h
      rfl
  · rintro rfl
    rfl

theorem bind_of_eq_ok {x : Except ε α} {a : α} (h : x = .ok a) (f : α → Except ε β) :
    x >>= f = f a := by
  rw [h]
  rfl

/-- A mapping succeeds only if every step does, and collects the results in order. -/
theorem mapM_forall₂ {f : α → Except ε β} : ∀ {xs : List α} {ys : List β},
    xs.mapM f = .ok ys → List.Forall₂ (fun x y => f x = .ok y) xs ys
  | [], ys, h => by
    simp only [List.mapM_nil] at h
    cases h
    exact .nil
  | x :: xs, ys, h => by
    rw [List.mapM_cons] at h
    obtain ⟨y, hy, h⟩ := bind_eq_ok h
    obtain ⟨zs, hzs, h⟩ := bind_eq_ok h
    cases h
    exact .cons hy (mapM_forall₂ hzs)

theorem mapM_of_forall₂ {f : α → Except ε β} {xs : List α} {ys : List β}
    (h : List.Forall₂ (fun x y => f x = .ok y) xs ys) : xs.mapM f = .ok ys := by
  induction h with
  | nil => rfl
  | cons hxy _ ih =>
    rw [List.mapM_cons, hxy, ih]
    rfl

theorem exists_of_mem_forall₂ {R : α → β → Prop} {xs : List α} {ys : List β}
    (h : List.Forall₂ R xs ys) {y : β} (hy : y ∈ ys) : ∃ x ∈ xs, R x y := by
  obtain ⟨i, hi, rfl⟩ := List.getElem_of_mem hy
  exact ⟨_, List.getElem_mem (h.length_eq ▸ hi), h.get (h.length_eq ▸ hi) hi⟩

theorem exists_of_mem_mapM {f : α → Except ε β} {xs : List α} {ys : List β}
    (h : xs.mapM f = .ok ys) {y : β} (hy : y ∈ ys) : ∃ x ∈ xs, f x = .ok y :=
  exists_of_mem_forall₂ (mapM_forall₂ h) hy

theorem exists_mem_of_mapM {f : α → Except ε β} {xs : List α} {ys : List β}
    (h : xs.mapM f = .ok ys) {x : α} (hx : x ∈ xs) : ∃ y ∈ ys, f x = .ok y := by
  have hall := mapM_forall₂ h
  obtain ⟨i, hi, rfl⟩ := List.getElem_of_mem hx
  exact ⟨_, List.getElem_mem (hall.length_eq ▸ hi), hall.get hi (hall.length_eq ▸ hi)⟩

theorem mapM_eq_map {f : α → Except ε β} {g : α → β} {xs : List α} {ys : List β}
    (hfg : ∀ x ∈ xs, ∀ y, f x = .ok y → y = g x) (h : xs.mapM f = .ok ys) : ys = xs.map g := by
  have h2 := mapM_forall₂ h
  clear h
  induction h2 with
  | nil => rfl
  | @cons x y xs ys hxy _ ih =>
    rw [List.map_cons, hfg x (by simp) y hxy, ih fun z hz => hfg z (by simp [hz])]

theorem mapM_eq_ok_map {f : α → Except ε β} {g : α → β} : ∀ {xs : List α},
    (∀ x ∈ xs, f x = .ok (g x)) → xs.mapM f = .ok (xs.map g)
  | [], _ => rfl
  | x :: xs, h => by
    rw [List.mapM_cons, h x List.mem_cons_self,
      mapM_eq_ok_map fun z hz => h z (List.mem_cons_of_mem _ hz)]
    rfl

/-- The results of a mapping and its arguments belong to each other. -/
theorem length_of_mapM_option {f : α → Option β} {xs : List α} {ys : List β}
    (h : xs.mapM f = some ys) : ys.length = xs.length := by
  induction xs generalizing ys with
  | nil =>
    cases h
    rfl
  | cons x xs ih =>
    rw [List.mapM_cons] at h
    obtain ⟨y, -, h⟩ := Option.bind_eq_some_iff.mp h
    obtain ⟨zs, hzs, h⟩ := Option.bind_eq_some_iff.mp h
    cases h
    rw [List.length_cons, List.length_cons, ih hzs]

theorem mapM_option_mem {f : α → Option β} : ∀ {xs : List α} {ys : List β},
    xs.mapM f = some ys →
      (∀ x ∈ xs, ∃ y ∈ ys, f x = some y) ∧ ∀ y ∈ ys, ∃ x ∈ xs, f x = some y
  | [], ys, h => by
    cases h
    simp
  | x :: xs, ys, h => by
    rw [List.mapM_cons] at h
    obtain ⟨y, hy, h⟩ := Option.bind_eq_some_iff.mp h
    obtain ⟨zs, hzs, h⟩ := Option.bind_eq_some_iff.mp h
    cases h
    obtain ⟨hxs, hys⟩ := mapM_option_mem hzs
    refine ⟨fun a ha => ?_, fun b hb => ?_⟩
    · rcases List.mem_cons.mp ha with rfl | ha
      · exact ⟨y, List.mem_cons_self, hy⟩
      · obtain ⟨b, hb, hab⟩ := hxs a ha
        exact ⟨b, List.mem_cons_of_mem _ hb, hab⟩
    · rcases List.mem_cons.mp hb with rfl | hb
      · exact ⟨x, List.mem_cons_self, hy⟩
      · obtain ⟨a, ha, hab⟩ := hys b hb
        exact ⟨a, List.mem_cons_of_mem _ ha, hab⟩

/-- A mapping succeeds if every step does. -/
theorem exists_mapM_option {f : α → Option β} : ∀ {xs : List α}, (∀ x ∈ xs, ∃ y, f x = some y) →
    ∃ ys, xs.mapM f = some ys
  | [], _ => ⟨[], rfl⟩
  | x :: xs, h => by
    obtain ⟨y, hy⟩ := h x List.mem_cons_self
    obtain ⟨ys, hys⟩ := exists_mapM_option fun z hz => h z (List.mem_cons_of_mem _ hz)
    exact ⟨y :: ys, by simp [hy, hys]⟩

/-- A mapping whose steps only test their arguments gives these arguments. -/
theorem mapM_option_eq_self {f : α → Option α} (hf : ∀ x y, f x = some y → y = x) :
    ∀ {xs ys : List α}, xs.mapM f = some ys → ys = xs
  | [], ys, h => by
    cases h
    rfl
  | x :: xs, ys, h => by
    rw [List.mapM_cons] at h
    obtain ⟨y, hy, h⟩ := Option.bind_eq_some_iff.mp h
    obtain ⟨zs, hzs, h⟩ := Option.bind_eq_some_iff.mp h
    cases h
    rw [hf x y hy, mapM_option_eq_self hf hzs]

/-- What every step keeps is kept by the whole fold. -/
theorem foldlM_invariant {f : σ → α → Except ε σ} (P : σ → Prop) : ∀ {xs : List α} {s s' : σ},
    (∀ x ∈ xs, ∀ t t', P t → f t x = .ok t' → P t') → P s → xs.foldlM f s = .ok s' → P s'
  | [], s, s', _, hs, h => by
    simp only [List.foldlM_nil] at h
    cases h
    exact hs
  | x :: xs, s, s', hstep, hs, h => by
    rw [List.foldlM_cons] at h
    obtain ⟨t, ht, h⟩ := bind_eq_ok h
    exact foldlM_invariant P (fun z hz => hstep z (by simp [hz])) (hstep x (by simp) s t hs ht) h

/-- What one step brings about and every step keeps holds after the whole fold. -/
theorem foldlM_reaches {f : σ → α → Except ε σ} (P : σ → Prop) {x : α}
    (hreach : ∀ t t', f t x = .ok t' → P t') : ∀ {xs : List α} {s s' : σ}, x ∈ xs →
      (∀ y ∈ xs, ∀ t t', P t → f t y = .ok t' → P t') → xs.foldlM f s = .ok s' → P s'
  | y :: xs, s, s', hx, hkeep, h => by
    rw [List.foldlM_cons] at h
    obtain ⟨t, ht, hrest⟩ := bind_eq_ok h
    have hkeep' : ∀ z ∈ xs, ∀ t t', P t → f t z = .ok t' → P t' :=
      fun z hz => hkeep z (List.mem_cons_of_mem _ hz)
    rcases List.mem_cons.mp hx with rfl | hx
    · exact foldlM_invariant P hkeep' (hreach s t ht) hrest
    · exact foldlM_reaches P hreach hx hkeep' hrest

theorem foldlM_eq_foldl {f : σ → α → Except ε σ} {g : σ → α → σ} :
    ∀ {xs : List α} {s s' : σ}, (∀ x ∈ xs, ∀ t t', f t x = .ok t' → t' = g t x) →
      xs.foldlM f s = .ok s' → s' = xs.foldl g s
  | [], s, s', _, h => by
    simp only [List.foldlM_nil] at h
    cases h
    rfl
  | x :: xs, s, s', hfg, h => by
    rw [List.foldlM_cons] at h
    obtain ⟨t, ht, h⟩ := bind_eq_ok h
    rw [List.foldl_cons, ← hfg x (by simp) s t ht]
    exact foldlM_eq_foldl (fun z hz => hfg z (by simp [hz])) h

theorem findM?_eq_find? {f : α → Except ε Bool} {p : α → Bool} : ∀ {xs : List α} {r : Option α},
    (∀ x ∈ xs, ∀ b, f x = .ok b → b = p x) → xs.findM? f = .ok r → r = xs.find? p
  | [], r, _, h => by
    cases h
    rfl
  | x :: xs, r, hfp, h => by
    rw [List.findM?] at h
    obtain ⟨b, hb, h⟩ := bind_eq_ok h
    rw [List.find?_cons, ← hfp x (by simp) b hb]
    cases b with
    | true => cases h; rfl
    | false => exact findM?_eq_find? (fun z hz => hfp z (by simp [hz])) h

/-- The computation gives such a result, or stops for such a reason. -/
def Yields (P : ε → Prop) (x : Except ε α) (Q : α → Prop) : Prop :=
  (∃ a, x = .ok a ∧ Q a) ∨ ∃ e, x = .error e ∧ P e

/-- A fold over related elements keeps up with another one until it stops. -/
theorem foldlM_yields {τ : Type} {f : σ → α → Except ε σ} {g : τ → β → Except ε τ}
    {R : α → β → Prop} {T : σ → τ} {P : ε → Prop}
    (hstep : ∀ x y, R x y → ∀ s s', f s x = .ok s' → Yields P (g (T s) y) (· = T s'))
    {xs : List α} {ys : List β} (hR : List.Forall₂ R xs ys) {s s' : σ}
    (h : xs.foldlM f s = .ok s') : Yields P (ys.foldlM g (T s)) (· = T s') := by
  induction hR generalizing s with
  | nil =>
    rw [List.foldlM_nil] at h
    cases h
    exact .inl ⟨_, rfl, rfl⟩
  | cons hxy _ ih =>
    rw [List.foldlM_cons] at h
    obtain ⟨t, ht, h⟩ := bind_eq_ok h
    rw [List.foldlM_cons]
    rcases hstep _ _ hxy s t ht with ⟨_, hok, rfl⟩ | ⟨e, herror, he⟩
    · rw [hok]
      exact ih h
    · rw [herror]
      exact .inr ⟨e, rfl, he⟩

/-! ### Reasons to stop -/

theorem bind_eq_error {x : Except ε α} {f : α → Except ε β} {e : ε} (h : x >>= f = .error e) :
    x = .error e ∨ ∃ a, x = .ok a ∧ f a = .error e := by
  cases x with
  | error e' =>
    cases h
    exact .inl rfl
  | ok a => exact .inr ⟨a, rfl, h⟩

theorem exists_of_foldlM_eq_error {f : σ → α → Except ε σ} {xs : List α} {s : σ} {e : ε}
    (h : xs.foldlM f s = .error e) : ∃ x ∈ xs, ∃ t, f t x = .error e := by
  induction xs generalizing s with
  | nil => cases h
  | cons x xs ih =>
    rw [List.foldlM_cons] at h
    rcases bind_eq_error h with hx | ⟨t, -, hrest⟩
    · exact ⟨x, List.mem_cons_self, s, hx⟩
    · obtain ⟨y, hy, t, ht⟩ := ih hrest
      exact ⟨y, List.mem_cons_of_mem _ hy, t, ht⟩

theorem mapM_cons_eq_error_iff {f : α → Except ε β} {x : α} {xs : List α} {e : ε} :
    (x :: xs).mapM f = .error e ↔
      f x = .error e ∨ (∃ y, f x = .ok y) ∧ xs.mapM f = .error e := by
  rw [List.mapM_cons]
  constructor
  · intro h
    rcases bind_eq_error h with h | ⟨y, hy, h⟩
    · exact .inl h
    rcases bind_eq_error h with h | ⟨ys, -, h⟩
    · exact .inr ⟨⟨y, hy⟩, h⟩
    · cases h
  · rintro (hx | ⟨⟨y, hy⟩, hxs⟩)
    · rw [hx]
      rfl
    · rw [hy, hxs]
      rfl

/-- A mapping stops at the first element whose step does. -/
theorem mapM_eq_error_iff {f : α → Except ε β} {e : ε} : ∀ {xs : List α},
    xs.mapM f = .error e ↔ ∃ before x after, xs = before ++ x :: after ∧
      (∀ a ∈ before, ∃ b, f a = .ok b) ∧ f x = .error e
  | [] => by
    constructor
    · intro h
      cases h
    · rintro ⟨before, x, after, h, -⟩
      simp at h
  | x :: xs => by
    rw [mapM_cons_eq_error_iff, mapM_eq_error_iff]
    constructor
    · rintro (hx | ⟨hx, before, z, after, rfl, hbefore, hz⟩)
      · exact ⟨[], x, xs, rfl, by simp, hx⟩
      · exact ⟨x :: before, z, after, rfl, List.forall_mem_cons.mpr ⟨hx, hbefore⟩, hz⟩
    · rintro ⟨_ | ⟨w, before⟩, z, after, h, hbefore, hz⟩ <;> cases h
      · exact .inl hz
      · obtain ⟨hx, hbefore⟩ := List.forall_mem_cons.mp hbefore
        exact .inr ⟨hx, before, z, after, rfl, hbefore, hz⟩

/-- A mapping succeeds if every step does. -/
theorem exists_mapM {f : α → Except ε β} {xs : List α} (h : ∀ x ∈ xs, ∃ y, f x = .ok y) :
    ∃ ys, xs.mapM f = .ok ys := by
  cases hmap : xs.mapM f with
  | ok ys => exact ⟨ys, rfl⟩
  | error e =>
    obtain ⟨before, x, after, rfl, -, hx⟩ := mapM_eq_error_iff.mp hmap
    obtain ⟨y, hy⟩ := h x (by simp)
    rw [hx] at hy
    cases hy

/-- If all steps stop for one reason, the mapping stops if any of them does. -/
theorem mapM_eq_error_iff_exists {f : α → Except ε β} {e₀ e : ε} : ∀ {xs : List α},
    (∀ x ∈ xs, ∀ e, f x = .error e → e = e₀) →
      (xs.mapM f = .error e ↔ e = e₀ ∧ ∃ x ∈ xs, f x = .error e₀)
  | [], _ => by
    constructor
    · intro h
      cases h
    · rintro ⟨-, x, hx, -⟩
      cases hx
  | x :: xs, hall => by
    obtain ⟨hx, hxs⟩ := List.forall_mem_cons.mp hall
    rw [mapM_cons_eq_error_iff, mapM_eq_error_iff_exists hxs]
    constructor
    · rintro (h | ⟨-, rfl, y, hy, h⟩)
      · obtain rfl := hx e h
        exact ⟨rfl, x, List.mem_cons_self, h⟩
      · exact ⟨rfl, y, List.mem_cons_of_mem _ hy, h⟩
    · rintro ⟨rfl, y, hy, h⟩
      cases hfx : f x with
      | error e' => exact .inl (by rw [hx e' hfx])
      | ok z =>
        refine .inr ⟨⟨z, rfl⟩, rfl, y, ?_, h⟩
        rcases List.mem_cons.mp hy with rfl | hy
        · rw [hfx] at h
          cases h
        · exact hy

/-- Mapping a list and then one more element is a mapping. -/
theorem mapM_concat_eq_error_iff {γ : Type} {f : α → Except ε β} (g : List β → β → γ) {xs : List α}
    {x : α} {e : ε} : (do let ys ← xs.mapM f; let y ← f x; return g ys y) = .error e ↔
      (xs ++ [x]).mapM f = .error e := by
  have hstop {δ δ' : Type} {e' : ε} :
      (.error e' : Except ε δ) = .error e ↔ (.error e' : Except ε δ') = .error e := by
    rw [Except.error.injEq, Except.error.injEq]
  rw [List.mapM_append]
  cases xs.mapM f with
  | error e' => exact hstop
  | ok ys =>
    rw [List.mapM_cons]
    cases f x with
    | error e' => exact hstop
    | ok y => exact iff_of_false (fun h => by cases h) fun h => by cases h

/-- A loop over the first numbers stops at the first of them whose turn does. -/
theorem foldlM_range_eq_error_iff {f : σ → ℕ → Except ε σ} {s : σ} {e : ε} : ∀ {n : ℕ},
    (List.range n).foldlM f s = .error e ↔
      ∃ k < n, ∃ t, (List.range k).foldlM f s = .ok t ∧ f t k = .error e
  | 0 => by
    constructor
    · intro h
      cases h
    · rintro ⟨k, hk, -⟩
      exact absurd hk k.not_lt_zero
  | n + 1 => by
    have hlast : (List.range (n + 1)).foldlM f s =
        (List.range n).foldlM f s >>= fun t => f t n := by
      rw [List.range_succ, List.foldlM_append]
      simp
    rw [hlast]
    constructor
    · intro h
      rcases bind_eq_error h with h | ⟨t, ht, h⟩
      · obtain ⟨k, hk, hstop⟩ := foldlM_range_eq_error_iff.mp h
        exact ⟨k, Nat.lt_succ_of_lt hk, hstop⟩
      · exact ⟨n, n.lt_succ_self, t, ht, h⟩
    · rintro ⟨k, hk, t, ht, h⟩
      rcases Nat.lt_succ_iff_lt_or_eq.mp hk with hk | rfl
      · rw [foldlM_range_eq_error_iff.mpr ⟨k, hk, t, ht, h⟩]
        rfl
      · rw [ht]
        exact h

/-- The computation stops only for reasons in `P`. -/
def StopsOnly (P : Halt → Prop) (x : Checked α) : Prop := ∀ e, x = .error e → P e

section StopsOnly

variable {P : Halt → Prop}

theorem stopsOnly_ok (a : α) : StopsOnly P (.ok a : Checked α) := by
  intro e h
  cases h

theorem stopsOnly_error {e : Halt} (he : P e) : StopsOnly P (.error e : Checked α) := by
  intro e' h
  cases h
  exact he

theorem StopsOnly.bind {x : Checked α} {f : α → Checked β} (hx : StopsOnly P x)
    (hf : ∀ a, x = .ok a → StopsOnly P (f a)) : StopsOnly P (x >>= f) := by
  intro e h
  rcases bind_eq_error h with h | ⟨a, ha, h⟩
  · exact hx e h
  · exact hf a ha e h

/-- The second step is to blame for what the first never stops for. -/
theorem StopsOnly.bind_eq_error_iff {x : Checked α} {f : α → Checked β} {e : Halt}
    (hx : StopsOnly (· ≠ e) x) : x >>= f = .error e ↔ ∃ a, x = .ok a ∧ f a = .error e := by
  constructor
  · intro h
    rcases bind_eq_error h with h | h
    · exact absurd rfl (hx e h)
    · exact h
  · rintro ⟨a, rfl, h⟩
    exact h

/-- The first step is to blame for what the second never stops for. -/
theorem bind_eq_error_iff_of_stopsOnly {x : Checked α} {f : α → Checked β} {e : Halt}
    (hf : ∀ a, x = .ok a → StopsOnly (· ≠ e) (f a)) : x >>= f = .error e ↔ x = .error e := by
  constructor
  · intro h
    rcases bind_eq_error h with h | ⟨a, ha, h⟩
    · exact h
    · exact absurd rfl (hf a ha e h)
  · rintro rfl
    rfl

theorem stopsOnly_mapM {f : α → Checked β} : ∀ {xs : List α},
    (∀ x ∈ xs, StopsOnly P (f x)) → StopsOnly P (xs.mapM f)
  | [], _ => stopsOnly_ok _
  | x :: xs, h => by
    rw [List.mapM_cons]
    refine (h x List.mem_cons_self).bind fun y _ => ?_
    refine (stopsOnly_mapM fun z hz => h z (List.mem_cons_of_mem _ hz)).bind fun ys _ => ?_
    exact stopsOnly_ok _

theorem stopsOnly_foldlM {f : σ → α → Checked σ} : ∀ {xs : List α} {s : σ},
    (∀ x ∈ xs, ∀ t, StopsOnly P (f t x)) → StopsOnly P (xs.foldlM f s)
  | [], _, _ => stopsOnly_ok _
  | x :: xs, s, h => by
    rw [List.foldlM_cons]
    refine (h x List.mem_cons_self s).bind fun t _ => ?_
    exact stopsOnly_foldlM fun z hz => h z (List.mem_cons_of_mem _ hz)

theorem stopsOnly_findM? {f : α → Checked Bool} : ∀ {xs : List α},
    (∀ x ∈ xs, StopsOnly P (f x)) → StopsOnly P (xs.findM? f)
  | [], _ => stopsOnly_ok _
  | x :: xs, h => by
    rw [List.findM?]
    refine (h x List.mem_cons_self).bind fun b _ => ?_
    cases b with
    | true => exact stopsOnly_ok _
    | false => exact stopsOnly_findM? fun z hz => h z (List.mem_cons_of_mem _ hz)

end StopsOnly

end LoopSched.Checked
