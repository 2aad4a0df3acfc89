import LoopSched.Proofs.Json.Value
import Mathlib.Data.List.Forall2
import Mathlib.Data.List.Nodup

/-!
# Typed data is read back

`Written d j a` says that the value `j` stands for the data `a` of the decoder `d`: it is plain, and
it is read as `a` wherever there is room for it.  Each way to build decoders has a lemma that builds
such values along with it, so a record is written and read back when its fields are.
-/

namespace LoopSched.Json

/-! ### Nesting of what is written -/

theorem depth_ofMembers_le {ms : List (String × Json)} {room : ℕ} :
    (ofMembers ms).depth ≤ room ↔ ∃ k, room = k + 1 ∧ ∀ m ∈ ms, m.2.depth ≤ k := by
  rw [ofMembers, depth_object_le]
  exact exists_congr fun k => and_congr_right fun _ => List.forall_mem_map

theorem depth_ofList_le {α : Type} {f : α → Json} {xs : List α} {room : ℕ} :
    (ofList f xs).depth ≤ room ↔ ∃ k, room = k + 1 ∧ ∀ x ∈ xs, (f x).depth ≤ k := by
  rw [ofList, depth_array_le]
  exact exists_congr fun k => and_congr_right fun _ => List.forall_mem_map

theorem depth_ofMembers {ms : List (String × Json)} {k : ℕ} (h : ∀ m ∈ ms, m.2.depth ≤ k) :
    (ofMembers ms).depth ≤ k + 1 :=
  depth_ofMembers_le.mpr ⟨k, rfl, h⟩

theorem depth_ofList {α : Type} {f : α → Json} {xs : List α} {k : ℕ}
    (h : ∀ x ∈ xs, (f x).depth ≤ k) : (ofList f xs).depth ≤ k + 1 :=
  depth_ofList_le.mpr ⟨k, rfl, h⟩

theorem plain_ofMembers {ms : List (String × Json)} (h : ∀ m ∈ ms, m.2.Plain) :
    (ofMembers ms).Plain := by
  refine .object ?_ (List.forall_mem_map.mpr h)
  exact List.forall_mem_map.mpr fun m _ => rfl

theorem plain_ofInt {n : ℤ} (h : n.natAbs < Word.count) : (ofInt n).Plain :=
  .number ⟨rfl, rfl⟩ h

namespace Decode

variable {α β : Type} {d : Decoder α} {e : Decoder β}

/-- The value stands for the data: it is plain, and read as the data wherever there is room. -/
structure Written (d : Decoder α) (j : Json) (a : α) : Prop where
  plain : j.Plain
  reads : ∀ {room}, j.depth ≤ room → d room j = some a

/-- What is written is read back from its text. -/
theorem Written.decode? {j : Json} {a : α} (h : Written d j a) (hdepth : j.depth ≤ nestingLimit) :
    Json.decode? d j.render = some a := by
  rw [Json.decode?, h.plain.parse?_render]
  exact h.reads hdepth

/-! ### Simple data -/

theorem integer?_ofInt (n : ℤ) : integer? (ofInt n) = some n := by
  show (Numeral.ofInt n).toInt? = some n
  rw [Numeral.toInt?, if_neg (by rintro ⟨⟩)]
  by_cases hneg : n < 0
  · have hsign : (Numeral.ofInt n).negative = true := decide_eq_true hneg
    have hwhole : (Numeral.ofInt n).whole ≠ 0 := Int.natAbs_ne_zero.mpr (by omega)
    have habs : -((Numeral.ofInt n).whole : ℤ) = n := by
      show -(n.natAbs : ℤ) = n
      omega
    rw [if_neg (by rw [hsign]; decide), if_neg hwhole, habs]
  · have hsign : (Numeral.ofInt n).negative = false := decide_eq_false hneg
    have habs : ((Numeral.ofInt n).whole : ℤ) = n := by
      show (n.natAbs : ℤ) = n
      omega
    rw [if_pos (by rw [hsign]; rfl), habs]

theorem nat_of_integer? {j : Json} {n : ℤ} (h : integer? j = some n) (hnonneg : 0 ≤ n)
    (hlt : n < Word.count) {room : ℕ} : nat room j = some n.toNat := by
  unfold nat
  rw [h]
  exact if_pos ⟨hnonneg, hlt⟩

/-- What is read from the written form of each element is read from the list of the forms. -/
theorem mapM_map_eq_some {f : α → Json} {g : Json → Option α} {xs : List α}
    (h : ∀ x ∈ xs, g (f x) = some x) : (xs.map f).mapM g = some xs := by
  induction xs with
  | nil => rfl
  | cons x xs ih =>
    obtain ⟨hx, hxs⟩ := List.forall_mem_cons.mp h
    rw [List.map_cons, List.mapM_cons, hx, ih hxs]
    rfl

theorem mapM_eq_none {γ : Type} {g : γ → Option α} {ys : List γ} {y : γ} (hy : y ∈ ys)
    (h : g y = none) : ys.mapM g = none := by
  induction ys with
  | nil => cases hy
  | cons z ys ih =>
    rw [List.mapM_cons]
    rcases List.mem_cons.mp hy with rfl | hy
    · rw [h]
      rfl
    · rw [ih hy]
      cases g z <;> rfl

namespace Written

theorem word {n : ℤ} (h : Word.Fits n) : Written word (ofInt n) n where
  plain := plain_ofInt (by
    obtain ⟨hlo, hhi⟩ := h
    unfold Word.lo at hlo
    unfold Word.hi at hhi
    unfold Word.count
    omega)
  reads _ := by
    rw [Decode.word, integer?_ofInt]
    exact if_pos h

theorem nat {n : ℕ} (h : n < Word.count) : Written nat (ofNat n) n where
  plain := plain_ofInt (by rwa [Int.natAbs_natCast])
  reads _ := nat_of_integer? (integer?_ofInt n) (Int.natCast_nonneg n) (Int.ofNat_lt.mpr h)

theorem bool (b : Bool) : Written bool (.bool b) b where
  plain := .bool b
  reads _ := rfl

theorem string (s : String) : Written string (ofString s) s where
  plain := .string s
  reads _ := rfl

theorem list {f : α → Json} {xs : List α} (h : ∀ x ∈ xs, Written d (f x) x) :
    Written (list d) (ofList f xs) xs where
  plain := .array (List.forall_mem_map.mpr fun x hx => (h x hx).plain)
  reads {room} hroom := by
    obtain ⟨room, rfl, hdepth⟩ := depth_ofList_le.mp hroom
    rw [ofList, Decode.list]
    exact mapM_map_eq_some fun x hx => (h x hx).reads (hdepth x hx)

theorem pair {j k : Json} {a : α} {b : β} (ha : Written d j a) (hb : Written e k b) :
    Written (pair d e) (.array [j, k]) (a, b) where
  plain := .array (List.forall_mem_cons.mpr ⟨ha.plain, List.forall_mem_singleton.mpr hb.plain⟩)
  reads {room} hroom := by
    obtain ⟨room, rfl, hdepth⟩ := depth_array_le.mp hroom
    obtain ⟨hj, hk⟩ := List.forall_mem_cons.mp hdepth
    rw [Decode.pair, ha.reads hj, hb.reads (hk k (List.mem_singleton.mpr rfl))]
    rfl

theorem option {f : α → Json} {o : Option α} (h : ∀ a ∈ o, Written d (f a) a)
    (hnull : ∀ a, f a ≠ .null) : Written (option d) (ofOption f o) o where
  plain := by
    cases o with
    | none => exact .null
    | some a => exact (h a rfl).plain
  reads {room} hroom := by
    cases o with
    | none => rfl
    | some a =>
      show Decode.option d room (f a) = some (some a)
      rw [Decode.option, (h a rfl).reads hroom]
      · rfl
      · exact hnull a

end Written

/-! ### Records -/

theorem named_map (ms : List (String × Json)) :
    named (ms.map fun m => (some m.1, m.2)) = some ms := by
  induction ms with
  | nil => rfl
  | cons m ms ih =>
    rw [List.map_cons, named, ih]
    rfl

theorem lookup_of_mem {ms : List (String × Json)} (h : (ms.map Prod.fst).Nodup)
    {m : String × Json} (hm : m ∈ ms) : ms.lookup m.1 = some m.2 := by
  induction ms with
  | nil => cases hm
  | cons k ms ih =>
    rw [List.map_cons, List.nodup_cons] at h
    rcases List.mem_cons.mp hm with rfl | hm
    · exact List.lookup_cons_self
    · have hne : m.1 ≠ k.1 := fun heq => h.1 (heq ▸ List.mem_map_of_mem hm)
      rw [List.lookup_cons, beq_eq_false_iff_ne.mpr hne]
      exact ih h.2 hm

/-- In an object without repetitions each known member is found. -/
theorem select_of_nodup {ms : List (String × Json)} (h : (ms.map Prod.fst).Nodup)
    {names : List String} {js : List Json} (hjs : List.Forall₂ (fun k j => (k, j) ∈ ms) names js) :
    select names ms = some (js.map some) := by
  have honce : ∀ k, (ms.filter (·.1 = k)).length ≤ 1 := by
    intro k
    have hcount : (ms.filter (·.1 = k)).length = (ms.map Prod.fst).count k := by
      rw [List.count, List.countP_map, List.countP_eq_length_filter]
      rfl
    rw [hcount]
    exact List.nodup_iff_count_le_one.mp h k
  have hlookup : names.map (fun k => ms.lookup k) = js.map some := by
    induction hjs with
    | nil => rfl
    | cons hj _ ih => rw [List.map_cons, List.map_cons, lookup_of_mem h hj, ih]
  simp only [select, honce, decide_true, List.all_eq_true, implies_true, if_true, hlookup]

theorem fields_ofMembers {ms : List (String × Json)} (hnodup : (ms.map Prod.fst).Nodup) :
    fields (ms.map Prod.fst) (ofMembers ms) = some ((ms.map Prod.snd).map some) := by
  rw [ofMembers, fields, named_map]
  refine select_of_nodup hnodup ?_
  rw [List.forall₂_map_left_iff, List.forall₂_map_right_iff, List.forall₂_same]
  exact fun m hm => hm

/-- A value that is read, in this room, as everything that another one stands for. -/
def Agrees (room : ℕ) (j k : Json) : Prop :=
  ∀ {α : Type} {d : Decoder α} {a : α}, Written d j a → d room k = some a

/-- The fields of a written record agree with what was written.  What they are is not said, so that
no proof about a record can depend on it. -/
theorem exists_fields {ms : List (String × Json)} (hnodup : (ms.map Prod.fst).Nodup) {room : ℕ}
    (hdepth : ∀ m ∈ ms, m.2.depth ≤ room) : ∃ ks,
      fields (ms.map Prod.fst) (ofMembers ms) = some (ks.map some) ∧
        List.Forall₂ (Agrees room) (ms.map Prod.snd) ks := by
  refine ⟨ms.map Prod.snd, fields_ofMembers hnodup, ?_⟩
  rw [List.forall₂_same]
  exact List.forall_mem_map.mpr fun m hm α d a h => h.reads (hdepth m hm)

theorem Written.record {names : List String} {build : ℕ → List (Option Json) → Option α}
    {ms : List (String × Json)} {a : α} (hnames : ms.map Prod.fst = names) (hnodup : names.Nodup)
    (hplain : ∀ m ∈ ms, m.2.Plain)
    (hbuild : ∀ room ks, List.Forall₂ (Agrees room) (ms.map Prod.snd) ks →
      build room (ks.map some) = some a) :
    Written (record names build) (ofMembers ms) a where
  plain := plain_ofMembers hplain
  reads {room} hroom := by
    obtain ⟨room, rfl, hdepth⟩ := depth_ofMembers_le.mp hroom
    subst hnames
    obtain ⟨ks, hfields, hagree⟩ := exists_fields hnodup hdepth
    rw [Decode.record, hfields]
    exact hbuild room ks hagree

end Decode

end LoopSched.Json
