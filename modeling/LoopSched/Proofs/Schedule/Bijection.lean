import LoopSched.Proofs.Schedule.Decomposition
import LoopSched.Proofs.Schedule.Spelling
import Mathlib.Data.Set.Function

/-!
# Shifts and wavefronts permute the space

A shift moves the leading variables of its target in one nest, a wavefront adds up the variables of
its target.  Both map the tuples of a space one to one onto themselves, whatever was done to the
schedule before.  A shift leaves the coordinate that tells the nests apart alone, so shifts commute
and the extents of two shifts of one nest add up.  The text of a shift says the same unless a symbol
is declared that is also a coordinate: then the text is about the points at which the two agree.
-/

namespace LoopSched

open Polyhedral Arrangement LoopSched.Subspace Schedule

/-! ### Functions on tuples -/

/-- The relation is a function on the points with `n` coordinates and no name, and this function is
one to one and onto. -/
structure Permutes (R : Point → Point → Prop) (n : ℕ) (f : List ℤ → List ℤ) : Prop where
  graph : ∀ p q, R p q ↔
    p.name = "" ∧ p.coordinates.length = n ∧ q = ⟨"", f p.coordinates⟩
  bijective : Set.BijOn f {xs | xs.length = n} {xs | xs.length = n}

theorem Permutes.congr {R S : Point → Point → Prop} {n : ℕ} {f : List ℤ → List ℤ}
    (hR : Permutes R n f) (h : ∀ p q, S p q ↔ R p q) : Permutes S n f where
  graph p q := (h p q).trans (hR.graph p q)
  bijective := hR.bijective

theorem Permutes.iff_of_eq {R S : Point → Point → Prop} {n : ℕ} {f g : List ℤ → List ℤ}
    (hR : Permutes R n f) (hS : Permutes S n g) (h : ∀ xs, xs.length = n → f xs = g xs)
    (p q : Point) : R p q ↔ S p q := by
  rw [hR.graph, hS.graph]
  refine and_congr_right fun _ => and_congr_right fun hlength => ?_
  rw [h _ hlength]

theorem Permutes.at_tuple {R : Point → Point → Prop} {n : ℕ} {f : List ℤ → List ℤ}
    (h : Permutes R n f) {xs ys : List ℤ} (hlength : xs.length = n) (hf : f xs = ys) (q : Point) :
    R ⟨"", xs⟩ q ↔ q = ⟨"", ys⟩ := by
  rw [h.graph, hf]
  exact ⟨fun hq => hq.2.2, fun hq => ⟨rfl, hlength, hq⟩⟩

theorem Permutes.comp {ρ : Valuation} {m m' : UnionMap} {n : ℕ} {f g : List ℤ → List ℤ}
    (hf : Permutes (m.Relates ρ) n f) (hg : Permutes (m'.Relates ρ) n g) :
    Permutes (Composed ρ [m, m']) n (g ∘ f) where
  graph := by
    intro p q
    show (∃ r, m.Relates ρ p r ∧ Composed ρ [m'] r q) ↔ _
    simp only [composed_singleton, hf.graph, hg.graph]
    constructor
    · rintro ⟨r, ⟨hname, hlength, rfl⟩, -, -, rfl⟩
      exact ⟨hname, hlength, rfl⟩
    · rintro ⟨hname, hlength, rfl⟩
      exact ⟨_, ⟨hname, hlength, rfl⟩, rfl, hf.bijective.mapsTo hlength, rfl⟩
  bijective := hg.bijective.comp hf.bijective

/-- A change of values as a function on the tuples of the named coordinates. -/
def onTuples (names : List String) (F : Valuation → Valuation) (xs : List ℤ) : List ℤ :=
  names.map (F (valuesAt names xs))

/-- The values of the named coordinates only depend on such values. -/
def Within (names : List String) (F : Valuation → Valuation) : Prop :=
  ∀ σ τ : Valuation, (∀ n ∈ names, σ n = τ n) → ∀ n ∈ names, F σ n = F τ n

section Tuples

variable {names : List String} {F G : Valuation → Valuation}

theorem valuesAt_map {n : String} (hn : n ∈ names) (σ : Valuation) :
    valuesAt names (names.map σ) n = σ n := by
  rw [valuesAt, List.getElem?_map, List.getElem?_idxOf hn]
  rfl

theorem onTuples_map (hF : Within names F) (σ : Valuation) :
    onTuples names F (names.map σ) = names.map (F σ) :=
  List.map_congr_left (hF _ _ fun _ hn => valuesAt_map hn σ)

theorem onTuples_onTuples (hG : Within names G) (xs : List ℤ) :
    onTuples names G (onTuples names F xs) = onTuples names (G ∘ F) xs :=
  onTuples_map hG _

/-- Changes that undo each other are one to one. -/
theorem bijOn_onTuples (hnodup : names.Nodup) (hF : Within names F) (hG : Within names G)
    (hGF : ∀ σ, ∀ n ∈ names, G (F σ) n = σ n) (hFG : ∀ σ, ∀ n ∈ names, F (G σ) n = σ n) :
    Set.BijOn (onTuples names F) {xs | xs.length = names.length}
      {xs | xs.length = names.length} := by
  have hmaps : ∀ H : Valuation → Valuation, Set.MapsTo (onTuples names H)
      {xs | xs.length = names.length} {xs | xs.length = names.length} :=
    fun H xs _ => List.length_map _
  have hinverse : ∀ {H K : Valuation → Valuation}, Within names K →
      (∀ σ, ∀ n ∈ names, K (H σ) n = σ n) →
      Set.LeftInvOn (onTuples names K) (onTuples names H) {xs | xs.length = names.length} := by
    intro H K hK hKH xs hxs
    rw [onTuples_onTuples hK]
    exact (List.map_congr_left (hKH _)).trans (map_valuesAt hnodup hxs)
  exact Set.InvOn.bijOn ⟨hinverse hG hGF, hinverse hF hFG⟩ (hmaps F) (hmaps G)

theorem permutes_of_graph {R : Point → Point → Prop} (hnodup : names.Nodup) (hF : Within names F)
    (hG : Within names G) (hGF : ∀ σ, ∀ n ∈ names, G (F σ) n = σ n)
    (hFG : ∀ σ, ∀ n ∈ names, F (G σ) n = σ n)
    (hdomain : ∀ p q, R p q → p.name = "" ∧ p.coordinates.length = names.length)
    (hgraph : ∀ σ q, R ⟨"", names.map σ⟩ q ↔ q = ⟨"", names.map (F σ)⟩) :
    Permutes R names.length (onTuples names F) where
  graph := by
    intro p q
    -- a point with the right number of coordinates is that of its values
    have hpoint : p.name = "" → p.coordinates.length = names.length →
        (R p q ↔ q = ⟨"", onTuples names F p.coordinates⟩) := by
      intro hname hlength
      have hp : p = ⟨"", names.map (valuesAt names p.coordinates)⟩ := by
        rw [map_valuesAt hnodup hlength, ← hname]
      rw [hp, hgraph, map_valuesAt hnodup hlength]
      rfl
    constructor
    · intro h
      obtain ⟨hname, hlength⟩ := hdomain p q h
      exact ⟨hname, hlength, (hpoint hname hlength).mp h⟩
    · rintro ⟨hname, hlength, hq⟩
      exact (hpoint hname hlength).mpr hq
  bijective := bijOn_onTuples hnodup hF hG hGF hFG

end Tuples

/-! ### Shifts -/

/-- What a shift does to the values of the coordinates: where the coordinate `loops` has the number
of the nest, the leading variables move by the extents. -/
def Shift.displace (sh : Shift) (ρ : Valuation) (loops : String) (vars : List String)
    (x : Valuation) : Valuation := fun n =>
  if x loops = sh.loop then x n + offset ρ sh.extents vars n else x n

section Displace

variable {ρ : Valuation} {sh : Shift} {loops : String} {vars names : List String}

theorem offset_of_not_mem (hlength : sh.extents.length ≤ vars.length) {n : String}
    (hn : n ∉ vars) : offset ρ sh.extents vars n = 0 :=
  offset_eq_zero (hlength.trans_eq (List.idxOf_eq_length hn).symm)

/-- Extents are for variables, so the constant may be counted or not. -/
theorem offset_names {g : Group} (hlength : sh.extents.length ≤ g.vars.length) (n : String) :
    offset ρ sh.extents g.names n = offset ρ sh.extents g.vars n := by
  by_cases hn : n ∈ g.vars
  · rw [offset, offset, Group.names, List.idxOf_append_of_mem hn]
  · rw [offset_of_not_mem hlength hn, offset_eq_zero]
    rw [Group.names, List.idxOf_append_of_notMem hn]
    omega

/-- Moving by the negated extents goes back. -/
theorem offset_neg (n : String) :
    offset (fun text => -ρ text) sh.extents vars n = -offset ρ sh.extents vars n := by
  unfold offset
  cases sh.extents[vars.idxOf n]? with
  | none => rfl
  | some extent => rfl

/-- Extents that have the sums of other extents as their values move by the sums. -/
theorem offset_add {sh' sum : Shift} (hlength : sh.extents.length = sh'.extents.length)
    (hvalues : sum.extents.map ρ = List.zipWith (fun a b => ρ a + ρ b) sh.extents sh'.extents)
    (n : String) : offset ρ sum.extents vars n =
      offset ρ sh.extents vars n + offset ρ sh'.extents vars n := by
  have hoffset : ∀ extents : List String,
      offset ρ extents vars n = ((extents.map ρ)[vars.idxOf n]?).getD 0 := by
    intro extents
    rw [offset, List.getElem?_map]
    cases extents[vars.idxOf n]? <;> rfl
  rw [hoffset, hvalues, List.getElem?_zipWith, offset, offset]
  by_cases hd : vars.idxOf n < sh.extents.length
  · rw [List.getElem?_eq_getElem hd, List.getElem?_eq_getElem (hlength ▸ hd)]
    rfl
  · rw [List.getElem?_eq_none (not_lt.mp hd), List.getElem?_eq_none (hlength ▸ not_lt.mp hd)]
    rfl

theorem displace_loops (hlength : sh.extents.length ≤ vars.length) (hloops : loops ∉ vars)
    (x : Valuation) : sh.displace ρ loops vars x loops = x loops := by
  rw [Shift.displace, offset_of_not_mem hlength hloops, add_zero, ite_self]

theorem within_displace (hmem : loops ∈ names) : Within names (sh.displace ρ loops vars) := by
  intro σ τ h n hn
  rw [Shift.displace, Shift.displace, h loops hmem, h n hn]

theorem displace_neg (hlength : sh.extents.length ≤ vars.length) (hloops : loops ∉ vars)
    (x : Valuation) (n : String) :
    sh.displace (fun text => -ρ text) loops vars (sh.displace ρ loops vars x) n = x n := by
  rw [Shift.displace, displace_loops hlength hloops, offset_neg, Shift.displace]
  split <;> omega

theorem displace_comm {sh' : Shift} {vars' : List String}
    (hlength : sh.extents.length ≤ vars.length) (hlength' : sh'.extents.length ≤ vars'.length)
    (hloops : loops ∉ vars) (hloops' : loops ∉ vars') (x : Valuation) (n : String) :
    sh'.displace ρ loops vars' (sh.displace ρ loops vars x) n =
      sh.displace ρ loops vars (sh'.displace ρ loops vars' x) n := by
  rw [Shift.displace, displace_loops hlength hloops, Shift.displace, Shift.displace,
    displace_loops hlength' hloops', Shift.displace]
  split <;> split <;> omega

/-- Two shifts of one nest move by the sums of their extents. -/
theorem displace_add {sh' sum : Shift} (hlength : sh.extents.length ≤ vars.length)
    (hloops : loops ∉ vars) (hloop : sh'.loop = sh.loop) (hsum : sum.loop = sh.loop)
    (hextents : ∀ n, offset ρ sum.extents vars n =
      offset ρ sh.extents vars n + offset ρ sh'.extents vars n) (x : Valuation) (n : String) :
    sh'.displace ρ loops vars (sh.displace ρ loops vars x) n = sum.displace ρ loops vars x n := by
  rw [Shift.displace, displace_loops hlength hloops, Shift.displace, Shift.displace, hloop, hsum,
    hextents]
  split <;> omega

end Displace

/-! ### Wavefronts -/

/-- What a wavefront does to the values of the coordinates: the first variable becomes the sum of all
variables. -/
def skew (first : String) (vars : List String) (x : Valuation) : Valuation := fun n =>
  if n = first then (vars.map x).sum else x n

/-- Taking the other variables off the first one undoes a wavefront. -/
def unskew (first : String) (others : List String) (x : Valuation) : Valuation := fun n =>
  if n = first then x first - (others.map x).sum else x n

section Skew

variable {first : String} {others names : List String}

theorem map_skew {vars : List String} (h : first ∉ others) (x : Valuation) :
    others.map (skew first vars x) = others.map x :=
  List.map_congr_left fun _ hn => if_neg (ne_of_mem_of_not_mem hn h)

theorem map_unskew (h : first ∉ others) (x : Valuation) :
    others.map (unskew first others x) = others.map x :=
  List.map_congr_left fun _ hn => if_neg (ne_of_mem_of_not_mem hn h)

theorem within_skew {vars : List String} (hvars : ∀ n ∈ vars, n ∈ names) :
    Within names (skew first vars) := by
  intro σ τ h n hn
  rw [skew, skew, h n hn, List.map_congr_left fun m hm => h m (hvars m hm)]

theorem within_unskew (hfirst : first ∈ names) (hothers : ∀ n ∈ others, n ∈ names) :
    Within names (unskew first others) := by
  intro σ τ h n hn
  rw [unskew, unskew, h n hn, h first hfirst, List.map_congr_left fun m hm => h m (hothers m hm)]

theorem unskew_skew (h : first ∉ others) (x : Valuation) (n : String) :
    unskew first others (skew first (first :: others) x) n = x n := by
  rw [unskew, map_skew h]
  split
  · next hn =>
    rw [skew, if_pos rfl, List.map_cons, List.sum_cons, hn]
    omega
  · next hn => exact if_neg hn

theorem skew_unskew (h : first ∉ others) (x : Valuation) (n : String) :
    skew first (first :: others) (unskew first others x) n = x n := by
  rw [skew, List.map_cons, List.sum_cons, map_unskew h]
  split
  · next hn =>
    rw [unskew, if_pos rfl, hn]
    omega
  · next hn => exact if_neg hn

end Skew

/-! ### The maps -/

/-- The text of the shift can be read: its symbols are distinct names, none of them a coordinate or
the second name of one in the target, and its extents are affine expressions over them.  Where `π`
gives the values of the symbols, `ρ` has those of the extents. -/
structure Shift.Readable (s : Schedule) (id : ℕ) (π ρ : Valuation) (sh : Shift) : Prop where
  symbols : ∀ n ∈ sh.symbols, Identifier n
  distinct : sh.symbols.Nodup
  coordinates : ∀ n ∈ sh.symbols, n ∉ s.layout.inputNames
  aliases : ∀ n ∈ sh.symbols, ∀ target, s.layout.find id = .ok target →
    ∀ x ∈ target.group.names, n ≠ aliasOf x
  extents : ∀ text ∈ sh.extents, Denotes sh.symbols π text (ρ text)

namespace Arrangement

variable {width id : ℕ} {v : Arrangement} {g : Group} {ρ π : Valuation}

/-- Only points of the space are related. -/
theorem domain_of_relates {m : UnionMap}
    (hm : ∀ c ∈ m.clauses, c.source = "" ∧ c.input = v.names) {p q : Point}
    (h : m.Relates ρ p q) : p.name = "" ∧ p.coordinates.length = v.names.length := by
  obtain ⟨c, hc, hname, -, σ, hp, -⟩ := h
  obtain ⟨hsource, hinput⟩ := hm c hc
  exact ⟨hname.trans hsource, by rw [← hp, List.length_map, hinput]⟩

theorem permutes_shiftMap (hv : v.Valid width) (hg : (id, g) ∈ v) {sh : Shift}
    (hlength : sh.extents.length ≤ g.vars.length) :
    Permutes ((shiftMap v g sh).Relates ρ) v.names.length
      (onTuples v.names (sh.displace ρ loopsGroup.constant g.vars)) := by
  have hloops : loopsGroup.constant ∉ g.vars := hv.not_mem_vars hg hv.loops_constant
  refine permutes_of_graph hv.names_nodup (within_displace hv.loops_mem)
    (G := sh.displace (fun text => -ρ text) loopsGroup.constant g.vars)
    (within_displace hv.loops_mem) (fun x n _ => displace_neg hlength hloops x n)
    (fun x n _ => ?_) (fun p q h => domain_of_relates ?_ h) fun σ q => ?_
  · have hback := displace_neg (ρ := fun text => -ρ text) hlength hloops x n
    simpa only [neg_neg] using hback
  · simp [shiftMap, clause]
  · have hgraph := (moves_shift (P := fun _ => True) (ρ := ρ) hv hg sh hlength).graph σ q
    rw [composed_singleton] at hgraph
    refine hgraph.trans (Eq.congr_right ?_)
    rw [point, Point.mk.injEq]
    refine ⟨rfl, List.map_congr_left fun n _ => ?_⟩
    rw [Shift.displace]
    split
    · exact congrArg (σ n + ·) (offset_names hlength n)
    · rfl

theorem permutes_wavefrontMap (hv : v.Valid width) (hg : (id, g) ∈ v) {x : String}
    {xs : List String} (hvars : g.vars = x :: xs) :
    Permutes ((wavefrontMap v g x xs).Relates ρ) v.names.length
      (onTuples v.names (skew x g.vars)) := by
  have hmem : ∀ n ∈ g.vars, n ∈ v.names :=
    fun n hn => names_subset hg n (List.mem_append_left _ hn)
  have hnodup : (x :: xs).Nodup := hvars ▸ (List.nodup_append'.mp (hv.group_nodup hg)).1
  have hx : x ∉ xs := (List.nodup_cons.mp hnodup).1
  refine permutes_of_graph hv.names_nodup (within_skew hmem)
    (G := unskew x xs)
    (within_unskew (hmem x (by simp [hvars])) fun n hn => hmem n (by simp [hvars, hn]))
    (fun σ n _ => ?_) (fun σ n _ => ?_) (fun p q h => domain_of_relates ?_ h) fun σ q => ?_
  · rw [hvars]
    exact unskew_skew hx σ n
  · rw [hvars]
    exact skew_unskew hx σ n
  · simp [wavefrontMap, clause]
  · have hgraph := (moves_wavefront (P := fun _ => True) (ρ := ρ) hv hg hvars).graph σ q
    rw [composed_singleton] at hgraph
    exact hgraph

/-- A symbol that is no coordinate and no second name of the target is in no tuple of a shift. -/
theorem not_mem_shiftMap {sh : Shift} {n : String} (hn : n ∉ v.names)
    (halias : ∀ x ∈ g.names, n ≠ aliasOf x) :
    ∀ c ∈ (shiftMap v g sh).clauses, n ∉ c.input ∧ n ∉ c.output := by
  have hmark : ∀ vs : List String, (∀ x ∈ vs, n ≠ aliasOf x) → n ∉ v.names.map (mark vs) := by
    intro vs hvs hmem
    obtain ⟨x, hx, hmark⟩ := List.mem_map.mp hmem
    by_cases hxs : x ∈ vs
    · exact hvs x hxs (hmark.symm.trans (mark_of_mem hxs))
    · exact hn (hmark ▸ (mark_of_not_mem hxs).symm ▸ hx)
  refine List.forall_mem_cons.mpr ⟨⟨hn, hmark g.names halias⟩, List.forall_mem_singleton.mpr ?_⟩
  exact ⟨hn, hmark [] (by simp)⟩

theorem textRelates_wavefrontMap (hv : v.Valid width) (hspelled : v.Spelled) (hg : (id, g) ∈ v)
    {x : String} {xs : List String} (hvars : g.vars = x :: xs) {p q : Point} :
    TextRelates π (wavefrontMap v g x xs).render p q ↔ (wavefrontMap v g x xs).Relates ρ p q :=
  (Step.wavefront hg hvars).textRelates_iff hv hv hspelled trivial

end Arrangement

/-! ### Accepted fragments -/

namespace Fragment

open Schedule.Action

variable {width : ℕ} {v : Arrangement} {s s' : Schedule} {sh : Shift} {id : ℕ} {m : UnionMap}

theorem length_of_checkExtents {nest : Nest} {target : Subspace} {u : Unit}
    (h : checkExtents sh nest target id = .ok u) :
    sh.extents.length = if id = Layout.nest then nest.dimensions else target.size := by
  by_contra hne
  simp only [checkExtents, ne_eq, hne, not_false_eq_true, true_or, if_true] at h
  cases h

/-- Whether a shift is accepted depends on the chain and on the target alone. -/
theorem shift_accepted_iff (h : s.layout.Sound width v v []) :
    (∃ m s', Fragment.shift sh id s = .ok m s') ↔ ∃ nest target, s.chain.nest sh.loop = .ok nest ∧
      s.layout.find id = .ok target ∧ checkExtents sh nest target id = .ok () := by
  have hon : (s.layout.setAlias id true).Sound width v v [id] := h.aliasing id
  unfold Fragment.shift
  simp only [bind_eq_ok, nestOf_eq_ok, targetOf_eq_ok, require_eq_ok, get_eq_ok, setAlias_eq_ok,
    subspace_eq_ok, pure_eq_ok]
  constructor
  · rintro ⟨_, _, nest, _, ⟨hnest, rfl⟩, target, _, ⟨htarget, rfl⟩, _, _, ⟨hcheck, rfl⟩, -⟩
    exact ⟨nest, target, hnest, htarget, hcheck⟩
  · rintro ⟨nest, target, hnest, htarget, hcheck⟩
    obtain ⟨out, hout, -⟩ := hon.find_of_mem (h.tag_mem htarget)
    exact ⟨_, _, nest, s, ⟨hnest, rfl⟩, target, s, ⟨htarget, rfl⟩, (), s, ⟨hcheck, rfl⟩, s, s,
      ⟨rfl, rfl⟩, (), _, ⟨⟨target, htarget⟩, rfl⟩, out, _, ⟨hout, rfl⟩, _, _, rfl, (), _,
      ⟨⟨out, hout⟩, rfl⟩, _, _, rfl, rfl, rfl⟩

/-- A shift that is accepted in a schedule is accepted, with the same map, in every other schedule of
the chain with the same coordinates. -/
theorem shift_of_arrangement {t : Schedule} (hs : s.layout.Sound width v v [])
    (ht : t.layout.Sound width v v []) (hchain : t.chain = s.chain)
    (hrun : Fragment.shift sh id s = .ok m s') : ∃ t', Fragment.shift sh id t = .ok m t' := by
  obtain ⟨nest, target, hnest, htarget, hcheck⟩ := (shift_accepted_iff hs).mp ⟨m, s', hrun⟩
  obtain ⟨target', htarget', hgroup⟩ := ht.find_of_mem (hs.tag_mem htarget)
  have hsize : target'.size = target.size := congrArg (fun g => g.vars.length) hgroup
  have hcheck' : checkExtents sh nest target' id = .ok () := by
    unfold checkExtents at hcheck ⊢
    rw [hsize]
    exact hcheck
  obtain ⟨m', t', hrun'⟩ :=
    (shift_accepted_iff ht).mpr ⟨nest, target', hchain ▸ hnest, htarget', hcheck'⟩
  obtain ⟨-, g, hg, -, rfl⟩ := shift_eq_ok hs hrun
  obtain ⟨-, g', hg', -, rfl⟩ := shift_eq_ok ht hrun'
  obtain rfl := hs.valid.group_eq hg hg'
  exact ⟨t', hrun'⟩

/-- The nest and the target say how many extents a shift has. -/
theorem length_extents_eq {sh' : Shift} {m' : UnionMap} {t : Schedule}
    (h : s.layout.Sound width v v []) (hrun : Fragment.shift sh id s = .ok m s')
    (hrun' : Fragment.shift sh' id s = .ok m' t) (hloop : sh'.loop = sh.loop) :
    sh.extents.length = sh'.extents.length := by
  obtain ⟨nest, target, hnest, htarget, hcheck⟩ := (shift_accepted_iff h).mp ⟨m, s', hrun⟩
  obtain ⟨nest', target', hnest', htarget', hcheck'⟩ := (shift_accepted_iff h).mp ⟨m', t, hrun'⟩
  have hsame : nest' = nest := Except.ok.inj (hnest'.symm.trans (hloop ▸ hnest))
  have htarget : target' = target := Except.ok.inj (htarget'.symm.trans htarget)
  subst hsame htarget
  exact (length_of_checkExtents hcheck).trans (length_of_checkExtents hcheck').symm

end Fragment

namespace Schedule

open Schedule.Action

variable {c : Chain} {width : ℕ} {v : Arrangement} {s s' : Schedule} {sh sh' : Shift} {id id' : ℕ}
  {m m' : UnionMap} {ρ : Valuation}

/-- The schedule in which the next transformation starts. -/
def next (s : Schedule) : Schedule := s.withLayout s.layout.nextStage

/-- A shift leaves the coordinates and the chain as they are. -/
theorem next_of_shift (h : s.layout.Sound width v v []) (hrun : Fragment.shift sh id s = .ok m s') :
    s'.next.layout.Sound width v v [] ∧ s'.next.chain = s.chain := by
  have hrecord : SameRecord s s' := after_of_ok hrun ▸ Fragment.confined_shift sh id s
  exact ⟨(Fragment.shift_eq_ok h hrun).1.nextStage, hrecord.chain⟩

/-- A shift that can be read relates what its text relates. -/
theorem textRelates_shift (h : s.layout.Sound width v v []) (hspelled : v.Spelled)
    (hrun : Fragment.shift sh id s = .ok m s') {π : Valuation} (hread : sh.Readable s id π ρ)
    {p q : Point} : TextRelates π m.render p q ↔ m.Relates ρ p q := by
  obtain ⟨-, g, hg, hlength, rfl⟩ := Fragment.shift_eq_ok h hrun
  obtain ⟨target, htarget, rfl⟩ := h.find_of_mem hg
  have hstep : Step (.shift sh) v (shiftMap v target.group sh) v := .shift (.shift sh) hg hlength
  obtain ⟨hextents, hsizes⟩ := texts_shiftMap v target.group sh
  refine (hstep.legible h.valid h.valid hspelled hread.symbols).textRelates_iff hread.distinct
    (fun c hc n hn => ?_) (fun text htext => hread.extents text (hextents htext))
    (by simp [hsizes])
  refine not_mem_shiftMap ?_ (hread.aliases n hn target htarget) c hc
  exact h.inputNames_eq ▸ hread.coordinates n hn

theorem textsRelate_shifts (h : s.layout.Sound width v v []) (hspelled : v.Spelled)
    {t t' : Schedule} (hrun : Fragment.shift sh id s = .ok m t)
    (hrun' : Fragment.shift sh' id' s = .ok m' t') {π : Valuation} (hread : sh.Readable s id π ρ)
    (hread' : sh'.Readable s id' π ρ) {p q : Point} :
    TextsRelate π [m.render, m'.render] p q ↔ Composed ρ [m, m'] p q := by
  have hmaps : ∀ n ∈ [m, m'], ∀ p q : Point, TextRelates π n.render p q ↔ n.Relates ρ p q := by
    refine List.forall_mem_cons.mpr ⟨fun p q => ?_, List.forall_mem_singleton.mpr fun p q => ?_⟩
    · exact textRelates_shift h hspelled hrun hread
    · exact textRelates_shift h hspelled hrun' hread'
  exact textsRelate_iff hmaps

/-- Shifts in one space commute. -/
theorem composed_shift_comm (h : s.layout.Sound width v v []) {t t' : Schedule}
    (hrun : Fragment.shift sh id s = .ok m t) (hrun' : Fragment.shift sh' id' s = .ok m' t')
    (p q : Point) : Composed ρ [m, m'] p q ↔ Composed ρ [m', m] p q := by
  obtain ⟨-, g, hg, hlength, rfl⟩ := Fragment.shift_eq_ok h hrun
  obtain ⟨-, g', hg', hlength', rfl⟩ := Fragment.shift_eq_ok h hrun'
  have hv := h.valid
  have hloops := hv.not_mem_vars hg hv.loops_constant
  have hloops' := hv.not_mem_vars hg' hv.loops_constant
  have hfirst := permutes_shiftMap (ρ := ρ) hv hg hlength
  have hsecond := permutes_shiftMap (ρ := ρ) hv hg' hlength'
  refine (hfirst.comp hsecond).iff_of_eq (hsecond.comp hfirst) (fun xs _ => ?_) p q
  rw [Function.comp, Function.comp, onTuples_onTuples (within_displace hv.loops_mem),
    onTuples_onTuples (within_displace hv.loops_mem)]
  exact List.map_congr_left fun n _ => displace_comm hlength hlength' hloops hloops' _ n

/-- Two shifts of one nest in one target are the shift by the sums of their extents. -/
theorem composed_shift_add (h : s.layout.Sound width v v []) {t t' t'' : Schedule} {sum : Shift}
    {m'' : UnionMap} (hrun : Fragment.shift sh id s = .ok m t)
    (hrun' : Fragment.shift sh' id s = .ok m' t') (hrun'' : Fragment.shift sum id s = .ok m'' t'')
    (hloop : sh'.loop = sh.loop) (hsum : sum.loop = sh.loop)
    (hvalues : sum.extents.map ρ = List.zipWith (fun a b => ρ a + ρ b) sh.extents sh'.extents)
    (p q : Point) : Composed ρ [m, m'] p q ↔ m''.Relates ρ p q := by
  have hextents := Fragment.length_extents_eq h hrun hrun' hloop
  obtain ⟨-, g, hg, hlength, rfl⟩ := Fragment.shift_eq_ok h hrun
  obtain ⟨-, g', hg', hlength', rfl⟩ := Fragment.shift_eq_ok h hrun'
  obtain ⟨-, g'', hg'', hlength'', rfl⟩ := Fragment.shift_eq_ok h hrun''
  have hv := h.valid
  obtain rfl := hv.group_eq hg hg'
  obtain rfl := hv.group_eq hg hg''
  have hloops := hv.not_mem_vars hg hv.loops_constant
  have hfirst := permutes_shiftMap (ρ := ρ) hv hg hlength
  have hsecond := permutes_shiftMap (ρ := ρ) hv hg hlength'
  refine (hfirst.comp hsecond).iff_of_eq (permutes_shiftMap hv hg hlength'') (fun xs _ => ?_) p q
  rw [Function.comp, onTuples_onTuples (within_displace hv.loops_mem)]
  refine List.map_congr_left fun n _ => displace_add hlength hloops hloop hsum (fun n => ?_) _ n
  exact offset_add hextents hvalues n

/-- In every reachable schedule the map of a shift and that of a wavefront permute the space, the
shift by moving the leading variables of its target in one nest, the wavefront by adding up the
variables of its target.  Two shifts may be applied in either order, and two of one nest and target
are one shift by the sums of their extents.  The texts say the same: that of a wavefront always, and
that of a shift if it can be read. -/
theorem fragments_permute (c : Chain) (s : Schedule) (hs : Reached c s) :
    let names := s.layout.inputNames
    names.Nodup ∧ s.loopsConstant ∈ names ∧
    (∀ (sh : Shift) (id : ℕ) (m : UnionMap) (s' : Schedule), Fragment.shift sh id s = .ok m s' →
      ∃ target, s.layout.find id = .ok target ∧ sh.extents.length ≤ target.size ∧
        target.vars ⊆ names ∧ s.loopsConstant ∉ target.vars ∧
        ∀ ρ : Valuation,
          Permutes (m.Relates ρ) names.length
            (onTuples names (sh.displace ρ s.loopsConstant target.vars)) ∧
          ∀ π : Valuation, sh.Readable s id π ρ → Permutes (TextRelates π m.render) names.length
            (onTuples names (sh.displace ρ s.loopsConstant target.vars))) ∧
    (∀ (id : ℕ) (m : UnionMap) (s' : Schedule), Fragment.wavefront id s = .ok m s' →
      ∃ target first others, s.layout.find id = .ok target ∧ target.vars = first :: others ∧
        target.vars ⊆ names ∧
        ∀ π : Valuation, Permutes (TextRelates π m.render) names.length
          (onTuples names (skew first target.vars))) ∧
    ∀ (sh sh' : Shift) (id id' : ℕ) (m m' : UnionMap) (s₁ s₂ : Schedule),
      Fragment.shift sh id s = .ok m s₁ → Fragment.shift sh' id' s₁.next = .ok m' s₂ →
      (∃ t₁ t₂, Fragment.shift sh' id' s = .ok m' t₁ ∧ Fragment.shift sh id t₁.next = .ok m t₂) ∧
      (∀ ρ p q, (Composed ρ [m, m'] p q ↔ Composed ρ [m', m] p q) ∧
        ∀ π, sh.Readable s id π ρ → sh'.Readable s id' π ρ →
          (TextsRelate π [m.render, m'.render] p q ↔ TextsRelate π [m'.render, m.render] p q)) ∧
      ∀ (sum : Shift) (m'' : UnionMap) (t : Schedule) (ρ : Valuation),
        id' = id → sh'.loop = sh.loop → sum.loop = sh.loop →
        sum.extents.map ρ = List.zipWith (fun a b => ρ a + ρ b) sh.extents sh'.extents →
        Fragment.shift sum id s = .ok m'' t →
        ∀ p q, (Composed ρ [m, m'] p q ↔ m''.Relates ρ p q) ∧
          ∀ π, sh.Readable s id π ρ → sh'.Readable s id' π ρ → sum.Readable s id π ρ →
            (TextsRelate π [m.render, m'.render] p q ↔ TextRelates π m''.render p q) := by
  intro names
  obtain ⟨v, hsound, hspelled⟩ := hs.sound
  have hv := hsound.valid
  have hnames : names = v.names := hsound.inputNames_eq
  have hloops : s.loopsConstant = loopsGroup.constant := Fragment.loopsConstant_eq hsound
  have hsubset : ∀ {id : ℕ} {target : Subspace}, (id, target.group) ∈ v → target.vars ⊆ v.names :=
    fun hg n hn => names_subset hg n (List.mem_append_left _ hn)
  rw [hnames, hloops]
  refine ⟨hv.names_nodup, hv.loops_mem, ?_, ?_, ?_⟩
  · intro sh id m s' hrun
    have htext := fun ρ π => textRelates_shift (ρ := ρ) (π := π) hsound hspelled hrun
    obtain ⟨-, g, hg, hlength, rfl⟩ := Fragment.shift_eq_ok hsound hrun
    obtain ⟨target, htarget, rfl⟩ := hsound.find_of_mem hg
    refine ⟨target, htarget, hlength, hsubset hg, hv.not_mem_vars hg hv.loops_constant, fun ρ => ?_⟩
    have hpermutes := permutes_shiftMap (ρ := ρ) hv hg hlength
    exact ⟨hpermutes, fun π hread => hpermutes.congr fun p q => htext ρ π hread⟩
  · intro id m s' hrun
    obtain ⟨-, g, first, others, hg, hvars, rfl⟩ := Fragment.wavefront_eq_ok hsound hrun
    obtain ⟨target, htarget, rfl⟩ := hsound.find_of_mem hg
    refine ⟨target, first, others, htarget, hvars, hsubset hg, fun π => ?_⟩
    exact (permutes_wavefrontMap (ρ := π) hv hg hvars).congr fun p q =>
      textRelates_wavefrontMap hv hspelled hg hvars
  · intro sh sh' id id' m m' s₁ s₂ hrun hrun'
    obtain ⟨hsound₁, hchain₁⟩ := next_of_shift hsound hrun
    obtain ⟨t₁, ht₁⟩ := Fragment.shift_of_arrangement hsound₁ hsound hchain₁.symm hrun'
    obtain ⟨hsound₂, hchain₂⟩ := next_of_shift hsound ht₁
    obtain ⟨t₂, ht₂⟩ := Fragment.shift_of_arrangement hsound hsound₂ hchain₂ hrun
    refine ⟨⟨t₁, t₂, ht₁, ht₂⟩, fun ρ p q => ?_, ?_⟩
    · have hcomm := composed_shift_comm (ρ := ρ) hsound hrun ht₁ p q
      refine ⟨hcomm, fun π hread hread' => ?_⟩
      rw [textsRelate_shifts hsound hspelled hrun ht₁ hread hread',
        textsRelate_shifts hsound hspelled ht₁ hrun hread' hread, hcomm]
    · rintro sum m'' t ρ rfl hloop hsum hvalues hrun'' p q
      have hadd := composed_shift_add hsound hrun ht₁ hrun'' hloop hsum hvalues p q
      refine ⟨hadd, fun π hread hread' hread'' => ?_⟩
      rw [textsRelate_shifts hsound hspelled hrun ht₁ hread hread',
        textRelates_shift hsound hspelled hrun'' hread'', hadd]

/-- A nest that is narrower than the other, behind a tiling of it, with an extent over the parameter
`N`, which is five. -/
theorem fragments_permute_narrow :
    let c : Chain := ⟨[⟨⟨[("0", "9"), ("0", "9")], []⟩, []⟩, ⟨⟨[("0", "9")], ["N"]⟩, []⟩]⟩
    let s := (make c "" "c").perform [.apply (.tile 1 (.uniform "3") [] [])]
    let narrow : Shift := { loop := 1, extents := ["N-2"], symbols := ["N"] }
    let wide : Shift := { loop := 0, extents := ["1", "2"] }
    let π : Valuation := fun n => if n = "N" then 5 else 0
    s.layout.inputNames = ["loops_c", "t_i_0", "t_i_1", "t_i_c", "i_0", "i_1", "i_c"] ∧
      (∃ m s₁, Fragment.shift narrow Layout.nest s = .ok m s₁ ∧
        (∀ q, TextRelates π m.render ⟨"", [1, 7, 8, 9, 10, 11, 0]⟩ q ↔
          q = ⟨"", [1, 7, 8, 9, 13, 11, 0]⟩) ∧
        (∀ q, TextRelates π m.render ⟨"", [0, 7, 8, 9, 10, 11, 0]⟩ q ↔
          q = ⟨"", [0, 7, 8, 9, 10, 11, 0]⟩) ∧
        ∃ m' s₂, Fragment.shift wide Layout.nest s₁.next = .ok m' s₂ ∧
          ∀ p q, TextsRelate π [m.render, m'.render] p q ↔
            TextsRelate π [m'.render, m.render] p q) ∧
      (∃ m s₁, Fragment.wavefront 2 s = .ok m s₁ ∧
        ∀ q, TextRelates π m.render ⟨"", [1, 7, 8, 9, 10, 11, 0]⟩ q ↔
          q = ⟨"", [1, 15, 8, 9, 10, 11, 0]⟩) ∧
      ∃ m s₁ m' s₂ m'' t, Fragment.shift { loop := 1, extents := ["4"] } Layout.nest s = .ok m s₁ ∧
        Fragment.shift { loop := 1, extents := ["5"] } Layout.nest s₁.next = .ok m' s₂ ∧
        Fragment.shift { loop := 1, extents := ["9"] } Layout.nest s = .ok m'' t ∧
        ∀ p q, TextsRelate π [m.render, m'.render] p q ↔ TextRelates π m''.render p q := by
  intro c s narrow wide π
  obtain ⟨-, -, hshift, hwavefront, hpairs⟩ := fragments_permute c s (.perform "" "c" _)
  have hnames : s.layout.inputNames =
      ["loops_c", "t_i_0", "t_i_1", "t_i_c", "i_0", "i_1", "i_c"] := by decide +kernel
  have hloops : s.loopsConstant = "loops_c" := by decide +kernel
  rw [hnames, hloops] at hshift
  rw [hnames] at hwavefront
  -- the values of the texts
  let ρ : Valuation := fun text => if text = "N-2" then 3 else literal text
  have hliteral : ∀ (k : ℕ) (extents : List String),
      (∀ text ∈ extents, text ≠ "N-2" ∧ 0 < literal text) →
      Shift.Readable s Layout.nest π ρ { loop := k, extents } := by
    intro k extents hextents
    refine ⟨by simp, by simp, by simp, by simp, fun text htext => ?_⟩
    obtain ⟨hne, hpos⟩ := hextents text htext
    have hvalue : ρ text = literal text := if_neg hne
    rw [hvalue]
    exact (denotesUnit_literal hpos).denotes _ π
  have hnarrow : narrow.Readable s Layout.nest π ρ := by
    refine ⟨by decide, by decide, by decide +kernel, List.forall_mem_singleton.mpr ?_,
      List.forall_mem_singleton.mpr ?_⟩
    · intro target _ x _ hx
      simpa [aliasOf] using congrArg (·.toList.length) hx
    · refine ⟨.minus (.ofName "N") (.single (.number 2)), by decide, ⟨trivial, trivial⟩,
        fun n hn => ?_, by decide⟩
      simpa [narrow, Expression.tokens, Expression.ofName, Product.tokens, Factor.tokens] using hn
  refine ⟨hnames, ?_, ?_, ?_⟩
  · obtain ⟨m, hm⟩ := ok_of_isSome (x := Fragment.shift narrow Layout.nest) (s := s)
      (by decide +kernel)
    obtain ⟨m', hm'⟩ := ok_of_isSome (x := Fragment.shift wide Layout.nest)
      (s := ((Fragment.shift narrow Layout.nest).after s).next) (by decide +kernel)
    obtain ⟨target, htarget, -, -, -, hpermutes⟩ := hshift _ _ _ _ hm
    have hvars : target.vars = ["i_0", "i_1"] := by
      have hfind : (s.layout.find Layout.nest).map (·.vars) = .ok ["i_0", "i_1"] := by
        decide +kernel
      rw [htarget] at hfind
      exact Except.ok.inj hfind
    have hfunction := (hpermutes ρ).2 π hnarrow
    rw [hvars] at hfunction
    refine ⟨m, _, hm, hfunction.at_tuple rfl (by decide +kernel),
      hfunction.at_tuple rfl (by decide +kernel), m', _, hm', fun p q => ?_⟩
    exact ((hpairs _ _ _ _ _ _ _ _ hm hm').2.1 ρ p q).2 π hnarrow (hliteral 0 _ (by decide))
  · obtain ⟨m, hm⟩ := ok_of_isSome (x := Fragment.wavefront 2) (s := s) (by decide +kernel)
    obtain ⟨target, first, others, htarget, hcons, -, hfunction⟩ := hwavefront _ _ _ hm
    have hvars : target.vars = ["t_i_0", "t_i_1"] := by
      have hfind : (s.layout.find 2).map (·.vars) = .ok ["t_i_0", "t_i_1"] := by decide +kernel
      rw [htarget] at hfind
      exact Except.ok.inj hfind
    obtain ⟨rfl, -⟩ := List.cons.inj (hvars.symm.trans hcons)
    rw [hvars] at hfunction
    exact ⟨m, _, hm, (hfunction π).at_tuple rfl (by decide +kernel)⟩
  · obtain ⟨m, hm⟩ := ok_of_isSome
      (x := Fragment.shift { loop := 1, extents := ["4"] } Layout.nest) (s := s) (by decide +kernel)
    obtain ⟨m', hm'⟩ := ok_of_isSome
      (x := Fragment.shift { loop := 1, extents := ["5"] } Layout.nest)
      (s := ((Fragment.shift { loop := 1, extents := ["4"] } Layout.nest).after s).next)
      (by decide +kernel)
    obtain ⟨m'', hm''⟩ := ok_of_isSome
      (x := Fragment.shift { loop := 1, extents := ["9"] } Layout.nest) (s := s) (by decide +kernel)
    obtain ⟨-, -, hsum⟩ := hpairs _ _ _ _ _ _ _ _ hm hm'
    refine ⟨m, _, m', _, m'', _, hm, hm', hm'', fun p q => ?_⟩
    exact (hsum { loop := 1, extents := ["9"] } m'' _ ρ rfl rfl rfl (by decide +kernel) hm'' p q).2 π
      (hliteral 1 _ (by decide)) (hliteral 1 _ (by decide)) (hliteral 1 _ (by decide))

/-- A shift that declares a coordinate as its symbol: the text has a point for the value of the
symbol alone. -/
theorem exists_shift_not_total :
    let c : Chain := ⟨[⟨⟨[("0", "9")], []⟩, []⟩]⟩
    let sh : Shift := { loop := 0, extents := ["1"], symbols := ["i_0"] }
    ∃ m s', Fragment.shift sh Layout.nest (make c "" "c") = .ok m s' ∧
      ∀ (π : Valuation) (x : ℤ),
        (∃ q, TextRelates π m.render ⟨"", [0, x, 0]⟩ q) ↔ x = π "i_0" := by
  intro c sh
  let moved : Clause :=
    { input := ["loops_c", "i_0", "i_c"]
      output := ["loops_c", "alias_i_0", "alias_i_c"]
      conditions := [.is "loops_c" 0, .moved "alias_i_0" "i_0" "1", .same "alias_i_c" "i_c"] }
  let e : Expression := .ofNumber 1
  have htokens : e.tokens = tokens "1" := by decide
  have hclosed : e.Closed := by
    simp [Expression.Closed, e, Expression.ofNumber, Expression.tokens, Product.tokens,
      Factor.tokens]
  have hmap : ∀ m ∈ (Fragment.shift sh Layout.nest).result? (make c "" "c"),
      moved ∈ m.clauses ∧ (∀ clause ∈ m.clauses, clause.input = ["loops_c", "i_0", "i_c"]) ∧
        m.symbols = ["i_0"] ∧ m.extents = ["1"] ∧ m.sizes = [] := by decide +kernel
  obtain ⟨m, hrun⟩ := ok_of_isSome (x := Fragment.shift sh Layout.nest) (s := make c "" "c")
    (by decide +kernel)
  obtain ⟨hmoved, hinput, hsymbols, hextents, hsizes⟩ := hmap m (result?_eq_some.mpr ⟨_, hrun⟩)
  have hsound := Layout.sound_startLayout c
  obtain ⟨-, g, hg, hlength, hshift⟩ := Fragment.shift_eq_ok hsound hrun
  have hstep : Step (.shift sh) (Layout.startArrangement c.maxDimension) m
      (Layout.startArrangement c.maxDimension) := hshift ▸ .shift (.shift sh) hg hlength
  have hlegible := hstep.legible hsound.valid hsound.valid (spelled_start _)
    (by rw [hsymbols]; decide)
  refine ⟨m, _, hrun, fun π x => ?_⟩
  simp only [hlegible.textRelates_iff_textHolds (by simp [hsymbols]) hclosed
    (by simp [hextents, hsizes, htokens]), hsymbols]
  constructor
  · rintro ⟨q, clause, hclause, -, -, σ, hσ, hp, -⟩
    rw [hinput clause hclause] at hp
    have hx : σ "i_0" = x := (List.cons.inj (List.cons.inj hp).2).1
    rw [← hx, hσ "i_0" (by simp)]
  · rintro rfl
    let σ : Valuation := fun n =>
      if n = "i_0" then π "i_0" else if n = "alias_i_0" then π "i_0" + 1 else 0
    refine ⟨⟨"", moved.output.map σ⟩, moved, hmoved, rfl, rfl, σ, by simp [σ], by simp [moved, σ],
      rfl, ?_⟩
    simp only [moved, List.forall_mem_cons, List.not_mem_nil, false_implies, implies_true, and_true]
    exact ⟨(Condition.textHolds_is (by decide) 0).mpr rfl,
      (Condition.textHolds_moved (by decide) (by decide) htokens).mpr (by simp [σ, e]; rfl),
      (Condition.textHolds_same (by decide) (by decide)).mpr rfl⟩

end Schedule

end LoopSched
