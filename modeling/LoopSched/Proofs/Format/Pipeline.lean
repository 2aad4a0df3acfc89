import LoopSched.Format.Pipeline
import LoopSched.Proofs.Format.Chain

/-!
# Pipelines are read back

What is written for a description is read as the same description, unless its tiles are nested so
deep that the text goes beyond what a reader takes; then it is refused.  A transformation inside
another is read by the decoder of lists, like every list, once the room that both use up is counted.
-/

namespace LoopSched

open Json Json.Decode

theorem PrintOptions.written (o : PrintOptions) : Written decoder o.toJson o := by
  have hindent := Written.string o.indent
  have hpragma := Written.string o.pragma
  refine Written.record rfl (by decide) ?_ ?_
  · simp only [List.forall_mem_cons]
    exact ⟨hindent.plain, hpragma.plain, List.forall_mem_nil _⟩
  · rintro room ks (_ | ⟨hi, _ | ⟨hp, ⟨⟩⟩⟩)
    simp [orDefault, hi hindent, hp hpragma]

theorem PrintOptions.depth_toJson (o : PrintOptions) : o.toJson.depth ≤ 1 := by
  refine depth_ofMembers ?_
  simp only [List.forall_mem_cons]
  exact ⟨Nat.le_refl 0, Nat.le_refl 0, List.forall_mem_nil _⟩

namespace Pipeline

namespace Expr

def Fits : Expr → Prop
  | int value => Word.Fits value
  | text _ => True

theorem written {e : Expr} (h : e.Fits) : Written decoder e.toJson e := by
  cases e with
  | int value =>
    have hvalue := Written.word h
    refine ⟨hvalue.plain, fun hroom => ?_⟩
    show (word _ (.ofInt value)).map int = _
    rw [hvalue.reads hroom]
    rfl
  | text value => exact ⟨.string value, fun _ => rfl⟩

theorem toJson_ne_null (e : Expr) : e.toJson ≠ .null := by
  cases e <;> rintro ⟨⟩

end Expr

namespace DataspaceSpec

/-- All numbers are words. -/
structure Fits (d : DataspaceSpec) : Prop where
  reads : ∀ t ∈ d.reads, ∀ x ∈ t, Word.Fits x
  writes : ∀ t ∈ d.writes, ∀ x ∈ t, Word.Fits x
  dimensions : ∀ n ∈ d.dimensions, n < Word.count

theorem written {d : DataspaceSpec} (h : d.Fits) : Written decoder d.toJson d := by
  have hname := Written.string d.name
  have hreads := Written.list fun t ht => Written.list fun x hx => Written.word (h.reads t ht x hx)
  have hwrites := Written.list fun t ht => Written.list fun x hx =>
    Written.word (h.writes t ht x hx)
  have hdimensions := Written.option (fun n hn => Written.nat (h.dimensions n hn))
    fun n => by rintro ⟨⟩
  refine Written.record rfl (by decide) ?_ ?_
  · simp only [List.forall_mem_cons]
    exact ⟨hname.plain, hreads.plain, hwrites.plain, hdimensions.plain, List.forall_mem_nil _⟩
  · rintro room ks (_ | ⟨hn, _ | ⟨hr, _ | ⟨hw, _ | ⟨hd, ⟨⟩⟩⟩⟩⟩)
    simp [required, orDefault, hn hname, hr hreads, hw hwrites, hd hdimensions]

theorem depth_toJson (d : DataspaceSpec) : d.toJson.depth ≤ 3 := by
  have haccesses : ∀ ts : List (List ℤ), (ofList (ofList ofInt) ts).depth ≤ 2 := fun ts =>
    depth_ofList fun t _ => depth_ofList fun x _ => Nat.le_refl 0
  have hdimensions : (ofOption ofNat d.dimensions).depth ≤ 2 := by
    cases d.dimensions <;> exact Nat.zero_le _
  refine depth_ofMembers ?_
  simp only [List.forall_mem_cons]
  exact ⟨Nat.zero_le _, haccesses d.reads, haccesses d.writes, hdimensions, List.forall_mem_nil _⟩

end DataspaceSpec

namespace NestSpec

/-- All numbers are words. -/
structure Fits (n : NestSpec) : Prop where
  bounds : ∀ b ∈ n.bounds, b.1.Fits ∧ b.2.Fits
  dataspaces : ∀ d ∈ n.dataspaces, d.Fits

theorem written {n : NestSpec} (h : n.Fits) : Written decoder n.toJson n := by
  have hbounds : Written (list (pair Expr.decoder Expr.decoder))
      (.ofList (fun b => .array [b.1.toJson, b.2.toJson]) n.bounds) n.bounds :=
    Written.list fun b hb => (Expr.written (h.bounds b hb).1).pair (Expr.written (h.bounds b hb).2)
  have hsymbols := Written.list fun s (_ : s ∈ n.symbols) => Written.string s
  have hdataspaces := Written.list fun d hd => DataspaceSpec.written (h.dataspaces d hd)
  refine Written.record rfl (by decide) ?_ ?_
  · simp only [List.forall_mem_cons]
    exact ⟨hbounds.plain, hsymbols.plain, hdataspaces.plain, List.forall_mem_nil _⟩
  · rintro room ks (_ | ⟨hb, _ | ⟨hs, _ | ⟨hd, ⟨⟩⟩⟩⟩)
    simp [required, orDefault, hb hbounds, hs hsymbols, hd hdataspaces]

theorem depth_toJson (n : NestSpec) : n.toJson.depth ≤ 5 := by
  have hexpr : ∀ e : Expr, e.toJson.depth ≤ 0 := fun e => by cases e <;> exact Nat.le_refl 0
  have hbound : ∀ b : Expr × Expr, (array [b.1.toJson, b.2.toJson]).depth ≤ 1 := fun b =>
    depth_array_le.mpr ⟨0, rfl, by
      simp only [List.forall_mem_cons]
      exact ⟨hexpr b.1, hexpr b.2, List.forall_mem_nil _⟩⟩
  refine depth_ofMembers ?_
  simp only [List.forall_mem_cons]
  exact ⟨Nat.le_trans (depth_ofList fun b _ => hbound b) (by decide),
    Nat.le_trans (depth_ofList fun s _ => Nat.le_refl 0) (by decide),
    depth_ofList fun d _ => d.depth_toJson, List.forall_mem_nil _⟩

end NestSpec

/-! ### Transformations -/

namespace Step

/-- All numbers are words, in the transformations inside too. -/
inductive Fits : Step → Prop
  | identity : Fits .identity
  | shift {loop : ℕ} {extents : List Expr} {symbols : List String} : loop < Word.count →
      (∀ e ∈ extents, e.Fits) → Fits (.shift loop extents symbols)
  | fusion {loops : List ℕ} : (∀ n ∈ loops, n < Word.count) → Fits (.fusion loops)
  | tile {loop : ℕ} {size : Option Expr} {sizes : Option (List Expr)} {outer inner : List Step} :
      loop < Word.count → (∀ e ∈ size, e.Fits) → (∀ es ∈ sizes, ∀ e ∈ es, e.Fits) →
      (∀ s ∈ outer, Fits s) → (∀ s ∈ inner, Fits s) → Fits (.tile loop size sizes outer inner)
  | wavefront : Fits .wavefront
  | parallel {additionalDepth : ℕ} : additionalDepth < Word.count → Fits (.parallel additionalDepth)
  | automaticShift {includeZero : Bool} {nodeLimit : Option ℕ} : (∀ n ∈ nodeLimit, n < Word.count) →
      Fits (.automaticShift includeZero nodeLimit)

theorem toJsonEach_eq (steps : List Step) : toJsonEach steps = steps.map toJson := by
  induction steps with
  | nil => rfl
  | cons s steps ih => rw [toJsonEach, ih, List.map_cons]

/-- What is read depends on the reader of lists only in the room there is. -/
theorem ofFields_congr {steps steps' : Decoder (List Step)} {room : ℕ}
    (h : steps room = steps' room) (kind : Kind) (fs : List (Option Json)) :
    ofFields steps room kind fs = ofFields steps' room kind fs := by
  have hdefault : orDefault steps [] room = orDefault steps' [] room := by
    funext field
    cases field with
    | none => rfl
    | some j => exact congrFun h j
  unfold ofFields
  rw [hdefault]

/-- Lists inside a transformation are read like all lists. -/
theorem decodeAt_succ (nested : Bool) (room : ℕ) (j : Json) :
    decodeAt nested (room + 1) j = kindOf nested j >>= fun r =>
      fields r.1.fields r.2 >>= ofFields (list (decodeAt true)) room r.1 := by
  cases room with
  | zero =>
    rw [decodeAt]
    exact bind_congr fun r => bind_congr fun fs => ofFields_congr (by funext j; rfl) r.1 fs
  | succ room =>
    rw [decodeAt]
    refine bind_congr fun r => bind_congr fun fs => ofFields_congr ?_ r.1 fs
    funext j
    cases j <;> rfl

theorem kindOf_recordOf (nested : Bool) {name : String} {kind : Kind}
    (hkind : Kind.names.lookup name = some kind) {ms : List (String × Json)}
    (hnodup : ("kind" :: ms.map Prod.fst).Nodup) :
    kindOf nested (recordOf name ms) = some (kind, ofMembers ms) := by
  have hnodup' : ((("kind", ofString name) :: ms).map Prod.fst).Nodup := hnodup
  have hfound := select_of_nodup hnodup' (.cons List.mem_cons_self .nil)
  have hrest : (ms.map fun m => (some m.1, m.2)).filter (·.1 ≠ some "kind") =
      ms.map fun m => (some m.1, m.2) := by
    rw [List.filter_eq_self, List.forall_mem_map]
    refine fun m hm => decide_eq_true fun heq => ?_
    have hm : m.1 ∈ ms.map Prod.fst := List.mem_map_of_mem hm
    rw [Option.some.inj heq] at hm
    exact (List.nodup_cons.mp hnodup).1 hm
  have hdecode : Kind.decode? nested (ofString name) = some kind := hkind
  rw [recordOf, ofMembers, kindOf, named_map]
  simp only [Option.bind_eq_bind, Option.bind_some, hfound, List.map_cons, List.map_nil,
    List.head?_cons, Option.join_some, hdecode]
  rw [List.filter_cons_of_neg (by simp), hrest]
  rfl

/-- A transformation is written and read back when its fields are. -/
theorem written_recordOf (nested : Bool) {name : String} {kind : Kind}
    (hkind : Kind.names.lookup name = some kind) {ms : List (String × Json)}
    (hnames : ms.map Prod.fst = kind.fields) {s : Step} (hplain : ∀ m ∈ ms, m.2.Plain)
    (hbuild : ∀ room ks, List.Forall₂ (Agrees room) (ms.map Prod.snd) ks →
      ofFields (list (decodeAt true)) room kind (ks.map some) = some s) :
    Written (decodeAt nested) (recordOf name ms) s where
  plain := plain_ofMembers (List.forall_mem_cons.mpr ⟨.string name, hplain⟩)
  reads {room} hroom := by
    have hnodup : ("kind" :: ms.map Prod.fst).Nodup := by
      rw [hnames]
      cases kind <;> decide
    obtain ⟨room, rfl, hdepth⟩ := depth_ofMembers_le.mp hroom
    obtain ⟨ks, hfields, hagree⟩ := exists_fields (List.nodup_cons.mp hnodup).2
      (List.forall_mem_cons.mp hdepth).2
    rw [hnames] at hfields
    rw [decodeAt_succ, kindOf_recordOf nested hkind hnodup]
    simp only [Option.bind_eq_bind, Option.bind_some, hfields]
    exact hbuild room ks hagree

theorem Fits.written {s : Step} (h : s.Fits) (nested : Bool) :
    Written (decodeAt nested) s.toJson s := by
  induction h generalizing nested with
  | identity =>
    rw [toJson]
    exact written_recordOf nested rfl rfl (List.forall_mem_nil _) fun _ _ _ => rfl
  | wavefront =>
    rw [toJson]
    exact written_recordOf nested rfl rfl (List.forall_mem_nil _) fun _ _ _ => rfl
  | @shift loop extents symbols hloop hextents =>
    have hloop := Written.nat hloop
    have hextents := Written.list fun e he => Expr.written (hextents e he)
    have hsymbols := Written.list fun x (_ : x ∈ symbols) => Written.string x
    rw [toJson]
    refine written_recordOf nested rfl rfl ?_ ?_
    · simp only [List.forall_mem_cons]
      exact ⟨hloop.plain, hextents.plain, hsymbols.plain, List.forall_mem_nil _⟩
    · rintro room ks (_ | ⟨hl, _ | ⟨he, _ | ⟨hs, ⟨⟩⟩⟩⟩)
      simp [ofFields, required, orDefault, hl hloop, he hextents, hs hsymbols]
  | fusion hloops =>
    have hloops := Written.list fun n hn => Written.nat (hloops n hn)
    rw [toJson]
    refine written_recordOf nested rfl rfl ?_ ?_
    · simp only [List.forall_mem_cons]
      exact ⟨hloops.plain, List.forall_mem_nil _⟩
    · rintro room ks (_ | ⟨hl, ⟨⟩⟩)
      simp [ofFields, required, hl hloops]
  | @tile loop size sizes outer inner hloop hsize hsizes _ _ houter hinner =>
    have hloop := Written.nat hloop
    have hsize := Written.option (fun e he => Expr.written (hsize e he)) Expr.toJson_ne_null
    have hsizes := Written.option
      (fun es hes => Written.list fun e he => Expr.written (hsizes es hes e he))
      fun es => by rintro ⟨⟩
    have houter := Written.list fun s hs => houter s hs true
    have hinner := Written.list fun s hs => hinner s hs true
    rw [toJson, toJsonEach_eq, toJsonEach_eq]
    refine written_recordOf nested rfl rfl ?_ ?_
    · simp only [List.forall_mem_cons]
      exact ⟨hloop.plain, hsize.plain, hsizes.plain, houter.plain, hinner.plain,
        List.forall_mem_nil _⟩
    · rintro room ks (_ | ⟨hl, _ | ⟨hs, _ | ⟨hss, _ | ⟨ho, _ | ⟨hi, ⟨⟩⟩⟩⟩⟩⟩)
      simp [ofFields, required, orDefault, hl hloop, hs hsize, hss hsizes, ho houter, hi hinner]
  | parallel hdepth =>
    have hdepth := Written.nat hdepth
    rw [toJson]
    refine written_recordOf nested rfl rfl ?_ ?_
    · simp only [List.forall_mem_cons]
      exact ⟨hdepth.plain, List.forall_mem_nil _⟩
    · rintro room ks (_ | ⟨hd, ⟨⟩⟩)
      simp [ofFields, orDefault, hd hdepth]
  | @automaticShift includeZero nodeLimit hlimit =>
    have hzero := Written.bool includeZero
    have hlimit := Written.option (fun n hn => Written.nat (hlimit n hn)) fun n => by rintro ⟨⟩
    rw [toJson]
    refine written_recordOf nested rfl rfl ?_ ?_
    · simp only [List.forall_mem_cons]
      exact ⟨hzero.plain, hlimit.plain, List.forall_mem_nil _⟩
    · rintro room ks (_ | ⟨hz, _ | ⟨hl, ⟨⟩⟩⟩)
      simp [ofFields, orDefault, hz hzero, hl hlimit]

theorem Fits.decoder_eq {s : Step} (h : s.Fits) (room : ℕ) :
    decoder room s.toJson = if s.toJson.depth ≤ room then some s else none := by
  have hwritten := h.written false
  by_cases hdepth : s.toJson.depth ≤ room
  · rw [decoder, if_pos (hwritten.plain.readable_iff.mpr hdepth), hwritten.reads hdepth,
      if_pos hdepth]
  · rw [decoder, if_neg (mt hwritten.plain.readable_iff.mp hdepth), if_neg hdepth]

end Step

/-! ### Descriptions -/

namespace Description

/-- All numbers are words. -/
structure Fits (d : Description) : Prop where
  nests : ∀ n ∈ d.nests, n.Fits
  transformations : ∀ s ∈ d.transformations, s.Fits

theorem written {d : Description} (h : d.Fits) : Written decoder d.toJson d := by
  have hstep : ∀ s ∈ d.transformations, Written Step.decoder s.toJson s := fun s hs =>
    ⟨((h.transformations s hs).written false).plain, fun hroom => by
      rw [(h.transformations s hs).decoder_eq, if_pos hroom]⟩
  have hstatement := Written.string d.statementPrefix
  have hiterator := Written.string d.iteratorPrefix
  have hnests := Written.list fun n hn => NestSpec.written (h.nests n hn)
  have hsteps := Written.list hstep
  have hcodegen := d.codegen.written
  refine Written.record rfl (by decide) ?_ ?_
  · simp only [List.forall_mem_cons]
    exact ⟨hstatement.plain, hiterator.plain, hnests.plain, hsteps.plain, hcodegen.plain,
      List.forall_mem_nil _⟩
  · rintro room ks (_ | ⟨hs, _ | ⟨hi, _ | ⟨hn, _ | ⟨ht, _ | ⟨hc, ⟨⟩⟩⟩⟩⟩⟩)
    simp [required, orDefault, hs hstatement, hi hiterator, hn hnests, ht hsteps, hc hcodegen]

/-- Only transformations can be nested deep. -/
theorem depth_toJson_le {d : Description} {room : ℕ} (hroom : 5 ≤ room) :
    d.toJson.depth ≤ room + 2 ↔ ∀ s ∈ d.transformations, s.toJson.depth ≤ room := by
  have hnests : (ofList NestSpec.toJson d.nests).depth ≤ 6 := depth_ofList fun n _ => n.depth_toJson
  have hcodegen := d.codegen.depth_toJson
  rw [toJson, depth_ofMembers_le]
  simp only [List.forall_mem_cons]
  constructor
  · rintro ⟨k, hk, -, -, -, hsteps, -⟩
    obtain ⟨l, rfl, hstep⟩ := depth_ofList_le.mp hsteps
    obtain rfl : room = l := by omega
    exact hstep
  · intro hsteps
    exact ⟨room + 1, rfl, Nat.zero_le _, Nat.zero_le _, Nat.le_trans hnests (by omega),
      depth_ofList hsteps, Nat.le_trans hcodegen (by omega), List.forall_mem_nil _⟩

/-- A description with transformations that cannot be read is refused. -/
theorem decoder_eq_none {ms : List (String × Json)} {a b c steps e : Json} {room : ℕ}
    (hnames : ms.map Prod.fst = ["statement_prefix", "iterator_prefix", "nests",
      "transformations", "codegen"])
    (hvalues : ms.map Prod.snd = [a, b, c, steps, e])
    (hsteps : list Step.decoder room steps = none) : decoder (room + 1) (ofMembers ms) = none := by
  have hnodup : (ms.map Prod.fst).Nodup := by
    rw [hnames]
    decide
  have hfields := fields_ofMembers hnodup
  rw [hnames, hvalues] at hfields
  rw [decoder, record, hfields]
  simp [orDefault, hsteps]

theorem parse?_render {d : Description} (h : d.Fits) :
    parse? d.render = if d.toJson.depth ≤ nestingLimit then some d else none := by
  by_cases hdepth : d.toJson.depth ≤ nestingLimit
  · rw [if_pos hdepth]
    exact (written h).decode? hdepth
  · obtain ⟨s, hs, hdeep⟩ : ∃ s ∈ d.transformations, ¬ s.toJson.depth ≤ 125 := by
      have hlimit := mt (depth_toJson_le (by decide)).mpr hdepth
      push Not at hlimit
      exact hlimit.imp fun s hs => ⟨hs.1, Nat.not_le.mpr hs.2⟩
    have hnone : decoder nestingLimit d.toJson = none := by
      rw [toJson, nestingLimit]
      refine decoder_eq_none rfl rfl ?_
      rw [ofList, list]
      refine mapM_eq_none (List.mem_map_of_mem hs) ?_
      rw [(h.transformations s hs).decoder_eq, if_neg hdeep]
    rw [if_neg hdepth, parse?, render, decode?, (written h).plain.parse?_render]
    exact hnone

end Description

/-- What is written is read back: every description, as long as it is nested no deeper than a reader
takes, and every chain.  A description that is nested deeper is refused. -/
theorem read_written :
    (∀ d : Description, d.Fits → Description.parse? d.render =
      if d.toJson.depth ≤ nestingLimit then some d else none) ∧
    ∀ c : Chain, c.Fits → decode? Chain.decoder c.toJson.render = some c :=
  ⟨fun _ h => Description.parse?_render h, fun c h => (Chain.written h).decode? c.depth_toJson⟩

theorem read_written_nested :
    let d : Description := {
      statementPrefix := "\"\\\n\x01é"
      nests := [⟨[(.int (-5), .text "N")], ["N"], [⟨"A", [[-1, 0]], [], some 2⟩]⟩]
      transformations :=
        [.tile 0 (some (.int 4)) none [.tile 1 none (some [.text "b"]) [.wavefront] []] []] }
    let c : Chain := ⟨[⟨⟨[("0", "N")], ["M", "N"]⟩, [⟨"A", ⟨[⟨[-1]⟩, ⟨[0]⟩], 1⟩, ⟨[], 1⟩⟩]⟩]⟩
    d.toJson.depth = 7 ∧ Description.parse? d.render = some d ∧
      decode? Chain.decoder c.toJson.render = some c := by
  intro d c
  have hdepth : d.toJson.depth = 7 := by decide
  have hword : ∀ n ∈ [-5, -1, 0, 4], Word.Fits n := by decide
  have hnest : ∀ n ∈ d.nests, n.Fits := by
    refine List.forall_mem_singleton.mpr ⟨?_, List.forall_mem_singleton.mpr ⟨?_, ?_, ?_⟩⟩
    · exact List.forall_mem_singleton.mpr ⟨hword (-5) (by decide), trivial⟩
    · decide
    · decide
    · decide
  have hstep : ∀ s ∈ d.transformations, s.Fits := by
    refine List.forall_mem_singleton.mpr (.tile (by decide) ?_ (by rintro _ ⟨⟩) ?_ ?_)
    · rintro _ ⟨⟩
      exact hword 4 (by decide)
    · refine List.forall_mem_singleton.mpr (.tile (by decide) (by rintro _ ⟨⟩) ?_ ?_ ?_)
      · rintro _ ⟨⟩
        exact List.forall_mem_singleton.mpr trivial
      · exact List.forall_mem_singleton.mpr .wavefront
      · exact List.forall_mem_nil _
    · exact List.forall_mem_nil _
  have hc : c.Fits := by
    refine List.forall_mem_singleton.mpr ⟨by decide, List.forall_mem_singleton.mpr ⟨?_, ?_⟩⟩
    · exact ⟨by decide, by decide, by decide⟩
    · exact ⟨by decide, by decide, by decide⟩
  refine ⟨hdepth, ?_, read_written.2 c hc⟩
  rw [read_written.1 d ⟨hnest, hstep⟩, if_pos (by rw [hdepth]; decide)]

end Pipeline

end LoopSched
