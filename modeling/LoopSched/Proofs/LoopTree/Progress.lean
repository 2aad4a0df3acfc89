import LoopSched.Proofs.LoopTree.Runs

/-!
# Reading ends on every text

Every call of the parser has a run, and with a unit of fuel for each call of the run it has the
result of the run.  A run makes no more calls than the parser has fuel for the length of its text,
so the fuel is never used up: it only makes the recursion structural.
-/

namespace LoopSched.LoopTree.Parser

/-! ### What a call does -/

section

variable {fuel : ℕ} {cs rest inner rest' behind after : List Char} {e : SyntaxFault × List Char}

theorem statement_nothing (h : opening cs = .nothing) :
    statement (fuel + 1) cs = .error (.unexpectedEnd, []) := by
  rw [statement, h]

theorem statement_brace (h : opening cs = .brace rest) : statement (fuel + 1) cs =
    (statements true fuel rest).map fun p => (.block p.1, p.2) := by
  rw [statement, h]
  exact bind_ok_eq_map _ fun p => LoopTree.block p.1

theorem statement_comment (h : opening cs = .comment rest) : statement (fuel + 1) cs =
    (statement fuel (rest.dropWhile (· ≠ '\n'))).map fun p =>
      (.mark (textOf (rest.takeWhile (· ≠ '\n'))) p.1, p.2) := by
  rw [statement, h]
  exact bind_ok_eq_map _ fun p => LoopTree.mark _ p.1

theorem statement_loop_unbalanced (h : opening cs = .loop rest)
    (hinner : parenthesized rest = .error e) : statement (fuel + 1) cs = .error e := by
  rw [statement, h]
  dsimp only
  rw [hinner]
  rfl

theorem statement_loop_malformed (h : opening cs = .loop rest)
    (hinner : parenthesized rest = .ok (inner, rest')) {fault : SyntaxFault}
    (hheader : header inner = .error fault) :
    statement (fuel + 1) cs = .error (fault, rest') := by
  rw [statement, h]
  dsimp only
  rw [hinner]
  dsimp only [bind, Except.bind]
  rw [hheader]

theorem statement_loop (h : opening cs = .loop rest)
    (hinner : parenthesized rest = .ok (inner, rest')) {hd : Header}
    (hheader : header inner = .ok hd) :
    statement (fuel + 1) cs =
      (statement fuel rest').map fun p => (.loop hd false p.1, p.2) := by
  rw [statement, h]
  dsimp only
  rw [hinner]
  dsimp only [bind, Except.bind]
  rw [hheader]
  exact bind_ok_eq_map _ fun p => LoopTree.loop hd false p.1

theorem statement_test_unbalanced (h : opening cs = .condition rest)
    (hinner : parenthesized rest = .error e) : statement (fuel + 1) cs = .error e := by
  rw [statement, h]
  dsimp only
  rw [hinner]
  rfl

theorem statement_body_fails (h : opening cs = .condition rest)
    (hinner : parenthesized rest = .ok (inner, rest')) (hbody : statement fuel rest' = .error e) :
    statement (fuel + 1) cs = .error e := by
  rw [statement, h]
  dsimp only
  rw [hinner]
  dsimp only [bind, Except.bind]
  rw [hbody]

theorem statement_ifThen (h : opening cs = .condition rest)
    (hinner : parenthesized rest = .ok (inner, rest')) {body : LoopTree}
    (hbody : statement fuel rest' = .ok (body, behind))
    (helse : keyword? ['e', 'l', 's', 'e'] (skipSpace behind) = none) :
    statement (fuel + 1) cs = .ok (.ifThen (textOf inner) body, skipSpace behind) := by
  rw [statement, h]
  dsimp only
  rw [hinner]
  dsimp only [bind, Except.bind]
  rw [hbody]
  dsimp only
  rw [helse]
  rfl

theorem statement_ifElse (h : opening cs = .condition rest)
    (hinner : parenthesized rest = .ok (inner, rest')) {body : LoopTree}
    (hbody : statement fuel rest' = .ok (body, behind))
    (helse : keyword? ['e', 'l', 's', 'e'] (skipSpace behind) = some after) :
    statement (fuel + 1) cs =
      (statement fuel after).map fun p => (.ifElse (textOf inner) body p.1, p.2) := by
  rw [statement, h]
  dsimp only
  rw [hinner]
  dsimp only [bind, Except.bind]
  rw [hbody]
  dsimp only
  rw [helse]
  exact bind_ok_eq_map _ fun p => LoopTree.ifElse (textOf inner) body p.1

theorem statement_call (h : opening cs = .other rest) : statement (fuel + 1) cs =
    (callText 0 rest).map fun p => (.call (textOf p.1), p.2) := by
  rw [statement, h]
  exact bind_ok_eq_map _ fun p => LoopTree.call (textOf p.1)

theorem statements_text_ends (h : skipSpace cs = []) :
    statements false (fuel + 1) cs = .ok ([], []) := by
  rw [statements.eq_def]
  dsimp only
  rw [h]

theorem statements_block_unterminated (h : skipSpace cs = []) :
    statements true (fuel + 1) cs = .error (.unterminatedBlock, []) := by
  rw [statements.eq_def]
  dsimp only
  rw [h]

theorem statements_block_ends (h : skipSpace cs = '\x7d' :: rest) :
    statements true (fuel + 1) cs = .ok ([], rest) := by
  rw [statements.eq_def]
  dsimp only
  rw [h]
  rfl

variable {inBlock : Bool}

theorem GoesOn.statements_eq (h : GoesOn inBlock cs) : statements inBlock (fuel + 1) cs =
    statement fuel (skipSpace cs) >>= fun p =>
      (statements inBlock fuel p.2).map fun q => (p.1 :: q.1, q.2) := by
  rw [statements.eq_def]
  dsimp only
  split
  · next heq => exact absurd heq h.1
  · next heq => exact absurd heq h.1
  · next heq => exact absurd (congrArg List.head? heq) (h.2 rfl)
  · refine congrArg _ (funext fun p => ?_)
    exact bind_ok_eq_map _ fun q => p.1 :: q.1

theorem statements_fail (h : GoesOn inBlock cs) (ht : statement fuel (skipSpace cs) = .error e) :
    statements inBlock (fuel + 1) cs = .error e := by
  rw [h.statements_eq, ht]
  rfl

theorem statements_cons (h : GoesOn inBlock cs) {t : LoopTree}
    (ht : statement fuel (skipSpace cs) = .ok (t, behind)) : statements inBlock (fuel + 1) cs =
      (statements inBlock fuel behind).map fun p => (t :: p.1, p.2) := by
  rw [h.statements_eq, ht]
  rfl

end

/-! ### The parser and its runs -/

/-- The function that is called. -/
def Call.run : (call : Call) → ℕ → List Char → Result (call.Out × List Char)
  | statement => Parser.statement
  | statements inBlock => Parser.statements inBlock

/-- With a unit of fuel for each call the parser has the result of the run. -/
theorem Runs.run_eq {call : Call} {n : ℕ} {cs : List Char} {r : Result (call.Out × List Char)}
    (h : Runs call n cs r) (k : ℕ) : call.run (k + n) cs = r := by
  induction h generalizing k with
  | nothing hopen => exact statement_nothing hopen
  | brace hopen _ ih => exact (statement_brace hopen).trans (congrArg _ (ih k))
  | comment hopen _ ih => exact (statement_comment hopen).trans (congrArg _ (ih k))
  | loopUnbalanced hopen hinner => exact statement_loop_unbalanced hopen hinner
  | loopMalformed hopen hinner hheader => exact statement_loop_malformed hopen hinner hheader
  | loop hopen hinner hheader _ ih =>
    exact (statement_loop hopen hinner hheader).trans (congrArg _ (ih k))
  | testUnbalanced hopen hinner => exact statement_test_unbalanced hopen hinner
  | bodyFails hopen hinner _ ih => exact statement_body_fails hopen hinner (ih k)
  | ifThen hopen hinner _ helse ih => exact statement_ifThen hopen hinner (ih k) helse
  | @ifElse _ _ _ _ _ _ n m _ _ hopen hinner _ helse _ ih ih' =>
    have hbody := ih (k + m)
    have hother := ih' (k + n)
    rw [Nat.add_right_comm, Nat.add_assoc] at hbody
    rw [Nat.add_assoc] at hother
    exact (statement_ifElse hopen hinner hbody helse).trans (congrArg _ hother)
  | call hopen => exact statement_call hopen
  | textEnds hend => exact statements_text_ends hend
  | blockUnterminated hend => exact statements_block_unterminated hend
  | blockEnds hend => exact statements_block_ends hend
  | statementFails hgo _ ih => exact statements_fail hgo (ih k)
  | @cons _ _ _ n m _ _ hgo _ _ ih ih' =>
    have ht := ih (k + m)
    have hts := ih' (k + n)
    rw [Nat.add_right_comm, Nat.add_assoc] at ht
    rw [Nat.add_assoc] at hts
    exact (statements_cons hgo ht).trans (congrArg _ hts)

/-- Two runs of a call have one result. -/
theorem Runs.unique {call : Call} {n m : ℕ} {cs : List Char} {r s : Result (call.Out × List Char)}
    (hr : Runs call n cs r) (hs : Runs call m cs s) : r = s := by
  rw [← hr.run_eq m, ← hs.run_eq n, Nat.add_comm]

/-- The fuel is enough for whatever is read, or it was enough for a result. -/
def Enough (call : Call) (fuel : ℕ) (cs : List Char) : Prop :=
  2 * cs.length + call.extra ≤ fuel ∨ ∃ x, call.run fuel cs = .ok x

namespace Enough

variable {call call' : Call} {fuel : ℕ} {cs ds : List Char}

theorem not_zero (call : Call) (cs : List Char) : ¬ Enough call 0 cs := by
  rintro (h | ⟨x, hx⟩)
  · cases call <;> simp [Call.extra] at h
  · cases call with
    | statement => cases (statement_zero cs).symm.trans hx
    | statements inBlock => cases (statements_zero inBlock cs).symm.trans hx

/-- What is left is enough for a call behind some characters, if its result is needed. -/
theorem inner (h : Enough call (fuel + 1) cs)
    (hlength : 2 * ds.length + call'.extra < 2 * cs.length + call.extra)
    (hok : ∀ x, call.run (fuel + 1) cs = .ok x → ∃ y, call'.run fuel ds = .ok y) :
    Enough call' fuel ds := by
  rcases h with h | ⟨x, hx⟩
  · exact .inl (by omega)
  · exact .inr (hok x hx)

theorem inner_map (h : Enough call (fuel + 1) cs)
    (hlength : 2 * ds.length + call'.extra < 2 * cs.length + call.extra)
    {f : call'.Out × List Char → call.Out × List Char}
    (hmap : call.run (fuel + 1) cs = (call'.run fuel ds).map f) : Enough call' fuel ds := by
  refine h.inner hlength fun x hx => ?_
  rw [hmap] at hx
  cases hr : call'.run fuel ds with
  | error e =>
    rw [hr] at hx
    cases hx
  | ok y => exact ⟨y, rfl⟩

end Enough

/-- A condition is read by a run, if the calls behind it are. -/
theorem exists_runs_condition {fuel : ℕ} {cs rest : List Char}
    (ih : ∀ ds, Enough .statement fuel ds → ∃ n, Runs .statement n ds (statement fuel ds))
    (h : Enough .statement (fuel + 1) cs) (hopen : opening cs = .condition rest) :
    ∃ n, Runs .statement n cs (statement (fuel + 1) cs) := by
  cases hinner : parenthesized rest with
  | error e => exact ⟨1, statement_test_unbalanced hopen hinner ▸ .testUnbalanced hopen hinner⟩
  | ok p =>
    obtain ⟨inner, rest'⟩ := p
    have hlt := (behind_parenthesized hopen hinner).2
    have henough : Enough .statement fuel rest' := by
      refine h.inner (by omega) fun x hx => ?_
      cases hbody : statement fuel rest' with
      | error e => cases (statement_body_fails hopen hinner hbody).symm.trans hx
      | ok y => exact ⟨y, hbody⟩
    obtain ⟨n, hn⟩ := ih rest' henough
    cases hbody : statement fuel rest' with
    | error e =>
      rw [hbody] at hn
      exact ⟨n + 1, statement_body_fails hopen hinner hbody ▸ .bodyFails hopen hinner hn⟩
    | ok q =>
      obtain ⟨body, behind⟩ := q
      rw [hbody] at hn
      cases helse : keyword? ['e', 'l', 's', 'e'] (skipSpace behind) with
      | none =>
        exact ⟨n + 1, statement_ifThen hopen hinner hbody helse ▸ .ifThen hopen hinner hn helse⟩
      | some after =>
        have hafter : after <:+ skipSpace behind :=
          eq_append_of_keyword? helse ▸ List.suffix_append _ after
        have hle := ((hafter.trans (skipSpace_suffix behind)).trans hn.bounded.suffix).length_le
        have hmap := statement_ifElse hopen hinner hbody helse
        obtain ⟨m, hm⟩ := ih after (h.inner_map (by omega) hmap)
        exact ⟨n + m + 1, hmap ▸ .ifElse hopen hinner hn helse hm⟩

/-- The same for a loop. -/
theorem exists_runs_loop {fuel : ℕ} {cs rest : List Char}
    (ih : ∀ ds, Enough .statement fuel ds → ∃ n, Runs .statement n ds (statement fuel ds))
    (h : Enough .statement (fuel + 1) cs) (hopen : opening cs = .loop rest) :
    ∃ n, Runs .statement n cs (statement (fuel + 1) cs) := by
  cases hinner : parenthesized rest with
  | error e => exact ⟨1, statement_loop_unbalanced hopen hinner ▸ .loopUnbalanced hopen hinner⟩
  | ok p =>
    obtain ⟨inner, rest'⟩ := p
    have hlt := (behind_parenthesized hopen hinner).2
    cases hheader : header inner with
    | error fault =>
      exact ⟨1, statement_loop_malformed hopen hinner hheader ▸
        .loopMalformed hopen hinner hheader⟩
    | ok hd =>
      have hmap : statement (fuel + 1) cs = _ := statement_loop hopen hinner hheader
      obtain ⟨n, hn⟩ := ih rest' (h.inner_map (by omega) hmap)
      exact ⟨n + 1, hmap ▸ .loop hopen hinner hheader hn⟩

theorem goesOn_or (inBlock : Bool) (cs : List Char) : skipSpace cs = [] ∨
    (inBlock = true ∧ ∃ rest, skipSpace cs = '\x7d' :: rest) ∨ GoesOn inBlock cs := by
  cases hskip : skipSpace cs with
  | nil => exact .inl rfl
  | cons c rest =>
    by_cases hend : inBlock = true ∧ c = '\x7d'
    · exact .inr (.inl ⟨hend.1, rest, by rw [hend.2]⟩)
    · refine .inr (.inr ⟨by simp [hskip], fun hblock hhead => hend ⟨hblock, ?_⟩⟩)
      rw [hskip] at hhead
      exact Option.some.inj hhead

theorem exists_runs {call : Call} {fuel : ℕ} {cs : List Char} (h : Enough call fuel cs) :
    ∃ n, Runs call n cs (call.run fuel cs) := by
  induction fuel generalizing call cs with
  | zero => exact absurd h (Enough.not_zero call cs)
  | succ fuel ih =>
    cases call with
    | statement =>
      show ∃ n, Runs .statement n cs (statement (fuel + 1) cs)
      cases hopen : opening cs with
      | nothing => exact ⟨1, statement_nothing hopen ▸ .nothing hopen⟩
      | brace rest =>
        have hlength : 1 + rest.length ≤ cs.length := length_of_opening hopen
        have hmap : statement (fuel + 1) cs = _ := statement_brace hopen
        have henough : Enough (.statements true) fuel rest :=
          h.inner_map (by simp only [Call.extra]; omega) hmap
        obtain ⟨n, hn⟩ := ih henough
        exact ⟨n + 1, hmap ▸ .brace hopen hn⟩
      | comment rest =>
        have hlength : 2 + rest.length ≤ cs.length := length_of_opening hopen
        have hle := (List.dropWhile_suffix (· ≠ '\n') (l := rest)).length_le
        have hmap : statement (fuel + 1) cs = _ := statement_comment hopen
        have henough : Enough .statement fuel (rest.dropWhile (· ≠ '\n')) :=
          h.inner_map (by omega) hmap
        obtain ⟨n, hn⟩ := ih henough
        exact ⟨n + 1, hmap ▸ .comment hopen hn⟩
      | loop rest => exact exists_runs_loop (fun ds => ih) h hopen
      | condition rest => exact exists_runs_condition (fun ds => ih) h hopen
      | other rest => exact ⟨1, statement_call hopen ▸ .call hopen⟩
    | statements inBlock =>
      show ∃ n, Runs (.statements inBlock) n cs (statements inBlock (fuel + 1) cs)
      rcases goesOn_or inBlock cs with hend | ⟨rfl, rest, hend⟩ | hgo
      · cases inBlock with
        | false => exact ⟨1, statements_text_ends hend ▸ .textEnds hend⟩
        | true => exact ⟨1, statements_block_unterminated hend ▸ .blockUnterminated hend⟩
      · exact ⟨1, statements_block_ends hend ▸ .blockEnds hend⟩
      · have hle := (skipSpace_suffix cs).length_le
        have henough : Enough .statement fuel (skipSpace cs) := by
          refine h.inner (by simp only [Call.extra]; omega) fun x hx => ?_
          cases ht : statement fuel (skipSpace cs) with
          | error e => cases (statements_fail hgo ht).symm.trans hx
          | ok y => exact ⟨y, ht⟩
        obtain ⟨n, hn⟩ := ih henough
        cases ht : statement fuel (skipSpace cs) with
        | error e =>
          rw [Call.run, ht] at hn
          exact ⟨n + 1, statements_fail hgo ht ▸ .statementFails hgo hn⟩
        | ok p =>
          obtain ⟨t, behind⟩ := p
          rw [Call.run, ht] at hn
          have hbound : n + 1 + 2 * behind.length ≤ 2 * (skipSpace cs).length :=
            hn.bounded.ok t behind rfl
          have hmap := statements_cons hgo ht
          have henough' : Enough (.statements inBlock) fuel behind :=
            h.inner_map (by omega) hmap
          obtain ⟨m, hm⟩ := ih henough'
          exact ⟨n + m + 1, hmap ▸ .cons hgo hn hm⟩

/-- A text is read to its end. -/
theorem Runs.eq_nil {call : Call} {n : ℕ} {cs : List Char} {r : Result (call.Out × List Char)}
    (h : Runs call n cs r) (hcall : call = .statements false) {x : call.Out} {rest : List Char}
    (hr : r = .ok (x, rest)) : rest = [] := by
  induction h with
  | textEnds =>
    cases hr
    rfl
  | @cons _ _ _ _ _ t r _ _ _ _ ih =>
    cases r with
    | error e => cases hr
    | ok p =>
      have hrest : p.2 = rest := congrArg left hr
      exact ih hcall (x := p.1) (congrArg (fun rest => Except.ok (p.1, rest)) hrest)
  | statementFails => cases hr
  | _ => cases hcall

end LoopSched.LoopTree.Parser

/-! ### Whole texts -/

namespace LoopSched.LoopTree

open LoopSched.LoopTree.Parser

/-- The tree of a text: a single statement stands for itself. -/
def whole : List LoopTree → LoopTree
  | [t] => t
  | ts => .block ts

theorem parse_of_ok {text : String} {ts : List LoopTree} {rest : List Char}
    (h : statements false (fuelFor text.toList) text.toList = .ok (ts, rest)) :
    parse text = .ok (whole ts) := by
  rw [parse, h]
  unfold whole
  split <;> simp_all

theorem parse_of_error {text : String} {fault : SyntaxFault} {rest : List Char}
    (h : statements false (fuelFor text.toList) text.toList = .error (fault, rest)) :
    parse text = .error (.syntaxError fault (lineOf text.toList rest)) := by
  rw [parse, h]

/-- The fuel that a text is read with is enough for it. -/
theorem exists_runs_text (text : String) : ∃ n, Runs (.statements false) n text.toList
    (statements false (fuelFor text.toList) text.toList) := by
  have henough : Enough (.statements false) (fuelFor text.toList) text.toList :=
    .inl (le_refl (fuelFor text.toList))
  exact exists_runs henough

/-- Every text is read in finitely many calls, at most two for each character and two more, and the
answer is a tree for all of the text or a fault at some place in it.  Every statement that is read
moves on, and no call gets behind the end of its text. -/
theorem parse_ends (text : String) :
    (∃ n r, Runs (.statements false) n text.toList r ∧ n ≤ 2 * text.toList.length + 2 ∧
      (∀ m s, Runs (.statements false) m text.toList s → s = r) ∧
      ((∃ ts, r = .ok (ts, []) ∧ parse text = .ok (whole ts)) ∨
        ∃ fault rest, r = .error (fault, rest) ∧
          parse text = .error (.syntaxError fault (lineOf text.toList rest)))) ∧
    (∀ fuel cs t rest, statement fuel cs = .ok (t, rest) →
      rest <:+ cs ∧ rest.length < cs.length) ∧
    ∀ call n cs r, Runs call n cs r → left r <:+ cs := by
  refine ⟨?_, fun fuel cs t rest h => ?_, fun call n cs r h => h.bounded.suffix⟩
  · obtain ⟨n, hn⟩ := exists_runs_text text
    cases hr : statements false (fuelFor text.toList) text.toList with
    | error e =>
      obtain ⟨fault, rest⟩ := e
      rw [hr] at hn
      exact ⟨n, _, hn, hn.bounded.error _ rfl, fun m s hs => hs.unique hn,
        .inr ⟨fault, rest, rfl, parse_of_error hr⟩⟩
    | ok p =>
      obtain ⟨ts, rest⟩ := p
      rw [hr] at hn
      obtain rfl : rest = [] := hn.eq_nil rfl rfl
      have hbound : n + 1 ≤ 2 * text.toList.length + 2 := hn.bounded.ok ts [] rfl
      exact ⟨n, _, hn, by omega, fun m s hs => hs.unique hn, .inl ⟨ts, rfl, parse_of_ok hr⟩⟩
  · have henough : Enough .statement fuel cs := .inr ⟨(t, rest), h⟩
    obtain ⟨n, hn⟩ := exists_runs henough
    rw [Call.run, h] at hn
    have hbound : n + 1 + 2 * rest.length ≤ 2 * cs.length := hn.bounded.ok t rest rfl
    exact ⟨hn.bounded.suffix, by omega⟩

end LoopSched.LoopTree
