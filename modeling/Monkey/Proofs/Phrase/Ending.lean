import Mathlib.Logic.Function.Iterate
import Monkey.Parser.Pointer
import Monkey.Proofs.Phrase.Segment

/-!
# Ending — parsing comes to an end by itself, at the first end of the program

Repetition and recursion go on only where a token was read in between.  On tokens that have an end
these tests are never needed: each round of a repetition reads a token, an expression inside an
expression stands behind a token, and whatever becomes of a statement, parsing goes on behind some
token of it.  So all of it ends without them, and the cursor gets as far as the first end of the
program.
-/

namespace Monkey

open Cursor

/-! ## 1. Places -/

/-- The cursor on token `i` of a list. -/
def place (ts : List Token) (i : Nat) : Cursor := .ofTokens (ts.drop i)

-- It is what a pointer to this token has left to read.
theorem Pointer.cursor_eq_place {ts : List Token} {i : Nat} (hi : i < ts.length) :
    (Pointer.mk ts i).cursor = place ts i := by
  have hlast : (ts.drop i).getLast? = ts.getLast? := by
    rw [List.getLast?_drop, if_neg (Nat.not_le.2 hi)]
  cases hstop : (ts.drop i).dropWhile (·.kind ≠ .eof) with
  | nil => simp only [Pointer.cursor, place, ofTokens, hstop, hlast]
  | cons stop after => simp only [Pointer.cursor, place, ofTokens, hstop]

section

variable {before : List Token} {stop : Token} (hbefore : ∀ t ∈ before, t.kind ≠ .eof)
  (hstop : stop.kind = .eof) (after : List Token) {i : Nat}

include hbefore hstop

theorem place_eq (hi : i ≤ before.length) :
    place (before ++ stop :: after) i = ⟨before.drop i, stop⟩ := by
  rw [place, List.drop_append_of_le_length hi]
  exact ofTokens_append_eof _ after stop (fun t ht => hbefore t (List.mem_of_mem_drop ht)) hstop

theorem remaining_place (hi : i ≤ before.length) :
    (place (before ++ stop :: after) i).remaining = before.length - i := by
  rw [place_eq hbefore hstop after hi, remaining, List.length_drop]

theorem getElem?_eq_current_place (hi : i ≤ before.length) :
    (before ++ stop :: after)[i]? = some (place (before ++ stop :: after) i).current := by
  rw [place_eq hbefore hstop after hi]
  rcases Nat.lt_or_eq_of_le hi with hlt | rfl
  · rw [List.getElem?_append_left hlt, List.drop_eq_getElem_cons hlt, current_cons]
    exact List.getElem?_eq_getElem hlt
  · rw [List.getElem?_append_right (Nat.le_refl _), Nat.sub_self, List.drop_length, current_nil]
    rfl

theorem toEnd_place (hi : i ≤ before.length) :
    Phrase.ToEnd (place (before ++ stop :: after) i) := by
  rw [place_eq hbefore hstop after hi]
  exact Phrase.toEnd_mk hstop fun t ht => hbefore t (List.mem_of_mem_drop ht)

-- A pointer that moves on from the first token gets as far as the first end of the program.
theorem advance_iterate_start (k : Nat) :
    (fun p : Pointer => p.advance.2)^[k] (.start (before ++ stop :: after)) =
      ⟨before ++ stop :: after, min k before.length⟩ := by
  induction k with
  | zero => rw [Nat.zero_min]; rfl
  | succ k ih =>
    rw [Function.iterate_succ_apply', ih]
    rcases Nat.lt_or_ge k before.length with hlt | hge
    · have hget : (before ++ stop :: after)[k]? = some before[k] := by
        rw [List.getElem?_append_left hlt, List.getElem?_eq_getElem hlt]
      have hcurrent := Pointer.current_of_getElem? (p := ⟨before ++ stop :: after, k⟩) hget
      have hne : before[k].kind ≠ .eof := hbefore _ (List.getElem_mem hlt)
      rw [Nat.min_eq_left (Nat.le_of_lt hlt), Nat.min_eq_left hlt]
      simp [Pointer.advance, Pointer.atEnd, hcurrent, hne]
    · have hget : (before ++ stop :: after)[before.length]? = some stop := by simp
      have hcurrent :=
        Pointer.current_of_getElem? (p := ⟨before ++ stop :: after, before.length⟩) hget
      rw [Nat.min_eq_right hge, Nat.min_eq_right (Nat.le_succ_of_le hge)]
      simp [Pointer.advance, Pointer.atEnd, hcurrent, hstop]

-- What is left in front of a later cursor starts at a later place.
theorem exists_place_of_prepend (hi : i ≤ before.length) {d : Cursor} {us : List Token}
    (h : place (before ++ stop :: after) i = d.prepend us) :
    i + us.length ≤ before.length ∧ d = place (before ++ stop :: after) (i + us.length) := by
  rw [place_eq hbefore hstop after hi] at h
  obtain ⟨hrest, hlast⟩ := Cursor.mk.inj h
  have hlength := congrArg List.length hrest
  rw [List.length_drop, List.length_append] at hlength
  have hle : i + us.length ≤ before.length := by omega
  have hdrop := congrArg (List.drop us.length) hrest
  rw [List.drop_drop, List.drop_left] at hdrop
  refine ⟨hle, ?_⟩
  rw [place_eq hbefore hstop after hle, hdrop, hlast]

end

namespace Parser

/-! ## 2. Repetition without a test -/

variable {α : Type}

/-- The rounds of a loop that goes on as long as there is a step, whether it reads anything or not:
the loop ends where there is none, or with the first one that fails. -/
inductive Rounds (next : TokenKind → Option (α → Parser α)) :
    α → Cursor → Except ParseError α × Cursor → Prop
  | done {a c} : next c.current.kind = none → Rounds next a c (.ok a, c)
  | failed {a c f e d} : next c.current.kind = some f → f a c = (.error e, d) →
      Rounds next a c (.error e, d)
  | step {a b c d f r} : next c.current.kind = some f → f a c = (.ok b, d) → Rounds next b d r →
      Rounds next a c r

-- If each step reads a token, the test for it changes nothing.
theorem rounds_loop {next : TokenKind → Option (α → Parser α)} {n : Nat} (h : StepsRead n next)
    {c : Cursor} (hc : c.Within n) (a : α) : Rounds next a c (loop next a c) := by
  -- the induction is on the tokens that are left
  induction hm : c.remaining using Nat.strongRecOn generalizing a c with
  | ind m ih =>
    subst hm
    cases hk : next c.current.kind with
    | none =>
      rw [loop_of_none hk]
      exact .done hk
    | some f =>
      rcases hf : f a c with ⟨e | b, d⟩
      · rw [loop_of_error hk hf]
        exact .failed hk hf
      · rcases h hc hk hf with ⟨ks, hne, hks⟩
        have hlt := hks.remaining_lt hne
        rw [loop_of_ok hk hf hlt]
        exact .step hk hf (ih _ hlt (hks.within hc) b rfl)

/-! ## 3. Recursion without a test -/

-- Two parsers that are local to each other do the same.
theorem Local.eq {n m : Nat} {p q : Parser α} (h : Local n m p q) {c : Cursor} (hc : c.Within n)
    (hc' : c.Within m) : p c = q c := by
  rcases hp : p c with ⟨r, d⟩
  rcases h _ hc rfl hp with ⟨ts, rfl, hq⟩
  exact (hq d hc' rfl).symm

/-- An expression is read by the production for expressions, over the parser for expressions. -/
theorem expr_eq {c : Cursor} (hc : c.last.kind = .eof) :
    Parser.expr c = Grammar.equality Parser.expr c := by
  have hself : c.Within (c.remaining + 1) := ⟨hc, Nat.lt_succ_self _⟩
  have hguard : Local c.remaining c.remaining
      (fun d => if d.remaining < c.remaining then Parser.expr d else unexpected "EXPR" d)
      Parser.expr := by
    intro k d r e hd hk hp
    simp only [hd.remaining_lt, if_true] at hp
    exact expr_local _ _ k hd hk hp
  rw [Parser.expr, Parser.fix]
  exact (Grammar.equality_local hguard).eq hself hself

-- With fewer tokens left than levels, the parser at the bottom is not used.
theorem equality_iterate_local (p : Parser Expr) (n : Nat) :
    Local n n (Grammar.equality^[n] p) Parser.expr := by
  induction n with
  | zero => exact fun k c r d hc => absurd hc.remaining_lt (Nat.not_lt_zero _)
  | succ n ih =>
    intro k c r d hc hk hp
    rw [Function.iterate_succ_apply'] at hp
    rcases Grammar.equality_local ih k hc hk hp with ⟨ts, rfl, hq⟩
    refine ⟨ts, rfl, fun d' hd' hcurrent => ?_⟩
    rw [expr_eq hd'.last_kind]
    exact hq d' hd' hcurrent

theorem equality_iterate {c : Cursor} (hc : c.last.kind = .eof) {n : Nat} (hn : c.remaining < n)
    (p : Parser Expr) : Grammar.equality^[n] p c = Parser.expr c :=
  (equality_iterate_local p n).eq ⟨hc, hn⟩ ⟨hc, hn⟩

end Parser

namespace Phrase

open Monkey.Parser

/-! ## 4. The productions -/

/-- The steps of the loops of the grammar. -/
inductive Repetition : ∀ {α : Type}, (TokenKind → Option (α → Parser α)) → Prop
  | names : Repetition (commaStep Grammar.name)
  | exprs : Repetition (commaStep Parser.expr)
  | stmts : Repetition (blockStep Parser.expr)
  | pairs : Repetition (hashStep Parser.expr)
  | signs : Repetition signStep
  | postfixes : Repetition (postfixStep Parser.expr)
  | multiplicative :
      Repetition (leftStep Grammar.multiplicativeOp? (Grammar.unary Parser.expr))
  | additive : Repetition (leftStep Grammar.additiveOp? (Grammar.multiplicative Parser.expr))
  | comparison : Repetition (leftStep Grammar.comparisonOp? (Grammar.additive Parser.expr))
  | equality : Repetition (leftStep Grammar.equalityOp? (Grammar.comparison Parser.expr))

/-- The parsers that the grammar is made of. -/
inductive Production : ∀ {α : Type}, Parser α → Prop
  | name : Production Grammar.name
  | params : Production Grammar.params
  | exprList (close : Symbol) : Production (Grammar.exprList Parser.expr close)
  | stmt : Production Parser.stmt
  | block : Production (Grammar.block Parser.expr)
  | hash : Production (Grammar.hash Parser.expr)
  | cond : Production (Grammar.cond Parser.expr)
  | primary : Production (Grammar.primary Parser.expr)
  | postfixed : Production (Grammar.postfixed Parser.expr)
  | unary : Production (Grammar.unary Parser.expr)
  | multiplicative : Production (Grammar.multiplicative Parser.expr)
  | additive : Production (Grammar.additive Parser.expr)
  | comparison : Production (Grammar.comparison Parser.expr)
  | expr : Production Parser.expr
  | loop {α : Type} {next : TokenKind → Option (α → Parser α)} (a : α) :
      Repetition next → Production (Parser.loop next a)

section

variable {α : Type} {n : Nat}

theorem multiplicative_reads : Reads (n + 1) (Grammar.multiplicative Parser.expr)
    (LeftAssoc multiplicativeOps (Unary Expression)) (endsLevel multiplicativeOps endsPostfix) :=
  leftAssoc_reads lists_multiplicative (unary_reads (postfixed_reads (expr_reads n))) (by decide)

theorem additive_reads : Reads (n + 1) (Grammar.additive Parser.expr)
    (LeftAssoc additiveOps (LeftAssoc multiplicativeOps (Unary Expression)))
    (endsLevel additiveOps (endsLevel multiplicativeOps endsPostfix)) :=
  leftAssoc_reads lists_additive multiplicative_reads (by decide)

theorem comparison_reads : Reads (n + 1) (Grammar.comparison Parser.expr)
    (LeftAssoc comparisonOps (LeftAssoc additiveOps (LeftAssoc multiplicativeOps
      (Unary Expression))))
    (endsLevel comparisonOps (endsLevel additiveOps (endsLevel multiplicativeOps endsPostfix))) :=
  leftAssoc_reads lists_comparison additive_reads (by decide)

-- No step of the grammar goes on without a token.
theorem Repetition.stepsRead {next : TokenKind → Option (α → Parser α)} (h : Repetition next)
    (n : Nat) : StepsRead (n + 1) next := by
  cases h with
  | names => exact (commaStep_extends (name_reads _)).stepsRead
  | exprs => exact (commaStep_extends (expr_reads _)).stepsRead
  | stmts => exact blockStep_reads (expr_reads _)
  | pairs => exact hashStep_reads (expr_reads _)
  | signs => exact (signStep_extends _).stepsRead
  | postfixes => exact (postfixStep_extends (expr_reads _)).stepsRead
  | multiplicative =>
    exact (leftStep_extends lists_multiplicative
      (unary_reads (postfixed_reads (expr_reads _)))).stepsRead
  | additive => exact (leftStep_extends lists_additive multiplicative_reads).stepsRead
  | comparison => exact (leftStep_extends lists_comparison additive_reads).stepsRead
  | equality => exact (leftStep_extends lists_equality comparison_reads).stepsRead

theorem multiplicative_local (n m : Nat) : Local (n + 1) (m + 1)
    (Grammar.multiplicative Parser.expr) (Grammar.multiplicative Parser.expr) :=
  Grammar.leftAssoc_local (Grammar.unary_local (expr_local n m)) lists_multiplicative

theorem additive_local (n m : Nat) : Local (n + 1) (m + 1)
    (Grammar.additive Parser.expr) (Grammar.additive Parser.expr) :=
  Grammar.leftAssoc_local (multiplicative_local n m) lists_additive

theorem comparison_local (n m : Nat) : Local (n + 1) (m + 1)
    (Grammar.comparison Parser.expr) (Grammar.comparison Parser.expr) :=
  Grammar.leftAssoc_local (additive_local n m) lists_comparison

theorem Repetition.local {next : TokenKind → Option (α → Parser α)} (h : Repetition next)
    (n m : Nat) : StepsLocal (n + 1) (m + 1) next next := by
  cases h with
  | names => exact Grammar.commaStep_local Grammar.name_local
  | exprs => exact Grammar.commaStep_local (expr_local _ _)
  | stmts => exact Grammar.blockStep_local (expr_local _ _)
  | pairs => exact Grammar.hashStep_local (expr_local _ _)
  | signs => exact Grammar.signStep_local
  | postfixes => exact Grammar.postfixStep_local (expr_local _ _)
  | multiplicative =>
    exact Grammar.leftStep_local (Grammar.unary_local (expr_local _ _)) lists_multiplicative
  | additive => exact Grammar.leftStep_local (multiplicative_local n m) lists_additive
  | comparison => exact Grammar.leftStep_local (additive_local n m) lists_comparison
  | equality => exact Grammar.leftStep_local (comparison_local n m) lists_equality

theorem Production.local {p : Parser α} (h : Production p) (n m : Nat) : Local n m p p := by
  have hexpr := expr_local n m
  cases h with
  | name => exact Grammar.name_local
  | params => exact Grammar.params_local
  | exprList close => exact Grammar.exprList_local hexpr close
  | stmt => exact stmt_local n m
  | block => exact Grammar.block_local hexpr
  | hash => exact (Grammar.hash_local hexpr).pred
  | cond => exact (Grammar.cond_local hexpr).pred
  | primary => exact (Grammar.primary_local hexpr).pred
  | postfixed => exact (Grammar.postfixed_local hexpr).pred
  | unary => exact (Grammar.unary_local hexpr).pred
  | multiplicative => exact (multiplicative_local n m).pred
  | additive => exact (additive_local n m).pred
  | comparison => exact (comparison_local n m).pred
  | expr => exact hexpr
  | loop a hnext => exact (Local.loop (hnext.local n m) a).pred

end

/-! ## 5. Tokens with an end -/

/-- Parsing from place `i` on, statement by statement, up to the token at `n`.  Each statement, or
what is skipped behind it, leads further on. -/
inductive Along (ts : List Token) (n : Nat) : Nat → ParseResult → Prop
  | stop : Along ts n n .empty
  | step {i j r} : i < j → j ≤ n → resume (Parser.stmt (place ts i)) = place ts j →
      Along ts n j r → Along ts n i (r.cons (Parser.stmt (place ts i)).1)

/-- How tokens are parsed whose first end of the program is token `n`. -/
structure EndsAt (ts : List Token) (n : Nat) : Prop where
  -- A pointer stands on one token after the other, and on that one for ever,
  current : ∀ i ≤ n, ts[i]? = some (Pointer.mk ts i).current
  advance : ∀ k, (fun p : Pointer => p.advance.2)^[k] (.start ts) = ⟨ts, min k n⟩
  -- and so does a cursor, the places of which are those of the pointer.
  cursor : ∀ i ≤ n, (Pointer.mk ts i).cursor = place ts i
  cursor_current : ∀ i ≤ n, ts[i]? = some (place ts i).current
  cursor_advance : ∀ k, Cursor.advance^[k] (.ofTokens ts) = place ts (min k n)
  -- Wherever a production starts, it stops no earlier, and not behind that token.
  production : ∀ {α : Type} {p : Parser α}, Production p →
    ∀ i ≤ n, ∃ j, i ≤ j ∧ j ≤ n ∧ (p (place ts i)).2 = place ts j
  -- Skipping behind an error leads further on, and not behind that token either.
  skipping : ∀ i ≤ n, ∃ j, i ≤ j ∧ j ≤ n ∧ (i < n → i < j) ∧
    (place ts i).afterSemicolon = place ts j
  -- Loops end by themselves.
  repetition : ∀ {α : Type} {next : TokenKind → Option (α → Parser α)}, Repetition next →
    ∀ (a : α), ∀ i ≤ n, Rounds next a (place ts i) (loop next a (place ts i))
  -- Expressions lie inside one another no deeper than tokens are left.
  recursion : ∀ i ≤ n, Parser.expr (place ts i) = Grammar.equality Parser.expr (place ts i) ∧
    ∀ k > n - i, ∀ p, Grammar.equality^[k] p (place ts i) = Parser.expr (place ts i)
  statements : Along ts n 0 (parse ts)

theorem lt_length_of_le {before : List Token} {i : Nat} (stop : Token) (after : List Token)
    (hi : i ≤ before.length) : i < (before ++ stop :: after).length := by
  rw [List.length_append, List.length_cons]
  omega

section

variable {before : List Token} {stop : Token} (hbefore : ∀ t ∈ before, t.kind ≠ .eof)
  (hstop : stop.kind = .eof) (after : List Token)

include hbefore hstop

theorem along_parseFrom {i : Nat} (hi : i ≤ before.length) :
    Along (before ++ stop :: after) before.length i
      (parseFrom (place (before ++ stop :: after) i)) := by
  have hend := toEnd_place hbefore hstop after hi
  have hremaining := remaining_place hbefore hstop after hi
  -- the induction is on the tokens that are left
  induction hm : before.length - i using Nat.strongRecOn generalizing i with
  | ind m ih =>
    subst hm
    by_cases hlast : (place (before ++ stop :: after) i).atEnd = true
    · have hrest : (place (before ++ stop :: after) i).remaining = 0 := by
        rw [hend.atEnd_iff.1 hlast]
        rfl
      obtain rfl : i = before.length := by omega
      rw [parseFrom, if_pos hlast]
      exact .stop
    · obtain ⟨us, hus⟩ := exists_prepend_resume hend
      obtain ⟨hj, hplace⟩ := exists_place_of_prepend hbefore hstop after hi hus
      have hremaining' := remaining_place hbefore hstop after hj
      have hlt := remaining_resume_lt hend hlast
      rw [hplace, hremaining, hremaining'] at hlt
      rw [parseFrom_eq_cons hend hlast, hplace]
      exact .step (by omega) hj hplace
        (ih _ hlt hj (toEnd_place hbefore hstop after hj) hremaining' rfl)

theorem endsAt : EndsAt (before ++ stop :: after) before.length where
  current i hi := by
    rw [← Pointer.current_cursor, Pointer.cursor_eq_place (lt_length_of_le stop after hi)]
    exact getElem?_eq_current_place hbefore hstop after hi
  advance := advance_iterate_start hbefore hstop after
  cursor i hi := Pointer.cursor_eq_place (lt_length_of_le stop after hi)
  cursor_current i hi := getElem?_eq_current_place hbefore hstop after hi
  cursor_advance k := by
    -- a cursor moves on as the pointer does whose cursor it is
    have hmoves : Function.Semiconj Pointer.cursor (fun p => p.advance.2) Cursor.advance :=
      fun p => (Pointer.advance_cursor p).symm
    rw [← Pointer.cursor_start, ← (hmoves.iterate_right k).eq, advance_iterate_start hbefore hstop,
      Pointer.cursor_eq_place (lt_length_of_le stop after (Nat.min_le_right k _))]
  production := by
    intro α p hp i hi
    have hlast := (toEnd_place hbefore hstop after hi).last_kind
    rcases hpi : p (place (before ++ stop :: after) i) with ⟨r, d⟩
    obtain ⟨us, hus, -⟩ := Local.of_prepend hp.local hlast hpi
    obtain ⟨hj, hplace⟩ := exists_place_of_prepend hbefore hstop after hi hus
    exact ⟨_, Nat.le_add_right _ _, hj, hplace⟩
  skipping := by
    intro i hi
    obtain ⟨us, hus⟩ := exists_prepend_afterSemicolon (place (before ++ stop :: after) i)
    obtain ⟨hj, hplace⟩ := exists_place_of_prepend hbefore hstop after hi hus
    refine ⟨_, Nat.le_add_right _ _, hj, fun hlt => ?_, hplace⟩
    have hremaining := remaining_place hbefore hstop after hi
    have hremaining' := remaining_place hbefore hstop after hj
    have hskip := remaining_afterSemicolon_lt (c := place (before ++ stop :: after) i) (by omega)
    rw [hplace, hremaining, hremaining'] at hskip
    omega
  repetition := by
    intro α next hnext a i hi
    exact rounds_loop (hnext.stepsRead _) (toEnd_place hbefore hstop after hi).within a
  recursion := by
    intro i hi
    have hlast := (toEnd_place hbefore hstop after hi).last_kind
    refine ⟨expr_eq hlast, fun k hk p => equality_iterate hlast ?_ p⟩
    rw [remaining_place hbefore hstop after hi]
    exact hk
  statements := along_parseFrom hbefore hstop after (Nat.zero_le _)

end

-- The first end of the program is found by looking for it.
theorem findIdx_eof {before : List Token} {stop : Token} (hbefore : ∀ t ∈ before, t.kind ≠ .eof)
    (hstop : stop.kind = .eof) (after : List Token) :
    (before ++ stop :: after).findIdx (·.kind = .eof) = before.length := by
  have hnone : before.findIdx (·.kind = .eof) = before.length :=
    List.findIdx_eq_length.2 fun t ht => by simpa using hbefore t ht
  rw [List.findIdx_append, hnone, if_neg (Nat.lt_irrefl _), List.findIdx_cons]
  simp [hstop]

theorem parse_nil : parse [] = .empty := by
  rw [parse, parseFrom]
  rfl

/-- **Parsing ends, and at the first end of the program.**  Whatever the tokens are, if one of them
is an end of the program, then all repetition and recursion comes to its end by itself, the cursor
never gets behind the first end, and what stands behind this does not matter.  No tokens at all are
the empty program. -/
theorem parse_ends_at_first_eof :
    (∀ ts : List Token, (∃ t ∈ ts, t.kind = .eof) →
      EndsAt ts (ts.findIdx (·.kind = .eof)) ∧
      ∀ us : List Token, us.take (ts.findIdx (·.kind = .eof) + 1) =
        ts.take (ts.findIdx (·.kind = .eof) + 1) → parse us = parse ts) ∧
    parse [] = .empty := by
  refine ⟨fun ts hts => ?_, parse_nil⟩
  obtain ⟨before, stop, after, rfl, hbefore, hstop⟩ := exists_first_eof hts
  rw [findIdx_eof hbefore hstop]
  refine ⟨endsAt hbefore hstop after, fun us hus => ?_⟩
  have htake : (before ++ stop :: after).take (before.length + 1) = before ++ [stop] := by
    rw [List.take_length_add_append]
    rfl
  have hcut : us = before ++ stop :: us.drop (before.length + 1) := calc
    us = us.take (before.length + 1) ++ us.drop (before.length + 1) :=
      (List.take_append_drop _ us).symm
    _ = before ++ [stop] ++ us.drop (before.length + 1) := by rw [hus, htake]
    _ = before ++ stop :: us.drop (before.length + 1) := by rw [List.append_assoc]; rfl
  rw [parse, parse, hcut, ofTokens_append_eof before _ stop hbefore hstop,
    ofTokens_append_eof before after stop hbefore hstop]

/-- A brace, the end of the program, and a brace behind it. -/
def braceThenEnd : List Token := [.symbol .lbrace, .eof, .symbol .rbrace].map .ofKind

/-- Between the braces of a hash nothing looks for the end, but no key is found there.  The brace
behind it is not read. -/
theorem parse_braceThenEnd :
    EndsAt braceThenEnd 1 ∧ parse braceThenEnd = parse (braceThenEnd.take 2) ∧
      (parse braceThenEnd).errors.map (·.cause) = [.noExpression "EOF"] := by
  obtain ⟨hends, hsame⟩ := parse_ends_at_first_eof.1 braceThenEnd ⟨.ofKind .eof, by decide, rfl⟩
  exact ⟨hends, (hsame (braceThenEnd.take 2) rfl).symm, by decide +kernel⟩

end Phrase

end Monkey
