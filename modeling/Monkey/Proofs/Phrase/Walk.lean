import Monkey.Parser.Pointer
import Monkey.Proofs.Phrase.Failure

/-!
# Walks — operations on one pointer

A pointer can be asked what it stands on, and it can be told to move on, in any case or only over a
token of some class.  Each of these operations is decided by the token at the pointer, and moves it
over that token or not at all.  So wherever a walk leads, the tokens that it has consumed are those
in front of the pointer, and the first end of the program stops it.

Parsers do the same with the cursor on what is left, so all this holds of them as well.
-/

namespace Monkey

namespace Pointer

/-! ## 1. Operations -/

/-- What may be asked of a pointer. -/
inductive Op where
  | current
  | check (k : TokenKind)
  | advance
  | eat (k : TokenKind)
  | expect (k : TokenKind)

inductive Answer where
  | token (t : Token)
  | truth (b : Bool)
  | span (s : Span)
deriving DecidableEq

namespace Op

/-- Does what is asked. -/
def act : Op → Pointer → Except ParseError Answer × Pointer
  | .current, p => (.ok (.token p.current), p)
  | .check k, p => (.ok (.truth (p.check k)), p)
  | .advance, p => (.ok (.token p.advance.1), p.advance.2)
  | .eat k, p => (.ok (.truth (p.eat k).1), (p.eat k).2)
  | .expect k, p => ((p.expect k).1.map .span, (p.expect k).2)

/-- The parser that does the same with a cursor. -/
def parser : Op → Parser Answer
  | .current => Answer.token <$> Parser.current
  | .check k => Answer.truth <$> Parser.check k
  | .advance => do
    let t ← Parser.current
    Parser.advance
    return .token t
  | .eat k => Answer.truth <$> Parser.eat k
  | .expect k => Answer.span <$> Parser.expect k

/-- Whether an operation with this answer has accepted the token it was asked about.  To look at a
token is not to accept it. -/
def accepts : Op → Except ParseError Answer → Bool
  | .advance, _ => true
  | .eat _, .ok (.truth b) => b
  | .expect _, .ok _ => true
  | _, _ => false

/-- The answer where the token is `t`. -/
def answerOn : Op → Token → Except ParseError Answer
  | .current, t | .advance, t => .ok (.token t)
  | .check k, t | .eat k, t => .ok (.truth (decide (TokenKind.SameClass t.kind k)))
  | .expect k, t =>
    if TokenKind.SameClass t.kind k then .ok (.span t.span)
    else .error ⟨.unexpectedToken k.description t.kind.description, t.span⟩

variable (op : Op) (p : Pointer)

def answer : Except ParseError Answer := (op.act p).1

/-- The pointer behind the operation. -/
def after : Pointer := (op.act p).2

/-- The operation accepts the token at the pointer, and this is no end of the program. -/
def Takes : Prop := op.accepts (op.answer p) = true ∧ p.current.kind ≠ .eof

instance : Decidable (op.Takes p) := inferInstanceAs (Decidable (_ ∧ _))

/-- The token that the operation consumes, if it takes one. -/
def consumed : List Token := if op.Takes p then [p.current] else []

-- All that an operation does: the token at the pointer gives the answer, and the answer tells
-- whether the pointer is to move on.
theorem act_eq : op.act p = (op.answerOn p.current,
    if op.accepts (op.answerOn p.current) = true then p.advance.2 else p) := by
  cases op with
  | current | check | advance => rfl
  | eat k =>
    by_cases h : TokenKind.SameClass p.current.kind k
    · simp [act, Pointer.eat, Pointer.check, h, answerOn, accepts]
    · simp [act, Pointer.eat, Pointer.check, h, answerOn, accepts]
  | expect k =>
    by_cases h : TokenKind.SameClass p.current.kind k
    · simp [act, Pointer.expect, Pointer.check, h, answerOn, accepts, Pointer.advance, Except.map]
    · simp [act, Pointer.expect, Pointer.check, h, answerOn, accepts, unexpected, Except.map]

theorem parser_apply (c : Cursor) : op.parser c = (op.answerOn c.current,
    if op.accepts (op.answerOn c.current) = true then c.advance else c) := by
  cases op with
  | current | check | advance => rfl
  | eat k =>
    show (Parser.eat k >>= fun b => pure (Answer.truth b)) c = _
    rw [Parser.bind_apply, Parser.eat_eq_ite]
    by_cases h : TokenKind.SameClass c.current.kind k
    · simp [h, answerOn, accepts, Parser.pure_apply]
    · simp [h, answerOn, accepts, Parser.pure_apply]
  | expect k =>
    show (Parser.expect k >>= fun s => pure (Answer.span s)) c = _
    rw [Parser.bind_apply, Parser.expect_eq_ite]
    by_cases h : TokenKind.SameClass c.current.kind k
    · simp [h, answerOn, accepts, Parser.pure_apply]
    · simp [h, answerOn, accepts]

-- On what is left to read, the parser gives the same answer, and leaves what is left then.
theorem parser_cursor : op.parser p.cursor = (op.answer p, (op.after p).cursor) := by
  rw [parser_apply, answer, after, act_eq, current_cursor, advance_cursor, apply_ite cursor]

theorem answer_eq : op.answer p = op.answerOn p.current := congrArg Prod.fst (op.act_eq p)

theorem after_eq : op.after p = if op.accepts (op.answer p) = true then p.advance.2 else p := by
  rw [answer_eq]
  exact congrArg Prod.snd (op.act_eq p)

variable {op : Op} {p : Pointer} {e : ParseError}

-- Only what is expected can be missing.
theorem answer_eq_error_iff :
    op.answer p = .error e ↔ ∃ k, op = .expect k ∧ ¬ TokenKind.SameClass p.current.kind k ∧
      e = ⟨.unexpectedToken k.description p.current.kind.description, p.current.span⟩ := by
  rw [answer_eq]
  cases op with
  | expect k =>
    by_cases h : TokenKind.SameClass p.current.kind k
    · simp [answerOn, h]
    · simp [answerOn, h, eq_comm]
  | _ => simp [answerOn]

theorem error_names (h : op.answer p = .error e) : e.Names p.current := by
  obtain ⟨k, -, -, rfl⟩ := answer_eq_error_iff.1 h
  exact ⟨rfl, rfl⟩

theorem consumed_of_takes (h : op.Takes p) : op.consumed p = [p.current] := if_pos h

theorem consumed_of_not_takes (h : ¬ op.Takes p) : op.consumed p = [] := if_neg h

theorem after_of_takes (h : op.Takes p) : op.after p = { p with index := p.index + 1 } := by
  rw [after_eq, if_pos h.1, Pointer.advance, atEnd, decide_eq_false h.2]
  rfl

-- The end of the program can be accepted, but the pointer stays on it.
theorem after_of_not_takes (h : ¬ op.Takes p) : op.after p = p := by
  rw [after_eq]
  by_cases haccepts : op.accepts (op.answer p) = true
  · have heof : p.current.kind = .eof := Decidable.not_not.1 fun hne => h ⟨haccepts, hne⟩
    rw [if_pos haccepts, Pointer.advance, atEnd, decide_eq_true heof]
    rfl
  · rw [if_neg haccepts]

end Op

/-! ## 2. Walks -/

/-- The pointer behind operations, one after the other. -/
def walk (ops : List Op) (p : Pointer) : Pointer := ops.foldl (fun p op => op.after p) p

/-- The tokens that operations consume, one after the other. -/
def consumed : List Op → Pointer → List Token
  | [], _ => []
  | op :: ops, p => op.consumed p ++ consumed ops (op.after p)

/-- The pointer stands on the token of the list that its index tells, no further on than the first
end of the program. -/
structure StandsIn (ts : List Token) (p : Pointer) : Prop where
  tokens_eq : p.tokens = ts
  index_le : p.index ≤ ts.findIdx (·.kind = .eof)
  current : ts[p.index]? = some p.current

/-- What an operation does with a pointer. -/
structure Performs (op : Op) (p : Pointer) : Prop where
  answer_eq : op.answer p = op.answerOn p.current
  error_names : ∀ e, op.answer p = .error e → e.Names p.current
  -- The index grows by one where a token is taken, and else it stays as it is.
  index_le : p.index ≤ (op.after p).index
  index_after_le : (op.after p).index ≤ p.index + 1
  index_after_iff : (op.after p).index = p.index + 1 ↔ op.Takes p
  unmoved : op.accepts (op.answer p) = false ∨ p.current.kind = .eof → op.after p = p
  -- Parsers do the same with the cursor on what is left.
  parser_cursor : op.parser p.cursor = (op.answer p, (op.after p).cursor)

theorem performs (op : Op) (p : Pointer) : Performs op p := by
  have hindex : (op.after p).index = if op.Takes p then p.index + 1 else p.index := by
    by_cases h : op.Takes p
    · rw [Op.after_of_takes h, if_pos h]
    · rw [Op.after_of_not_takes h, if_neg h]
  refine ⟨op.answer_eq p, fun e => Op.error_names, ?_, ?_, ?_, ?_, op.parser_cursor p⟩
  · rw [hindex]
    split <;> omega
  · rw [hindex]
    split <;> omega
  · rw [hindex]
    split <;> simp_all
  · intro h
    refine Op.after_of_not_takes fun htakes => ?_
    rcases h with hrefused | heof
    · rw [htakes.1] at hrefused
      cases hrefused
    · exact htakes.2 heof

theorem cursor_walk (ops : List Op) (p : Pointer) :
    (walk ops p).cursor = ops.foldl (fun c op => (op.parser c).2) p.cursor := by
  induction ops generalizing p with
  | nil => rfl
  | cons op ops ih =>
    rw [List.foldl_cons, op.parser_cursor p]
    exact ih (op.after p)

section

variable {ts : List Token} {p : Pointer} (hts : ∃ t ∈ ts, t.kind = .eof)

include hts

theorem standsIn_of_index_le (htokens : p.tokens = ts)
    (hle : p.index ≤ ts.findIdx (·.kind = .eof)) : StandsIn ts p := by
  have hfound : ts.findIdx (·.kind = .eof) < ts.length :=
    List.findIdx_lt_length_of_exists (by simpa using hts)
  have hget := List.getElem?_eq_getElem (Nat.lt_of_le_of_lt hle hfound)
  refine ⟨htokens, hle, ?_⟩
  subst htokens
  rw [hget, current_of_getElem? hget]

theorem standsIn_start : StandsIn ts (start ts) := standsIn_of_index_le hts rfl (Nat.zero_le _)

-- One operation consumes what stands at the index, and the pointer is behind it then.
theorem StandsIn.after (h : StandsIn ts p) (op : Op) :
    StandsIn ts (op.after p) ∧ ts.take p.index ++ op.consumed p = ts.take (op.after p).index := by
  by_cases htakes : op.Takes p
  · have hne : p.index ≠ ts.findIdx (·.kind = .eof) := by
      intro heq
      have hget := h.current
      rw [heq, List.getElem?_eq_some_iff] at hget
      obtain ⟨hlt, hget⟩ := hget
      have heof : ts[ts.findIdx (·.kind = .eof)].kind = .eof := by
        simpa using List.findIdx_getElem (w := hlt)
      exact htakes.2 (hget ▸ heof)
    have hle := h.index_le
    rw [Op.after_of_takes htakes, Op.consumed_of_takes htakes, List.take_add_one, h.current]
    exact ⟨standsIn_of_index_le hts h.tokens_eq (by show p.index + 1 ≤ _; omega), rfl⟩
  · rw [Op.after_of_not_takes htakes, Op.consumed_of_not_takes htakes, List.append_nil]
    exact ⟨h, rfl⟩

-- The induction is on the operations: the tokens in front of the first of them, with those that all
-- of them consume, are the tokens in front of the pointer where the walk ends.
theorem StandsIn.walk (h : StandsIn ts p) (ops : List Op) :
    StandsIn ts (walk ops p) ∧ ts.take p.index ++ consumed ops p = ts.take (walk ops p).index := by
  induction ops generalizing p with
  | nil => exact ⟨h, List.append_nil _⟩
  | cons op ops ih =>
    obtain ⟨hafter, htake⟩ := h.after hts op
    obtain ⟨hwalk, hconsumed⟩ := ih hafter
    refine ⟨hwalk, ?_⟩
    rw [consumed, ← List.append_assoc, htake]
    exact hconsumed

end

/-- **A pointer reads each token once and never passes the end of the program.**  Let one of the
tokens be an end of the program, such as the last one, and let any operations be performed on a
pointer that starts at the first token.  Wherever they lead, the pointer stands on a token of the
list, no further on than the first end of the program, and by this token it is decided what the next
operation answers and whether it moves the pointer.  What was consumed on the way are the tokens in
front of the pointer, so the first ones of those in front of the end.  The parsers that perform the
same operations on the cursor at the first token give the same answers, and what is left to read
behind them is what is left behind the pointer. -/
theorem reads_each_token_once {ts : List Token} (hts : ∃ t ∈ ts, t.kind = .eof) (ops : List Op) :
    StandsIn ts (walk ops (start ts)) ∧
    (∀ op, Performs op (walk ops (start ts))) ∧
    consumed ops (start ts) = ts.take (walk ops (start ts)).index ∧
    consumed ops (start ts) <+: ts.takeWhile (·.kind ≠ .eof) ∧
    ops.foldl (fun c op => (op.parser c).2) (.ofTokens ts) = (walk ops (start ts)).cursor := by
  obtain ⟨hstands, hconsumed⟩ := (standsIn_start hts).walk hts ops
  have hbefore : ts.takeWhile (·.kind ≠ .eof) = ts.take (ts.findIdx (·.kind = .eof)) := by
    rw [List.takeWhile_eq_take_findIdx_not]
    simp
  have hstart : ts.take (start ts).index = [] := rfl
  rw [hstart, List.nil_append] at hconsumed
  refine ⟨hstands, fun op => performs op _, hconsumed, ?_, (cursor_walk ops (start ts)).symm⟩
  rw [hconsumed, hbefore, ← Nat.min_eq_left hstands.index_le, ← List.take_take]
  exact List.take_prefix _ _

/-- The tokens of a binding without a value, and a semicolon behind the end of the program. -/
def valuelessBinding : List Token :=
  [⟨.keyword .letWord, ⟨0, 3⟩⟩, ⟨.ident "x", ⟨4, 5⟩⟩, ⟨.eof, ⟨5, 5⟩⟩, ⟨.symbol .semicolon, ⟨6, 7⟩⟩,
    ⟨.eof, ⟨7, 7⟩⟩]

/-- Some of these operations are refused, some only look, two read, and the last ones are accepted
at the end. -/
def bindingWalk : List Op :=
  [.expect (.symbol .assign), .eat (.keyword .letWord), .current, .eat (.keyword .letWord),
    .check (.ident ""), .expect (.ident ""), .eat .eof, .advance, .expect .eof]

/-- Two tokens are consumed.  Then the pointer stays on the end, where the sign is missing that
follows a name. -/
theorem bindingWalk_reads_two :
    (∃ t ∈ valuelessBinding, t.kind = .eof) ∧
    walk bindingWalk (start valuelessBinding) = ⟨valuelessBinding, 2⟩ ∧
    consumed bindingWalk (start valuelessBinding) = valuelessBinding.take 2 ∧
    valuelessBinding.take 2 <+: valuelessBinding.takeWhile (·.kind ≠ .eof) ∧
    valuelessBinding[2]? = some (Pointer.mk valuelessBinding 2).current ∧
    (Op.expect (.symbol .assign)).answer ⟨valuelessBinding, 2⟩ =
      .error ⟨.unexpectedToken "=" "EOF", ⟨5, 5⟩⟩ := by
  have heof : ∃ t ∈ valuelessBinding, t.kind = .eof := ⟨⟨.eof, ⟨5, 5⟩⟩, by decide, rfl⟩
  have hwalk : walk bindingWalk (start valuelessBinding) = ⟨valuelessBinding, 2⟩ := by decide
  obtain ⟨hstands, hperforms, hconsumed, hprefix, -⟩ := reads_each_token_once heof bindingWalk
  have hcurrent := hstands.current
  rw [hwalk] at hconsumed hcurrent hperforms
  refine ⟨heof, hwalk, hconsumed, hconsumed ▸ hprefix, hcurrent, ?_⟩
  rw [(hperforms _).answer_eq, ← Option.some.inj hcurrent]
  rfl

end Pointer

end Monkey
