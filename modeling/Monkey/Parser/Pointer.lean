import Monkey.Parser.Basic

/-!
# Pointers — a place in a list of tokens as an index

A pointer keeps the whole list and counts the tokens that it has read.  It is asked for the end of
the program whenever it is to move on, and behind the list it stands on the last token.  What can
still be read from it is a cursor (`Pointer.cursor`), and the two answer and move alike.
-/

namespace Monkey

/-- A list of tokens, and how many of them were read. -/
structure Pointer where
  tokens : List Token
  index : Nat
deriving DecidableEq, Repr

namespace Pointer

/-- The pointer to the first token of a list. -/
def start (ts : List Token) : Pointer := ⟨ts, 0⟩

/-- The token that the pointer stands on: behind the list the last one, and if there is none the end
of the program. -/
def current (p : Pointer) : Token := (p.tokens[p.index]?.or p.tokens.getLast?).getD (.ofKind .eof)

/-- Whether the pointer stands on the end of the program. -/
def atEnd (p : Pointer) : Bool := p.current.kind = .eof

/-- Reads a token and yields it.  The end of the program is yielded, but never read. -/
def advance (p : Pointer) : Token × Pointer :=
  (p.current, if p.atEnd then p else { p with index := p.index + 1 })

/-- Whether the pointer stands on a token of the class of `k`. -/
def check (k : TokenKind) (p : Pointer) : Bool := decide (TokenKind.SameClass p.current.kind k)

/-- Reads a token of the class of `k`, if the pointer stands on one. -/
def eat (k : TokenKind) (p : Pointer) : Bool × Pointer :=
  if p.check k then (true, p.advance.2) else (false, p)

/-- The error at the token that the pointer stands on, where another one is expected. -/
def unexpected (expected : String) (p : Pointer) : ParseError :=
  ⟨.unexpectedToken expected p.current.kind.description, p.current.span⟩

/-- Reads a token of the class of `k` and yields its span. -/
def expect (k : TokenKind) (p : Pointer) : Except ParseError Span × Pointer :=
  if p.check k then (.ok p.advance.1.span, p.advance.2) else (.error (p.unexpected k.description), p)

/-! ## 1. What is left to read -/

/-- The cursor on what can still be read from the pointer. -/
def cursor (p : Pointer) : Cursor where
  rest := (p.tokens.drop p.index).takeWhile (·.kind ≠ .eof)
  last :=
    match (p.tokens.drop p.index).dropWhile (·.kind ≠ .eof) with
    | stop :: _ => stop
    | [] => p.tokens.getLast?.getD (.ofKind .eof)

theorem cursor_start (ts : List Token) : (start ts).cursor = .ofTokens ts := rfl

variable {p : Pointer} {t : Token}

theorem current_of_getElem? (h : p.tokens[p.index]? = some t) : p.current = t := by
  rw [current, h]
  rfl

theorem current_of_length_le (h : p.tokens.length ≤ p.index) :
    p.current = p.tokens.getLast?.getD (.ofKind .eof) := by
  rw [current, List.getElem?_eq_none h, Option.none_or]

-- Behind the list there is nothing left, however far.
theorem cursor_of_length_le (h : p.tokens.length ≤ p.index) :
    p.cursor = ⟨[], p.tokens.getLast?.getD (.ofKind .eof)⟩ := by
  rw [cursor, List.drop_eq_nil_of_le h]
  rfl

-- The end of the program is the end of what is left.
theorem cursor_of_eof (h : p.tokens[p.index]? = some t) (ht : t.kind = .eof) :
    p.cursor = ⟨[], t⟩ := by
  obtain ⟨hlt, rfl⟩ := List.getElem?_eq_some_iff.1 h
  have hstop : decide (p.tokens[p.index].kind ≠ .eof) = false := by simp [ht]
  simp only [cursor, List.drop_eq_getElem_cons hlt, List.takeWhile_cons, List.dropWhile_cons, hstop,
    Bool.false_eq_true, if_false]

-- Any other token is the first of what is left, in front of what is left behind it.
theorem cursor_of_ne_eof (h : p.tokens[p.index]? = some t) (ht : t.kind ≠ .eof) :
    p.cursor = ⟨t :: (Pointer.mk p.tokens (p.index + 1)).cursor.rest,
      (Pointer.mk p.tokens (p.index + 1)).cursor.last⟩ := by
  obtain ⟨hlt, rfl⟩ := List.getElem?_eq_some_iff.1 h
  have hgo : decide (p.tokens[p.index].kind ≠ .eof) = true := by simp [ht]
  simp only [cursor, List.drop_eq_getElem_cons hlt, List.takeWhile_cons, List.dropWhile_cons, hgo,
    if_true]

theorem current_cursor (p : Pointer) : p.cursor.current = p.current := by
  rcases Nat.lt_or_ge p.index p.tokens.length with hlt | hge
  · have hget := List.getElem?_eq_getElem hlt
    rw [current_of_getElem? hget]
    by_cases heof : p.tokens[p.index].kind = .eof
    · rw [cursor_of_eof hget heof, Cursor.current_nil]
    · rw [cursor_of_ne_eof hget heof, Cursor.current_cons]
  · rw [current_of_length_le hge, cursor_of_length_le hge, Cursor.current_nil]

theorem advance_cursor (p : Pointer) : p.cursor.advance = p.advance.2.cursor := by
  rcases Nat.lt_or_ge p.index p.tokens.length with hlt | hge
  · have hget := List.getElem?_eq_getElem hlt
    have hcurrent := current_of_getElem? hget
    by_cases heof : p.tokens[p.index].kind = .eof
    · have hstays : p.advance.2 = p := by simp [advance, atEnd, hcurrent, heof]
      rw [hstays, cursor_of_eof hget heof, Cursor.advance_nil]
    · have hmoves : p.advance.2 = ⟨p.tokens, p.index + 1⟩ := by
        simp [advance, atEnd, hcurrent, heof]
      rw [hmoves, cursor_of_ne_eof hget heof, Cursor.advance_cons]
  · -- nothing is left, whether the index grows or not
    have htokens : p.advance.2.tokens = p.tokens := by
      rw [advance]
      split <;> rfl
    have hindex : p.tokens.length ≤ p.advance.2.index := by
      rw [advance]
      split
      · exact hge
      · exact Nat.le_succ_of_le hge
    rw [cursor_of_length_le hge, cursor_of_length_le (htokens ▸ hindex), Cursor.advance_nil,
      htokens]

end Pointer

end Monkey
