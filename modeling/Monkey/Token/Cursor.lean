import Monkey.Token.Basic

/-!
# Cursors — a place in a list of tokens

A cursor stands on a token and moves over each token once.  It never moves past the first end of
the program; a list without one is read as if its last token were repeated for ever.

A cursor keeps only what can still be read, so it is the same for all lists that go on alike up to
the end of the program.  The place as an index into the whole list is a pointer (`Pointer`), which
asks for the end each time it is to move on; what it has left to read is a cursor, and the two
answer and move alike.
-/

namespace Monkey

/-- A place in a list of tokens. -/
structure Cursor where
  -- The tokens from here up to the first end of the program, that end excluded.
  rest : List Token
  -- What the cursor stands on when no other token is left.
  last : Token
deriving DecidableEq, Repr

namespace Cursor

/-- The cursor on the first token of a list. -/
def ofTokens (ts : List Token) : Cursor where
  rest := ts.takeWhile (·.kind ≠ .eof)
  last :=
    match ts.dropWhile (·.kind ≠ .eof) with
    | stop :: _ => stop
    | [] => ts.getLast?.getD (.ofKind .eof)

def current (c : Cursor) : Token :=
  match c.rest with
  | t :: _ => t
  | [] => c.last

/-- The cursor one token further on, or the same cursor if no token is left. -/
def advance (c : Cursor) : Cursor := { c with rest := c.rest.tail }

def remaining (c : Cursor) : Nat := c.rest.length

/-- Whether the cursor stands on the end of the program. -/
def atEnd (c : Cursor) : Bool := c.current.kind = .eof

@[simp] theorem current_cons (t : Token) (ts : List Token) (last : Token) :
    (Cursor.mk (t :: ts) last).current = t := rfl

@[simp] theorem current_nil (last : Token) : (Cursor.mk [] last).current = last := rfl

@[simp] theorem advance_cons (t : Token) (ts : List Token) (last : Token) :
    (Cursor.mk (t :: ts) last).advance = ⟨ts, last⟩ := rfl

@[simp] theorem advance_nil (last : Token) : (Cursor.mk [] last).advance = ⟨[], last⟩ := rfl

-- On a list that has an end of the program, the tokens before it are followed by it.
theorem ofTokens_append_eof (before after : List Token) (stop : Token)
    (hbefore : ∀ t ∈ before, t.kind ≠ .eof) (hstop : stop.kind = .eof) :
    ofTokens (before ++ stop :: after) = ⟨before, stop⟩ := by
  have hrest : (before ++ stop :: after).takeWhile (·.kind ≠ .eof) = before := by
    rw [List.takeWhile_append_of_pos (by simpa using hbefore)]
    simp [hstop]
  have hdrop : (before ++ stop :: after).dropWhile (·.kind ≠ .eof) = stop :: after := by
    rw [List.dropWhile_append_of_pos (by simpa using hbefore)]
    simp [hstop]
  simp only [ofTokens, hrest, hdrop]

end Cursor

end Monkey
