import Monkey.Expr.DecEq
import Monkey.Parser.Grammar
import Monkey.Token.Lexer

/-!
# Programs — parsing that goes on behind an error

Each statement that cannot be parsed is reported once.  Reading goes on behind the next semicolon,
so one mistake hides no other statement.
-/

namespace Monkey

/-- The statements that could be parsed, and the errors of those that could not. -/
structure ParseResult where
  program : Program
  errors : List ParseError
deriving DecidableEq

namespace ParseResult

def empty : ParseResult := ⟨[], []⟩

-- Puts one statement, or the error in its place, in front.
def cons (first : Except ParseError Stmt) (r : ParseResult) : ParseResult :=
  match first with
  | .ok s => { r with program := s :: r.program }
  | .error e => { r with errors := e :: r.errors }

end ParseResult

namespace Cursor

-- The cursor behind the next semicolon, or at the end.
def afterSemicolon (c : Cursor) : Cursor :=
  { c with rest := (c.rest.dropWhile (·.kind ≠ .symbol .semicolon)).tail }

theorem remaining_afterSemicolon_lt {c : Cursor} (h : 0 < c.remaining) :
    c.afterSemicolon.remaining < c.remaining := by
  have := (List.dropWhile_sublist (l := c.rest) (·.kind ≠ .symbol .semicolon)).length_le
  simp only [remaining, afterSemicolon, List.length_tail] at *
  omega

/-- Where reading goes on after a statement: behind it, or behind the next semicolon if it could
not be parsed. -/
def resume : Except ParseError Stmt × Cursor → Cursor
  | (.ok _, c) => c
  | (.error _, c) => c.afterSemicolon

end Cursor

/-- Parses the statements from the cursor up to the end of the program. -/
def parseFrom (c : Cursor) : ParseResult :=
  if c.atEnd then .empty
  else
    let step := Parser.stmt c
    let next := Cursor.resume step
    if next.remaining < c.remaining then (parseFrom next).cons step.1
    else ParseResult.empty.cons step.1
termination_by c.remaining

/-- Parses tokens.  Only those before the first end of the program count. -/
def parse (tokens : List Token) : ParseResult := parseFrom (.ofTokens tokens)

def parseSource (source : String) : ParseResult := parse (lex source)

end Monkey
