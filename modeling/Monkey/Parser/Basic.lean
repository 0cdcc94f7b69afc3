import Monkey.Token.Cursor

/-!
# Parsers — readers of tokens that may fail

A parser reads from a cursor.  It yields a value or an error, and in both cases the cursor at which
it stopped, so that reading can go on behind an error.  Repetition (`Parser.loop`) and recursion
(`Parser.fix`) go on only where a token was read in between, so every parser ends.
-/

namespace Monkey

/-- Why the tokens are no program. -/
inductive ParseCause where
  | unexpectedToken (expected found : String)
  | noExpression (found : String)
  | integerRange (text : String)
  | illegalToken (text : String)
deriving DecidableEq, Repr

/-- Why and at which token parsing failed. -/
structure ParseError where
  cause : ParseCause
  span : Span
deriving DecidableEq, Repr

def ParseCause.message : ParseCause → String
  | unexpectedToken expected found => s!"expected next token to be {expected}, got {found} instead"
  | noExpression found => s!"no prefix parse function for {found} found"
  | integerRange text => s!"could not parse {text} as integer"
  | illegalToken text => s!"illegal character: {text}"

def ParseError.message (e : ParseError) : String := e.cause.message

/-- The text shown for the error, behind the line and the column at which it stands in `source`. -/
def ParseError.render (e : ParseError) (source : String) : String :=
  let p := e.span.position source
  s!"{p.line}:{p.column}: {e.message}"

/-- A reader of tokens that yields a value or an error. -/
def Parser (α : Type) : Type := Cursor → Except ParseError α × Cursor

namespace Parser

variable {α β : Type}

instance : Monad Parser where
  pure a := fun c => (.ok a, c)
  bind p f := fun c =>
    match p c with
    | (.ok a, c') => f a c'
    | (.error e, c') => (.error e, c')

theorem pure_apply (a : α) (c : Cursor) : (pure a : Parser α) c = (.ok a, c) := rfl

theorem bind_apply (p : Parser α) (f : α → Parser β) (c : Cursor) :
    (p >>= f) c =
      match p c with
      | (.ok a, c') => f a c'
      | (.error e, c') => (.error e, c') := rfl

instance : LawfulMonad Parser := LawfulMonad.mk' Parser
  (fun p => by
    funext c
    show (p >>= fun a => pure (id a)) c = p c
    rw [bind_apply]
    rcases p c with ⟨_ | _, _⟩ <;> rfl)
  (fun _ _ => rfl)
  (fun p f g => by
    funext c
    simp only [bind_apply]
    rcases p c with ⟨_ | _, _⟩ <;> rfl)

def current : Parser Token := fun c => (.ok c.current, c)

def kind : Parser TokenKind := fun c => (.ok c.current.kind, c)

/-- Reads one token, or none at the end. -/
def advance : Parser Unit := fun c => (.ok (), c.advance)

-- Fails at the token that the cursor stands on.
def fail (cause : ParseCause) : Parser α := fun c => (.error ⟨cause, c.current.span⟩, c)

-- Fails because another token is expected.
def unexpected (expected : String) : Parser α := do
  fail (.unexpectedToken expected (← kind).description)

/-- Whether the cursor stands on a token of the class of `k`. -/
def check (k : TokenKind) : Parser Bool := do
  return decide (TokenKind.SameClass (← kind) k)

/-- Reads a token of the class of `k`, if the cursor stands on one. -/
def eat (k : TokenKind) : Parser Bool := do
  if ← check k then
    advance
    return true
  else
    return false

/-- Reads a token of the class of `k` and yields its span. -/
def expect (k : TokenKind) : Parser Span := do
  let t ← current
  if ← eat k then return t.span else unexpected k.description

/-- Goes on from `a` as long as `next` has a step for the current kind of token.  A step that reads
nothing is the last one. -/
def loop (next : TokenKind → Option (α → Parser α)) (a : α) (c : Cursor) :
    Except ParseError α × Cursor :=
  match next c.current.kind with
  | none => (.ok a, c)
  | some step =>
    match step a c with
    | (.error e, c') => (.error e, c')
    | (.ok b, c') => if c'.remaining < c.remaining then loop next b c' else (.ok b, c')
termination_by c.remaining

/-- The parser that `f` makes of itself.  Inside `f` it may only be used behind the first token; it
fails where nothing was read before. -/
def fix (f : Parser α → Parser α) (c : Cursor) : Except ParseError α × Cursor :=
  f (fun c' => if c'.remaining < c.remaining then fix f c' else unexpected "EXPR" c') c
termination_by c.remaining

end Parser

end Monkey
