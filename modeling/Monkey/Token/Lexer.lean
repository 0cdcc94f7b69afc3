import Monkey.Token.Basic

/-!
# Lexing — from source text to tokens

Blanks separate tokens and are dropped; everywhere else the longest token that fits is taken.  A
character that starts no token becomes an illegal token of its own, and a string that is never
closed one illegal token up to the end of the text, so every character that is no blank belongs to
exactly one token.  The last token is always the end of the program.
-/

namespace Monkey

namespace Lexer

/-- The characters between tokens: space, tab, line feed, carriage return and form feed. -/
def isBlank (c : Char) : Bool :=
  c = ' ' || c = '\t' || c = '\n' || c = '\r' || c = '\x0c'

/-- The characters that start a word: an underscore and the ASCII letters. -/
def isWordStart (c : Char) : Bool := c.isAlpha || c = '_'

/-- The characters that continue a word: those that start one and the ASCII digits. -/
def isWordPart (c : Char) : Bool := isWordStart c || c.isDigit

/-- The number of bytes that the characters take in UTF-8. -/
def byteLength : List Char → Nat
  | [] => 0
  | c :: cs => c.utf8Size + byteLength cs

theorem byteLength_append (cs ds : List Char) :
    byteLength (cs ++ ds) = byteLength cs + byteLength ds := by
  induction cs with
  | nil => simp [byteLength]
  | cons c cs ih => simp only [List.cons_append, byteLength, ih]; omega

/-- What a whole word stands for. -/
def wordKind (word : String) : TokenKind :=
  match Keyword.ofWord? word with
  | some k => .keyword k
  | none => .ident word

/-- The symbol that is spelled with this one character. -/
def symbolOfChar? (c : Char) : Option Symbol :=
  Symbol.all.find? (·.spelling = String.singleton c)

/-- What stands at the head of a text: its kind, the characters of the token behind the first one,
and the text behind the token. -/
structure Lexeme where
  kind : TokenKind
  tail : List Char
  rest : List Char
deriving DecidableEq, Repr

/-- The token that starts with the character `c`, which is no blank, and goes on in `cs`. -/
def lexeme (c : Char) (cs : List Char) : Lexeme :=
  if isWordStart c then
    let tail := cs.takeWhile isWordPart
    ⟨wordKind (String.ofList (c :: tail)), tail, cs.dropWhile isWordPart⟩
  else if c.isDigit then
    let tail := cs.takeWhile Char.isDigit
    ⟨.int (String.ofList (c :: tail)), tail, cs.dropWhile Char.isDigit⟩
  else if c = '"' then
    let text := cs.takeWhile (· ≠ '"')
    match cs.dropWhile (· ≠ '"') with
    | quote :: rest => ⟨.str (String.ofList text), text ++ [quote], rest⟩
    | [] => ⟨.illegal (String.ofList (c :: cs)), cs, []⟩
  else
    match c, cs with
    | '=', '=' :: rest => ⟨.symbol .eqEq, ['='], rest⟩
    | '!', '=' :: rest => ⟨.symbol .notEq, ['='], rest⟩
    | _, _ =>
      match symbolOfChar? c with
      | some s => ⟨.symbol s, [], cs⟩
      | none => ⟨.illegal (String.singleton c), [], cs⟩

-- A token and what is left make up the text.
theorem lexeme_tail_append_rest (c : Char) (cs : List Char) :
    (lexeme c cs).tail ++ (lexeme c cs).rest = cs := by
  unfold lexeme
  split
  · exact List.takeWhile_append_dropWhile
  split
  · exact List.takeWhile_append_dropWhile
  split
  · have whole := List.takeWhile_append_dropWhile (p := (· ≠ '"')) (l := cs)
    split
    · next quote rest h => rw [h] at whole; simpa using whole
    · simp
  split
  · rfl
  · rfl
  · split <;> simp

theorem lexeme_rest_length_le (c : Char) (cs : List Char) :
    (lexeme c cs).rest.length ≤ cs.length := by
  have := congrArg List.length (lexeme_tail_append_rest c cs)
  simp only [List.length_append] at this
  omega

/-- The tokens of a text that begins at byte `offset`. -/
def scan (offset : Nat) : List Char → List Token
  | [] => [⟨.eof, .clamp offset offset⟩]
  | c :: cs =>
    if isBlank c then scan (offset + c.utf8Size) cs
    else
      let l := lexeme c cs
      let stop := offset + byteLength (c :: l.tail)
      ⟨l.kind, .clamp offset stop⟩ :: scan stop l.rest
termination_by cs => cs.length
decreasing_by
  · simp
  · exact Nat.lt_succ_of_le (lexeme_rest_length_le c cs)

end Lexer

/-- The tokens of a source text, the end of the program last. -/
def lex (source : String) : List Token := Lexer.scan 0 source.toList

end Monkey
