import Monkey.Span

/-!
# Tokens — the words and signs of a program

A token is a kind together with the span it was read from.  Operators and delimiters have one
spelling each (`Symbol.spelling`), and so do the reserved words (`Keyword.spelling`); the other
kinds carry the text that they stand for.
-/

namespace Monkey

/-- The operators and delimiters. -/
inductive Symbol where
  | assign | plus | minus | bang | star | slash | lt | gt | eqEq | notEq
  | comma | colon | semicolon
  | lparen | rparen | lbrace | rbrace | lbracket | rbracket
deriving DecidableEq, Repr

/-- The reserved words. -/
inductive Keyword where
  | fnWord | letWord | trueWord | falseWord | ifWord | elseWord | returnWord | macroWord
deriving DecidableEq, Repr

namespace Symbol

def all : List Symbol :=
  [assign, plus, minus, bang, star, slash, lt, gt, eqEq, notEq, comma, colon, semicolon,
    lparen, rparen, lbrace, rbrace, lbracket, rbracket]

def spelling : Symbol → String
  | assign => "="
  | plus => "+"
  | minus => "-"
  | bang => "!"
  | star => "*"
  | slash => "/"
  | lt => "<"
  | gt => ">"
  | eqEq => "=="
  | notEq => "!="
  | comma => ","
  | colon => ":"
  | semicolon => ";"
  | lparen => "("
  | rparen => ")"
  | lbrace => "\x7b"
  | rbrace => "\x7d"
  | lbracket => "["
  | rbracket => "]"

def name : Symbol → String
  | assign => "Assign"
  | plus => "Plus"
  | minus => "Minus"
  | bang => "Bang"
  | star => "Star"
  | slash => "Slash"
  | lt => "Lt"
  | gt => "Gt"
  | eqEq => "EqEq"
  | notEq => "NotEq"
  | comma => "Comma"
  | colon => "Colon"
  | semicolon => "Semicolon"
  | lparen => "LParen"
  | rparen => "RParen"
  | lbrace => "LBrace"
  | rbrace => "RBrace"
  | lbracket => "LBracket"
  | rbracket => "RBracket"

theorem mem_all (s : Symbol) : s ∈ all := by cases s <;> decide

end Symbol

namespace Keyword

def all : List Keyword :=
  [fnWord, letWord, trueWord, falseWord, ifWord, elseWord, returnWord, macroWord]

def spelling : Keyword → String
  | fnWord => "fn"
  | letWord => "let"
  | trueWord => "true"
  | falseWord => "false"
  | ifWord => "if"
  | elseWord => "else"
  | returnWord => "return"
  | macroWord => "macro"

def name : Keyword → String
  | fnWord => "Function"
  | letWord => "Let"
  | trueWord => "True"
  | falseWord => "False"
  | ifWord => "If"
  | elseWord => "Else"
  | returnWord => "Return"
  | macroWord => "Macro"

theorem mem_all (k : Keyword) : k ∈ all := by cases k <;> decide

/-- The reserved word with this spelling. -/
def ofWord? (word : String) : Option Keyword := all.find? (·.spelling = word)

theorem ofWord?_eq_some_iff {word : String} {k : Keyword} :
    ofWord? word = some k ↔ word = k.spelling := by
  constructor
  · intro h
    have found := List.find?_some h
    exact (of_decide_eq_true found).symm
  · rintro rfl
    cases k <;> decide

end Keyword

inductive TokenKind where
  -- A character that starts no token, or a string that is never closed.
  | illegal (text : String)
  | eof
  | ident (name : String)
  -- An integer literal, kept as text because it may be too large.
  | int (text : String)
  -- The characters of a string literal between its quotes.
  | str (text : String)
  | symbol (s : Symbol)
  | keyword (k : Keyword)
deriving DecidableEq, Repr, Inhabited

structure Token where
  kind : TokenKind
  span : Span
deriving DecidableEq, Repr, Inhabited

namespace TokenKind

/-- What a message calls the token: the spelling where there is only one, the text of an illegal
token, and the name of the class otherwise. -/
def description : TokenKind → String
  | illegal text => text
  | eof => "EOF"
  | ident _ => "IDENT"
  | int _ => "INT"
  | str _ => "STRING"
  | symbol s => s.spelling
  | keyword k => k.spelling

/-- The name of the class of tokens. -/
def name : TokenKind → String
  | illegal _ => "Illegal"
  | eof => "Eof"
  | ident _ => "Ident"
  | int _ => "Int"
  | str _ => "Str"
  | symbol s => s.name
  | keyword k => k.name

def payload? : TokenKind → Option String
  | illegal text => some text
  | ident name => some name
  | int text => some text
  | str text => some text
  | _ => none

/-- Whether two kinds are of one class, whatever text they carry. -/
def SameClass : TokenKind → TokenKind → Prop
  | illegal _, illegal _ => True
  | ident _, ident _ => True
  | int _, int _ => True
  | str _, str _ => True
  | k, l => k = l

instance (k l : TokenKind) : Decidable (SameClass k l) := by
  unfold SameClass; split <;> infer_instance

theorem SameClass.refl (k : TokenKind) : SameClass k k := by
  cases k <;> simp [SameClass]

@[simp] theorem sameClass_eof_iff {k : TokenKind} : SameClass k eof ↔ k = eof := by
  cases k <;> simp [SameClass]

@[simp] theorem sameClass_symbol_iff {k : TokenKind} {s : Symbol} :
    SameClass k (symbol s) ↔ k = symbol s := by
  cases k <;> simp [SameClass]

@[simp] theorem sameClass_keyword_iff {k : TokenKind} {w : Keyword} :
    SameClass k (keyword w) ↔ k = keyword w := by
  cases k <;> simp [SameClass]

/-- Text between quotes, with a backslash before each quote and backslash and the letters `n`, `r`
and `t` for a line feed, a carriage return and a tab. -/
def quoted (text : String) : String :=
  let escape : Char → List Char
    | '"' => ['\\', '"']
    | '\\' => ['\\', '\\']
    | '\n' => ['\\', 'n']
    | '\r' => ['\\', 'r']
    | '\t' => ['\\', 't']
    | c => [c]
  String.ofList ('"' :: text.toList.flatMap escape ++ ['"'])

/-- The name of the class, with the quoted text that the token carries. -/
def inspect (k : TokenKind) : String :=
  match k.payload? with
  | some text => s!"{k.name}({quoted text})"
  | none => k.name

end TokenKind

namespace Token

/-- A token that comes from no text. -/
def ofKind (kind : TokenKind) : Token := ⟨kind, .placeholder⟩

/-- The kind and the span of the token, for tracing. -/
def inspect (t : Token) : String := s!"{t.kind.inspect} @ {t.span}"

end Token

end Monkey
