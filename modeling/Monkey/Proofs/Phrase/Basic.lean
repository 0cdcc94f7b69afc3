import Monkey.Expr.Basic
import Monkey.Numeral
import Monkey.Token.Basic

/-!
# Phrases — the grammar of programs

A language says which rows of tokens stand for which trees.  Each rule below is one production of
the grammar, written over the language `E` of the expressions inside it; `Phrase.Expression` closes
the circle.  Nothing here reads tokens from left to right: the rules only say how a row of tokens is
put together.  The last section tells which tokens can stand at the two ends of a phrase.
-/

namespace Monkey

/-- Which rows of tokens stand for which trees. -/
abbrev Language (α : Type) : Type := List TokenKind → α → Prop

namespace Phrase

/-! ## 1. Operators, level by level -/

def equalityOps : List (Symbol × BinaryOp) := [(.eqEq, .eq), (.notEq, .ne)]

def comparisonOps : List (Symbol × BinaryOp) := [(.lt, .lt), (.gt, .gt)]

def additiveOps : List (Symbol × BinaryOp) := [(.plus, .add), (.minus, .sub)]

def multiplicativeOps : List (Symbol × BinaryOp) := [(.star, .mul), (.slash, .div)]

def unaryOps : List (Symbol × UnaryOp) := [(.bang, .not), (.minus, .neg)]

/-! ## 2. Productions -/

section

variable {α : Type}

/-- One or more phrases with commas between them. -/
inductive Commas (P : Language α) : Language (List α)
  | one {ks a} : P ks a → Commas P ks [a]
  | more {ks js a as} : P ks a → Commas P js as → Commas P (ks ++ .symbol .comma :: js) (a :: as)

/-- Any number of phrases with commas between them. -/
inductive Items (P : Language α) : Language (List α)
  | none : Items P [] []
  | some {ks as} : Commas P ks as → Items P ks as

inductive Name : Language String
  | ident (x : String) : Name [.ident x] x

/-- Operands of the language `P` with signs of one level between them, grouped to the left. -/
inductive LeftAssoc (ops : List (Symbol × BinaryOp)) (P : Language Expr) : Language Expr
  | operand {ks e} : P ks e → LeftAssoc ops P ks e
  | binary {ks js a b s op} : LeftAssoc ops P ks a → (s, op) ∈ ops → P js b →
      LeftAssoc ops P (ks ++ .symbol s :: js) (.binary op a b)

variable (E : Language Expr)

/-- A statement without the semicolon behind it. -/
inductive Statement : Language Stmt
  | bind {x ks e} : E ks e →
      Statement (.keyword .letWord :: .ident x :: .symbol .assign :: ks) (.bind x e)
  | ret {ks e} : E ks e → Statement (.keyword .returnWord :: ks) (.ret e)
  | expr {ks e} : E ks e → Statement ks (.expr e)

/-- The signs that carry an expression on, and so cannot start a statement behind one that has no
semicolon. -/
def CarriesOn (ks : List TokenKind) : Prop :=
  ks.head? = some (.symbol .lparen) ∨ ks.head? = some (.symbol .lbracket) ∨
    ks.head? = some (.symbol .minus)

/-- Statements in order, each with its semicolon or without. -/
inductive Statements : Language (List Stmt)
  | nil : Statements [] []
  | closed {ks js s ss} : Statement E ks s → Statements js ss →
      Statements (ks ++ .symbol .semicolon :: js) (s :: ss)
  | bare {ks js s ss} : Statement E ks s → ¬ CarriesOn js → Statements js ss →
      Statements (ks ++ js) (s :: ss)

/-- Statements between braces. -/
inductive Braced : Language Block
  | intro {ks ss} : Statements E ks ss →
      Braced (.symbol .lbrace :: ks ++ [.symbol .rbrace]) ss

inductive Pair : Language (Expr × Expr)
  | intro {ks js k v} : E ks k → E js v → Pair (ks ++ .symbol .colon :: js) (k, v)

/-- An expression that is no operation. -/
inductive Primary : Language Expr
  | ident (x : String) : Primary [.ident x] (.ident x)
  | int {text n} : Numeral.integer? text.toList = some n.toInt → Primary [.int text] (.int n)
  | str (text : String) : Primary [.str text] (.str text)
  | yes : Primary [.keyword .trueWord] (.bool true)
  | no : Primary [.keyword .falseWord] (.bool false)
  | group {ks e} : E ks e → Primary (.symbol .lparen :: ks ++ [.symbol .rparen]) e
  | array {ks es} : Items E ks es →
      Primary (.symbol .lbracket :: ks ++ [.symbol .rbracket]) (.array es)
  | hash {ks ps} : Items (Pair E) ks ps →
      Primary (.symbol .lbrace :: ks ++ [.symbol .rbrace]) (.hash ps)
  -- A comma may follow the last pair.
  | hashComma {ks ps} : Commas (Pair E) ks ps →
      Primary (.symbol .lbrace :: ks ++ [.symbol .comma, .symbol .rbrace]) (.hash ps)
  | cond {ks js test yes} : E ks test → Braced E js yes →
      Primary (.keyword .ifWord :: .symbol .lparen :: ks ++ .symbol .rparen :: js)
        (.cond test yes none)
  | condElse {ks js ls test yes no} : E ks test → Braced E js yes → Braced E ls no →
      Primary (.keyword .ifWord :: .symbol .lparen :: ks ++ .symbol .rparen ::
        (js ++ .keyword .elseWord :: ls)) (.cond test yes (some no))
  | fn {ks js params body} : Items Name ks params → Braced E js body →
      Primary (.keyword .fnWord :: .symbol .lparen :: ks ++ .symbol .rparen :: js)
        (.fn params body)
  | macroFn {ks js params body} : Items Name ks params → Braced E js body →
      Primary (.keyword .macroWord :: .symbol .lparen :: ks ++ .symbol .rparen :: js)
        (.macroFn params body)

/-- A primary expression with calls and indexes behind it, each around what stands before it. -/
inductive Postfix : Language Expr
  | primary {ks e} : Primary E ks e → Postfix ks e
  | call {ks js f args} : Postfix ks f → Items E js args →
      Postfix (ks ++ .symbol .lparen :: (js ++ [.symbol .rparen])) (.call f args)
  | index {ks js a i} : Postfix ks a → E js i →
      Postfix (ks ++ .symbol .lbracket :: (js ++ [.symbol .rbracket])) (.index a i)

/-- An operand with signs in front of it. -/
inductive Unary : Language Expr
  | postfixed {ks e} : Postfix E ks e → Unary ks e
  | unary {s op ks e} : (s, op) ∈ unaryOps → Unary ks e → Unary (.symbol s :: ks) (.unary op e)

end

inductive Expression : Language Expr
  | intro {ks e} :
      LeftAssoc equalityOps (LeftAssoc comparisonOps (LeftAssoc additiveOps
        (LeftAssoc multiplicativeOps (Unary Expression)))) ks e → Expression ks e

-- An operand is an expression.
theorem Expression.ofUnary {ks : List TokenKind} {e : Expr} (h : Unary Expression ks e) :
    Expression ks e :=
  .intro (.operand (.operand (.operand (.operand h))))

/-! ## 3. The two ends of a phrase -/

/-- The tokens with which an expression that is no operation starts. -/
def startsPrimary : TokenKind → Bool
  | .ident _ | .int _ | .str _ => true
  | .keyword w => w ∈ [.trueWord, .falseWord, .ifWord, .fnWord, .macroWord]
  | .symbol s => s ∈ [.lparen, .lbracket, .lbrace]
  | _ => false

/-- The tokens with which an expression starts. -/
def startsExpr (k : TokenKind) : Bool :=
  k = .symbol .bang || k = .symbol .minus || startsPrimary k

/-- The tokens with which a statement starts. -/
def startsStmt (k : TokenKind) : Bool :=
  k = .keyword .letWord || k = .keyword .returnWord || startsExpr k

/-- A row of tokens whose first one is of the class `S`. -/
def StartsWith (S : TokenKind → Bool) (ks : List TokenKind) : Prop :=
  ∃ k js, ks = k :: js ∧ S k = true

/-- A row of tokens whose last one is no semicolon. -/
def EndsOpen (ks : List TokenKind) : Prop :=
  ∃ js k, ks = js ++ [k] ∧ k ≠ .symbol .semicolon

theorem StartsWith.append {S : TokenKind → Bool} {ks : List TokenKind} (h : StartsWith S ks)
    (js : List TokenKind) : StartsWith S (ks ++ js) := by
  rcases h with ⟨k, ls, rfl, hk⟩
  exact ⟨k, ls ++ js, rfl, hk⟩

theorem StartsWith.mono {S T : TokenKind → Bool} {ks : List TokenKind} (h : StartsWith S ks)
    (hST : ∀ k, S k = true → T k = true) : StartsWith T ks := by
  rcases h with ⟨k, js, rfl, hk⟩
  exact ⟨k, js, rfl, hST k hk⟩

theorem StartsWith.ne_nil {S : TokenKind → Bool} {ks : List TokenKind} (h : StartsWith S ks) :
    ks ≠ [] := by
  rcases h with ⟨k, js, rfl, -⟩
  exact List.cons_ne_nil k js

theorem EndsOpen.append {ks : List TokenKind} (h : EndsOpen ks) (js : List TokenKind) :
    EndsOpen (js ++ ks) := by
  rcases h with ⟨ls, k, rfl, hk⟩
  exact ⟨js ++ ls, k, (List.append_assoc ..).symm, hk⟩

theorem EndsOpen.cons {ks : List TokenKind} (h : EndsOpen ks) (k : TokenKind) :
    EndsOpen (k :: ks) := h.append [k]

theorem endsOpen_concat (ks : List TokenKind) {s : Symbol} (h : s ≠ .semicolon) :
    EndsOpen (ks ++ [.symbol s]) :=
  ⟨ks, .symbol s, rfl, fun he => h (TokenKind.symbol.inj he)⟩

section

variable {E : Language Expr} {ks : List TokenKind} {e : Expr}

theorem Braced.endsOpen {b : Block} (h : Braced E ks b) : EndsOpen ks := by
  cases h with
  | intro _ => exact endsOpen_concat _ (by decide)

theorem Primary.startsWith (h : Primary E ks e) : StartsWith startsPrimary ks := by
  cases h <;> exact ⟨_, _, rfl, rfl⟩

theorem Primary.endsOpen (h : Primary E ks e) : EndsOpen ks := by
  cases h with
  | ident x => exact ⟨[], .ident x, rfl, nofun⟩
  | @int text n _ => exact ⟨[], .int text, rfl, nofun⟩
  | str text => exact ⟨[], .str text, rfl, nofun⟩
  | yes | no => exact ⟨[], _, rfl, nofun⟩
  | group _ | array _ | hash _ => exact endsOpen_concat _ (by decide)
  | @hashComma ks ps _ =>
    exact ⟨.symbol .lbrace :: ks ++ [.symbol .comma], .symbol .rbrace, by simp, by decide⟩
  | cond _ h => exact (h.endsOpen.cons _).append (_ :: _ :: _)
  | condElse _ _ h => exact (((h.endsOpen.cons _).append _).cons _).append (_ :: _ :: _)
  | fn _ h | macroFn _ h => exact (h.endsOpen.cons _).append (_ :: _ :: _)

theorem Postfix.startsWith (h : Postfix E ks e) : StartsWith startsPrimary ks := by
  induction h with
  | primary h => exact h.startsWith
  | call _ _ ih | index _ _ ih => exact ih.append _

theorem Postfix.endsOpen (h : Postfix E ks e) : EndsOpen ks := by
  cases h with
  | primary h => exact h.endsOpen
  | call _ _ | index _ _ => exact ((endsOpen_concat _ (by decide)).cons _).append _

theorem Unary.startsWith (h : Unary E ks e) : StartsWith startsExpr ks := by
  cases h with
  | postfixed h => exact h.startsWith.mono fun k hk => by simp [startsExpr, hk]
  | unary hop _ =>
    simp only [unaryOps, List.mem_cons, Prod.mk.injEq, List.not_mem_nil, or_false] at hop
    rcases hop with ⟨rfl, -⟩ | ⟨rfl, -⟩ <;> exact ⟨_, _, rfl, rfl⟩

theorem Unary.endsOpen (h : Unary E ks e) : EndsOpen ks := by
  induction h with
  | postfixed h => exact h.endsOpen
  | unary _ _ ih => exact ih.cons _

theorem LeftAssoc.startsWith {ops : List (Symbol × BinaryOp)} {P : Language Expr}
    (hP : ∀ {ks e}, P ks e → StartsWith startsExpr ks) (h : LeftAssoc ops P ks e) :
    StartsWith startsExpr ks := by
  induction h with
  | operand h => exact hP h
  | binary _ _ _ ih => exact ih.append _

theorem LeftAssoc.endsOpen {ops : List (Symbol × BinaryOp)} {P : Language Expr}
    (hP : ∀ {ks e}, P ks e → EndsOpen ks) (h : LeftAssoc ops P ks e) : EndsOpen ks := by
  cases h with
  | operand h => exact hP h
  | binary _ _ h => exact ((hP h).cons _).append _

-- The first token of an expression.
theorem Expression.startsWith (h : Expression ks e) : StartsWith startsExpr ks := by
  rcases h with ⟨h⟩
  exact h.startsWith fun h => h.startsWith fun h => h.startsWith fun h =>
    h.startsWith Unary.startsWith

-- No expression ends with a semicolon.
theorem Expression.endsOpen (h : Expression ks e) : EndsOpen ks := by
  rcases h with ⟨h⟩
  exact h.endsOpen fun h => h.endsOpen fun h => h.endsOpen fun h => h.endsOpen Unary.endsOpen

theorem Statement.startsWith {s : Stmt} (h : Statement Expression ks s) :
    StartsWith startsStmt ks := by
  cases h with
  | bind _ | ret _ => exact ⟨_, _, rfl, rfl⟩
  | expr h => exact h.startsWith.mono fun k hk => by simp [startsStmt, hk]

theorem Statement.endsOpen {s : Stmt} (h : Statement Expression ks s) : EndsOpen ks := by
  cases h with
  | bind h => exact h.endsOpen.append [_, _, _]
  | ret h => exact h.endsOpen.cons _
  | expr h => exact h.endsOpen

end

end Phrase

end Monkey
