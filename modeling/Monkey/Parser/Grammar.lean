import Monkey.Expr.Basic
import Monkey.Numeral
import Monkey.Parser.Basic

/-!
# The grammar — statements and expressions

From loose to tight the operators are `==` and `!=`, then `<` and `>`, then `+` and `-`, then `*`
and `/`, all of which group to the left, then `!` and `-` in front of an operand, then calls and
indexing behind one.  Each production is written over the parser `expr` for an expression inside
it, so none of them is recursive by itself; `Parser.expr` closes the circle.
-/

namespace Monkey

namespace Grammar

open Monkey.Parser

def equalityOp? : TokenKind → Option BinaryOp
  | .symbol .eqEq => some .eq
  | .symbol .notEq => some .ne
  | _ => none

def comparisonOp? : TokenKind → Option BinaryOp
  | .symbol .lt => some .lt
  | .symbol .gt => some .gt
  | _ => none

def additiveOp? : TokenKind → Option BinaryOp
  | .symbol .plus => some .add
  | .symbol .minus => some .sub
  | _ => none

def multiplicativeOp? : TokenKind → Option BinaryOp
  | .symbol .star => some .mul
  | .symbol .slash => some .div
  | _ => none

def unaryOp? : TokenKind → Option UnaryOp
  | .symbol .bang => some .not
  | .symbol .minus => some .neg
  | _ => none

def name : Parser String := do
  match ← kind with
  | .ident x => advance; return x
  | _ => unexpected "IDENT"

-- The names between the parentheses behind `fn` or `macro`.
def params : Parser (List String) := do
  let _ ← expect (.symbol .lparen)
  if ← eat (.symbol .rparen) then
    return []
  else
    let first ← name
    let names ← loop
      (fun
        | .symbol .comma => some fun xs => do advance; return xs ++ [← name]
        | _ => none)
      [first]
    let _ ← expect (.symbol .rparen)
    return names

variable (expr : Parser Expr)

-- Expressions between commas, up to and including the token that closes the list.
def exprList (close : Symbol) : Parser (List Expr) := do
  if ← eat (.symbol close) then
    return []
  else
    let first ← expr
    let es ← loop
      (fun
        | .symbol .comma => some fun es => do advance; return es ++ [← expr]
        | _ => none)
      [first]
    let _ ← expect (.symbol close)
    return es

/-- A statement.  A semicolon that follows belongs to it. -/
def stmt : Parser Stmt := do
  match ← kind with
  | .keyword .letWord =>
    advance
    let x ← name
    let _ ← expect (.symbol .assign)
    let value ← expr
    let _ ← eat (.symbol .semicolon)
    return .bind x value
  | .keyword .returnWord =>
    advance
    let value ← expr
    let _ ← eat (.symbol .semicolon)
    return .ret value
  | _ =>
    let e ← expr
    let _ ← eat (.symbol .semicolon)
    return .expr e

def block : Parser Block := do
  let _ ← expect (.symbol .lbrace)
  let ss ← loop
    (fun
      | .symbol .rbrace => none
      | .eof => none
      | _ => some fun ss => do return ss ++ [← stmt expr])
    []
  let _ ← expect (.symbol .rbrace)
  return ss

/-- Keys and values between braces; a comma may follow the last pair. -/
def hash : Parser Expr := do
  let _ ← expect (.symbol .lbrace)
  let ps ← loop
    (fun
      | .symbol .rbrace => none
      | _ => some fun ps => do
        let key ← expr
        let _ ← expect (.symbol .colon)
        let value ← expr
        unless ← check (.symbol .rbrace) do
          let _ ← expect (.symbol .comma)
        return ps ++ [(key, value)])
    []
  let _ ← expect (.symbol .rbrace)
  return .hash ps

def cond : Parser Expr := do
  let _ ← expect (.keyword .ifWord)
  let _ ← expect (.symbol .lparen)
  let test ← expr
  let _ ← expect (.symbol .rparen)
  let yes ← block expr
  if ← eat (.keyword .elseWord) then
    return .cond test yes (some (← block expr))
  else
    return .cond test yes none

/-- An expression that is no operation. -/
def primary : Parser Expr := do
  match ← kind with
  | .ident x => advance; return .ident x
  | .int text =>
    match Numeral.word? text with
    | some n => advance; return .int n
    | none => fail (.integerRange text)
  | .str text => advance; return .str text
  | .keyword .trueWord => advance; return .bool true
  | .keyword .falseWord => advance; return .bool false
  | .symbol .lparen =>
    advance
    let e ← expr
    let _ ← expect (.symbol .rparen)
    return e
  | .symbol .lbracket => advance; return .array (← exprList expr .rbracket)
  | .symbol .lbrace => hash expr
  | .keyword .ifWord => cond expr
  | .keyword .fnWord =>
    advance
    let ps ← params
    return .fn ps (← block expr)
  | .keyword .macroWord =>
    advance
    let ps ← params
    return .macroFn ps (← block expr)
  | .illegal text => fail (.illegalToken text)
  | k => fail (.noExpression k.description)

/-- A primary expression with the calls and indexes behind it. -/
def postfixed : Parser Expr := do
  loop
    (fun
      | .symbol .lparen => some fun e => do advance; return .call e (← exprList expr .rparen)
      | .symbol .lbracket => some fun e => do
        advance
        let i ← expr
        let _ ← expect (.symbol .rbracket)
        return .index e i
      | _ => none)
    (← primary expr)

/-- An operand with the operators in front of it. -/
def unary : Parser Expr := do
  let ops ← loop (fun k => (unaryOp? k).map fun op ops => do advance; return ops ++ [op]) []
  return ops.foldr .unary (← postfixed expr)

/-- Operands with operators of one level between them, grouped to the left. -/
def leftAssoc (op? : TokenKind → Option BinaryOp) (operand : Parser Expr) : Parser Expr := do
  loop (fun k => (op? k).map fun op left => do advance; return .binary op left (← operand))
    (← operand)

def multiplicative : Parser Expr := leftAssoc multiplicativeOp? (unary expr)

def additive : Parser Expr := leftAssoc additiveOp? (multiplicative expr)

def comparison : Parser Expr := leftAssoc comparisonOp? (additive expr)

def equality : Parser Expr := leftAssoc equalityOp? (comparison expr)

end Grammar

def Parser.expr : Parser Expr := Parser.fix Grammar.equality

def Parser.stmt : Parser Stmt := Grammar.stmt Parser.expr

end Monkey
