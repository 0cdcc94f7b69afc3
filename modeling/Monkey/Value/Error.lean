import Monkey.Expr.Basic

/-!
# Evaluation errors — why a program stopped

Each error names its cause and the types of the values involved; the wording is in
`EvalError.message` alone.
-/

namespace Monkey

inductive ValueType where
  | integer | boolean | null | string | array | hash | function | builtin | error | quote | macroFn
deriving DecidableEq, Repr

/-- The name of the type in messages. -/
def ValueType.name : ValueType → String
  | integer => "INTEGER"
  | boolean => "BOOLEAN"
  | null => "NULL"
  | string => "STRING"
  | array => "ARRAY"
  | hash => "HASH"
  | function => "FUNCTION"
  | builtin => "BUILTIN"
  | error => "ERROR"
  | quote => "QUOTE"
  | macroFn => "MACRO"

/-- The functions that every program can call by name. -/
inductive Builtin where
  | len | first | last | rest | push | puts | print
deriving DecidableEq, Repr

namespace Builtin

def all : List Builtin := [len, first, last, rest, push, puts, print]

def name : Builtin → String
  | len => "len"
  | first => "first"
  | last => "last"
  | rest => "rest"
  | push => "push"
  | puts => "puts"
  | print => "print"

def ofName? (x : String) : Option Builtin := all.find? (·.name = x)

/-- The builtin, for tracing. -/
def inspect (b : Builtin) : String := s!"Builtin({b.name})"

theorem mem_all (b : Builtin) : b ∈ all := by cases b <;> decide

theorem ofName?_eq_some_iff {x : String} {b : Builtin} : ofName? x = some b ↔ x = b.name := by
  constructor
  · intro h
    have found := List.find?_some h
    exact (of_decide_eq_true found).symm
  · rintro rfl
    cases b <;> decide

end Builtin

inductive EvalError where
  | typeMismatch (left : ValueType) (op : BinaryOp) (right : ValueType)
  | unknownUnary (op : UnaryOp) (operand : ValueType)
  | unknownBinary (left : ValueType) (op : BinaryOp) (right : ValueType)
  | unboundName (name : String)
  | unhashable (type : ValueType)
  | notIndexable (type : ValueType)
  | notCallable (type : ValueType)
  | argumentCount (expected got : Nat)
  | unsupportedArgument (builtin : Builtin) (type : ValueType)
  | argumentType (builtin : Builtin) (expected got : ValueType)
  | divisionByZero
  | noLiteralForm (type : ValueType)
  | expansionNotQuote (type : ValueType)
deriving DecidableEq, Repr

def EvalError.message : EvalError → String
  | typeMismatch l op r => s!"type mismatch: {l.name} {op.spelling} {r.name}"
  | unknownUnary op t => s!"unknown operator: {op.spelling}{t.name}"
  | unknownBinary l op r => s!"unknown operator: {l.name} {op.spelling} {r.name}"
  | unboundName x => s!"identifier not found: {x}"
  | unhashable t => s!"unusable as hash key: {t.name}"
  | notIndexable t => s!"index operator not supported: {t.name}"
  | notCallable t => s!"not a function: {t.name}"
  | argumentCount expected got => s!"wrong number of arguments: want={expected}, got={got}"
  | unsupportedArgument b t => s!"argument to `{b.name}` not supported, got {t.name}"
  | argumentType b expected got =>
    s!"argument to `{b.name}` must be {expected.name}, got {got.name}"
  | divisionByZero => "division by zero"
  | noLiteralForm t => s!"unquote result has no literal form: {t.name}"
  | expansionNotQuote t => s!"macro must return a quoted AST node, got {t.name}"

end Monkey
