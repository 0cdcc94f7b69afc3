/-!
# Expressions and statements — the syntax trees of programs

A program, like the body of a function or a branch, is a list of statements; every node holds its
parts in the order in which they are written.  Integer literals are 64-bit words.
-/

namespace Monkey

inductive UnaryOp where
  | not | neg
deriving DecidableEq, Repr

inductive BinaryOp where
  | add | sub | mul | div | lt | gt | eq | ne
deriving DecidableEq, Repr

def UnaryOp.spelling : UnaryOp → String
  | not => "!"
  | neg => "-"

def BinaryOp.spelling : BinaryOp → String
  | add => "+"
  | sub => "-"
  | mul => "*"
  | div => "/"
  | lt => "<"
  | gt => ">"
  | eq => "=="
  | ne => "!="

mutual

inductive Expr where
  | ident (name : String)
  | int (n : Int64)
  | bool (b : Bool)
  | str (text : String)
  | array (elems : List Expr)
  -- Keys and values in the order in which they are written.
  | hash (pairs : List (Expr × Expr))
  | unary (op : UnaryOp) (operand : Expr)
  | binary (op : BinaryOp) (left right : Expr)
  | cond (test : Expr) (yes : List Stmt) (no : Option (List Stmt))
  | fn (params : List String) (body : List Stmt)
  | macroFn (params : List String) (body : List Stmt)
  | call (callee : Expr) (args : List Expr)
  | index (left : Expr) (idx : Expr)

inductive Stmt where
  | bind (name : String) (value : Expr)
  | ret (value : Expr)
  | expr (e : Expr)

end

instance : Inhabited Expr := ⟨.bool false⟩

instance : Inhabited Stmt := ⟨.expr default⟩

/-- The statements between two braces.  They run in the scope around them. -/
abbrev Block := List Stmt

abbrev Program := List Stmt

/-- Whether the statement binds a name, and so leaves no value worth showing. -/
def Stmt.isBind : Stmt → Bool
  | bind _ _ => true
  | _ => false

/-- Whether running the program leaves a value worth showing: it has a last statement, and that one
binds no name. -/
def Program.endsWithValue (p : Program) : Bool :=
  match p.getLast? with
  | some s => !s.isBind
  | none => false

/-- The arguments, if the expression is a call whose callee is just the name `name`. -/
def Expr.callTo? (name : String) : Expr → Option (List Expr)
  | call (ident f) args => if f = name then some args else none
  | _ => none

theorem Expr.callTo?_eq_some_iff {name : String} {e : Expr} {args : List Expr} :
    e.callTo? name = some args ↔ e = .call (.ident name) args := by
  unfold Expr.callTo?
  split
  · next f as =>
    split
    · next h => subst h; simp
    · next h => simp [h]
  · next h =>
    simp only [reduceCtorEq, false_iff]
    intro he
    exact h _ _ he

end Monkey
