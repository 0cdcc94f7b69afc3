import Monkey.Eval.Builtin
import Monkey.Eval.Quote
import Monkey.Value.Operator

/-!
# Evaluation — running programs

Parts are evaluated from left to right, and the first that stops, stops the whole.  A returned value
stops statements up to the call of the function around them; an error stops the program.  Only a
call makes a scope.

`Eval.step` evaluates one node and leaves the expressions inside it, and the bodies it calls, to the
evaluator it is given.  `Eval.eval n` allows `n` of these nodes inside one another.
-/

namespace Monkey

namespace Eval

section

variable (eval : Evaluator) (scope : ScopeId)

/-- Runs a statement.  The value of a binding is null. -/
def stmt : Stmt → Eval Value
  | .bind x e => do
    define scope x (← eval scope e)
    return .null
  | .ret e => do stop (.returned (← eval scope e))
  | .expr e => eval scope e

-- Runs statements in order; `v` is the value if there are none.
def stmtsFrom (v : Value) (ss : List Stmt) : Eval Value :=
  ss.foldlM (fun _ s => stmt eval scope s) v

/-- Runs statements in order.  The value is that of the last one, or null. -/
def stmts (ss : List Stmt) : Eval Value := stmtsFrom eval scope .null ss

-- Binds the parameters to the arguments, in order.
def bindParams (params : List String) (args : List Value) : Eval Unit :=
  (params.zip args).forM fun p => define scope p.1 p.2

/-- Runs the body of a function or macro in a scope of its own, inside the one it captured. -/
def callClosure (f : Closure) (args : List Value) : Eval Value := do
  if f.params.length ≠ args.length then
    fail (.argumentCount f.params.length args.length)
  else
    let scope ← newScope f.scope
    bindParams scope f.params args
    catchReturn (stmts eval scope f.body)

def apply (callee : Value) (args : List Value) : Eval Value :=
  match callee with
  | .fn _ f => callClosure eval f args
  | .builtin b => b.call args
  | v => fail (.notCallable v.type)

/-- The value of a name: what it is bound to, or else the builtin of this name. -/
def name (x : String) : Eval Value := do
  match ← lookup scope x with
  | some v => return v
  | none =>
    match Builtin.ofName? x with
    | some b => return .builtin b
    | none => fail (.unboundName x)

/-- Evaluates one pair of a hash literal and enters it into the table.  That the key can be one is
checked before the value is evaluated. -/
def entry (t : Value.Pairs) (p : Expr × Expr) : Eval Value.Pairs := do
  let k ← eval scope p.1
  match k.key? with
  | none => fail (.unhashable k.type)
  | some key => return t.insert key ⟨k, ← eval scope p.2⟩

def step : Expr → Eval Value
  | .ident x => name scope x
  | .int n => return .int n
  | .bool b => return .bool b
  | .str text => return .str (← newObject) text
  | .array elems => do
    let vs ← elems.mapM (eval scope)
    return .array (← newObject) vs
  | .hash ps => do
    let t ← ps.foldlM (entry eval scope) []
    return .hash (← newObject) t
  | .unary op e => do ofExcept ((← eval scope e).applyUnary op)
  | .binary op l r => do
    let a ← eval scope l
    let b ← eval scope r
    ofExcept (a.applyBinary (← newObject) op b)
  | .cond test yes no => do
    if (← eval scope test).truthy then stmts eval scope yes
    else
      match no with
      | some ss => stmts eval scope ss
      | none => return .null
  | .fn params body => return .fn (← newObject) ⟨params, body, scope⟩
  | .macroFn params body => return .macroFn (← newObject) ⟨params, body, scope⟩
  | .call callee args =>
    match (Expr.call callee args).callTo? "quote" with
    | some quoted => quote eval scope quoted
    | none => do
      let f ← eval scope callee
      let vs ← args.mapM (eval scope)
      apply eval f vs
  | .index l i => do
    let a ← eval scope l
    let b ← eval scope i
    ofExcept (a.applyIndex b)

end

/-- Evaluates expressions in which at most `n` nodes lie inside one another, those of the bodies
that are called included. -/
def eval : Nat → Evaluator
  | 0 => fun _ _ => unfinished
  | n + 1 => step (eval n)

/-- Runs a whole program.  A value returned at the top is its value, and so is an error. -/
def program (n : Nat) (scope : ScopeId) (p : Program) (m : Machine) : Option (Value × Machine) :=
  match stmts (eval n) scope p m with
  | none => none
  | some (.ok v, m') => some (v, m')
  | some (.error (.returned v), m') => some (v, m')
  | some (.error (.failed e), m') => some (.error e, m')

end Eval

end Monkey
