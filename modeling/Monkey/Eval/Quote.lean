import Monkey.Eval.Machine
import Monkey.Expr.Traversal
import Monkey.Value.Literal

/-!
# Quoting — syntax as a value

A quoted expression is not evaluated, but each call of `unquote` with one argument inside it is
replaced by the literal of what its argument evaluates to.  Inner calls come before the calls
around them.
-/

namespace Monkey

abbrev Evaluator := ScopeId → Expr → Eval Value

namespace Eval

/-- What stands in the place of an expression inside a quote.  A value that is returned counts like
any other. -/
def unquote (eval : Evaluator) (scope : ScopeId) (e : Expr) : Eval Expr :=
  match e.callTo? "unquote" with
  | some [inner] => do ofExcept (← catchReturn (eval scope inner)).literal
  | _ => pure e

/-- The expression with what is unquoted inside it replaced. -/
def quoteNode (eval : Evaluator) (scope : ScopeId) (e : Expr) : Eval Expr :=
  (Traversal.bottomUp (unquote eval scope)).expr e

def quote (eval : Evaluator) (scope : ScopeId) (args : List Expr) : Eval Value :=
  match args with
  | [e] => do
    let node ← quoteNode eval scope e
    return .quote (← newObject) node
  | _ => fail (.argumentCount 1 args.length)

end Eval

end Monkey
