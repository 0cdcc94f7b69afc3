import Monkey.Expr.Basic

/-!
# Traversals — passes that rebuild a syntax tree

A traversal goes through a tree once, in the order in which the program is written, and rebuilds it.
It sees every node before its parts, and every expression once more behind them, with its parts
already rebuilt, when it may put another expression in its place.  Names that are bound, parameters
and operators are no nodes and stay.  Its actions run in a monad, so that a pass may keep a record,
and may stop.
-/

namespace Monkey

/-- The actions of a pass over a syntax tree. -/
structure Traversal (m : Type → Type) where
  enterProgram : m Unit
  enterStmt : Stmt → m Unit
  -- Whether the pass goes through the statements of this block.
  enterBlock : Block → m Bool
  enterExpr : Expr → m Unit
  -- What stands in the place of an expression whose parts are rebuilt.
  leaveExpr : Expr → m Expr

namespace Traversal

variable {m : Type → Type} [Monad m]

-- The pass that does nothing and changes nothing.
def identity : Traversal m where
  enterProgram := pure ()
  enterStmt _ := pure ()
  enterBlock _ := pure true
  enterExpr _ := pure ()
  leaveExpr e := pure e

-- The pass that only replaces expressions, each behind its parts.
def bottomUp (f : Expr → m Expr) : Traversal m := { identity with leaveExpr := f }

-- The block, or its rebuilt statements if the pass goes through them.
def inBlock (t : Traversal m) (b : Block) (rebuilt : m Block) : m Block := do
  if ← t.enterBlock b then rebuilt else pure b

mutual

def expr (t : Traversal m) (e : Expr) : m Expr := do
  t.enterExpr e
  match e with
  | .ident _ | .int _ | .bool _ | .str _ => t.leaveExpr e
  | .array elems => t.leaveExpr (.array (← t.exprs elems))
  | .hash ps => t.leaveExpr (.hash (← t.pairs ps))
  | .unary op a => t.leaveExpr (.unary op (← t.expr a))
  | .binary op a b => t.leaveExpr (.binary op (← t.expr a) (← t.expr b))
  | .cond test yes none =>
    t.leaveExpr (.cond (← t.expr test) (← t.inBlock yes (t.stmts yes)) none)
  | .cond test yes (some no) =>
    t.leaveExpr (.cond (← t.expr test) (← t.inBlock yes (t.stmts yes))
      (some (← t.inBlock no (t.stmts no))))
  | .fn params body => t.leaveExpr (.fn params (← t.inBlock body (t.stmts body)))
  | .macroFn params body => t.leaveExpr (.macroFn params (← t.inBlock body (t.stmts body)))
  | .call callee args => t.leaveExpr (.call (← t.expr callee) (← t.exprs args))
  | .index a i => t.leaveExpr (.index (← t.expr a) (← t.expr i))
termination_by structural e

def exprs (t : Traversal m) : List Expr → m (List Expr)
  | [] => pure []
  | e :: es => do return (← t.expr e) :: (← t.exprs es)
termination_by structural es => es

def pairs (t : Traversal m) : List (Expr × Expr) → m (List (Expr × Expr))
  | [] => pure []
  | (k, v) :: ps => do return (← t.expr k, ← t.expr v) :: (← t.pairs ps)
termination_by structural ps => ps

def stmt (t : Traversal m) (s : Stmt) : m Stmt := do
  t.enterStmt s
  match s with
  | .bind name value => return .bind name (← t.expr value)
  | .ret value => return .ret (← t.expr value)
  | .expr e => return .expr (← t.expr e)
termination_by structural s

def stmts (t : Traversal m) : List Stmt → m (List Stmt)
  | [] => pure []
  | s :: ss => do return (← t.stmt s) :: (← t.stmts ss)
termination_by structural ss => ss

end

def program (t : Traversal m) (p : Program) : m Program := do
  t.enterProgram
  t.stmts p

end Traversal

end Monkey
