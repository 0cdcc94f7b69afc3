import Monkey.Eval.Basic

/-!
# Macros — calls that are replaced by syntax before a program runs

Top-level bindings of macro literals are taken out of a program and made in a scope for macros.
Then every call of a name that is bound to a macro there is replaced by the syntax that the macro
yields for its quoted arguments, inner calls before the calls around them.
-/

namespace Monkey

/-- Name, parameters and body, if the statement binds a name to a macro literal. -/
def Stmt.macroDefinition? : Stmt → Option (String × List String × Block)
  | .bind x (.macroFn params body) => some (x, params, body)
  | _ => none

def Program.withoutMacros (p : Program) : Program := p.filter (·.macroDefinition?.isNone)

def Program.macroDefinitions (p : Program) : List (String × List String × Block) :=
  p.filterMap Stmt.macroDefinition?

/-- Binds a name to a macro that captures the scope in which it is bound. -/
def Machine.defineMacro (scope : ScopeId) (m : Machine) (d : String × List String × Block) :
    Machine :=
  m.takeObject.define scope d.1 (.macroFn m.nextObject ⟨d.2.1, d.2.2, scope⟩)

def Machine.defineMacros (m : Machine) (scope : ScopeId) (p : Program) : Machine :=
  p.macroDefinitions.foldl (defineMacro scope) m

namespace Eval

-- Wraps syntax as a value.
def quoted (e : Expr) : Eval Value := do return .quote (← newObject) e

-- The syntax that a macro yields for arguments that are not evaluated.
def callMacro (eval : Evaluator) (f : Closure) (args : List Expr) : Eval Expr := do
  match ← callClosure eval f (← args.mapM quoted) with
  | .quote _ node => return node
  | v => fail (.expansionNotQuote v.type)

/-- What stands in the place of an expression after expansion. -/
def expandCall (eval : Evaluator) (scope : ScopeId) (e : Expr) : Eval Expr :=
  match e with
  | .call (.ident f) args => do
    match ← lookup scope f with
    | some (.macroFn _ c) => callMacro eval c args
    | _ => return e
  | e => pure e

-- The program with every call of a macro replaced.
def expandProgram (eval : Evaluator) (scope : ScopeId) (p : Program) : Eval Program :=
  (Traversal.bottomUp (expandCall eval scope)).program p

/-- Expands a program, or yields the error that stopped a macro. -/
def expandMacros (n : Nat) (scope : ScopeId) (p : Program) (m : Machine) :
    Option (Except EvalError Program × Machine) :=
  match expandProgram (eval n) scope p m with
  | none => none
  | some (.ok q, m') => some (.ok q, m')
  | some (.error (.failed e), m') => some (.error e, m')
  | some (.error (.returned v), m') => some (.error (.expansionNotQuote v.type), m')

end Eval

end Monkey
