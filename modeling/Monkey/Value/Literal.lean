import Monkey.Value.Basic

/-!
# Literals — the syntax that evaluates to a value

Quoted syntax stands for itself, and a function for its literal, without the scope it captured.
Null, builtins, errors and macros have no literal form, and neither has what holds one of them.

The pairs of a hash are written in the order of their keys.  This is a choice: a hash promises no
order, and where two of its pairs have no literal it is open which of them is named.
-/

namespace Monkey

mutual

/-- The literal of a value, or the first part that has none. -/
def Value.literal : Value → Except EvalError Expr
  | .int n => .ok (.int n)
  | .bool b => .ok (.bool b)
  | .str _ text => .ok (.str text)
  | .quote _ node => .ok node
  | .array _ elems => return .array (← Value.literals elems)
  | .hash _ entries => return .hash (← Value.entryLiterals entries)
  | .fn _ f => .ok (.fn f.params f.body)
  | .null => .error (.noLiteralForm .null)
  | .builtin _ => .error (.noLiteralForm .builtin)
  | .macroFn _ _ => .error (.noLiteralForm .macroFn)
  | .error _ => .error (.noLiteralForm .error)
termination_by structural v => v

def Value.literals : List Value → Except EvalError (List Expr)
  | [] => .ok []
  | v :: vs => return (← v.literal) :: (← Value.literals vs)
termination_by structural vs => vs

def Value.entryLiterals : List (HashKey × HashPair Value) → Except EvalError (List (Expr × Expr))
  | [] => .ok []
  | (_, ⟨c, v⟩) :: es => return (← c.literal, ← v.literal) :: (← Value.entryLiterals es)
termination_by structural es => es

end

end Monkey
