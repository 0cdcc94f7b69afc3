import Monkey.Expr.Render
import Monkey.Value.Basic

/-!
# Display — the text shown for a value

Texts stand without quotes, also inside arrays and hashes.  The pairs of a hash stand in the order of
their keys.  This is a choice: a hash promises no order, and only with less than two pairs does its
text not depend on one.
-/

namespace Monkey

/-- The text shown for a function or macro, which starts with the given word. -/
def Closure.display (f : Closure) (word : String) : String :=
  word ++ "(" ++ ", ".intercalate f.params ++ ") \x7b\n" ++ Stmt.renderAll f.body ++ "\n\x7d"

mutual

/-- The text shown for a value. -/
def Value.display : Value → String
  | .int n => toString n
  | .bool b => toString b
  | .null => "null"
  | .str _ text => text
  | .array _ elems => "[" ++ ", ".intercalate (Value.displayList elems) ++ "]"
  | .hash _ entries => "\x7b" ++ ", ".intercalate (Value.displayEntries entries) ++ "\x7d"
  | .fn _ f => f.display "fn"
  | .builtin _ => "builtin function"
  | .error e => "ERROR: " ++ e.message
  | .quote _ node => "QUOTE(" ++ node.render ++ ")"
  | .macroFn _ f => f.display "macro"
termination_by structural v => v

def Value.displayList : List Value → List String
  | [] => []
  | v :: vs => v.display :: Value.displayList vs
termination_by structural vs => vs

def Value.displayEntries : List (HashKey × HashPair Value) → List String
  | [] => []
  | (_, ⟨c, v⟩) :: es => (c.display ++ ": " ++ v.display) :: Value.displayEntries es
termination_by structural es => es

end

instance : ToString Value := ⟨Value.display⟩

end Monkey
