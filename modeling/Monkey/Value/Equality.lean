import Monkey.Expr.DecEq
import Monkey.Value.Basic

/-!
# Equality of values by content

Arrays and hashes are compared part by part and quoted syntax as a tree, whatever their identities.
Functions and macros have no content that could be compared, since it lies in their scopes, so they
are compared by identity.
-/

namespace Monkey

mutual

/-- Whether two values have the same content. -/
def Value.same : Value → Value → Bool
  | .int a, .int b => a = b
  | .bool a, .bool b => a = b
  | .null, .null => true
  | .str _ a, .str _ b => a = b
  | .array _ as, .array _ bs => Value.sameList as bs
  | .hash _ as, .hash _ bs => Value.sameEntries as bs
  | .fn i _, .fn j _ => i = j
  | .builtin a, .builtin b => a = b
  | .error a, .error b => a = b
  | .quote _ a, .quote _ b => a = b
  | .macroFn i _, .macroFn j _ => i = j
  | _, _ => false
termination_by structural v => v

def Value.sameList : List Value → List Value → Bool
  | [], [] => true
  | a :: as, b :: bs => a.same b && Value.sameList as bs
  | _, _ => false
termination_by structural vs => vs

def Value.sameEntries :
    List (HashKey × HashPair Value) → List (HashKey × HashPair Value) → Bool
  | [], [] => true
  | (k, ⟨c, a⟩) :: as, (l, ⟨d, b⟩) :: bs =>
    k = l && c.same d && a.same b && Value.sameEntries as bs
  | _, _ => false
termination_by structural es => es

end

end Monkey
