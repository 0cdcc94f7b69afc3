import Monkey.Table
import Monkey.Value.Error

/-!
# Values — what expressions evaluate to

Integers, truth values and null are plain.  Texts, arrays, hashes, quoted syntax, functions and
macros are objects: each carries the identity it was given when it was made, so that two objects
with the same content can be told apart.  A value never changes.
-/

namespace Monkey

/-- The identity of an object. -/
abbrev ObjectId := Nat

/-- The number of a scope. -/
abbrev ScopeId := Nat

/-- Parameters and body of a function or macro, and the scope in which it was written. -/
structure Closure where
  params : List String
  body : Block
  scope : ScopeId

/-- What tells the keys of a hash apart.  A text is a key of its own: it is taken for granted that
no two texts fall together, as the words that a hash function makes of them might. -/
inductive HashKey where
  | int (n : Int64)
  | bool (b : Bool)
  | str (text : String)
deriving DecidableEq, Repr

/-- What a hash holds under a key: the value that was given as the key, and the value for it. -/
structure HashPair (α : Type) where
  key : α
  value : α

inductive Value where
  | int (n : Int64)
  | bool (b : Bool)
  | null
  | str (id : ObjectId) (text : String)
  | array (id : ObjectId) (elems : List Value)
  -- A table of pairs.  A hash literal puts each pair under the key that its own key is, but a hash
  -- that is made by a host may hold any pairs.
  | hash (id : ObjectId) (entries : List (HashKey × HashPair Value))
  | fn (id : ObjectId) (closure : Closure)
  | builtin (b : Builtin)
  | error (e : EvalError)
  | quote (id : ObjectId) (node : Expr)
  | macroFn (id : ObjectId) (closure : Closure)

instance : Inhabited Value := ⟨.null⟩

/-- What a hash holds. -/
abbrev Value.Pairs : Type := Table HashKey (HashPair Value)

namespace HashKey

/-- Integers come first, by size, then `false` and `true`, then texts by their characters. -/
protected def compare : HashKey → HashKey → Ordering
  | int a, int b => Ord.compare a b
  | int _, _ => .lt
  | bool _, int _ => .gt
  | bool a, bool b => Ord.compare a b
  | bool _, str _ => .lt
  | str a, str b => Ord.compare a b
  | str _, _ => .gt

instance : Ord HashKey := ⟨HashKey.compare⟩

theorem compare_def (a b : HashKey) : Ord.compare a b = HashKey.compare a b := rfl

instance : Std.LawfulEqOrd HashKey where
  compare_self := by
    intro a
    cases a <;> simp [compare_def, HashKey.compare]
  eq_of_compare := by
    intro a b h
    cases a <;> cases b <;> simp_all [compare_def, HashKey.compare]

instance : Std.TransOrd HashKey where
  eq_swap {a b} := by
    cases a <;> cases b <;>
      simp only [compare_def, HashKey.compare, Ordering.swap_lt, Ordering.swap_gt] <;>
      exact Std.OrientedCmp.eq_swap
  isLE_trans {a b c} hab hbc := by
    cases a <;> cases b <;> cases c <;>
      simp only [compare_def, HashKey.compare, Ordering.isLE_lt, Ordering.isLE_gt,
        Bool.false_eq_true] at hab hbc ⊢ <;>
      exact Std.TransCmp.isLE_trans hab hbc

/-- The 64 bits of a key that is no text: the two's complement of an integer, and one for `true`. -/
def bits? : HashKey → Option UInt64
  | int n => some n.toUInt64
  | bool b => some b.toUInt64
  | str _ => none

end HashKey

namespace Value

def type : Value → ValueType
  | int _ => .integer
  | bool _ => .boolean
  | null => .null
  | str _ _ => .string
  | array _ _ => .array
  | hash _ _ => .hash
  | fn _ _ => .function
  | builtin _ => .builtin
  | error _ => .error
  | quote _ _ => .quote
  | macroFn _ _ => .macroFn

/-- Whether the value counts as true: all but `false` and null do. -/
def truthy : Value → Bool
  | bool false => false
  | null => false
  | _ => true

def isError : Value → Bool
  | error _ => true
  | _ => false

/-- The key that the value is, if it can be one. -/
def key? : Value → Option HashKey
  | int n => some (.int n)
  | bool b => some (.bool b)
  | str _ s => some (.str s)
  | _ => none

/-- Whether two values are one and the same: by content where they have no identity of their own,
and by identity otherwise. -/
def identical : Value → Value → Bool
  | int a, int b => a = b
  | bool a, bool b => a = b
  | null, null => true
  | str i _, str j _ => i = j
  | array i _, array j _ => i = j
  | hash i _, hash j _ => i = j
  | fn i _, fn j _ => i = j
  | builtin a, builtin b => a = b
  | error a, error b => a = b
  | quote i _, quote j _ => i = j
  | macroFn i _, macroFn j _ => i = j
  | _, _ => false

end Value

end Monkey
