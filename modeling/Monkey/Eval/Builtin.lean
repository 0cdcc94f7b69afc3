import Monkey.Eval.Machine
import Monkey.Value.Display

/-!
# Builtins — the functions that every program can call

The number of arguments is checked first, then their types.  No builtin changes its arguments.
-/

namespace Monkey

namespace Builtin

-- The elements of the one array that the builtin takes first, if it gets `arity` arguments.
def arrayArgument (b : Builtin) (arity : Nat) (args : List Value) :
    Except EvalError (List Value) :=
  if args.length ≠ arity then .error (.argumentCount arity args.length)
  else
    match args with
    | .array _ elems :: _ => .ok elems
    | v :: _ => .error (.argumentType b .array v.type)
    | [] => .error (.argumentCount 1 0)

-- The number of bytes of a text in UTF-8, or of elements of an array.
def measure (args : List Value) : Except EvalError Nat :=
  match args with
  | [.str _ text] => .ok text.utf8ByteSize
  | [.array _ elems] => .ok elems.length
  | [v] => .error (.unsupportedArgument len v.type)
  | _ => .error (.argumentCount 1 args.length)

-- A count as a 64-bit word, cut down to the largest one.
def count (n : Nat) : Value := .int (Int64.ofInt (min n Int64.maxValue.toInt))

def call (b : Builtin) (args : List Value) : Eval Value := do
  match b with
  | len => return count (← .ofExcept (measure args))
  | first => return (← .ofExcept (first.arrayArgument 1 args)).head?.getD .null
  | last => return (← .ofExcept (last.arrayArgument 1 args)).getLast?.getD .null
  | rest =>
    match ← .ofExcept (rest.arrayArgument 1 args) with
    | [] => return .null
    | _ :: elems => return .array (← .newObject) elems
  | push =>
    let elems ← .ofExcept (push.arrayArgument 2 args)
    return .array (← .newObject) (elems ++ args.drop 1)
  | puts =>
    args.forM fun v => .write (v.display ++ "\n")
    return .null
  | print =>
    .write (" ".intercalate (Value.displayList args))
    return .null

end Builtin

end Monkey
