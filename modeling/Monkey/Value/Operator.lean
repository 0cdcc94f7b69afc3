import Monkey.Value.Basic

/-!
# Operators — what the operators compute on values

Arithmetic is that of 64-bit words: it wraps around, and division truncates toward zero.  Texts can
only be joined.  On all other values `==` and `!=` ask whether the two are one and the same.
-/

namespace Monkey

namespace Value

def applyUnary (op : UnaryOp) (v : Value) : Except EvalError Value :=
  match op, v with
  | .not, v => .ok (.bool !v.truthy)
  | .neg, .int n => .ok (.int (-n))
  | .neg, v => .error (.unknownUnary .neg v.type)

/-- Applies an operator to two integers. -/
def applyInts (op : BinaryOp) (a b : Int64) : Except EvalError Value :=
  match op with
  | .add => .ok (.int (a + b))
  | .sub => .ok (.int (a - b))
  | .mul => .ok (.int (a * b))
  | .div => if b = 0 then .error .divisionByZero else .ok (.int (a / b))
  | .lt => .ok (.bool (a < b))
  | .gt => .ok (.bool (a > b))
  | .eq => .ok (.bool (a = b))
  | .ne => .ok (.bool (a ≠ b))

/-- Applies an operator that stands between its operands.  A text that arises is the object
`fresh`. -/
def applyBinary (fresh : ObjectId) (op : BinaryOp) (left right : Value) : Except EvalError Value :=
  match left, right with
  | .int a, .int b => applyInts op a b
  | .str _ a, .str _ b =>
    match op with
    | .add => .ok (.str fresh (a ++ b))
    | _ => .error (.unknownBinary .string op .string)
  | left, right =>
    match op with
    | .eq => .ok (.bool (left.identical right))
    | .ne => .ok (.bool !left.identical right)
    | _ =>
      if left.type ≠ right.type then .error (.typeMismatch left.type op right.type)
      else .error (.unknownBinary left.type op right.type)

/-- The element of a list at an index that may be negative, or null where there is none. -/
def elementAt (elems : List Value) (i : Int64) : Value :=
  if i < 0 then .null else elems[i.toInt.toNat]?.getD .null

/-- Indexes a value.  Elements and keys that are missing are null. -/
def applyIndex (left idx : Value) : Except EvalError Value :=
  match left, idx with
  | .array _ elems, .int i => .ok (elementAt elems i)
  | .hash _ entries, k =>
    match k.key? with
    | some key => .ok (((Table.get? key entries).map (·.value)).getD .null)
    | none => .error (.unhashable k.type)
  | left, _ => .error (.notIndexable left.type)

end Value

end Monkey
