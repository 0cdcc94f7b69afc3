/-!
# Numerals — integers in decimal

An integer literal is read as a 64-bit word from an optional sign and ASCII digits, leading zeros
allowed.  What does not fit into the word is no numeral.
-/

namespace Monkey

namespace Numeral

-- The number that a nonempty row of ASCII digits stands for.
def natural? (cs : List Char) : Option Nat :=
  if cs.isEmpty || !cs.all Char.isDigit then none else some (Nat.ofDigitChars 10 cs 0)

-- The integer that the characters stand for, whatever its size.
def integer? : List Char → Option Int
  | '-' :: cs => (natural? cs).map fun n => -(n : Int)
  | '+' :: cs => (natural? cs).map Int.ofNat
  | cs => (natural? cs).map Int.ofNat

/-- The 64-bit word that the text stands for. -/
def word? (text : String) : Option Int64 :=
  match integer? text.toList with
  | some i =>
    if Int64.minValue.toInt ≤ i ∧ i ≤ Int64.maxValue.toInt then some (Int64.ofInt i) else none
  | none => none

-- A text stands for the word of the integer it stands for.
theorem word?_eq_some_iff {text : String} {n : Int64} :
    word? text = some n ↔ integer? text.toList = some n.toInt := by
  unfold word?
  cases integer? text.toList with
  | none => simp
  | some i =>
    simp only [Option.ite_none_right_eq_some, Option.some.injEq]
    constructor
    · rintro ⟨⟨hmin, hmax⟩, rfl⟩
      rw [Int64.toInt_maxValue] at hmax
      exact (Int64.toInt_ofInt_of_le hmin (by omega)).symm
    · rintro rfl
      exact ⟨⟨Int64.minValue_le_toInt n, Int64.toInt_le n⟩, Int64.ofInt_toInt n⟩

end Numeral

end Monkey
