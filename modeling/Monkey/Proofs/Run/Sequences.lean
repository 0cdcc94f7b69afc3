import Mathlib.Data.List.Basic
import Monkey.Proofs.Run.Hash
import Monkey.Value.Operator

/-!
# Sequences — arrays as their builtins and their indexes show them

Indexing and the builtins for arrays are written apart from one another, with words for indexes and
cases of their own for what is empty.  They all speak of one sequence of elements, so an array can be
taken apart and put together again.
-/

namespace Monkey

/-! ## 1. Indexes -/

namespace Value

variable {o : ObjectId} {elems : List Value} {i j : Int64} {k : Nat} {v : Value}

/-- Indexing the elements with the word `i` comes to `v`, whatever array holds them. -/
def IndexGives (elems : List Value) (i : Int64) (v : Value) : Prop :=
  ∀ o, (array o elems).applyIndex (.int i) = .ok v

theorem elementAt_of_toInt_eq (h : i.toInt = k) : elementAt elems i = elems[k]?.getD .null := by
  have hneg : ¬ i < 0 := by
    rw [Int64.lt_iff_toInt_lt, Int64.toInt_zero, h]
    omega
  rw [elementAt, if_neg hneg, h, Int.toNat_natCast]

theorem indexGives_of_toInt_eq (elems : List Value) (h : i.toInt = k) :
    IndexGives elems i (elems[k]?.getD .null) :=
  fun _ => congrArg Except.ok (elementAt_of_toInt_eq h)

-- A word that is no place of the array: negative, or too large.
theorem indexGives_null (h : i.toInt < 0 ∨ elems.length ≤ i.toInt) : IndexGives elems i .null := by
  rcases h with hneg | hle
  · have hlt : i < 0 := by rwa [Int64.lt_iff_toInt_lt, Int64.toInt_zero]
    exact fun _ => congrArg Except.ok (if_pos hlt)
  · obtain ⟨k, hk⟩ := Int.eq_ofNat_of_zero_le (Int.le_trans (Int.natCast_nonneg _) hle)
    have hnone : elems[k]? = none := List.getElem?_eq_none (by omega)
    simpa [hnone] using indexGives_of_toInt_eq elems hk

theorem indexGives_getElem (hk : k < elems.length) (h : i.toInt = k) :
    IndexGives elems i elems[k] := by
  simpa [hk] using indexGives_of_toInt_eq elems h

-- The index of the last element is one less than the length.
theorem indexGives_concat (h : i.toInt = elems.length) : IndexGives (elems ++ [v]) i v := by
  simpa using indexGives_of_toInt_eq (elems ++ [v]) h

end Value

/-! ## 2. Builtins -/

namespace Builtin

open Value

variable {o : ObjectId} {elems : List Value} {v : Value}

/-- In every machine the builtin gives the value `v`, and leaves everything as it is. -/
def Gives (b : Builtin) (args : List Value) (v : Value) : Prop :=
  ∀ m, b.call args m = some (.ok v, m)

/-- In every machine the builtin makes a new array of the elements, and leaves everything as it is
but for the identity that it uses up. -/
def Makes (b : Builtin) (args elems : List Value) : Prop :=
  ∀ m, b.call args m = some (.ok (.array m.nextObject elems), m.takeObject)

theorem gives_len (o : ObjectId) (elems : List Value) :
    len.Gives [.array o elems] (count elems.length) := fun _ => rfl

theorem gives_first (o : ObjectId) (elems : List Value) :
    first.Gives [.array o elems] (elems.head?.getD .null) := fun _ => rfl

theorem gives_last (o : ObjectId) (elems : List Value) :
    last.Gives [.array o elems] (elems.getLast?.getD .null) := fun _ => rfl

theorem gives_last_concat (o : ObjectId) (elems : List Value) (v : Value) :
    last.Gives [.array o (elems ++ [v])] v := by
  simpa using gives_last o (elems ++ [v])

theorem gives_rest_nil (o : ObjectId) : rest.Gives [.array o []] .null := fun _ => rfl

theorem makes_rest (o : ObjectId) (v : Value) (elems : List Value) :
    rest.Makes [.array o (v :: elems)] elems := fun _ => rfl

theorem makes_push (o : ObjectId) (elems : List Value) (v : Value) :
    push.Makes [.array o elems, v] (elems ++ [v]) := fun _ => rfl

-- A count that is no word is cut down to the largest one.
theorem exists_count_eq (n : Nat) :
    ∃ w : Int64, count n = .int w ∧ w.toInt = min (n : Int) Int64.maxValue.toInt := by
  have hn : (0 : Int) ≤ n := Int.natCast_nonneg n
  refine ⟨_, rfl, Int64.toInt_ofInt_of_le ?_ ?_⟩
  · rw [Int64.toInt_maxValue]
    omega
  · rw [Int64.toInt_maxValue]
    omega

/-! ## 3. Taking apart and putting together -/

/-- Takes the first element of `v` and goes on with the others, `n` times, and pushes what it has
taken onto `filled`, in order. -/
def refill : Nat → Value → Value → Eval Value
  | 0, _, filled => return filled
  | n + 1, v, filled => do
    let x ← first.call [v]
    let others ← rest.call [v]
    refill n others (← push.call [filled, x])

-- By induction over the array: what is not taken yet and what is filled make up the whole.
theorem refill_eq (o o' : ObjectId) (elems filled : List Value) (m : Machine) :
    ∃ o'' k, refill elems.length (.array o elems) (.array o' filled) m =
      some (.ok (.array o'' (filled ++ elems)), { m with nextObject := k }) := by
  induction elems generalizing o o' filled m with
  | nil =>
    refine ⟨o', m.nextObject, ?_⟩
    rw [List.append_nil]
    rfl
  | cons v elems ih =>
    obtain ⟨o'', k, h⟩ := ih m.nextObject m.takeObject.nextObject (filled ++ [v])
      m.takeObject.takeObject
    refine ⟨o'', k, ?_⟩
    rw [List.append_assoc] at h
    exact h

/-! ## 4. One sequence -/

/-- What is said of an array with these elements, whichever array it is. -/
structure Sequential (elems : List Value) : Prop where
  -- Indexing finds the elements, and null everywhere else.
  inside : ∀ (k : Nat) (hk : k < elems.length) (i : Int64), i.toInt = k →
    IndexGives elems i elems[k]
  outside : ∀ i : Int64, i.toInt < 0 ∨ elems.length ≤ i.toInt → IndexGives elems i .null
  len : ∃ w : Int64, (∀ o, Builtin.len.Gives [.array o elems] (.int w)) ∧
    w.toInt = min (elems.length : Int) Int64.maxValue.toInt
  first : elems ≠ [] → ∃ v, IndexGives elems 0 v ∧ ∀ o, Builtin.first.Gives [.array o elems] v
  last : elems ≠ [] → ∃ v, (∀ i : Int64, i.toInt + 1 = elems.length → IndexGives elems i v) ∧
    ∀ o, Builtin.last.Gives [.array o elems] v
  rest : elems ≠ [] → ∃ others, others.length + 1 = elems.length ∧
    (∀ i j : Int64, 0 ≤ i.toInt → i.toInt < others.length → j.toInt = i.toInt + 1 →
      ∃ v, IndexGives others i v ∧ IndexGives elems j v) ∧
    ∀ o, Builtin.rest.Makes [.array o elems] others
  empty : elems = [] → ∀ b ∈ [Builtin.first, .last, .rest], ∀ o, b.Gives [.array o elems] .null
  push : ∀ v, ∃ pushed, pushed.length = elems.length + 1 ∧
    (∀ i : Int64, 0 ≤ i.toInt → i.toInt < elems.length →
      ∃ u, IndexGives elems i u ∧ IndexGives pushed i u) ∧
    (∀ i : Int64, i.toInt = elems.length → IndexGives pushed i v) ∧
    (∀ o, Builtin.push.Makes [.array o elems, v] pushed) ∧
    ∀ o, Builtin.last.Gives [.array o pushed] v
  -- An array that is filled with the first elements, one after the other, is equal to it.
  refilled : ∀ (o o' : ObjectId) (m : Machine), ∃ v k,
    refill elems.length (.array o elems) (.array o' []) m =
      some (.ok v, { m with nextObject := k }) ∧ (Value.array o elems).same v = true

/-- **The builtins and the indexes of arrays describe one sequence**, for every array. -/
theorem arrays_are_sequences (elems : List Value) : Sequential elems where
  inside k hk i h := indexGives_getElem hk h
  outside i h := indexGives_null h
  len := by
    obtain ⟨w, hcount, hw⟩ := exists_count_eq elems.length
    exact ⟨w, fun o => hcount ▸ gives_len o elems, hw⟩
  first hne := by
    obtain ⟨v, others, rfl⟩ := List.exists_cons_of_ne_nil hne
    exact ⟨v, indexGives_getElem (Nat.zero_lt_succ _) Int64.toInt_zero,
      fun o => gives_first o (v :: others)⟩
  last hne := by
    obtain ⟨init, v, rfl⟩ := (List.eq_nil_or_concat' elems).resolve_left hne
    refine ⟨v, fun i hi => ?_, fun o => gives_last_concat o init v⟩
    rw [List.length_append, List.length_singleton] at hi
    exact indexGives_concat (by omega)
  rest hne := by
    obtain ⟨v, others, rfl⟩ := List.exists_cons_of_ne_nil hne
    refine ⟨others, rfl, ?_, fun o => makes_rest o v others⟩
    intro i j hi hlt hj
    obtain ⟨k, hk⟩ := Int.eq_ofNat_of_zero_le hi
    have hk' : k < others.length := by omega
    have hj' : j.toInt = (k + 1 : Nat) := by omega
    have hsucc : k + 1 < (v :: others).length := Nat.succ_lt_succ hk'
    exact ⟨others[k], indexGives_getElem hk' hk, indexGives_getElem hsucc hj'⟩
  empty h b hb o := by
    subst h
    simp only [List.mem_cons, List.not_mem_nil, or_false] at hb
    rcases hb with rfl | rfl | rfl
    · exact gives_first o []
    · exact gives_last o []
    · exact gives_rest_nil o
  push v := by
    refine ⟨elems ++ [v], by simp, ?_, fun i hi => indexGives_concat hi,
      fun o => makes_push o elems v, fun o => gives_last_concat o elems v⟩
    intro i hi hlt
    obtain ⟨k, hk⟩ := Int.eq_ofNat_of_zero_le hi
    have hk' : k < elems.length := by omega
    refine ⟨elems[k], indexGives_getElem hk' hk, ?_⟩
    have hpushed := indexGives_of_toInt_eq (elems ++ [v]) hk
    rwa [List.getElem?_append_left hk', List.getElem?_eq_getElem hk', Option.getD_some] at hpushed
  refilled o o' m := by
    obtain ⟨o'', k, h⟩ := refill_eq o o' elems [] m
    exact ⟨_, k, h, same_refl (.array o elems)⟩

end Builtin

end Monkey
