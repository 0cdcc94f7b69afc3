import Mathlib.Data.Int.ModEq
import Monkey.Eval.Basic

/-!
# Arithmetic — integers modulo 2^64

Words wrap around, and still no sum, difference, product or opposite is lost in an expression of
whatever depth: its value is the one word that is congruent to what the integers make of it.  A
quotient is not determined by residues.  It is the quotient of the two words, with the fraction cut
off, and just one such quotient is no word.
-/

namespace Monkey

/-! ## 1. Sums and products -/

/-- What the operator makes of two integers, if it is one of those that residues determine. -/
def BinaryOp.onInts? : BinaryOp → Int → Int → Option Int
  | add, y, z => some (y + z)
  | sub, y, z => some (y - z)
  | mul, y, z => some (y * z)
  | _, _, _ => none

/-- The value among the integers of an expression that is made of integer literals with `+`, `-` and
`*`, where `-` may also be a sign. -/
def Expr.exactValue? : Expr → Option Int
  | int n => some n.toInt
  | unary .neg e => e.exactValue?.map (- ·)
  | binary op l r => l.exactValue?.bind fun y => r.exactValue?.bind (op.onInts? y)
  | _ => none

/-- How many nodes of such an expression lie inside one another. -/
def Expr.depth : Expr → Nat
  | unary _ e => e.depth + 1
  | binary _ l r => max l.depth r.depth + 1
  | _ => 1

theorem Expr.depth_pos (e : Expr) : 0 < e.depth := by
  cases e <;> exact Nat.succ_pos _

namespace Value

theorem applyInts_of_onInts? {op : BinaryOp} {y z w : Int} (h : op.onInts? y z = some w) :
    applyInts op (.ofInt y) (.ofInt z) = .ok (.int (.ofInt w)) := by
  cases op <;> cases h
  · rw [Int64.ofInt_add]
    rfl
  · rw [Int64.ofInt_sub]
    rfl
  · rw [Int64.ofInt_mul]
    rfl

end Value

namespace Eval

open Value

variable {n : Nat} {i : ScopeId} {m m₁ m₂ : Machine} {a b : Int64}

-- Operands are evaluated from left to right, and an identity is taken for the result.
theorem eval_binary {op : BinaryOp} {l r : Expr} {v w : Value}
    (hl : eval n i l m = some (.ok v, m₁)) (hr : eval n i r m₁ = some (.ok w, m₂)) :
    eval (n + 1) i (.binary op l r) m =
      ofExcept (v.applyBinary m₂.nextObject op w) m₂.takeObject := by
  show (eval n i l >>= _) m = _
  rw [bind_apply, hl]
  show (eval n i r >>= _) m₁ = _
  rw [bind_apply, hr]
  rfl

-- By induction over the depth: reduction to words commutes with each of the operators.
theorem eval_exact {e : Expr} {z : Int} (h : e.exactValue? = some z) (hn : e.depth ≤ n)
    (i : ScopeId) (m : Machine) :
    ∃ k, eval n i e m = some (.ok (.int (.ofInt z)), { m with nextObject := k }) := by
  induction n generalizing e z m with
  | zero => exact absurd hn (Nat.not_le_of_lt e.depth_pos)
  | succ n ih =>
    cases e with
    | int w =>
      cases h
      rw [Int64.ofInt_toInt]
      exact ⟨m.nextObject, rfl⟩
    | unary op e =>
      cases op with
      | not => cases h
      | neg =>
        obtain ⟨y, hy, rfl⟩ := Option.map_eq_some_iff.1 h
        obtain ⟨k, he⟩ := ih hy (Nat.le_of_succ_le_succ hn) m
        refine ⟨k, ?_⟩
        show (eval n i e >>= _) m = _
        rw [bind_apply, he, Int64.ofInt_neg]
        rfl
    | binary op l r =>
      obtain ⟨y, hy, hop⟩ := Option.bind_eq_some_iff.1 h
      obtain ⟨x, hx, hop⟩ := Option.bind_eq_some_iff.1 hop
      have hdepth : max l.depth r.depth ≤ n := Nat.le_of_succ_le_succ hn
      obtain ⟨k, hl⟩ := ih hy (Nat.le_trans (Nat.le_max_left _ _) hdepth) m
      obtain ⟨k', hr⟩ := ih hx (Nat.le_trans (Nat.le_max_right _ _) hdepth)
        { m with nextObject := k }
      refine ⟨k' + 1, ?_⟩
      rw [eval_binary hl hr]
      show ofExcept (applyInts op _ _) _ = _
      rw [applyInts_of_onInts? hop]
      rfl
    | _ => cases h

/-! ## 2. Quotients -/

/-- The word `q` is the quotient of `a` by `b`, with the fraction cut off. -/
structure Quotient (a b q : Int64) : Prop where
  -- It is the quotient among the integers, reduced to a word,
  reduced : q.toInt = (a.toInt.tdiv b.toInt).bmod (2 ^ 64)
  -- which changes it in one case only,
  changed_iff : q.toInt ≠ a.toInt.tdiv b.toInt ↔ a = Int64.minValue ∧ b = -1
  -- and leaves a remainder that is smaller than `b` and has the sign of `a`, if any.
  remainder : ∃ r : Int, a.toInt ≡ q.toInt * b.toInt + r [ZMOD 2 ^ 64] ∧ |r| < |b.toInt| ∧
    (r = 0 ∨ r.sign = a.toInt.sign)

theorem toInt_modEq_of_bmod {q : Int64} {z : Int} (h : q.toInt = z.bmod (2 ^ 64)) :
    q.toInt ≡ z [ZMOD 2 ^ 64] := by
  rw [h]
  exact Int.bmod_emod

theorem quotient_div (hb : b ≠ 0) : Quotient a b (a / b) where
  reduced := Int64.toInt_div a b
  changed_iff := by
    constructor
    · intro h
      constructor
      · by_contra ha
        exact h (Int64.toInt_div_of_ne_left a b ha)
      · by_contra hb
        exact h (Int64.toInt_div_of_ne_right a b hb)
    · rintro ⟨rfl, rfl⟩
      decide
  remainder := by
    have hb' : b.toInt ≠ 0 := by
      rwa [← Int64.toInt_zero, Ne, Int64.toInt_inj]
    refine ⟨a.toInt.tmod b.toInt, ?_, ?_, ?_⟩
    · calc a.toInt = a.toInt.tdiv b.toInt * b.toInt + a.toInt.tmod b.toInt :=
            (Int.tdiv_mul_add_tmod a.toInt b.toInt).symm
        _ ≡ (a / b).toInt * b.toInt + a.toInt.tmod b.toInt [ZMOD 2 ^ 64] :=
            ((toInt_modEq_of_bmod (Int64.toInt_div a b)).symm.mul_right _).add_right _
    · rw [Int.abs_eq_natAbs, Int.abs_eq_natAbs, Int.natAbs_tmod]
      exact_mod_cast Nat.mod_lt _ (Int.natAbs_pos.2 hb')
    · rw [Int.sign_tmod]
      by_cases hdvd : b.toInt ∣ a.toInt
      · exact .inl (Int.tmod_eq_zero_of_dvd hdvd)
      · exact .inr (if_neg hdvd)

theorem applyInts_div_eq_error_iff :
    applyInts .div a b = .error .divisionByZero ↔ b = 0 := by
  rw [applyInts]
  split <;> simp_all

theorem applyInts_div_of_ne (hb : b ≠ 0) : applyInts .div a b = .ok (.int (a / b)) := if_neg hb

/-- **Integer programs compute modulo 2^64.**  An expression of integer literals, `+`, `-`, `*` and
signs has one value, at all depths that are enough for it and in every scope of every machine: the
word that is congruent to its value among the integers.  Nothing else happens, except that
identities are used up.  A quotient is an error if it is by zero, and only then.  Otherwise it is
the quotient among the integers with the fraction cut off, which has to be reduced to a word only
for the smallest one by minus one. -/
theorem integers_compute_modulo :
    (∀ (e : Expr) (z : Int), e.exactValue? = some z → ∃ w : Int64,
      -2 ^ 63 ≤ w.toInt ∧ w.toInt < 2 ^ 63 ∧ w.toInt ≡ z [ZMOD 2 ^ 64] ∧
      ∀ n ≥ e.depth, ∀ i m, ∃ k,
        eval n i e m = some (.ok (.int w), { m with nextObject := k })) ∧
    (∀ a b : Int64, (applyInts .div a b = .error .divisionByZero ↔ b = 0) ∧
      (b ≠ 0 → ∃ q, applyInts .div a b = .ok (.int q) ∧ Quotient a b q)) ∧
    ∀ n i l r m m₁ m₂ a b, eval n i l m = some (.ok (.int a), m₁) →
      eval n i r m₁ = some (.ok (.int b), m₂) →
      eval (n + 1) i (.binary .div l r) m = ofExcept (applyInts .div a b) m₂.takeObject := by
  refine ⟨fun e z he => ?_, fun a b => ?_, fun n i l r m m₁ m₂ a b hl hr => eval_binary hl hr⟩
  · have hmod : (Int64.ofInt z).toInt ≡ z [ZMOD 2 ^ 64] := toInt_modEq_of_bmod Int64.toInt_ofInt
    exact ⟨.ofInt z, Int64.le_toInt _, Int64.toInt_lt _, hmod, fun n hn i m => eval_exact he hn i m⟩
  · exact ⟨applyInts_div_eq_error_iff, fun hb => ⟨a / b, applyInts_div_of_ne hb, quotient_div hb⟩⟩

/-- In `(9223372036854775807 + 1) * -(-9223372036854775808)` every node overflows, and the smallest
integer divided by minus one is itself. -/
theorem extremes_wrap :
    let e : Expr := .binary .mul (.binary .add (.int Int64.maxValue) (.int 1))
      (.unary .neg (.int Int64.minValue))
    let m := Machine.initial .silent
    e.exactValue? = some (2 ^ 126) ∧
    (∃ w : Int64, w.toInt ≡ 2 ^ 126 [ZMOD 2 ^ 64] ∧
      ∃ k, eval 3 0 e m = some (.ok (.int w), { m with nextObject := k })) ∧
    ∃ q, Quotient Int64.minValue (-1) q ∧
      eval 2 0 (.binary .div (.int Int64.minValue) (.int (-1))) m =
        some (.ok (.int q), m.takeObject) := by
  intro e m
  have he : e.exactValue? = some (2 ^ 126) := rfl
  obtain ⟨w, -, -, hmod, heval⟩ := integers_compute_modulo.1 e _ he
  obtain ⟨q, hq, hquotient⟩ :=
    (integers_compute_modulo.2.1 Int64.minValue (-1)).2 (by decide)
  have hdiv := integers_compute_modulo.2.2 1 0 (.int Int64.minValue) (.int (-1)) m m m _ _ rfl rfl
  refine ⟨he, ⟨w, hmod, heval 3 (by decide) 0 m⟩, q, hquotient, ?_⟩
  rw [hdiv, hq]
  rfl

end Eval

end Monkey
