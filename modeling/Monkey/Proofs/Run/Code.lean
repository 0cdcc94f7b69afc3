import Monkey.Proofs.Run.Contract
import Monkey.Proofs.Run.Rebuild
import Monkey.Value.Literal

/-!
# Code — what the literal of a value is made of

The literal of a value consists of the code that the value holds, quoted syntax and functions, and
of what spells out integers, truth values, texts, arrays and hashes.  So what is asked of all that
stands in a literal need only be asked of that code.
-/

namespace Monkey

namespace Value

/-- The literal of a value that is made of code. -/
def code? : Value → Option Expr
  | quote _ node => some node
  | fn _ f => some (.fn f.params f.body)
  | _ => none

end Value

/-- The expressions that only spell out a value. -/
def Expr.spellsOut : Expr → Bool
  | int _ | bool _ | str _ | array _ | hash _ => true
  | _ => false

namespace Value

theorem except_bind_eq_ok_iff {ε α β : Type} {x : Except ε α} {f : α → Except ε β} {b : β} :
    x >>= f = .ok b ↔ ∃ a, x = .ok a ∧ f a = .ok b := by
  cases x with
  | error _ => exact ⟨nofun, fun ⟨_, h, _⟩ => nomatch h⟩
  | ok a =>
    apply Iff.intro
    · exact fun h => ⟨a, rfl, h⟩
    · rintro ⟨_, h, hf⟩
      cases h
      exact hf

variable {Q : Expr → Prop}

mutual

-- If all code in a value is of one class, and so is all that spells values out, then the literal is.
theorem literal_every (hQ : ∀ e, e.spellsOut = true → Q e) {v : Value} {e : Expr}
    (h : v.literal = .ok e) (hv : v.Every fun w => ∀ d, w.code? = some d → d.Every Q) :
    e.Every Q := by
  cases v with
  | int n =>
    cases h
    exact Expr.every_int_iff.2 (hQ _ rfl)
  | bool b =>
    cases h
    exact Expr.every_bool_iff.2 (hQ _ rfl)
  | str o text =>
    cases h
    exact Expr.every_str_iff.2 (hQ _ rfl)
  | array o elems =>
    obtain ⟨es, hes, hok⟩ := except_bind_eq_ok_iff.1 h
    cases hok
    exact Expr.every_array_iff.2 ⟨hQ _ rfl, literals_every hQ hes (every_array_iff.1 hv).2⟩
  | hash o entries =>
    obtain ⟨ps, hps, hok⟩ := except_bind_eq_ok_iff.1 h
    cases hok
    exact Expr.every_hash_iff.2 ⟨hQ _ rfl, entryLiterals_every hQ hps (every_hash_iff.1 hv).2⟩
  | fn o f | quote o node =>
    cases h
    exact hv.self _ rfl
  | null | builtin | error | macroFn => cases h
termination_by structural v

theorem literals_every (hQ : ∀ e, e.spellsOut = true → Q e) {vs : List Value} {es : List Expr}
    (h : literals vs = .ok es)
    (hvs : ∀ v ∈ vs, v.Every fun w => ∀ d, w.code? = some d → d.Every Q) :
    ∀ e ∈ es, e.Every Q := by
  cases vs with
  | nil =>
    cases h
    exact nofun
  | cons v vs =>
    obtain ⟨hv, hvs⟩ := List.forall_mem_cons.1 hvs
    obtain ⟨e, he, hrest⟩ := except_bind_eq_ok_iff.1 h
    obtain ⟨es', hes, hok⟩ := except_bind_eq_ok_iff.1 hrest
    cases hok
    exact List.forall_mem_cons.2 ⟨literal_every hQ he hv, literals_every hQ hes hvs⟩
termination_by structural vs

theorem entryLiterals_every (hQ : ∀ e, e.spellsOut = true → Q e)
    {es : List (HashKey × HashPair Value)} {ps : List (Expr × Expr)}
    (h : entryLiterals es = .ok ps)
    (hes : ∀ e ∈ es, (e.2.key.Every fun w => ∀ d, w.code? = some d → d.Every Q) ∧
      e.2.value.Every fun w => ∀ d, w.code? = some d → d.Every Q) :
    ∀ p ∈ ps, p.1.Every Q ∧ p.2.Every Q := by
  cases es with
  | nil =>
    cases h
    exact nofun
  | cons e es =>
    obtain ⟨k, c, v⟩ := e
    obtain ⟨⟨hc, hv⟩, hes⟩ := List.forall_mem_cons.1 hes
    obtain ⟨e, he, hpair⟩ := except_bind_eq_ok_iff.1 h
    obtain ⟨e', he', hrest⟩ := except_bind_eq_ok_iff.1 hpair
    obtain ⟨ps', hps, hok⟩ := except_bind_eq_ok_iff.1 hrest
    cases hok
    exact List.forall_mem_cons.2
      ⟨⟨literal_every hQ he hc, literal_every hQ he' hv⟩, entryLiterals_every hQ hps hes⟩
termination_by structural es

end

end Value

end Monkey
