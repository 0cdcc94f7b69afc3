import Monkey.Proofs.Phrase.Split
import Monkey.Proofs.Run.Exit
import Monkey.Proofs.Session.Expansion

/-!
# Pieces — a program fed in parts

Where no macro is defined, an input is just its program.  A program that is cut behind a statement
runs its first part and then, in what that left behind, its second one; so two inputs one after the
other do what their texts do in one piece.
-/

namespace Monkey

open Store

namespace Eval

/-! ## 1. Expansion without macros -/

variable {eval : Evaluator} {i : ScopeId} {m : Machine}

/-- No name is bound to a macro as seen from a scope. -/
def NoMacros (i : ScopeId) (σ : Store) : Prop := ∀ x o f, σ.lookup i x ≠ some (.macroFn o f)

theorem expandProgram_of_noMacros (h : NoMacros i m.store) (p : Program) :
    expandProgram eval i p m = some (.ok p, m) := by
  apply expandProgram_of_expanded
  rintro s - e - ⟨f, args, o, c, -, hlookup⟩
  exact h f o c hlookup

end Eval

namespace Session

open Eval Phrase

/-! ## 2. Inputs without macros -/

variable {s s' : Session} {n k : Nat} {source : String} {p q : Program} {m : Machine}

theorem withoutMacros_eq_self (hp : p.macroDefinitions = []) : p.withoutMacros = p := by
  apply List.filter_eq_self.2
  intro s hs
  rw [Option.isNone_iff_eq_none]
  exact List.filterMap_eq_nil_iff.1 hp s hs

-- Without macros the first stage does nothing.
theorem expand_of_noMacros (hs : NoMacros s.macroScope s.machine.store)
    (hp : p.macroDefinitions = []) : s.expand n p = some (.ok p, s.machine) := by
  have hdefine : s.machine.defineMacros s.macroScope p = s.machine := by
    rw [Machine.defineMacros, hp]
    rfl
  rw [expand, hdefine, withoutMacros_eq_self hp, expandMacros, expandProgram_of_noMacros hs]

-- Without macros an input is its statements.
theorem eval_of_noMacros (hs : NoMacros s.macroScope s.machine.store)
    (hparse : parseSource source = ⟨p, []⟩) (hp : p.macroDefinitions = []) :
    s.eval n source = (stmts (Eval.eval n) s.scope p s.machine).map fun r =>
      (outcome p (valueOf r.1), { s with machine := r.2 }) := by
  have hexpand : s.expand n (parseSource source).program = some (.ok p, s.machine) := by
    rw [hparse]
    exact expand_of_noMacros hs hp
  rw [eval_of_expand_ok (by rw [hparse]) hexpand, program_eq, Option.map_map]
  rfl

theorem outcome_append (hq : q ≠ []) (v : Value) : outcome (p ++ q) v = outcome q v := by
  have hlast : Program.endsWithValue (p ++ q) = Program.endsWithValue q := by
    unfold Program.endsWithValue
    rw [List.getLast?_append, List.getLast?_eq_some_getLast hq]
    rfl
  rw [outcome, outcome, hlast]

theorem outcome_error (p : Program) (e : EvalError) :
    outcome p (.error e) = .value (.error e) := rfl

theorem eq_of_outcome {v u : Value} (h : outcome p v = .value u) : v = u := by
  unfold outcome at h
  split at h
  · exact Outcome.value.inj h
  · cases h

theorem macroDefinitions_append (hp : p.macroDefinitions = []) (hq : q.macroDefinitions = []) :
    Program.macroDefinitions (p ++ q) = [] := by
  unfold Program.macroDefinitions at hp hq ⊢
  rw [List.filterMap_append, hp, hq]
  rfl

-- An error that a program has as its value is the one that stopped it.
theorem Apart.stopped_by_error {R M : ScopeId → Prop} (h : Apart R M s) {r : Except Stop Value}
    (hr : stmts (Eval.eval n) s.scope p s.machine = some (r, m)) {e : EvalError}
    (hv : valueOf r = .error e) : r = .error (.failed e) := by
  have hfits {v : Value} := Contract.stmts_region (v := v) h.run h.scope_mem hr
  cases r with
  | ok v =>
    obtain rfl : v = .error e := hv
    exact absurd (hfits (.inl rfl)) Contract.not_fits_error
  | error t =>
    cases t with
    | returned v =>
      obtain rfl : v = .error e := hv
      exact absurd (hfits (.inr rfl)) Contract.not_fits_error
    | failed e' =>
      rcases Value.error.inj hv with rfl
      rfl

/-- Whether the statements of an input reach a `return`. -/
def ReturnsAtTop (n : Nat) (s : Session) (source : String) : Prop :=
  ∃ v m, stmts (Eval.eval n) s.scope (parseSource source).program s.machine =
    some (.error (.returned v), m)

/-- **Feeding a program in pieces equals running it whole.**  Where no macro is bound, and neither
text defines one, let the first text end where a statement may.  If it comes to its end, running
both texts in one piece is running the second one in what the first has left; if it is stopped by an
error, so is the whole, and nothing of the second is run. -/
theorem eval_append (hs : Reachable s) (hmacros : NoMacros s.macroScope s.machine.store)
    {s₁ s₂ : String} {p₁ p₂ : Program} (hparse₁ : parseSource s₁ = ⟨p₁, []⟩)
    (hparse₂ : parseSource s₂ = ⟨p₂, []⟩) (hdefs₁ : p₁.macroDefinitions = [])
    (hdefs₂ : p₂.macroDefinitions = []) (hends : EndsStatement s₁) (hne : p₂ ≠ []) {o : Outcome}
    (ho : s.eval n s₁ = some (o, s')) :
    ((∀ e, o ≠ .value (.error e)) → ¬ s.ReturnsAtTop n s₁ → ∀ k ≥ n,
      s.eval k (s₁ ++ s₂) = s'.eval k s₂) ∧
    (∀ e, o = .value (.error e) → ∀ k ≥ n, s.eval k (s₁ ++ s₂) = some (o, s')) := by
  rcases hs.apart with ⟨R, M, hapart⟩
  have hwhole (k : Nat) := eval_of_noMacros (n := k) hmacros
    (parseSource_append hends hparse₁ hparse₂) (macroDefinitions_append hdefs₁ hdefs₂)
  rw [eval_of_noMacros hmacros hparse₁ hdefs₁] at ho
  rcases Option.map_eq_some_iff.1 ho with ⟨⟨r, m₁⟩, hr, heq⟩
  rcases Prod.mk.inj heq with ⟨rfl, rfl⟩
  refine ⟨fun herr hret k hk => ?_, fun e he k hk => ?_⟩
  · -- no error and no `return`, so the first statements came to their end
    obtain ⟨v, rfl⟩ : ∃ v, r = .ok v := by
      cases r with
      | ok v => exact ⟨v, rfl⟩
      | error t =>
        cases t with
        | returned v => exact absurd ⟨v, m₁, by rw [hparse₁]; exact hr⟩ hret
        | failed e => exact absurd (outcome_error p₁ e) (herr e)
    have hprogram : Eval.program n s.scope p₁ s.machine = some (v, m₁) := by
      rw [program_eq, hr]
      rfl
    -- running them has bound no macro
    have hmacros' : NoMacros s.macroScope m₁.store := by
      intro x t f
      rw [(hapart.program_unchanged hprogram).lookup_eq x]
      exact hmacros x t f
    have hr' := stmts_endsAs hk s.scope p₁ s.machine _ hr
    have hsecond :=
      eval_of_noMacros (s := { s with machine := m₁ }) (n := k) hmacros' hparse₂ hdefs₂
    rw [hwhole, stmts_append_of_ok hr' hne, hsecond]
    simp only [outcome_append hne]
  · -- the error is no value that the statements came to, so it stopped them
    have hv := eq_of_outcome he
    rcases hapart.stopped_by_error hr hv with rfl
    have hr' := stmts_endsAs hk s.scope p₁ s.machine _ hr
    rw [hwhole, stmts_append_of_error hr']
    rfl

/-- A binding made by the first text is seen by the second. -/
theorem eval_let_then_use : (initial .silent).eval 4 ("let a = 1;" ++ "a + 1") =
    Session.eval 4 ⟨⟨⟨#[⟨[("a", .int 1)], none⟩, ⟨[], none⟩]⟩, 0, .silent⟩, 0, 1⟩ "a + 1" := by
  have hparse₁ : parseSource "let a = 1;" = ⟨[.bind "a" (.int 1)], []⟩ := by
    decide +kernel
  have hparse₂ : parseSource "a + 1" = ⟨[.expr (.binary .add (.ident "a") (.int 1))], []⟩ := by
    decide +kernel
  have hmacros : NoMacros (initial .silent).macroScope (initial .silent).machine.store := by
    intro x o f h
    cases h
  have hends : EndsStatement "let a = 1;" := by
    have hlast : (lex "let a = 1;").dropLast.getLast? = some ⟨.symbol .semicolon, ⟨9, 10⟩⟩ := by
      decide +kernel
    intro t ht
    rw [hlast] at ht
    cases ht
    rfl
  have hret : ¬ (initial .silent).ReturnsAtTop 2 "let a = 1;" := by
    intro h
    rcases h with ⟨v, m, h⟩
    rw [hparse₁] at h
    cases h
  have heval : (initial .silent).eval 2 "let a = 1;" = some (.noValue,
      ⟨⟨⟨#[⟨[("a", .int 1)], none⟩, ⟨[], none⟩]⟩, 0, .silent⟩, 0, 1⟩) := by
    rw [eval_of_noMacros hmacros hparse₁ rfl]
    rfl
  have hvalue (e : EvalError) : Outcome.noValue ≠ .value (.error e) := by
    intro h
    cases h
  exact (eval_append (.initial .silent) hmacros hparse₁ hparse₂ rfl rfl hends (by simp) heval).1
    hvalue hret 4 (by decide)

end Session

end Monkey
