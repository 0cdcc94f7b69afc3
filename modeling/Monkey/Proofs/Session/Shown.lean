import Monkey.Proofs.Session.Errors

/-!
# Shown values — which inputs leave a value to show

Whether a value is shown is asked of the statements that are run.  Expansion replaces expressions and
keeps the kind of every statement, so the answer is that of the input without its definitions of
macros.  An input that ends with such a definition has therefore the value of the statement in front
of it shown, although it ends with a binding.
-/

namespace Monkey

open List (Forall₂)

/-! ## 1. The last statement -/

/-- The program has no statement, or the last one binds a name. -/
def Program.Valueless (p : Program) : Prop := p = [] ∨ ∃ x e, p.getLast? = some (.bind x e)

theorem Stmt.isBind_eq_true_iff {s : Stmt} : s.isBind = true ↔ ∃ x e, s = .bind x e := by
  cases s with
  | bind x e => exact ⟨fun _ => ⟨x, e, rfl⟩, fun _ => rfl⟩
  | ret e | expr e => exact ⟨nofun, fun ⟨_, _, h⟩ => nomatch h⟩

theorem Stmt.Rebuilt.isBind_eq {R : Expr → Expr → Prop} {s s' : Stmt} (h : s.Rebuilt R s') :
    s'.isBind = s.isBind := by
  cases h with
  | bind | ret | expr => rfl

namespace Program

variable {p q ss : Program} {s : Stmt}

theorem endsWithValue_concat (ss : Program) (s : Stmt) :
    endsWithValue (ss ++ [s]) = !s.isBind := by
  unfold endsWithValue
  rw [List.getLast?_concat]

theorem endsWithValue_eq_false_iff : p.endsWithValue = false ↔ p.Valueless := by
  rcases List.eq_nil_or_concat' p with rfl | ⟨ss, s, rfl⟩
  · exact ⟨fun _ => .inl rfl, fun _ => rfl⟩
  · rw [endsWithValue_concat, Bool.not_eq_false', Stmt.isBind_eq_true_iff, Valueless,
      List.getLast?_concat]
    simp

-- Statements that are rebuilt one by one end as they did.
theorem endsWithValue_of_rebuilt {R : Expr → Expr → Prop} (h : Forall₂ (Stmt.Rebuilt R) p q) :
    q.endsWithValue = p.endsWithValue := by
  have hkinds : q.map Stmt.isBind = p.map Stmt.isBind := by
    induction h with
    | nil => rfl
    | cons hs _ ih => rw [List.map_cons, List.map_cons, hs.isBind_eq, ih]
  have hlast := congrArg List.getLast? hkinds
  rw [List.getLast?_map, List.getLast?_map] at hlast
  unfold endsWithValue
  cases hp : p.getLast? with
  | none =>
    rw [hp, Option.map_none, Option.map_eq_none_iff] at hlast
    rw [hlast]
  | some s =>
    rw [hp, Option.map_some, Option.map_eq_some_iff] at hlast
    obtain ⟨s', hq, hs⟩ := hlast
    rw [hq]
    simp only [hs]

-- A last statement that defines no macro is still the last one when those that do are left out.
theorem endsWithValue_withoutMacros (h : ∀ s ∈ p.getLast?, s.macroDefinition? = none) :
    p.withoutMacros.endsWithValue = p.endsWithValue := by
  rcases List.eq_nil_or_concat' p with rfl | ⟨ss, s, rfl⟩
  · rfl
  · have hs : s.macroDefinition? = none := h s (by rw [List.getLast?_concat]; rfl)
    have hkept : withoutMacros (ss ++ [s]) = withoutMacros ss ++ [s] := by
      unfold withoutMacros
      rw [List.filter_append, List.filter_singleton, hs]
      rfl
    rw [hkept, endsWithValue_concat, endsWithValue_concat]

end Program

namespace Session

open Eval

variable {s : Session} {n : Nat} {source : String} {p q : Program} {m m' : Machine} {v : Value}

/-! ## 2. Expansion -/

/-- If the first computation ends with a result, then with one of the class `Q`. -/
def IfEnds ⦃α : Type⦄ (p _ : Eval α) (Q : α → Prop) : Prop :=
  ∀ m a m', p m = some (.ok a, m') → Q a

theorem ifEnds_judgement : Judgement IfEnds where
  pure ha m a m' h := by
    cases h
    exact ha
  bind hp hf m b m'' h := by
    obtain ⟨a, m', hpm, hfm⟩ := bind_eq_ok_iff.1 h
    exact hf a (hp m a m' hpm) m' b m'' hfm

-- Whatever calls are replaced by, the statements around them stay.
theorem expand_rebuilt (h : s.expand n p = some (.ok q, m)) :
    Forall₂ (Stmt.Rebuilt fun _ _ => True) p.withoutMacros q := by
  have hact : Traversal.Rebuilds IfEnds (fun _ => True) (fun _ _ => True)
      (expandCall (Eval.eval n) s.macroScope) (expandCall (Eval.eval n) s.macroScope) :=
    fun _ _ _ _ _ _ _ _ => trivial
  have hpass := Traversal.program_rebuilds ifEnds_judgement hact p.withoutMacros
    fun _ _ _ _ => trivial
  exact hpass _ q m (expandProgram_of_ok h)

-- What is shown is settled before anything is run.
theorem outcome_of_expand (hexpand : s.expand n p = some (.ok q, m)) (hv : v.isError = false) :
    outcome q v = if p.withoutMacros.endsWithValue then .value v else .noValue := by
  rw [outcome, hv, Bool.false_or, Program.endsWithValue_of_rebuilt (expand_rebuilt hexpand)]

/-! ## 3. What is shown -/

theorem outcome_eq_noValue_iff {p : Program} :
    (if p.endsWithValue then Outcome.value v else .noValue) = .noValue ↔ p.Valueless := by
  rw [← Program.endsWithValue_eq_false_iff]
  cases p.endsWithValue with
  | true => exact ⟨nofun, nofun⟩
  | false => exact ⟨fun _ => rfl, fun _ => rfl⟩

/-- **A value is shown unless the last statement that is run binds a name.**  For an input that is
parsed, expanded and run without an error, no value is shown just if the input, without the macros
that it defines at its top level, is empty or ends with a binding.  For one that does not end with
the definition of a macro, this is so just if the input itself is empty or ends with a binding.
Otherwise the value that the program came to is shown. -/
theorem value_shown_unless_last_binds (hparse : (parseSource source).errors = [])
    (hexpand : s.expand n (parseSource source).program = some (.ok q, m))
    (hrun : Eval.program n s.scope q m = some (v, m')) (hv : v.isError = false) :
    ∃ o, s.eval n source = some (o, { s with machine := m' }) ∧
      (o = .noValue ↔ (parseSource source).program.withoutMacros.Valueless) ∧
      ((∀ t ∈ (parseSource source).program.getLast?, t.macroDefinition? = none) →
        (o = .noValue ↔ (parseSource source).program.Valueless)) ∧
      (o ≠ .noValue → o = .value v) := by
  have heval := eval_eq_some_iff.2 (.evaluated hparse hexpand hrun)
  rw [outcome_of_expand hexpand hv] at heval
  refine ⟨_, heval, outcome_eq_noValue_iff, ?_, ?_⟩
  · intro hlast
    rw [Program.endsWithValue_withoutMacros hlast]
    exact outcome_eq_noValue_iff
  · intro hne
    split at hne
    · next hvalue => rw [if_pos hvalue]
    · exact absurd rfl hne

/-- A text that returns what its macro expands to, in front of a binding. -/
def returningText : String := "let m = macro() \x7b quote(7) \x7d; return m(); let a = 1"

/-- The value that is returned is not shown, since the last statement is a binding. -/
theorem returned_value_not_shown :
    (parseSource returningText).errors = [] ∧
    ∃ m' o, (initial .silent).eval 5 returningText =
        some (o, { initial .silent with machine := m' }) ∧
      (o = .noValue ↔ Program.Valueless [.ret (.call (.ident "m") []), .bind "a" (.int 1)]) ∧
      (o ≠ .noValue → o = .value (.int 7)) := by
  have hparse : parseSource returningText =
      ⟨[.bind "m" (.macroFn [] [.expr (.call (.ident "quote") [.int 7])]),
        .ret (.call (.ident "m") []), .bind "a" (.int 1)], []⟩ := by
    decide +kernel
  have herr := congrArg ParseResult.errors hparse
  obtain ⟨m, m', hexpand, hrun⟩ : ∃ m m',
      (initial .silent).expand 5 (parseSource returningText).program =
        some (.ok [.ret (.int 7), .bind "a" (.int 1)], m) ∧
      Eval.program 5 (initial .silent).scope [.ret (.int 7), .bind "a" (.int 1)] m =
        some (.int 7, m') := by
    rw [hparse]
    exact ⟨_, _, rfl, rfl⟩
  obtain ⟨o, heval, hnone, -, hvalue⟩ := value_shown_unless_last_binds herr hexpand hrun rfl
  rw [hparse] at hnone
  exact ⟨herr, m', o, heval, hnone, hvalue⟩

/-- A text that ends with the definition of a macro. -/
def definingText : String := "1; let m = macro() \x7b quote(2) \x7d"

/-- The text ends with a binding, and the value of the statement in front of it is shown. -/
theorem value_shown_before_macro_definition :
    (parseSource definingText).errors = [] ∧ (parseSource definingText).program.Valueless ∧
    ∃ s', (initial .silent).eval 2 definingText = some (.value (.int 1), s') := by
  have hparse : parseSource definingText =
      ⟨[.expr (.int 1), .bind "m" (.macroFn [] [.expr (.call (.ident "quote") [.int 2])])], []⟩ := by
    decide +kernel
  have herr := congrArg ParseResult.errors hparse
  obtain ⟨m, m', hexpand, hrun⟩ : ∃ m m',
      (initial .silent).expand 2 (parseSource definingText).program =
        some (.ok [.expr (.int 1)], m) ∧
      Eval.program 2 (initial .silent).scope [.expr (.int 1)] m = some (.int 1, m') := by
    rw [hparse]
    exact ⟨_, _, rfl, rfl⟩
  refine ⟨herr, ?_, _, eval_eq_some_iff.2 (.evaluated herr hexpand hrun)⟩
  rw [hparse]
  exact .inr ⟨_, _, rfl⟩

end Session

end Monkey
