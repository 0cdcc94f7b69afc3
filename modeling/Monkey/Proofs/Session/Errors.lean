import Monkey.Proofs.Run.Ends
import Monkey.Proofs.Session.Chain
import Monkey.Proofs.Session.Pieces

/-!
# Errors — they stop an input and are never held

A session shows an error in the place of a value.  That this cannot be mistaken rests on two things:
no binding in any scope holds an error, so no program can come to one as to a value; and an input
whose outcome is an error was stopped by it, at one of its statements, in the state that it left.

An input is gone through three times: its macros are made, then all the rest is expanded, and then
it is run.  An error ends the second or the third time at the statement where it arises.  What came
before that time is not undone, so macros that are defined behind this statement are there
afterwards.
-/

namespace Monkey

open Store

namespace Session

open Eval

variable {s s' : Session} {n : Nat} {source : String} {o : Outcome} {p : Program} {e : EvalError}
  {m : Machine}

/-! ## 1. How an input ends -/

/-- What an input comes to, and the session that it leaves, by the stage in which it ends. -/
inductive Ran (n : Nat) (s : Session) (source : String) : Outcome → Session → Prop
  | unparsed : (parseSource source).errors ≠ [] →
      Ran n s source (.parseErrors (parseSource source).errors) s
  | unexpanded {e : EvalError} {m : Machine} : (parseSource source).errors = [] →
      s.expand n (parseSource source).program = some (.error e, m) →
      Ran n s source (.value (.error e)) { s with machine := m }
  | evaluated {q : Program} {m m' : Machine} {v : Value} : (parseSource source).errors = [] →
      s.expand n (parseSource source).program = some (.ok q, m) →
      Eval.program n s.scope q m = some (v, m') →
      Ran n s source (outcome q v) { s with machine := m' }

theorem eval_eq_some_iff : s.eval n source = some (o, s') ↔ Ran n s source o s' := by
  apply Iff.intro
  · intro h
    by_cases herr : (parseSource source).errors = []
    · cases he : s.expand n (parseSource source).program with
      | none =>
        rw [eval_of_expand_none herr he] at h
        cases h
      | some r =>
        rcases r with ⟨e | q, m⟩
        · rw [eval_of_expand_error herr he] at h
          cases h
          exact .unexpanded herr he
        · rw [eval_of_expand_ok herr he] at h
          rcases Option.map_eq_some_iff.1 h with ⟨⟨v, m'⟩, hp, h⟩
          cases h
          exact .evaluated herr he hp
    · rw [eval_of_errors herr] at h
      cases h
      exact .unparsed herr
  · intro h
    cases h with
    | unparsed herr => exact eval_of_errors herr
    | unexpanded herr he => exact eval_of_expand_error herr he
    | evaluated herr he hp =>
      rw [eval_of_expand_ok herr he, hp]
      rfl

/-! ## 2. No scope holds an error -/

/-- Parents are older, what is captured is there, and no binding holds an error. -/
def ErrorFree (σ : Store) : Prop := Region (· < σ.next) False σ

theorem ErrorFree.program (h : ErrorFree m.store) {i : ScopeId} {m' : Machine} {v : Value}
    (hi : i < m.store.next) (hp : Eval.program n i p m = some (v, m')) : ErrorFree m'.store :=
  (Contract.program_region h hi hp).congr fun _ => grown_all_iff

theorem ErrorFree.expand (h : ErrorFree s.machine.store) (hi : s.macroScope < s.machine.store.next)
    {r : Except EvalError Program} (hr : s.expand n p = some (r, m)) : ErrorFree m.store := by
  have hnext := Machine.next_defineMacros s.machine s.macroScope p
  have hmade : ErrorFree (s.machine.defineMacros s.macroScope p).store :=
    (Machine.defineMacros_region h hi p).congr fun j => by rw [hnext]
  have hi' : s.macroScope < (s.machine.defineMacros s.macroScope p).store.next := by
    rw [hnext]
    exact hi
  exact (Contract.expandMacros_region hmade hi' hr).congr fun _ => grown_all_iff

theorem errorFree_initial (output : Output) : ErrorFree (initial output).machine.store := by
  have hscopes {i : ScopeId} {t : Scope}
      (h : (initial output).machine.store.scopes[i]? = some t) : t = ⟨[], none⟩ := by
    have hlt : i < 2 := lt_next_of_getElem? h
    rcases Nat.le_one_iff_eq_zero_or_eq_one.1 (Nat.le_of_lt_succ hlt) with rfl | rfl
    · cases h
      rfl
    · cases h
      rfl
  constructor
  · exact fun hi => hi
  · intro i t q hi ht hq
    rw [hscopes ht] at hq
    cases hq
  · intro i t b hi ht hb
    rw [hscopes ht] at hb
    cases hb

theorem Reachable.errorFree (h : Reachable s) : ErrorFree s.machine.store := by
  induction h with
  | initial output => exact errorFree_initial output
  | @eval s s' n source o hs heval ih =>
    obtain ⟨R, M, hapart⟩ := hs.apart
    have hmacro := hapart.macros.lt_next hapart.macroScope_mem
    cases eval_eq_some_iff.1 heval with
    | unparsed => exact ih
    | unexpanded _ he => exact ih.expand hmacro he
    | evaluated _ he hp =>
      obtain ⟨M', hM'⟩ := hapart.expand he
      exact (ih.expand hmacro he).program (hM'.run.lt_next hM'.scope_mem) hp

/-! ## 3. What stops an input -/

-- The expansion ends with an error where it was stopped by it.
theorem expand_eq_error_iff : s.expand n p = some (.error e, m) ↔
    StoppedAt (Traversal.bottomUp (expandCall (Eval.eval n) s.macroScope)).stmt (.failed e)
      p.withoutMacros (s.machine.defineMacros s.macroScope p) m := by
  have hpass (p : Program) (m : Machine) : expandProgram (Eval.eval n) s.macroScope p m =
    (Traversal.bottomUp (expandCall (Eval.eval n) s.macroScope)).stmts p m := rfl
  rw [← traversal_stmts_eq_error_iff, ← hpass, Session.expand, expandMacros_eq,
    Option.map_eq_some_iff]
  apply Iff.intro
  · rintro ⟨⟨r, m'⟩, hr, heq⟩
    obtain ⟨hr', rfl⟩ := Prod.mk.inj heq
    rcases r with (v | e') | q
    · exact absurd hr (neverReturns_expandProgram _ _ _ _ _ _)
    · cases hr'
      exact hr
    · cases hr'
  · exact fun h => ⟨_, h, rfl⟩

-- A program that is stopped by an error comes to this error.
theorem program_of_stoppedAt {i : ScopeId} {m' : Machine}
    (h : StoppedAt (stmt (Eval.eval n) i) (.failed e) p m m') :
    Eval.program n i p m = some (.error e, m') := by
  rw [program_eq, stmts, stmtsFrom_eq_error_iff.2 h]
  rfl

/-- The input was stopped by the error `e`, either while its program was expanded or while what it
was expanded to was run, at one statement: those behind it were not expanded or not run any more.
The session left behind is as that statement left it.  Expansion starts with all macros made that
the input defines, and the run with the whole input expanded. -/
inductive StoppedBy (n : Nat) (s : Session) (source : String) (e : EvalError) : Session → Prop
  | expanding {m : Machine} : (parseSource source).errors = [] →
      StoppedAt (Traversal.bottomUp (expandCall (Eval.eval n) s.macroScope)).stmt (.failed e)
        (parseSource source).program.withoutMacros
        (s.machine.defineMacros s.macroScope (parseSource source).program) m →
      StoppedBy n s source e { s with machine := m }
  | running {q : Program} {m m' : Machine} : (parseSource source).errors = [] →
      s.expand n (parseSource source).program = some (.ok q, m) →
      StoppedAt (stmt (Eval.eval n) s.scope) (.failed e) q m m' →
      StoppedBy n s source e { s with machine := m' }

-- All macros of the input are made before anything of it can be stopped.
theorem Reachable.made_of_stoppedBy (hs : Reachable s) (h : StoppedBy n s source e s') {x : String}
    {params : List String} {body : Block}
    (hx : (parseSource source).program.macroDefinitions.reverse.lookup x = some (params, body)) :
    ∃ o, s'.machine.store.lookup s.macroScope x = some (.macroFn o ⟨params, body, s.macroScope⟩) := by
  obtain ⟨R, M, hapart⟩ := hs.apart
  cases h with
  | expanding herr hstop =>
    exact (hapart.macrosMade (expand_eq_error_iff.2 hstop)).exists_lookup_eq hx
  | running herr he hstop =>
    obtain ⟨o, ho⟩ := (hapart.macrosMade he).exists_lookup_eq hx
    obtain ⟨M', hM'⟩ := hapart.expand he
    have hunchanged := hM'.program_unchanged (program_of_stoppedAt hstop)
    exact ⟨o, (hunchanged.lookup_eq x).trans ho⟩

-- No value is an error, so an error is the outcome only where something was stopped by it.
theorem Reachable.eval_eq_error_iff (hs : Reachable s) :
    s.eval n source = some (.value (.error e), s') ↔ StoppedBy n s source e s' := by
  obtain ⟨R, M, hapart⟩ := hs.apart
  rw [eval_eq_some_iff]
  apply Iff.intro
  · intro h
    generalize ho : Outcome.value (.error e) = o at h
    cases h with
    | unparsed => cases ho
    | unexpanded herr he =>
      cases ho
      exact .expanding herr (expand_eq_error_iff.1 he)
    | @evaluated q m m' v herr he hp =>
      -- the program came to the error, which it cannot have come to as to a value
      have hv := eq_of_outcome ho.symm
      rw [program_eq] at hp
      obtain ⟨⟨r, m₁⟩, hr, heq⟩ := Option.map_eq_some_iff.1 hp
      obtain ⟨hvalue, rfl⟩ := Prod.mk.inj heq
      obtain ⟨M', hM'⟩ := hapart.expand he
      obtain rfl := hM'.stopped_by_error hr (hvalue.trans hv)
      exact .running herr he (stmtsFrom_eq_error_iff.1 hr)
  · intro h
    cases h with
    | expanding herr hstop => exact .unexpanded herr (expand_eq_error_iff.2 hstop)
    | running herr he hstop => exact .evaluated herr he (program_of_stoppedAt hstop)

/-- **Errors never become values.**  After any inputs whatever, nothing that is bound in any scope
that was ever made is an error or holds one.  The outcome of an input is an error just if it was
stopped by this error, at one statement, while it was expanded or while it was run, and the session
left behind is as that statement left it: none of those behind it was expanded, or run, any more.
The macros of the input, however, are made before it is expanded, also those that are defined behind
this statement: each has its last definition in the session left behind. -/
theorem errors_never_held (hs : Reachable s) :
    (∀ (i : ScopeId) (t : Scope) b w e, s.machine.store.scopes[i]? = some t → b ∈ t.bindings →
      Value.Part w b.2 → w ≠ .error e) ∧
    (∀ n source e s', s.eval n source = some (.value (.error e), s') ↔
      StoppedBy n s source e s') ∧
    (∀ n source e s', StoppedBy n s source e s' → ∀ x params body,
      (parseSource source).program.macroDefinitions.reverse.lookup x = some (params, body) →
      ∃ o, s'.machine.store.lookup s.macroScope x =
        some (.macroFn o ⟨params, body, s.macroScope⟩)) := by
  refine ⟨?_, fun n source e s' => hs.eval_eq_error_iff,
    fun n source e s' h x params body => hs.made_of_stoppedBy h⟩
  intro i t b w e ht hb hw heq
  subst heq
  have hfits := hs.errorFree.fits (lt_next_of_getElem? ht) ht hb
  exact Contract.not_fits_error (hfits.part hw)

/-- A text whose first statement fails, with the definition of a macro behind it. -/
def failingText : String := "1 + true; let k = macro() \x7b quote(2) \x7d; let a = 1"

/-- The macro behind the statement that fails is made, and the binding is not. -/
theorem number_and_truth_stop :
    Reachable (initial .silent) ∧
    ∃ s', (initial .silent).eval 3 failingText =
        some (.value (.error (.typeMismatch .integer .add .boolean)), s') ∧
      StoppedBy 3 (initial .silent) failingText (.typeMismatch .integer .add .boolean) s' ∧
      (parseSource failingText).program.macroDefinitions.reverse.lookup "k" =
        some ([], [.expr (.call (.ident "quote") [.int 2])]) ∧
      (∃ o, s'.machine.store.lookup 1 "k" =
        some (.macroFn o ⟨[], [.expr (.call (.ident "quote") [.int 2])], 1⟩)) ∧
      s'.lookup "a" = none := by
  have hparse : parseSource failingText =
      ⟨[.expr (.binary .add (.int 1) (.bool true)),
        .bind "k" (.macroFn [] [.expr (.call (.ident "quote") [.int 2])]),
        .bind "a" (.int 1)], []⟩ := by
    decide +kernel
  have herr := congrArg ParseResult.errors hparse
  have hmacro : (parseSource failingText).program.macroDefinitions.reverse.lookup "k" =
      some ([], [.expr (.call (.ident "quote") [.int 2])]) := by
    rw [hparse]
    rfl
  obtain ⟨m, hexpand, m', hrun, hunbound⟩ : ∃ m,
      (initial .silent).expand 3 (parseSource failingText).program =
        some (.ok [.expr (.binary .add (.int 1) (.bool true)), .bind "a" (.int 1)], m) ∧
      ∃ m', Eval.program 3 0 [.expr (.binary .add (.int 1) (.bool true)), .bind "a" (.int 1)] m =
          some (.error (.typeMismatch .integer .add .boolean), m') ∧
        m'.store.lookup 0 "a" = none := by
    rw [hparse]
    exact ⟨_, rfl, _, rfl, rfl⟩
  have heval := eval_eq_some_iff.2 (.evaluated herr hexpand hrun)
  obtain ⟨-, hiff, hmade⟩ := errors_never_held (.initial .silent)
  have hstopped := (hiff 3 failingText _ _).1 heval
  exact ⟨.initial .silent, _, heval, hstopped, hmacro, hmade _ _ _ _ hstopped _ _ _ hmacro, hunbound⟩

/-- A later statement of the input takes effect, though the first one fails: with it the next input
finds the macro, and without it not. -/
theorem macro_behind_error_is_made :
    ∃ s₁ s₂,
      (initial .silent).eval 3 "1 + true; let k = macro() \x7b quote(2) \x7d;" =
        some (.value (.error (.typeMismatch .integer .add .boolean)), s₁) ∧
      (s₁.eval 3 "k()").map (·.1) = some (.value (.int 2)) ∧
      (initial .silent).eval 3 "1 + true;" =
        some (.value (.error (.typeMismatch .integer .add .boolean)), s₂) ∧
      (s₂.eval 3 "k()").map (·.1) = some (.value (.error (.unboundName "k"))) := by
  have hboth : parseSource "1 + true; let k = macro() \x7b quote(2) \x7d;" =
      ⟨[.expr (.binary .add (.int 1) (.bool true)),
        .bind "k" (.macroFn [] [.expr (.call (.ident "quote") [.int 2])])], []⟩ := by
    decide +kernel
  have hfirst : parseSource "1 + true;" =
      ⟨[.expr (.binary .add (.int 1) (.bool true))], []⟩ := by
    decide +kernel
  have hcall : parseSource "k()" = ⟨[.expr (.call (.ident "k") [])], []⟩ := by
    decide +kernel
  simp only [eval, hboth, hfirst, hcall]
  exact ⟨_, _, rfl, rfl, rfl, rfl⟩

end Session

end Monkey
