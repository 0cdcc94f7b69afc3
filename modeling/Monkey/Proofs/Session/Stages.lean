import Monkey.Proofs.Run.Congruence
import Monkey.Proofs.Run.Region
import Monkey.Session

/-!
# Stages — the two halves of a session

An input is expanded first and run then.  Expansion works in the scope for macros and the program in
the scope for bindings, on one store.  The scopes that can be reached from the one and those that
can be reached from the other have none in common, after any inputs whatever, so neither stage
changes what the other one sees.
-/

namespace Monkey

open Store

namespace Machine

/-! ## 1. Making macros -/

variable {i : ScopeId} {A : ScopeId → Prop} {errors : Prop}

/-- What the definitions of macros in a program make of a store: in the scope itself each name is
bound to the macro that defined it last, and everything else is as it was. -/
structure MacrosMade (i : ScopeId) (p : Program) (σ τ : Store) : Prop where
  scopes_eq : ∀ j < σ.next, j ≠ i → τ.scopes[j]? = σ.scopes[j]?
  own : ∃ s s', σ.scopes[i]? = some s ∧ τ.scopes[i]? = some s' ∧ s'.parent = s.parent ∧
    (∀ x params body, p.macroDefinitions.reverse.lookup x = some (params, body) →
      ∃ o, s'.bindings.get? x = some (.macroFn o ⟨params, body, i⟩)) ∧
    (∀ x, p.macroDefinitions.reverse.lookup x = none → s'.bindings.get? x = s.bindings.get? x)

theorem defineMacros_frame (m : Machine) (i : ScopeId) (p : Program) :
    m.store.Frame i (m.defineMacros i p).store := by
  unfold defineMacros
  induction p.macroDefinitions generalizing m with
  | nil => exact (Extends.refl m.store).frame i
  | cons d ds ih =>
    have hd := define_frame m.store i d.1 (.macroFn m.nextObject ⟨d.2.1, d.2.2, i⟩)
    exact hd.trans (ih (defineMacro i m d))

theorem next_defineMacros (m : Machine) (i : ScopeId) (p : Program) :
    (m.defineMacros i p).store.next = m.store.next := by
  unfold defineMacros
  induction p.macroDefinitions generalizing m with
  | nil => rfl
  | cons d ds ih =>
    rw [List.foldl_cons, ih]
    exact next_define _ _ _ _

theorem defineMacros_region {m : Machine} (h : Region A errors m.store) (hi : A i) (p : Program) :
    Region A errors (m.defineMacros i p).store := by
  unfold defineMacros
  induction p.macroDefinitions generalizing m with
  | nil => exact h
  | cons d ds ih => exact ih (h.define d.1 (Value.fits_macroFn_iff.2 hi))

theorem macrosMade_defineMacros {m : Machine} (hi : i < m.store.next) (p : Program) :
    MacrosMade i p m.store (m.defineMacros i p).store := by
  obtain ⟨s, hs⟩ : ∃ s, m.store.scopes[i]? = some s := ⟨_, Array.getElem?_eq_getElem hi⟩
  refine ⟨(defineMacros_frame m i p).scopes_eq, s, ?_⟩
  -- the definition that counts is made last, so it stands first in the reversed list
  unfold defineMacros
  rw [List.foldl_eq_foldr_reverse]
  induction p.macroDefinitions.reverse with
  | nil => exact ⟨s, hs, hs, rfl, nofun, fun _ _ => rfl⟩
  | cons d ds ih =>
    rcases ih with ⟨s₁, -, hs₁, hparent, hsome, hnone⟩
    rw [List.foldr_cons]
    generalize ds.foldr (fun d m => defineMacro i m d) m = m₁ at hs₁ ⊢
    rcases d with ⟨y, ps, b⟩
    have hs' := m₁.store.getElem?_define_self i y (.macroFn m₁.nextObject ⟨ps, b, i⟩)
    rw [hs₁] at hs'
    refine ⟨_, hs, hs', hparent, fun x params body hx => ?_, fun x hx => ?_⟩
    · rw [List.lookup_cons] at hx
      by_cases hxy : x = y
      · subst hxy
        simp only [beq_self_eq_true, Option.some.injEq, Prod.mk.injEq] at hx
        rcases hx with ⟨rfl, rfl⟩
        exact ⟨m₁.nextObject, Table.get?_insert_self ..⟩
      · rw [beq_eq_false_iff_ne.2 hxy] at hx
        rw [Table.get?_insert_of_ne hxy]
        exact hsome x params body hx
    · rw [List.lookup_cons] at hx
      by_cases hxy : x = y
      · subst hxy
        simp at hx
      · rw [beq_eq_false_iff_ne.2 hxy] at hx
        rw [Table.get?_insert_of_ne hxy]
        exact hnone x hx

theorem MacrosMade.extends {p : Program} {σ τ ρ : Store} (h : MacrosMade i p σ τ)
    (hle : σ.next ≤ τ.next) (hτ : τ.Extends ρ) : MacrosMade i p σ ρ := by
  refine ⟨fun j hj hne => ?_, ?_⟩
  · rw [hτ.scopes_eq j (Nat.lt_of_lt_of_le hj hle), h.scopes_eq j hj hne]
  · rcases h.own with ⟨s, s', hs, hs', hrest⟩
    exact ⟨s, s', hs, by rw [hτ.scopes_eq i (lt_next_of_getElem? hs'), hs'], hrest⟩

-- The last definition of a name is the macro that the name has.
theorem MacrosMade.exists_lookup_eq {p : Program} {σ τ : Store} (h : MacrosMade i p σ τ)
    {x : String} {params : List String} {body : Block}
    (hx : p.macroDefinitions.reverse.lookup x = some (params, body)) :
    ∃ o, τ.lookup i x = some (.macroFn o ⟨params, body, i⟩) := by
  obtain ⟨_, s', -, hs', -, hsome, -⟩ := h.own
  obtain ⟨o, ho⟩ := hsome x params body hx
  exact ⟨o, lookup_of_binds hs' ho⟩

end Machine

namespace Session

open Machine

/-! ## 2. Sessions -/

/-- The sessions that some inputs lead to. -/
inductive Reachable : Session → Prop
  | initial (output : Output) : Reachable (initial output)
  | eval {s s' n source o} : Reachable s → s.eval n source = some (o, s') → Reachable s'

/-- The first stage: the macros of the program are made, and their calls replaced. -/
def expand (n : Nat) (s : Session) (p : Program) : Option (Except EvalError Program × Machine) :=
  Eval.expandMacros n s.macroScope p.withoutMacros (s.machine.defineMacros s.macroScope p)

/-- Bindings and macros live in regions that have no scope in common. -/
structure Apart (R M : ScopeId → Prop) (s : Session) : Prop where
  run : Region R False s.machine.store
  macros : Region M False s.machine.store
  scope_mem : R s.scope
  macroScope_mem : M s.macroScope
  disjoint {i} : R i → ¬ M i

variable {R M : ScopeId → Prop} {s s' : Session} {n : Nat} {p : Program} {m : Machine}

theorem apart_initial (output : Output) : Apart (· = 0) (· = 1) (initial output) := by
  have hscope (i : ScopeId) (hi : i = 0 ∨ i = 1) :
      (initial output).machine.store.scopes[i]? = some ⟨[], none⟩ := by
    rcases hi with rfl | rfl <;> rfl
  have hregion (k : ScopeId) (hk : k = 0 ∨ k = 1) :
      Region (· = k) False (initial output).machine.store := by
    constructor
    · intro i h
      subst h
      exact lt_next_of_getElem? (hscope i hk)
    · intro i s p h hs hp
      subst h
      rw [hscope i hk] at hs
      cases hs
      cases hp
    · intro i s b h hs hb
      subst h
      rw [hscope i hk] at hs
      cases hs
      cases hb
  exact ⟨hregion 0 (.inl rfl), hregion 1 (.inr rfl), rfl, rfl, by rintro i rfl; decide⟩

theorem Apart.defineMacros (h : Apart R M s) (p : Program) :
    Apart R M { s with machine := s.machine.defineMacros s.macroScope p } where
  run := h.run.frame (defineMacros_frame _ _ p) fun hR => h.disjoint hR h.macroScope_mem
  macros := defineMacros_region h.macros h.macroScope_mem p
  scope_mem := h.scope_mem
  macroScope_mem := h.macroScope_mem
  disjoint := h.disjoint

-- The scopes that expansion makes belong to the macros.
theorem Apart.expandMacros (h : Apart R M s) {r : Except EvalError Program}
    (hr : Eval.expandMacros n s.macroScope p s.machine = some (r, m)) :
    Apart R (grown M s.machine.store.next m.store) { s with machine := m } where
  run := h.run.frame ((Eval.expandMacros_extends hr).frame s.macroScope)
    fun hR => h.disjoint hR h.macroScope_mem
  macros := Contract.expandMacros_region h.macros h.macroScope_mem hr
  scope_mem := h.scope_mem
  macroScope_mem :=
    ⟨Nat.lt_of_lt_of_le (h.macros.lt_next h.macroScope_mem) (Eval.expandMacros_extends hr).next_le,
      .inr h.macroScope_mem⟩
  disjoint := by
    intro i hR hgrown
    rcases hgrown with ⟨-, hle | hM⟩
    · exact Nat.not_le.2 (h.run.lt_next hR) hle
    · exact h.disjoint hR hM

-- The scopes that the program makes belong to the bindings.
theorem Apart.program (h : Apart R M s) {v : Value}
    (hp : Eval.program n s.scope p s.machine = some (v, m)) :
    Apart (grown R s.machine.store.next m.store) M { s with machine := m } where
  run := Contract.program_region h.run h.scope_mem hp
  macros := h.macros.frame (Eval.program_frame hp) (h.disjoint h.scope_mem)
  scope_mem :=
    ⟨Nat.lt_of_lt_of_le (h.run.lt_next h.scope_mem) (Eval.program_frame hp).next_le,
      .inr h.scope_mem⟩
  macroScope_mem := h.macroScope_mem
  disjoint := by
    intro i hgrown hM
    rcases hgrown with ⟨-, hle | hR⟩
    · exact Nat.not_le.2 (h.macros.lt_next hM) hle
    · exact h.disjoint hR hM

/-! ## 3. An input, stage by stage -/

/-- What an input comes to whose expanded program has a value. -/
def outcome (p : Program) (v : Value) : Outcome :=
  if v.isError || p.endsWithValue then .value v else .noValue

variable {source : String}

theorem eval_of_errors (h : (parseSource source).errors ≠ []) :
    s.eval n source = some (.parseErrors (parseSource source).errors, s) := by
  unfold eval
  rw [if_pos h]

theorem eval_of_expand_none (h : (parseSource source).errors = [])
    (he : s.expand n (parseSource source).program = none) : s.eval n source = none := by
  unfold eval
  unfold expand at he
  simp only [h, ne_eq, not_true_eq_false, if_false, he]

theorem eval_of_expand_error (h : (parseSource source).errors = []) {e : EvalError}
    (he : s.expand n (parseSource source).program = some (.error e, m)) :
    s.eval n source = some (.value (.error e), { s with machine := m }) := by
  unfold eval
  unfold expand at he
  simp only [h, ne_eq, not_true_eq_false, if_false, he]

theorem eval_of_expand_ok (h : (parseSource source).errors = [])
    (he : s.expand n (parseSource source).program = some (.ok p, m)) :
    s.eval n source = (Eval.program n s.scope p m).map fun r =>
      (outcome p r.1, { s with machine := r.2 }) := by
  unfold eval
  unfold expand at he
  simp only [h, ne_eq, not_true_eq_false, if_false, he]
  rcases Eval.program n s.scope p m with _ | ⟨v, m'⟩ <;> rfl

-- What an input comes to at some depth it comes to at every larger one.
theorem eval_mono {k : Nat} (hk : n ≤ k) {r : Outcome × Session} (h : s.eval n source = some r) :
    s.eval k source = some r := by
  by_cases herr : (parseSource source).errors = []
  · cases he : s.expand n (parseSource source).program with
    | none =>
      rw [eval_of_expand_none herr he] at h
      cases h
    | some x =>
      have he' : s.expand k (parseSource source).program = some x :=
        Eval.expandMacros_mono hk he
      rcases x with ⟨x | q, m⟩
      · rw [eval_of_expand_error herr he] at h
        rw [eval_of_expand_error herr he', h]
      · rw [eval_of_expand_ok herr he] at h
        rcases Option.map_eq_some_iff.1 h with ⟨y, hy, rfl⟩
        rw [eval_of_expand_ok herr he', Eval.program_mono hk hy]
        rfl
  · rw [eval_of_errors herr] at h ⊢
    exact h

theorem Apart.expand (h : Apart R M s) {r : Except EvalError Program}
    (hr : s.expand n p = some (r, m)) : ∃ M', Apart R M' { s with machine := m } :=
  ⟨_, (h.defineMacros p).expandMacros hr⟩

-- An input keeps the regions apart.
theorem Apart.eval (h : Apart R M s) {o : Outcome} (hs : s.eval n source = some (o, s')) :
    ∃ R' M', Apart R' M' s' := by
  by_cases herr : (parseSource source).errors = []
  · cases he : s.expand n (parseSource source).program with
    | none =>
      rw [eval_of_expand_none herr he] at hs
      cases hs
    | some rm =>
      rcases rm with ⟨r, m₁⟩
      rcases h.expand he with ⟨M', hM'⟩
      cases r with
      | error e =>
        rw [eval_of_expand_error herr he] at hs
        cases hs
        exact ⟨R, M', hM'⟩
      | ok q =>
        rw [eval_of_expand_ok herr he] at hs
        rcases Option.map_eq_some_iff.1 hs with ⟨⟨v, m₂⟩, hp, hs⟩
        cases hs
        exact ⟨_, M', hM'.program hp⟩
  · rw [eval_of_errors herr] at hs
    cases hs
    exact ⟨R, M, h⟩

theorem Reachable.apart (h : Reachable s) : ∃ R M, Apart R M s := by
  induction h with
  | initial output => exact ⟨_, _, apart_initial output⟩
  | eval _ hs ih =>
    rcases ih with ⟨R, M, h⟩
    exact h.eval hs

/-- Whatever was run, no scope can be reached both from the bindings and from the macros. -/
theorem Reachable.not_reaches_both (h : Reachable s) {i : ScopeId}
    (hi : s.machine.store.Reaches s.scope i) : ¬ s.machine.store.Reaches s.macroScope i := by
  rcases h.apart with ⟨R, M, h⟩
  exact fun hi' => h.disjoint (h.run.reaches h.scope_mem hi) (h.macros.reaches h.macroScope_mem hi')

/-! ## 4. Neither stage touches the other -/

theorem Apart.expand_unchanged (h : Apart R M s) {r : Except EvalError Program}
    (hr : s.expand n p = some (r, m)) : Unchanged s.scope s.machine.store m.store := by
  have hmade := defineMacros_frame s.machine s.macroScope p
  have hrun := (Eval.expandMacros_extends hr).frame s.macroScope
  have hne : ¬ R s.macroScope := fun hR => h.disjoint hR h.macroScope_mem
  exact h.run.unchanged h.scope_mem hne (hmade.trans hrun)

theorem Apart.macrosMade (h : Apart R M s) {r : Except EvalError Program}
    (hr : s.expand n p = some (r, m)) : MacrosMade s.macroScope p s.machine.store m.store :=
  (macrosMade_defineMacros (h.macros.lt_next h.macroScope_mem) p).extends
    (defineMacros_frame s.machine s.macroScope p).next_le (Eval.expandMacros_extends hr)

theorem Apart.program_unchanged (h : Apart R M s) {v : Value}
    (hp : Eval.program n s.scope p s.machine = some (v, m)) :
    Unchanged s.macroScope s.machine.store m.store :=
  h.macros.unchanged h.macroScope_mem (h.disjoint h.scope_mem) (Eval.program_frame hp)

/-- **The stages of a session never touch each other.**  An input that cannot be parsed leaves the
session as it is.  Making macros and expanding, whether it succeeds or not, changes nothing that can
be seen from the bindings and of the macros just the names that were defined; if it fails, its error
is the outcome and the machine stays as expansion left it.  Running the expanded program changes
nothing that can be seen from the macros. -/
theorem stages_apart (hs : Reachable s) (n : Nat) (source : String) :
    ((parseSource source).errors ≠ [] →
      s.eval n source = some (.parseErrors (parseSource source).errors, s)) ∧
    ((parseSource source).errors = [] →
      ∀ r m₁, s.expand n (parseSource source).program = some (r, m₁) →
        Unchanged s.scope s.machine.store m₁.store ∧
        MacrosMade s.macroScope (parseSource source).program s.machine.store m₁.store ∧
        (∀ e, r = .error e →
          s.eval n source = some (.value (.error e), { s with machine := m₁ })) ∧
        (∀ q v m₂, r = .ok q → Eval.program n s.scope q m₁ = some (v, m₂) →
          s.eval n source = some (outcome q v, { s with machine := m₂ }) ∧
          Unchanged s.macroScope m₁.store m₂.store)) := by
  rcases hs.apart with ⟨R, M, h⟩
  refine ⟨eval_of_errors, fun herr r m₁ hr => ⟨h.expand_unchanged hr, h.macrosMade hr, ?_, ?_⟩⟩
  · intro e h
    subst h
    exact eval_of_expand_error herr hr
  · intro q v m₂ h hp
    subst h
    refine ⟨?_, ?_⟩
    · rw [eval_of_expand_ok herr hr, hp]
      rfl
    · rcases h.expand hr with ⟨M', hM'⟩
      exact hM'.program_unchanged hp

/-- A text that binds a name to what a macro expands to. -/
def macroText : String := "let m = macro(a) \x7b quote(unquote(a)) \x7d; let b = m(2); b"

/-- The body of the macro. -/
def macroTextBody : Block := [.expr (.call (.ident "quote") [.call (.ident "unquote") [.ident "a"]])]

/-- The name of the macro is not bound where the program runs, and the name that the program binds
is no macro. -/
theorem macro_is_no_binding :
    Reachable (initial .silent) ∧ (parseSource macroText).errors = [] ∧
    ∃ m₁ m₂, (initial .silent).expand 9 (parseSource macroText).program =
        some (.ok [.bind "b" (.int 2), .expr (.ident "b")], m₁) ∧
      m₁.store.lookup 0 "m" = none ∧
      (∃ o, m₁.store.lookup 1 "m" = some (.macroFn o ⟨["a"], macroTextBody, 1⟩)) ∧
      Eval.program 9 0 [.bind "b" (.int 2), .expr (.ident "b")] m₁ = some (.int 2, m₂) ∧
      (initial .silent).eval 9 macroText =
        some (.value (.int 2), { initial .silent with machine := m₂ }) ∧
      m₂.store.lookup 0 "b" = some (.int 2) ∧ m₂.store.lookup 1 "b" = none := by
  have hparse : parseSource macroText =
      ⟨[.bind "m" (.macroFn ["a"] macroTextBody), .bind "b" (.call (.ident "m") [.int 2]),
        .expr (.ident "b")], []⟩ := by
    decide +kernel
  have herr := congrArg ParseResult.errors hparse
  obtain ⟨m₁, hexpand, hunbound, m₂, hrun, hbound⟩ : ∃ m₁,
      (initial .silent).expand 9 (parseSource macroText).program =
        some (.ok [.bind "b" (.int 2), .expr (.ident "b")], m₁) ∧
      m₁.store.lookup 1 "b" = none ∧
      ∃ m₂, Eval.program 9 0 [.bind "b" (.int 2), .expr (.ident "b")] m₁ = some (.int 2, m₂) ∧
        m₂.store.lookup 0 "b" = some (.int 2) := by
    rw [hparse]
    exact ⟨_, rfl, rfl, _, rfl, rfl⟩
  obtain ⟨hbindings, hmade, -, hstage⟩ :=
    (stages_apart (.initial .silent) 9 macroText).2 herr _ m₁ hexpand
  obtain ⟨heval, hmacros⟩ := hstage _ _ m₂ rfl hrun
  refine ⟨.initial .silent, herr, m₁, m₂, hexpand, hbindings.lookup_eq "m", ?_, hrun, heval, hbound,
    (hmacros.lookup_eq "b").trans hunbound⟩
  exact hmade.exists_lookup_eq (by rw [hparse]; rfl)

end Session

end Monkey
