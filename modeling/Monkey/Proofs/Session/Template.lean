import Monkey.Proofs.Session.Expansion

/-!
# Templates — macros that do no more than substitute

A macro whose body quotes a template, in which just parameters are unquoted, puts its arguments in
the places of the parameters.  The arguments may be any syntax, since they are neither evaluated nor
gone through again.  The call makes a scope for itself and does nothing else that could be seen.
-/

namespace Monkey

open Monkey.Expr

variable {i j : ScopeId} {σ : Store} {m m₁ : Machine} {n : Nat} {params : List String}
  {t : Expr} {args : List Expr} {c : Closure}

/-! ## 1. Templates -/

/-- Where this is unquoted, it is just a parameter, and nothing that is unquoted is called. -/
structure Expr.UnquotesParams (params : List String) (e : Expr) : Prop where
  param {d : Expr} : e = .unquoting d → ∃ x ∈ params, d = .ident x
  callee_ne (d : Expr) (args : List Expr) : e ≠ .call (.unquoting d) args

/-- All that the macro does is to quote the template. -/
structure Closure.IsTemplate (c : Closure) (t : Expr) : Prop where
  nodup : c.params.Nodup
  body : c.body = [.expr (.call (.ident "quote") [t])]
  unquotesParams : t.Every (UnquotesParams c.params)

/-- The argument for a parameter. -/
def argumentFor (params : List String) (args : List Expr) : Expr → Expr
  | .ident x => args.getD (params.idxOf x) (.ident x)
  | e => e

/-- The template with the arguments in the places where parameters are unquoted. -/
def Expr.instantiate (params : List String) (args : List Expr) (t : Expr) : Expr :=
  t.fill (t.unquoted.map (argumentFor params args))

theorem Expr.UnquotesParams.spliceable {e : Expr} (h : e.UnquotesParams params) : Spliceable e where
  flat := by
    intro d hd
    obtain ⟨x, -, rfl⟩ := h.param hd
    refine every_ident_iff.2 fun b hb => ?_
    cases hb
  callee_ne := h.callee_ne

theorem Closure.IsTemplate.exists_param (h : c.IsTemplate t) {d : Expr} (hd : d ∈ t.unquoted) :
    ∃ x ∈ c.params, d = .ident x :=
  (h.unquotesParams _ (inside_of_mem_unquoted t hd)).param rfl

namespace Eval

/-! ## 2. The scope of the call -/

/-- In scope `j` each parameter is bound to its argument, quoted. -/
def BindsEach (j : ScopeId) (params : List String) (args : List Expr) (σ : Store) : Prop :=
  ∀ x ∈ params, ∃ o, σ.lookup j x = some (.quote o (argumentFor params args (.ident x)))

theorem exists_mapM_quoted (args : List Expr) (m : Machine) : ∃ vs : List Value,
    args.mapM quoted m = some (.ok vs, { m with nextObject := m.nextObject + args.length }) ∧
      vs.length = args.length ∧
      ∀ (k : Nat) a, args[k]? = some a → ∃ o, vs[k]? = some (Value.quote o a) := by
  induction args generalizing m with
  | nil => exact ⟨[], rfl, rfl, nofun⟩
  | cons a args ih =>
    obtain ⟨vs, hvs, hlength, hquotes⟩ := ih m.takeObject
    have hnext : m.nextObject + (a :: args).length = m.takeObject.nextObject + args.length :=
      (Nat.add_right_comm m.nextObject 1 args.length).symm
    refine ⟨.quote m.nextObject a :: vs, ?_, by simp [hlength], ?_⟩
    · rw [List.mapM_cons, hnext]
      exact bind_eq_ok_iff.2 ⟨_, _, rfl, bind_eq_ok_iff.2 ⟨vs, _, hvs, rfl⟩⟩
    · intro k b hb
      cases k with
      | zero =>
        cases hb
        exact ⟨_, rfl⟩
      | succ k => exact hquotes k b hb

theorem bindsEach_newest (ss : Array Scope) (parent : Option ScopeId) {vs : List Value}
    (hnodup : params.Nodup) (hparams : params.length = args.length)
    (hvs : vs.length = args.length)
    (hquotes : ∀ (k : Nat) a, args[k]? = some a → ∃ o, vs[k]? = some (Value.quote o a)) :
    BindsEach ss.size params args ⟨ss.push ⟨Table.insertAll (params.zip vs) [], parent⟩⟩ := by
  intro x hx
  have hk : params.idxOf x < params.length := List.idxOf_lt_length_of_mem hx
  have harg : args[params.idxOf x]? = some (argumentFor params args (.ident x)) := by
    rw [argumentFor, List.getD_eq_getElem?_getD, List.getElem?_eq_getElem (hparams ▸ hk)]
    rfl
  obtain ⟨o, ho⟩ := hquotes _ _ harg
  refine ⟨o, Store.lookup_of_binds (Array.getElem?_push_size) ?_⟩
  have hzip : (x, Value.quote o (argumentFor params args (.ident x))) ∈ params.zip vs := by
    apply List.mem_of_getElem? (i := params.idxOf x)
    rw [List.getElem?_zip_eq_some]
    exact ⟨by simp [hk], ho⟩
  have hkeys : ((params.zip vs).map (·.1)).Nodup := by
    rw [List.map_fst_zip (by omega)]
    exact hnodup
  exact Table.get?_insertAll_of_nodup hkeys hzip []

/-! ## 3. The call -/

theorem eval_quote_template (hc : c.IsTemplate t) (hbinds : BindsEach j c.params args m.store)
    (n : Nat) : eval (n + 2) j (.call (.ident "quote") [t]) m =
      some (.ok (.quote m.nextObject (t.instantiate c.params args)), m.takeObject) := by
  have hmapM : t.unquoted.mapM (spliced (eval (n + 1)) j) m =
      some (.ok (t.unquoted.map (argumentFor c.params args)), m) := by
    apply mapM_of_stays
    intro d hd
    obtain ⟨x, hx, rfl⟩ := hc.exists_param hd
    obtain ⟨o, hlookup⟩ := hbinds x hx
    exact spliced_of_lookup hlookup n
  rw [eval_quote_eq_splice (n + 1) j (hc.unquotesParams.imp fun _ => UnquotesParams.spliceable),
    bind_apply, hmapM]
  rfl

theorem callClosure_template (hc : c.IsTemplate t) {vs : List Value}
    (hlength : args.length = c.params.length) (hvs : vs.length = args.length)
    (hquotes : ∀ (k : Nat) a, args[k]? = some a → ∃ o, vs[k]? = some (Value.quote o a))
    (n : Nat) (m : Machine) : callClosure (eval (n + 2)) c vs m =
      some (.ok (.quote m.nextObject (t.instantiate c.params args)),
        ⟨⟨m.store.scopes.push ⟨Table.insertAll (c.params.zip vs) [], some c.scope⟩⟩,
          m.nextObject + 1, m.output⟩) := by
  have hbinds := bindsEach_newest m.store.scopes (some c.scope) hc.nodup hlength.symm hvs hquotes
  have hbody : stmts (eval (n + 2)) m.store.scopes.size c.body =
      eval (n + 2) m.store.scopes.size (.call (.ident "quote") [t]) := by
    rw [hc.body]
    exact bind_pure _
  rw [callClosure, if_neg (by omega)]
  refine bind_eq_ok_iff.2 ⟨m.store.next, _, rfl, bind_eq_ok_iff.2 ⟨(), _, bindParams_newest .., ?_⟩⟩
  show catchReturn (stmts (eval (n + 2)) m.store.scopes.size c.body) _ = _
  rw [hbody, catchReturn, eval_quote_template hc hbinds n]
  rfl

theorem callMacro_template (hc : c.IsTemplate t) (hlength : args.length = c.params.length)
    (n : Nat) (m : Machine) : ∃ s, callMacro (eval (n + 2)) c args m =
      some (.ok (t.instantiate c.params args),
        ⟨⟨m.store.scopes.push s⟩, m.nextObject + args.length + 1, m.output⟩) := by
  obtain ⟨vs, hquoted, hvs, hquotes⟩ := exists_mapM_quoted args m
  have hcall := callClosure_template hc hlength hvs hquotes n
    { m with nextObject := m.nextObject + args.length }
  exact ⟨_, bind_eq_ok_iff.2 ⟨vs, _, hquoted, bind_eq_ok_iff.2 ⟨_, _, hcall, rfl⟩⟩⟩

/-! ## 4. The pass -/

-- Expansion yields as many arguments as there were, and leaves all scopes as they are.
theorem exprs_expanded {bs : List Expr}
    (h : (Traversal.bottomUp (expandCall (eval n) i)).exprs args m = some (.ok bs, m₁)) :
    m.store.Extends m₁.store ∧ bs.length = args.length := by
  have hact : Traversal.Rebuilds (Leaves m.store) (fun _ => True) (fun _ _ => True)
      (expandCall (eval n) i) (expandCall (eval n) i) :=
    fun _ _ _ _ _ _ _ hm hu => ⟨hm.trans (expandCall_extends hu), trivial⟩
  have hpass := Traversal.exprs_rebuilds (leaves_judgement m.store) hact args fun _ _ _ _ => trivial
  obtain ⟨hextends, hforall⟩ := hpass m bs m₁ (Store.Extends.refl _) h
  exact ⟨hextends, hforall.length_eq.symm⟩

/-- **Template macros expand by plain substitution.**  Let a name be bound to a macro that just
quotes a template, whose parameters differ from one another.  If the arguments of a call could be
expanded, then the call becomes the template with the expanded arguments, whatever they are, in the
places of the parameters.  Behind the expansion of the arguments nothing happens but that the
arguments and the result are quoted, and that the scope of the call is made; so nothing is printed,
no binding changes, and nothing is evaluated in more than the depth that the template needs. -/
theorem template_expands_by_substitution (n : Nat) {f : String} {o : ObjectId} {bs : List Expr}
    (hbound : m.store.lookup i f = some (.macroFn o c)) (ht : c.IsTemplate t)
    (hlength : args.length = c.params.length)
    (hargs : (Traversal.bottomUp (expandCall (eval (n + 2)) i)).exprs args m =
      some (.ok bs, m₁)) :
    ∃ s, (Traversal.bottomUp (expandCall (eval (n + 2)) i)).expr (.call (.ident f) args) m =
      some (.ok (t.instantiate c.params bs),
        ⟨⟨m₁.store.scopes.push s⟩, m₁.nextObject + bs.length + 1, m₁.output⟩) := by
  obtain ⟨hextends, hbs⟩ := exprs_expanded hargs
  obtain ⟨s, hcall⟩ := callMacro_template ht (hbs.trans hlength) n m₁
  have hlookup : lookup i f m₁ = some (.ok (some (.macroFn o c)), m₁) := by
    rw [lookup, hextends.lookup_eq_some hbound]
  have hexpand : expandCall (eval (n + 2)) i (.call (.ident f) bs) m₁ =
      callMacro (eval (n + 2)) c bs m₁ := by
    rw [expandCall, bind_apply, hlookup]
  refine ⟨s, ?_⟩
  show ((Traversal.bottomUp (expandCall (eval (n + 2)) i)).exprs args >>= fun es =>
    expandCall (eval (n + 2)) i (.call (.ident f) es)) m = _
  rw [bind_apply, hargs]
  exact hexpand.trans hcall

/-- Arguments are put in twice, or not at all, as the template has it. -/
example (a b : Expr) :
    (Expr.array [.unquoting (.ident "b"), .unquoting (.ident "b")]).instantiate ["a", "b"] [a, b] =
      .array [b, b] := rfl

/-- An argument that unquotes what would print is put into the template as it is. -/
theorem unquote_in_argument_stays :
    let a : Expr := .unquoting (.call (.ident "puts") [.str "x"])
    ∃ s, (Traversal.bottomUp (expandCall (eval 2) 0)).expr (.call (.ident "m") [a])
      successorMacro = some (.ok (.binary .add a (.int 1)),
        ⟨⟨successorMacro.store.scopes.push s⟩, 3, .silent⟩) := by
  intro a
  have hleaf {e : Expr} (he : ∀ d ds, e ≠ .call d ds) : UnquotesParams ["a"] e :=
    ⟨fun h => absurd h (he _ _), fun _ => he _⟩
  have hunquote : UnquotesParams ["a"] (.unquoting (.ident "a")) := by
    refine ⟨?_, nofun⟩
    rintro d ⟨⟩
    exact ⟨"a", List.mem_cons_self, rfl⟩
  have htemplate : successor.IsTemplate (.binary .add (.unquoting (.ident "a")) (.int 1)) := by
    have hname : (Expr.ident "a").Every (UnquotesParams ["a"]) := every_ident_iff.2 (hleaf nofun)
    have hone : (Expr.int 1).Every (UnquotesParams ["a"]) := every_int_iff.2 (hleaf nofun)
    have hcall : (Expr.unquoting (.ident "a")).Every (UnquotesParams ["a"]) :=
      every_call_iff.2 ⟨hunquote, every_ident_iff.2 (hleaf nofun), by simpa using hname⟩
    exact ⟨by decide, rfl, every_binary_iff.2 ⟨hleaf nofun, hcall, hone⟩⟩
  have hargs : (Traversal.bottomUp (expandCall (eval 2) 0)).exprs [a] successorMacro =
      some (.ok [a], successorMacro) := rfl
  exact template_expands_by_substitution 0 (o := 0) (c := successor) rfl htemplate rfl hargs

end Eval

end Monkey
