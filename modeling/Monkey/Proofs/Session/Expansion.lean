import Monkey.Proofs.Run.Exit
import Monkey.Proofs.Run.Splice
import Monkey.Proofs.Session.Chain

/-!
# Expansion — one pass is enough

The pass that expands a program never goes through what a macro has yielded.  Where every macro just
quotes a template, this is no loss: a template calls no macro, nor may what is put into it be
called, and the arguments were expanded before.  So no call of a macro is left, and a second pass
has nothing to do.
-/

namespace Monkey

open Relation Store

variable {i j : ScopeId} {σ τ : Store} {m m' : Machine} {n : Nat} {params : List String}

namespace Expr

/-! ## 1. Calls of macros and templates -/

/-- A call of a name that is bound to a macro, as seen from scope `i`. -/
def CallsMacro (i : ScopeId) (σ : Store) (e : Expr) : Prop :=
  ∃ f args o c, e = .call (.ident f) args ∧ σ.lookup i f = some (.macroFn o c)

/-- What may stand in a template: just parameters are unquoted, no macro is called, and neither is
anything that is unquoted. -/
structure InTemplate (params : List String) (i : ScopeId) (σ : Store) (e : Expr) : Prop where
  unquotes {d : Expr} : e = .unquoting d → ∃ x ∈ params, d = .ident x
  not_callsMacro : ¬ e.CallsMacro i σ
  callee_ne (d : Expr) (args : List Expr) : e ≠ .call (.unquoting d) args

end Expr

open Monkey.Expr

/-- The macro does no more than quote a template. -/
def Closure.QuotesTemplate (i : ScopeId) (σ : Store) (c : Closure) : Prop :=
  ∃ t, c.body = [.expr (.call (.ident "quote") [t])] ∧ t.Every (InTemplate c.params i σ)

/-- No call of a macro stands in the program. -/
def Program.Expanded (i : ScopeId) (σ : Store) (p : Program) : Prop :=
  ∀ s ∈ p, s.value.Every fun e => ¬ e.CallsMacro i σ

-- What calls a macro is seen in the scopes that can be reached.
theorem Expr.callsMacro_congr (h : ∀ x, τ.lookup i x = σ.lookup i x) (e : Expr) :
    e.CallsMacro i τ ↔ e.CallsMacro i σ := by
  unfold CallsMacro
  simp only [h]

namespace Eval

/-! ## 2. Nothing to expand -/

theorem expandCall_of_not_callsMacro {e : Expr} (he : ¬ e.CallsMacro i m.store) (eval : Evaluator) :
    expandCall eval i e m = some (.ok e, m) := by
  unfold expandCall
  split
  · next f args =>
    rw [bind_apply]
    cases hx : m.store.lookup i f with
    | none => simp only [lookup, hx, pure_apply]
    | some v =>
      cases v with
      | macroFn o c => exact absurd ⟨f, args, o, c, rfl, hx⟩ he
      | _ => simp only [lookup, hx, pure_apply]
  · rfl

/-- From `m`, the computation comes to a result of the class `Q` and leaves `m` as it is. -/
def ComesTo (m : Machine) ⦃α : Type⦄ (p _ : Eval α) (Q : α → Prop) : Prop :=
  ∃ a, p m = some (.ok a, m) ∧ Q a

theorem comesTo_judgement (m : Machine) : Judgement (ComesTo m) where
  pure ha := ⟨_, rfl, ha⟩
  bind := by
    rintro α β p q f g Q T ⟨a, hpm, ha⟩ hf
    unfold ComesTo
    rw [bind_apply, hpm]
    exact hf a ha

theorem expandProgram_of_expanded {p : Program} (hp : p.Expanded i m.store) (eval : Evaluator) :
    expandProgram eval i p m = some (.ok p, m) := by
  have hact : Traversal.Rebuilds (ComesTo m) (fun e => ¬ e.CallsMacro i m.store) Eq
      (expandCall eval i) (expandCall eval i) := by
    intro e e' he hee'
    obtain rfl := hee'.eq
    exact ⟨e, expandCall_of_not_callsMacro he.self eval, rfl⟩
  obtain ⟨q, hq, hpq⟩ := Traversal.program_rebuilds (comesTo_judgement m) hact p hp
  have heq : p = q := List.forall₂_eq_eq_eq ▸ hpq.imp fun _ _ h => h.eq
  subst heq
  exact hq

theorem expandMacros_of_expanded {p : Program} (hp : p.Expanded i m.store) (n : Nat) :
    expandMacros n i p m = some (.ok p, m) := by
  rw [expandMacros_eq, expandProgram_of_expanded hp]
  rfl

/-! ## 3. Templates -/

/-- In scope `j` the parameters stand for some of the arguments. -/
def BindsArgs (j : ScopeId) (params : List String) (args : List Expr) (σ : Store) : Prop :=
  ∀ x ∈ params, ∃ o, ∃ a ∈ args, σ.lookup j x = some (.quote o a)

-- To unquote a parameter is to put in the argument, and nothing else happens.
theorem unquote_param {args : List Expr} (hbinds : BindsArgs j params args m.store) {x : String}
    (hx : x ∈ params) {a : Expr}
    (h : unquote (eval n) j (unquoting (.ident x)) m = some (.ok a, m')) : m' = m ∧ a ∈ args := by
  obtain ⟨o, b, hb, hlookup⟩ := hbinds x hx
  cases n with
  | zero => cases h
  | succ n =>
    have hb' : unquote (eval (n + 1)) j (unquoting (.ident x)) m = some (.ok b, m) :=
      spliced_of_lookup hlookup n
    rw [hb'] at h
    cases h
    exact ⟨rfl, hb⟩

/-- How a template and what it becomes are related: no macro is called in the latter, it is a name
only where that name or something unquoted was, and names stay. -/
structure Filled (i : ScopeId) (σ : Store) (t t' : Expr) : Prop where
  expanded : t'.Every fun e => ¬ e.CallsMacro i σ
  of_ident {x : String} : t' = .ident x → t = .ident x ∨ ∃ d, t = .unquoting d
  ident {x : String} : t = .ident x → t' = t

theorem unquote_filled {args : List Expr} (hbinds : BindsArgs j params args m.store)
    (hargs : ∀ a ∈ args, a.Every fun e => ¬ e.CallsMacro i σ) {t t' u : Expr}
    (ht : InTemplate params i σ t) (htt' : t.Rebuilt (Filled i σ) t')
    (h : unquote (eval n) j t' m = some (.ok u, m')) : m' = m ∧ Filled i σ t u := by
  -- what is called in place of the template's callee is that callee
  have hcallee {c : Expr} {es : List Expr} {x : String} {c' : Expr} (hct : t = .call c es)
      (hcc' : Filled i σ c c') (hx : c' = .ident x) : c = .ident x := by
    rcases hcc'.of_ident hx with hc | ⟨d, hc⟩
    · exact hc
    · exact absurd (hc ▸ hct) (ht.callee_ne d es)
  by_cases hun : ∃ d, t' = .unquoting d
  · -- then the template unquotes a parameter here
    obtain ⟨d', rfl⟩ := hun
    cases htt' with
    | @call c _ es _ hc hes =>
      obtain rfl := hcallee rfl hc rfl
      obtain ⟨d, rfl, hd⟩ : ∃ d, es = [d] ∧ Filled i σ d d' := by
        cases hes with
        | cons hd hnil =>
          cases hnil
          exact ⟨_, rfl, hd⟩
      obtain ⟨x, hx, rfl⟩ := ht.unquotes rfl
      obtain rfl := hd.ident rfl
      obtain ⟨rfl, hu⟩ := unquote_param hbinds hx h
      exact ⟨rfl, hargs u hu, fun _ => .inr ⟨_, rfl⟩, nofun⟩
  · -- otherwise the expression stays, and it calls no macro that the template does not call
    have hpure : unquote (eval n) j t' = pure t' :=
      (unquote_splices (eval n) j).keep fun d hd => hun ⟨d, hd⟩
    rw [hpure] at h
    cases h
    refine ⟨rfl, every_iff.2 ⟨?_, ?_⟩, ?_, ?_⟩
    · rintro ⟨f, es', o, c, rfl, hlookup⟩
      cases htt' with
      | @call c _ es _ hc _ =>
        obtain rfl := hcallee rfl hc rfl
        exact ht.not_callsMacro ⟨f, es, o, _, rfl, hlookup⟩
    · intro d' hd'
      obtain ⟨d, -, hd⟩ := htt'.exists_child hd'
      exact hd.expanded
    · rintro x rfl
      cases htt'
      exact .inl rfl
    · rintro x rfl
      cases htt'
      rfl

/-- From `m`, the computation leaves `m` as it is, and comes to results of the class `Q` only. -/
def Stays (m : Machine) ⦃α : Type⦄ (p _ : Eval α) (Q : α → Prop) : Prop :=
  ∀ a m', p m = some (.ok a, m') → m' = m ∧ Q a

theorem stays_judgement (m : Machine) : Judgement (Stays m) where
  pure ha a m' h := by
    cases h
    exact ⟨rfl, ha⟩
  bind hp hf b m'' h := by
    obtain ⟨a, m₁, hpm, hfm⟩ := bind_eq_ok_iff.1 h
    obtain ⟨rfl, ha⟩ := hp a m₁ hpm
    exact hf a ha b m'' hfm

theorem quoteNode_filled {args : List Expr} (hbinds : BindsArgs j params args m.store)
    (hargs : ∀ a ∈ args, a.Every fun e => ¬ e.CallsMacro i σ) {t u : Expr}
    (ht : t.Every (InTemplate params i σ))
    (h : quoteNode (eval n) j t m = some (.ok u, m')) : u.Every fun e => ¬ e.CallsMacro i σ := by
  have hact : Traversal.Rebuilds (Stays m) (InTemplate params i σ) (Filled i σ)
      (unquote (eval n) j) (unquote (eval n) j) :=
    fun e e' he hee' u m' h => unquote_filled hbinds hargs he.self hee' h
  exact (Traversal.expr_rebuilds (stays_judgement m) hact t ht u m' h).2.expanded

/-! ## 4. Calls of macros that quote templates -/

theorem mapM_quoted {args : List Expr} {vs : List Value}
    (h : args.mapM quoted m = some (.ok vs, m')) : ∀ v ∈ vs, ∃ o, ∃ a ∈ args, v = .quote o a := by
  intro v hv
  obtain ⟨a, ha, m₁, m₂, hquoted⟩ := exists_of_mem_mapM h hv
  cases hquoted
  exact ⟨_, a, ha, rfl⟩

theorem bindsArgs_newest (ss : Array Scope) (parent : Option ScopeId) {args : List Expr}
    {vs : List Value} (hlength : params.length = vs.length)
    (hvs : ∀ v ∈ vs, ∃ o, ∃ a ∈ args, v = .quote o a) :
    BindsArgs ss.size params args ⟨ss.push ⟨Table.insertAll (params.zip vs) [], parent⟩⟩ := by
  intro x hx
  have hx' : x ∈ (params.zip vs).map (·.1) := by
    rwa [List.map_fst_zip (Nat.le_of_eq hlength)]
  obtain ⟨p, hp, -, hget⟩ := Table.exists_get?_insertAll hx' []
  obtain ⟨o, a, ha, hv⟩ := hvs p.2 (List.of_mem_zip hp).2
  exact ⟨o, a, ha, lookup_of_binds Array.getElem?_push_size (hv ▸ hget)⟩

theorem callMacro_expanded {c : Closure} (hc : c.QuotesTemplate i σ) {args : List Expr}
    (hargs : ∀ a ∈ args, a.Every fun e => ¬ e.CallsMacro i σ) {u : Expr}
    (h : callMacro (eval n) c args m = some (.ok u, m')) :
    u.Every fun e => ¬ e.CallsMacro i σ := by
  obtain ⟨t, hbody, ht⟩ := hc
  obtain ⟨vs, m₁, hvs, hcall⟩ := bind_eq_ok_iff.1 h
  obtain ⟨v, m₂, hv, hyields⟩ := bind_eq_ok_iff.1 hcall
  unfold callClosure at hv
  split at hv
  · cases hv
  · next hlength =>
    obtain ⟨j, m₃, hj, hinside⟩ := bind_eq_ok_iff.1 hv
    obtain ⟨_, m₄, hparams, hrun⟩ := bind_eq_ok_iff.1 hinside
    cases hj
    rw [bindParams_newest] at hparams
    cases hparams
    have hbinds := bindsArgs_newest m₁.store.scopes (some c.scope) (Decidable.not_not.1 hlength)
      (mapM_quoted hvs)
    cases n with
    | zero =>
      rw [hbody] at hrun
      cases hrun
    | succ n =>
      -- the body is the quote and nothing else, and a quote does not return
      have hquote : stmts (eval (n + 1)) m₁.store.next c.body =
          quote (eval n) m₁.store.next [t] := by
        rw [hbody]
        exact bind_pure _
      rw [hquote, (neverReturns_quote _ _ _).catchReturn_eq] at hrun
      obtain ⟨node, m₅, hnode, hrest⟩ := bind_eq_ok_iff.1 hrun
      obtain ⟨o, m₆, -, hpure⟩ := bind_eq_ok_iff.1 hrest
      cases hpure
      cases hyields
      exact quoteNode_filled (n := n) hbinds hargs ht hnode

/-! ## 5. The pass -/

/-- What is run where the scopes of `σ` are as they were leaves them so, and comes to results of the
class `Q` only. -/
def Leaves (σ : Store) ⦃α : Type⦄ (p _ : Eval α) (Q : α → Prop) : Prop :=
  ∀ m a m', σ.Extends m.store → p m = some (.ok a, m') → σ.Extends m'.store ∧ Q a

theorem leaves_judgement (σ : Store) : Judgement (Leaves σ) where
  pure ha m a m' hm h := by
    cases h
    exact ⟨hm, ha⟩
  bind hp hf m b m'' hm h := by
    obtain ⟨a, m₁, hpm, hfm⟩ := bind_eq_ok_iff.1 h
    obtain ⟨hm₁, ha⟩ := hp m a m₁ hm hpm
    exact hf a ha m₁ b m'' hm₁ hfm

theorem callMacro_extends {c : Closure} {args : List Expr} {r : Except Stop Expr}
    (h : callMacro (eval n) c args m = some (r, m')) : m.store.Extends m'.store := by
  have hkeeps := Contract.frame_lawful.callMacro (i := m.store.next) (m := m) (f := c)
    (Contract.frame_lawful.evaluates n) args trivial trivial
  exact (hkeeps r m' h).1.leads.extends (Nat.le_refl _)

-- In a store that nothing leads out of, new scopes change nothing that could be seen before.
theorem lookup_eq_of_extends (hσ : σ.Closed) (hi : i < σ.next) (h : σ.Extends τ) (x : String) :
    τ.lookup i x = σ.lookup i x := by
  have hnew : ¬ σ.next < σ.next := Nat.lt_irrefl _
  exact (Region.unchanged hσ hi hnew (h.frame σ.next)).lookup_eq x

theorem expandProgram_expanded (hσ : m.store.Closed) (hi : i < m.store.next)
    (hmacros : ∀ x o c, m.store.lookup i x = some (.macroFn o c) → c.QuotesTemplate i m.store)
    {p q : Program} (h : expandProgram (eval n) i p m = some (.ok q, m')) :
    m.store.Extends m'.store ∧ q.Expanded i m.store := by
  have hact : Traversal.Rebuilds (Leaves m.store) (fun _ => True)
      (fun _ e' => e'.Every fun e => ¬ e.CallsMacro i m.store)
      (expandCall (eval n) i) (expandCall (eval n) i) := by
    intro e e' _ hee' m₁ u m₂ hm₁ hu
    have hparts (d : Expr) (hd : Child d e') : d.Every fun e => ¬ e.CallsMacro i m.store := by
      obtain ⟨_, -, h⟩ := hee'.exists_child hd
      exact h
    by_cases hcalls : e'.CallsMacro i m.store
    · obtain ⟨f, args, o, c, rfl, hf⟩ := hcalls
      have hf₁ : m₁.store.lookup i f = some (.macroFn o c) := by
        rw [lookup_eq_of_extends hσ hi hm₁, hf]
      have hcall : expandCall (eval n) i (.call (.ident f) args) m₁ =
          callMacro (eval n) c args m₁ := by
        rw [expandCall, bind_apply]
        simp only [lookup, hf₁]
      rw [hcall] at hu
      have hargs (a : Expr) (ha : a ∈ args) := hparts a (.arg ha)
      exact ⟨hm₁.trans (callMacro_extends hu), callMacro_expanded (hmacros f o c hf) hargs hu⟩
    · have hcalls₁ : ¬ e'.CallsMacro i m₁.store := fun h =>
        hcalls ((callsMacro_congr (lookup_eq_of_extends hσ hi hm₁) e').1 h)
      rw [expandCall_of_not_callsMacro hcalls₁] at hu
      cases hu
      exact ⟨hm₁, every_iff.2 ⟨hcalls, hparts⟩⟩
  have hpass := Traversal.program_rebuilds (leaves_judgement m.store) hact p
    fun _ _ _ _ => trivial
  obtain ⟨hm', hpq⟩ := hpass m q m' (Extends.refl m.store) h
  refine ⟨hm', fun s hs => ?_⟩
  obtain ⟨_, -, hvalue⟩ := Stmt.Rebuilt.exists_value hpq hs
  exact hvalue

theorem expandProgram_of_ok {p q : Program} (h : expandMacros n i p m = some (.ok q, m')) :
    expandProgram (eval n) i p m = some (.ok q, m') := by
  unfold expandMacros at h
  split at h <;> cases h
  assumption

/-- **One pass of expansion is enough.**  Where no call of a macro stands in a program, its
expansion is the program itself, and nothing happens.  And in every store that anything has been
done to, if each macro that can be seen does no more than quote a template, then a program that
could be expanded has come to one in which no call of a macro stands, so that its expansion is that
program again. -/
theorem one_pass_expands (i : ScopeId) (p : Program) (m : Machine) :
    (p.Expanded i m.store → ∀ n, expandMacros n i p m = some (.ok p, m)) ∧
    (ReflTransGen Step empty m.store → i < m.store.next →
      (∀ x o c, m.store.lookup i x = some (.macroFn o c) → c.QuotesTemplate i m.store) →
      ∀ n q m', expandMacros n i p m = some (.ok q, m') →
        q.Expanded i m.store ∧ ∀ k, expandMacros k i q m' = some (.ok q, m')) := by
  refine ⟨expandMacros_of_expanded, fun hsteps hi hmacros n q m' h => ?_⟩
  have hclosed := closed_of_steps hsteps
  obtain ⟨hm', hq⟩ := expandProgram_expanded hclosed hi hmacros (expandProgram_of_ok h)
  refine ⟨hq, expandMacros_of_expanded fun s hs e he hcalls => ?_⟩
  exact hq s hs e he ((callsMacro_congr (lookup_eq_of_extends hclosed hi hm') e).1 hcalls)

/-- The body of the macro quotes `unquote(a) + 1`, where `a` is its parameter. -/
def successor : Closure where
  params := ["a"]
  body := [.expr (.call (.ident "quote") [.binary .add (.unquoting (.ident "a")) (.int 1)])]
  scope := 0

/-- Scope 0 binds `m` to the macro. -/
def successorMacro : Machine := Machine.defineMacros ⟨empty.push none, 0, .silent⟩ 0
  [.bind "m" (.macroFn successor.params successor.body)]

theorem successorMacro_quotesTemplate {x : String} {o : ObjectId} {c : Closure}
    (h : successorMacro.store.lookup 0 x = some (.macroFn o c)) :
    c.QuotesTemplate 0 successorMacro.store := by
  have honly {y : String} {v : Value} (h : successorMacro.store.lookup 0 y = some v) : y = "m" := by
    by_contra hy
    have hs : successorMacro.store.scopes[0]? = some ⟨[("m", .macroFn 0 successor)], none⟩ := rfl
    have hget : Table.get? y [("m", Value.macroFn 0 successor)] = none := if_neg hy
    have hnone : successorMacro.store.lookup 0 y = none := by
      rw [Store.lookup, lookupWithin, hs]
      simp only [hget]
    rw [hnone] at h
    cases h
  obtain rfl := honly h
  cases h
  have hleaf {e : Expr} (hcall : ∀ d ds, e ≠ .call d ds) :
      InTemplate ["a"] 0 successorMacro.store e := by
    refine ⟨fun h => absurd h (hcall _ _), ?_, fun _ => hcall _⟩
    rintro ⟨f, args, o, c, h, -⟩
    exact hcall _ _ h
  have hunquote : InTemplate ["a"] 0 successorMacro.store (.unquoting (.ident "a")) := by
    refine ⟨?_, ?_, ?_⟩
    · rintro d ⟨⟩
      exact ⟨"a", List.mem_cons_self, rfl⟩
    · rintro ⟨f, args, o, c, ⟨⟩, hlookup⟩
      exact absurd (honly hlookup) (by decide)
    · intro d args h
      cases h
  refine ⟨_, rfl, every_binary_iff.2 ⟨hleaf (by simp), every_call_iff.2 ⟨hunquote, ?_, ?_⟩, ?_⟩⟩
  · exact every_ident_iff.2 (hleaf (by simp))
  · intro d hd
    obtain rfl := List.mem_singleton.1 hd
    exact every_ident_iff.2 (hleaf (by simp))
  · exact every_int_iff.2 (hleaf (by simp))

/-- A call of a macro in the argument of another one is expanded in the same pass. -/
theorem nested_call_expands : ∃ m',
    let q : Program := [.expr (.binary .add (.binary .add (.int 2) (.int 1)) (.int 1))]
    expandMacros 3 0 [.expr (.call (.ident "m") [.call (.ident "m") [.int 2]])] successorMacro =
        some (.ok q, m') ∧
      expandMacros 5 0 q m' = some (.ok q, m') ∧
      expandMacros 0 0 q successorMacro = some (.ok q, successorMacro) := by
  have hsteps : ReflTransGen Step empty successorMacro.store :=
    (ReflTransGen.single (.create empty)).tail (.defineMacros _ (Nat.lt_succ_self 0))
  have hpass := (one_pass_expands 0 [.expr (.call (.ident "m") [.call (.ident "m") [.int 2]])]
    successorMacro).2 hsteps (by decide)
    (fun _ _ _ => successorMacro_quotesTemplate) 3 _ _ rfl
  exact ⟨_, rfl, hpass.2 5, (one_pass_expands 0 _ successorMacro).1 hpass.1 0⟩

end Eval

end Monkey
