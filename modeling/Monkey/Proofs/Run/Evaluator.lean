import Monkey.Expansion
import Monkey.Proofs.Run.Custody

/-!
# The evaluator — it keeps to every lawful contract

Each operation of the evaluator leads from world to world in a custody whose laws hold, given an
evaluator for the parts that does.  Induction on the depth then gives the whole evaluator, and with
it statements, programs, calls and the expansion of macros.  Errors and returned values are held as
well as results.  So it is with contracts, which are custodies.
-/

namespace Monkey

open Value

namespace Value

/-! ## 1. Operators make no new holders -/

/-- What operators make: an integer, a truth value, or a text, which is the object `o`. -/
inductive Fresh (o : ObjectId) : Value → Prop
  | int (n : Int64) : Fresh o (.int n)
  | bool (b : Bool) : Fresh o (.bool b)
  | str (text : String) : Fresh o (.str o text)

theorem fresh_of_applyUnary {op : UnaryOp} {v w : Value} (h : v.applyUnary op = .ok w)
    (o : ObjectId) : Fresh o w := by
  unfold applyUnary at h
  split at h <;> cases h
  · exact .bool _
  · exact .int _

-- What operators make can be made of nothing.
theorem Fresh.made {o : ObjectId} {w : Value} (h : Fresh o w) {scope : ScopeId → Prop}
    {holds : Value → Prop} : Made scope holds o w := by
  cases h with
  | int | bool => exact .plain rfl rfl
  | str text => exact .str text

theorem Fresh.keyed {o : ObjectId} {w : Value} (h : Fresh o w) : w.Keyed := by
  cases h <;> trivial

theorem object?_of_applyUnary {op : UnaryOp} {v w : Value} (h : v.applyUnary op = .ok w) :
    w.object? = none := by
  unfold applyUnary at h
  split at h <;> cases h <;> rfl

theorem isError_of_applyUnary {op : UnaryOp} {v w : Value} (h : v.applyUnary op = .ok w) :
    w.isError = false := by
  cases fresh_of_applyUnary h 0 <;> rfl

theorem fresh_of_applyInts {op : BinaryOp} {a b : Int64} {w : Value}
    (h : applyInts op a b = .ok w) (o : ObjectId) : Fresh o w := by
  unfold applyInts at h
  split at h
  case h_4 =>
    split at h <;> cases h
    exact .int _
  all_goals
    cases h
    first
    | exact .int _
    | exact .bool _

theorem fresh_of_applyBinary {o : ObjectId} {op : BinaryOp} {v u w : Value}
    (h : v.applyBinary o op u = .ok w) : Fresh o w := by
  unfold applyBinary at h
  split at h
  · exact fresh_of_applyInts h o
  · split at h <;> cases h
    exact .str _
  · split at h
    · cases h
      exact .bool _
    · cases h
      exact .bool _
    · split at h <;> cases h

-- What an index yields is null or a part of what it was applied to.
theorem part_of_applyIndex {v i w : Value} (h : v.applyIndex i = .ok w) : w = .null ∨ Part w v := by
  unfold applyIndex at h
  split at h
  · next o elems n =>
    cases h
    unfold elementAt
    by_cases hn : n < 0
    · rw [if_pos hn]
      exact .inl rfl
    · rw [if_neg hn]
      cases helem : elems[n.toInt.toNat]? with
      | none => exact .inl rfl
      | some v => exact .inr (.elem (List.mem_of_getElem? helem) (.self v))
  · split at h
    · next o entries k key _ =>
      cases h
      cases hget : Table.get? key entries with
      | none => exact .inl rfl
      | some p => exact .inr (.value (Table.mem_of_get? hget) (.self p.value))
    · cases h
  · cases h

-- The elements of the array that a builtin takes are parts of its arguments.
theorem part_of_arrayArgument {b : Builtin} {arity : Nat} {args elems : List Value}
    (h : b.arrayArgument arity args = .ok elems) : ∀ v ∈ elems, ∃ a ∈ args, Part v a := by
  unfold Builtin.arrayArgument at h
  split at h
  · cases h
  · split at h
    · cases h
      exact fun v hv => ⟨_, List.mem_cons_self, .elem hv (.self v)⟩
    · cases h
    · cases h

end Value

namespace Custody

variable {K : Custody} {i j : ScopeId} {w : K.World} {m' : Machine} {eval : Evaluator}

/-! ## 2. Builtins -/

theorem Lawful.holds_arrayArgument (hK : K.Lawful) {b : Builtin} {arity : Nat}
    {args elems : List Value} (h : b.arrayArgument arity args = .ok elems)
    (hargs : ∀ v ∈ args, K.holds w v) : ∀ v ∈ elems, K.holds w v := by
  intro v hv
  obtain ⟨a, ha, hpart⟩ := part_of_arrayArgument h v hv
  exact hK.part (hargs a ha) hpart

theorem Lawful.holds_getD (hK : K.Lawful) {o : Option Value} (h : ∀ v, o = some v → K.holds w v) :
    K.holds w (o.getD .null) := by
  cases o with
  | none => exact hK.plain w rfl rfl
  | some v => exact h v rfl

theorem Lawful.array (hK : K.Lawful) {vs : List Value} (hvs : ∀ v ∈ vs, K.holds w v) :
    K.Keeps i w (do return .array (← .newObject) vs) K.holds := by
  apply hK.object (f := fun o => .ok (.array o vs))
  rintro o v ⟨⟩
  exact ⟨.array hvs, trivial⟩

theorem Lawful.builtin (hK : K.Lawful) (b : Builtin) {args : List Value}
    (hargs : ∀ v ∈ args, K.holds w v) : K.Keeps i w (b.call args) K.holds := by
  have hmem {b : Builtin} {arity : Nat} :
      K.Keeps i w (.ofExcept (b.arrayArgument arity args))
        fun w' elems => ∀ v ∈ args ++ elems, K.holds w' v :=
    hK.ofExcept fun elems he =>
      List.forall_mem_append.2 ⟨hargs, hK.holds_arrayArgument he hargs⟩
  cases b with
  | len =>
    have hlen : K.Keeps i w (.ofExcept (Builtin.measure args)) fun _ _ => True :=
      hK.ofExcept fun _ _ => trivial
    exact hK.bind hlen fun _ w' _ _ => hK.pure (hK.plain w' rfl rfl)
  | first =>
    refine hK.bind hmem fun elems w' _ hall => hK.pure (hK.holds_getD fun v hv => ?_)
    exact hall v (List.mem_append_right _ (List.mem_of_head? hv))
  | last =>
    refine hK.bind hmem fun elems w' _ hall => hK.pure (hK.holds_getD fun v hv => ?_)
    exact hall v (List.mem_append_right _ (List.mem_of_getLast? hv))
  | rest =>
    apply hK.bind hmem
    intro elems w' _ hall
    cases elems with
    | nil => exact hK.pure (hK.plain w' rfl rfl)
    | cons v vs =>
      apply hK.array
      intro u hu
      exact hall u (List.mem_append_right _ (List.mem_cons_of_mem v hu))
  | push =>
    apply hK.bind hmem
    intro elems w' _ hall
    apply hK.array
    intro u hu
    rcases List.mem_append.1 hu with hu | hu
    · exact hall u (List.mem_append_right _ hu)
    · exact hall u (List.mem_append_left _ (List.mem_of_mem_drop hu))
  | puts =>
    apply hK.bind (hK.forM args fun v _ w' _ => hK.print _)
    intro _ w' _ _
    exact hK.pure (hK.plain w' rfl rfl)
  | print => exact hK.bind (hK.print _) fun _ w' _ _ => hK.pure (hK.plain w' rfl rfl)

/-! ## 3. Statements and calls -/

-- An evaluator that leads from world to world.
def Evaluates (K : Custody) (eval : Evaluator) : Prop :=
  ∀ i e w, K.scope w i → K.Keeps i w (eval i e) K.holds

theorem Lawful.stmt (hK : K.Lawful) (he : K.Evaluates eval) (s : Stmt) (hi : K.scope w i) :
    K.Keeps i w (Eval.stmt eval i s) K.holds := by
  cases s with
  | bind x e =>
    apply hK.bind (he i e w hi)
    intro v w₁ h₁ hv
    apply hK.bind (hK.binds (hK.scope_mono h₁ hi) x hv)
    intro _ w₂ _ _
    exact hK.pure (hK.plain w₂ rfl rfl)
  | ret e => exact hK.bind (he i e w hi) fun v w₁ _ hv => hK.return hv
  | expr e => exact he i e w hi

theorem Lawful.stmtsFrom (hK : K.Lawful) (he : K.Evaluates eval) (ss : List Stmt)
    (hi : K.scope w i) {v : Value} (hv : K.holds w v) :
    K.Keeps i w (Eval.stmtsFrom eval i v ss) K.holds :=
  hK.foldlM ss (fun s _ _ _ h' _ => hK.stmt he s (hK.scope_mono h' hi)) hv

theorem Lawful.stmts (hK : K.Lawful) (he : K.Evaluates eval) (ss : List Stmt) (hi : K.scope w i) :
    K.Keeps i w (Eval.stmts eval i ss) K.holds :=
  hK.stmtsFrom he ss hi (hK.plain w rfl rfl)

theorem Lawful.bindParams (hK : K.Lawful) (params : List String) {args : List Value}
    (hi : K.scope w i) (hargs : ∀ v ∈ args, K.holds w v) :
    K.Keeps i w (Eval.bindParams i params args) fun _ _ => True :=
  hK.forM _ fun p hp _ h' => hK.binds (hK.scope_mono h' hi) p.1
    (hK.holds_mono h' (hargs p.2 (List.of_mem_zip hp).2))

-- What a call does stays in the scope that it makes, so from outside it may be made anywhere.
theorem Lawful.callClosure (hK : K.Lawful) (he : K.Evaluates eval) {f : Closure} {args : List Value}
    (hf : K.scope w f.scope) (hargs : ∀ v ∈ args, K.holds w v) :
    K.Keeps i w (Eval.callClosure eval f args) K.holds := by
  unfold Eval.callClosure
  split
  · exact hK.fail _
  · intro r m' hr
    obtain ⟨w₁, hw₁, hscope, hleave⟩ := hK.call hf
    -- the new scope takes nothing away from what the arguments may be
    have hargs₁ : ∀ v ∈ args, K.holds w₁ v := fun v hv =>
      hK.holds_mono (hleave f.scope w₁ (hK.refl _ w₁)) (hargs v hv)
    have hbody := hK.bind (hK.bindParams f.params hscope hargs₁) fun _ w₂ h₂ _ =>
      (hK.stmts he f.body (hK.scope_mono h₂ hscope)).catchReturn
    obtain ⟨w', hw', hleads, hends⟩ := hbody r m' (by rw [hw₁]; exact hr)
    exact ⟨w', hw', hleave i w' hleads, hends⟩

theorem Lawful.apply (hK : K.Lawful) (he : K.Evaluates eval) {f : Value} {args : List Value}
    (hf : K.holds w f) (hargs : ∀ v ∈ args, K.holds w v) :
    K.Keeps i w (Eval.apply eval f args) K.holds := by
  cases f with
  | fn o f => exact hK.callClosure he (hK.captured hf rfl) hargs
  | builtin b => exact hK.builtin b hargs
  | _ => exact hK.fail _

/-! ## 4. Quotes -/

theorem Lawful.unquote (hK : K.Lawful) (he : K.Evaluates eval) (e : Expr) (hi : K.scope w i) :
    K.Keeps i w (Eval.unquote eval i e) fun _ _ => True := by
  unfold Eval.unquote
  split
  · exact hK.bind (he i _ w hi).catchReturn fun v w₁ _ _ => hK.ofExcept fun _ _ => trivial
  · exact hK.pure trivial

theorem Lawful.quoteNode (hK : K.Lawful) (he : K.Evaluates eval) (e : Expr) (hi : K.scope w i) :
    K.Keeps i w (Eval.quoteNode eval i e) fun _ _ => True := by
  have hΦ := hK.alike i i
  have hact := Traversal.bottomUp_actAlike (g := Pure.pure) hΦ fun e w hi => hK.unquote he e hi
  exact Traversal.expr_alike hΦ hact e w hi

theorem Lawful.quoted (hK : K.Lawful) (e : Expr) : K.Keeps i w (Eval.quoted e) K.holds := by
  apply hK.object (f := fun o => .ok (.quote o e))
  rintro o v ⟨⟩
  exact ⟨.quote e, trivial⟩

theorem Lawful.quote (hK : K.Lawful) (he : K.Evaluates eval) (args : List Expr)
    (hi : K.scope w i) : K.Keeps i w (Eval.quote eval i args) K.holds := by
  unfold Eval.quote
  split
  · exact hK.bind (hK.quoteNode he _ hi) fun node w₁ _ _ => hK.quoted node
  · exact hK.fail _

/-! ## 5. Expressions -/

theorem Lawful.name (hK : K.Lawful) (x : String) (hi : K.scope w i) :
    K.Keeps i w (Eval.name i x) K.holds := by
  apply hK.bind (hK.looksUp hi x)
  intro v? w₁ _ hv
  cases v? with
  | some v => exact hK.pure (hv v rfl)
  | none =>
    cases hb : Builtin.ofName? x with
    | some b => exact hK.pure (hK.plain w₁ rfl rfl)
    | none => exact hK.fail _

-- What a hash literal has collected: pairs of what is held, each under the key that its own key is.
def Collected (K : Custody) (w : K.World) (t : Pairs) : Prop :=
  ∀ e ∈ t, (K.holds w e.2.key ∧ K.holds w e.2.value) ∧ e.2.key.key? = some e.1

theorem Lawful.entry (hK : K.Lawful) (he : K.Evaluates eval) {t : Pairs} (p : Expr × Expr)
    (hi : K.scope w i) (ht : K.Collected w t) :
    K.Keeps i w (Eval.entry eval i t p) K.Collected := by
  apply hK.bind (he i p.1 w hi)
  intro k w₁ h₁ hkey
  cases hk : k.key? with
  | none => exact hK.fail _
  | some key =>
    apply hK.bind (he i p.2 w₁ (hK.scope_mono h₁ hi))
    intro v w₂ h₂ hv
    refine hK.pure fun (e : HashKey × HashPair Value) hmem => ?_
    have hmono {u : Value} (hu : K.holds w u) : K.holds w₂ u :=
      hK.holds_mono h₂ (hK.holds_mono h₁ hu)
    rcases Table.mem_insert hmem with rfl | hmem
    · exact ⟨⟨hK.holds_mono h₂ hkey, hv⟩, hk⟩
    · exact (ht e hmem).imp_left (And.imp hmono hmono)

theorem Lawful.exprs (hK : K.Lawful) (he : K.Evaluates eval) (es : List Expr) (hi : K.scope w i) :
    K.Keeps i w (es.mapM (eval i)) fun w' vs => ∀ v ∈ vs, K.holds w' v :=
  hK.mapM (P := K.holds) hK.holds_mono es fun e _ w' h' => he i e w' (hK.scope_mono h' hi)

-- One node, over an evaluator for the parts.
theorem Lawful.step (hK : K.Lawful) (he : K.Evaluates eval) : K.Evaluates (Eval.step eval) := by
  intro i e w hi
  cases e with
  | ident x => exact hK.name x hi
  | int n => exact hK.pure (hK.plain w rfl rfl)
  | bool b => exact hK.pure (hK.plain w rfl rfl)
  | str text =>
    apply hK.object (f := fun o => .ok (.str o text))
    rintro o v ⟨⟩
    exact ⟨.str text, trivial⟩
  | array elems => exact hK.bind (hK.exprs he elems hi) fun vs w₁ _ hvs => hK.array hvs
  | hash ps =>
    have hfold := hK.foldlM (P := K.Collected) ps
      (fun p _ t w' h' ht => hK.entry he p (hK.scope_mono h' hi) ht) (b := []) nofun
    apply hK.bind hfold
    intro t w₁ _ ht
    apply hK.object (f := fun o => .ok (.hash o t))
    rintro o v ⟨⟩
    exact ⟨.hash fun e he => (ht e he).1, fun e he => (ht e he).2⟩
  | unary op e =>
    apply hK.bind (he i e w hi)
    intro v w₁ _ _
    apply hK.ofExcept
    intro u hu
    exact hK.plain w₁ (object?_of_applyUnary hu) (isError_of_applyUnary hu)
  | binary op l r =>
    -- an identity is taken for the result even where no object arises
    apply hK.bind (he i l w hi)
    intro a w₁ h₁ _
    apply hK.bind (he i r w₁ (hK.scope_mono h₁ hi))
    intro b w₂ _ _
    apply hK.object
    intro o v hv
    have hfresh := fresh_of_applyBinary hv
    exact ⟨hfresh.made, hfresh.keyed⟩
  | cond test yes no =>
    apply hK.bind (he i test w hi)
    intro v w₁ h₁ _
    have hi₁ := hK.scope_mono h₁ hi
    by_cases hv : v.truthy = true
    · rw [if_pos hv]
      exact hK.stmts he yes hi₁
    · rw [if_neg hv]
      cases no with
      | some ss => exact hK.stmts he ss hi₁
      | none => exact hK.pure (hK.plain w₁ rfl rfl)
  | fn params body =>
    -- here a value captures a scope, and it is the one in which the literal is evaluated
    apply hK.object (f := fun o => .ok (.fn o ⟨params, body, i⟩))
    rintro o v ⟨⟩
    exact ⟨.fn hi, trivial⟩
  | macroFn params body =>
    apply hK.object (f := fun o => .ok (.macroFn o ⟨params, body, i⟩))
    rintro o v ⟨⟩
    exact ⟨.macroFn hi, trivial⟩
  | call callee args =>
    -- a call of the name `quote` is no call, whatever the name is bound to
    cases hq : (Expr.call callee args).callTo? "quote" with
    | some quoted =>
      simp only [Eval.step, hq]
      exact hK.quote he quoted hi
    | none =>
      simp only [Eval.step, hq]
      apply hK.bind (he i callee w hi)
      intro f w₁ h₁ hf
      apply hK.bind (hK.exprs he args (hK.scope_mono h₁ hi))
      intro vs w₂ h₂ hvs
      exact hK.apply he (hK.holds_mono h₂ hf) hvs
  | index l r =>
    apply hK.bind (he i l w hi)
    intro a w₁ h₁ ha
    apply hK.bind (he i r w₁ (hK.scope_mono h₁ hi))
    intro b w₂ h₂ _
    apply hK.ofExcept
    intro u hu
    rcases part_of_applyIndex hu with rfl | hpart
    · exact hK.plain w₂ rfl rfl
    · exact hK.part (hK.holds_mono h₂ ha) hpart

/-- **Evaluation leads from world to world** in every lawful custody, at whatever depth. -/
theorem Lawful.evaluates (hK : K.Lawful) (n : Nat) : K.Evaluates (Eval.eval n) := by
  induction n with
  | zero => exact fun i e w _ => keeps_unfinished
  | succ n ih => exact hK.step ih

/-! ## 6. Programs and macros -/

theorem Lawful.program (hK : K.Lawful) {n : Nat} {p : Program} {v : Value} (hi : K.scope w i)
    (hp : Eval.program n i p (K.machine w) = some (v, m')) :
    ∃ w', K.machine w' = m' ∧ K.leads i w w' ∧ (K.holds w' v ∨ v.isError = true) := by
  have hkeeps := hK.stmts (hK.evaluates n) p hi
  unfold Eval.program at hp
  split at hp <;> cases hp
  · next h =>
    obtain ⟨w', hw', hleads, hv⟩ := hkeeps _ _ h
    exact ⟨w', hw', hleads, .inl hv⟩
  · next h =>
    obtain ⟨w', hw', hleads, hv⟩ := hkeeps _ _ h
    exact ⟨w', hw', hleads, .inl hv⟩
  · next h =>
    obtain ⟨w', hw', hleads, -⟩ := hkeeps _ _ h
    exact ⟨w', hw', hleads, .inr rfl⟩

-- The macros of a program are made and bound one after the other.
theorem Lawful.defineMacros (hK : K.Lawful) (hj : K.scope w j) (p : Program) :
    ∃ w', K.machine w' = (K.machine w).defineMacros j p ∧ K.leads j w w' := by
  unfold Machine.defineMacros
  induction p.macroDefinitions generalizing w with
  | nil => exact ⟨w, rfl, hK.refl j w⟩
  | cons d ds ih =>
    obtain ⟨w₁, hw₁, h₁, hv⟩ := hK.make j (.macroFn (f := ⟨d.2.1, d.2.2, j⟩) hj) trivial
    have hj₁ := hK.scope_mono h₁ hj
    obtain ⟨w₂, hw₂, h₂⟩ := hK.define d.1 hj₁ hv
    obtain ⟨w', hw', h'⟩ := ih (hK.scope_mono h₂ hj₁)
    refine ⟨w', ?_, hK.trans (hK.trans h₁ h₂) h'⟩
    rw [hw', hw₂, hw₁]
    rfl

theorem Lawful.callMacro (hK : K.Lawful) (he : K.Evaluates eval) {f : Closure} (args : List Expr)
    (hf : K.scope w f.scope) : K.Keeps i w (Eval.callMacro eval f args) fun _ _ => True := by
  have hquoted : K.Keeps i w (args.mapM Eval.quoted) fun w' vs => ∀ v ∈ vs, K.holds w' v :=
    hK.mapM (P := K.holds) hK.holds_mono args fun e _ w₁ _ => hK.quoted e
  apply hK.bind hquoted
  intro vs w₁ h₁ hvs
  apply hK.bind (hK.callClosure he (hK.scope_mono h₁ hf) hvs)
  intro v w₂ _ _
  cases v with
  | quote _ node => exact hK.pure trivial
  | _ => exact hK.fail _

-- Expansion runs macros only, so wherever it takes place it keeps to what may be done from any
-- other scope.
theorem Lawful.expandCall (hK : K.Lawful) (n : Nat) (e : Expr) (hj : K.scope w j) :
    K.Keeps i w (Eval.expandCall (Eval.eval n) j e) fun _ _ => True := by
  unfold Eval.expandCall
  split
  · next f args =>
    apply hK.bind (hK.looksUp hj f)
    intro v? w₁ _ hv
    split
    · next o c => exact hK.callMacro (hK.evaluates n) args (hK.captured (hv _ rfl) rfl)
    · exact hK.pure trivial
  · exact hK.pure trivial

theorem Lawful.expandMacros (hK : K.Lawful) {n : Nat} {p : Program} {r : Except EvalError Program}
    (hj : K.scope w j) (hr : Eval.expandMacros n j p (K.machine w) = some (r, m')) :
    ∃ w', K.machine w' = m' ∧ K.leads i w w' := by
  -- beside the pass that expands runs the one that changes nothing
  have hΦ := hK.alike i j
  have hact := Traversal.bottomUp_actAlike (g := Pure.pure) hΦ fun e _ => hK.expandCall n e
  have hkeeps := Traversal.program_alike hΦ hact p w hj
  unfold Eval.expandMacros at hr
  split at hr <;> cases hr
  all_goals
    obtain ⟨w', hw', hleads, -⟩ := hkeeps _ _ ‹_›
    exact ⟨w', hw', hleads⟩

end Custody

namespace Contract

/-! ## 7. Contracts -/

variable {C : Contract} {i j : ScopeId} {m m' : Machine} {eval : Evaluator}

-- An evaluator that keeps to the contract.
def Evaluates (C : Contract) (eval : Evaluator) : Prop :=
  ∀ i e m, C.inv m → C.scope m i → C.Keeps i m (eval i e) C.Allows

theorem Evaluates.custody (he : C.Evaluates eval) : C.custody.Evaluates eval :=
  fun i e w hi => (custody_keeps_iff w.2).2 (he i e w.1 w.2 hi)

/-- **Evaluation keeps to every lawful contract**, at whatever depth. -/
theorem Lawful.evaluates (hC : C.Lawful) (n : Nat) : C.Evaluates (Eval.eval n) :=
  fun i e m h hi => (custody_keeps_iff h).1 (hC.custody.evaluates n i e ⟨m, h⟩ hi)

theorem Lawful.stmt (hC : C.Lawful) (he : C.Evaluates eval) (s : Stmt) (h : C.inv m)
    (hi : C.scope m i) : C.Keeps i m (Eval.stmt eval i s) C.Allows :=
  (custody_keeps_iff h).1 (hC.custody.stmt he.custody s hi)

theorem Lawful.stmts (hC : C.Lawful) (he : C.Evaluates eval) (ss : List Stmt) (h : C.inv m)
    (hi : C.scope m i) : C.Keeps i m (Eval.stmts eval i ss) C.Allows :=
  (custody_keeps_iff h).1 (hC.custody.stmts he.custody ss hi)

theorem Lawful.apply (hC : C.Lawful) (he : C.Evaluates eval) {f : Value} {args : List Value}
    (h : C.inv m) (hf : C.Allows m f) (hargs : ∀ v ∈ args, C.Allows m v) :
    C.Keeps i m (Eval.apply eval f args) C.Allows :=
  (custody_keeps_iff h).1 (hC.custody.apply he.custody hf hargs)

theorem Lawful.program (hC : C.Lawful) {n : Nat} {p : Program} {v : Value} (h : C.inv m)
    (hi : C.scope m i) (hp : Eval.program n i p m = some (v, m')) : C.Follows i m m' := by
  let w : C.custody.World := ⟨m, h⟩
  obtain ⟨w', rfl, hleads, -⟩ := hC.custody.program (w := w) hi hp
  exact ⟨w'.2, hleads⟩

theorem Lawful.callMacro (hC : C.Lawful) (he : C.Evaluates eval) {f : Closure} (args : List Expr)
    (h : C.inv m) (hf : C.scope m f.scope) :
    C.Keeps i m (Eval.callMacro eval f args) fun _ _ => True :=
  (custody_keeps_iff h).1 (hC.custody.callMacro he.custody args hf)

theorem Lawful.expandCall (hC : C.Lawful) (n : Nat) (e : Expr) (h : C.inv m) (hj : C.scope m j) :
    C.Keeps i m (Eval.expandCall (Eval.eval n) j e) fun _ _ => True :=
  (custody_keeps_iff h).1 (hC.custody.expandCall n e hj)

theorem Lawful.expandMacros (hC : C.Lawful) {n : Nat} {p : Program} {r : Except EvalError Program}
    (h : C.inv m) (hj : C.scope m j) (hr : Eval.expandMacros n j p m = some (r, m')) :
    C.Follows i m m' := by
  let w : C.custody.World := ⟨m, h⟩
  obtain ⟨w', rfl, hleads⟩ := hC.custody.expandMacros (i := i) (w := w) hj hr
  exact ⟨w'.2, hleads⟩

end Contract

end Monkey
