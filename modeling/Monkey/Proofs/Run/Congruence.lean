import Monkey.Expansion
import Monkey.Proofs.Run.Pass

/-!
# Congruences — relations between runs that the evaluator keeps

A congruence relates computations of the machine, holds of each basic one with itself and is kept by
sequencing.  If two evaluators for the parts are related, so are all operations of the evaluator
over them.  The first use is depth: a run that ends at one depth ends in the same way at every
larger one.
-/

namespace Monkey

namespace Eval

/-- A relation between computations that the operations of the machine keep. -/
structure Congruence (Φ : ∀ ⦃α : Type⦄, Eval α → Eval α → Prop) : Prop extends Alike Φ where
  stop {α : Type} (s : Stop) : Φ (stop s : Eval α) (stop s)
  catchReturn {p q : Eval Value} : Φ p q → Φ (catchReturn p) (catchReturn q)
  newObject : Φ newObject newObject
  newScope (i : ScopeId) : Φ (newScope i) (newScope i)
  define (i : ScopeId) (x : String) (v : Value) : Φ (define i x v) (define i x v)
  lookup (i : ScopeId) (x : String) : Φ (lookup i x) (lookup i x)
  write (text : String) : Φ (write text) (write text)

namespace Congruence

variable {Φ : ∀ ⦃α : Type⦄, Eval α → Eval α → Prop} {α β : Type}

/-! ## 1. Repetition -/

theorem mapM (hΦ : Congruence Φ) {f g : α → Eval β} (h : ∀ a, Φ (f a) (g a)) (as : List α) :
    Φ (as.mapM f) (as.mapM g) := by
  induction as with
  | nil => exact hΦ.pure []
  | cons a as ih =>
    rw [List.mapM_cons, List.mapM_cons]
    exact hΦ.bind (h a) fun _ => hΦ.bind ih fun _ => hΦ.pure _

theorem foldlM (hΦ : Congruence Φ) {f g : β → α → Eval β} (h : ∀ b a, Φ (f b a) (g b a))
    (b : β) (as : List α) : Φ (as.foldlM f b) (as.foldlM g b) := by
  induction as generalizing b with
  | nil => exact hΦ.pure b
  | cons a as ih =>
    rw [List.foldlM_cons, List.foldlM_cons]
    exact hΦ.bind (h b a) fun b' => ih b'

theorem forM (hΦ : Congruence Φ) {f : α → Eval Unit} (h : ∀ a, Φ (f a) (f a)) (as : List α) :
    Φ (as.forM f) (as.forM f) := by
  induction as with
  | nil => exact hΦ.pure ()
  | cons a as ih => exact hΦ.bind (h a) fun _ => ih

theorem fail (hΦ : Congruence Φ) (e : EvalError) : Φ (fail e : Eval α) (fail e) :=
  hΦ.stop (.failed e)

theorem ofExcept (hΦ : Congruence Φ) (r : Except EvalError α) : Φ (ofExcept r) (ofExcept r) := by
  cases r with
  | ok a => exact hΦ.pure a
  | error e => exact hΦ.fail e

/-! ## 2. Builtins, statements and calls -/

theorem builtin (hΦ : Congruence Φ) (b : Builtin) (args : List Value) :
    Φ (b.call args) (b.call args) := by
  have harg (b : Builtin) (arity : Nat) := hΦ.ofExcept (b.arrayArgument arity args)
  cases b with
  | len => exact hΦ.bind (hΦ.ofExcept _) fun _ => hΦ.pure _
  | first => exact hΦ.bind (harg .first 1) fun _ => hΦ.pure _
  | last => exact hΦ.bind (harg .last 1) fun _ => hΦ.pure _
  | rest =>
    apply hΦ.bind (harg .rest 1)
    intro elems
    cases elems with
    | nil => exact hΦ.pure _
    | cons _ elems => exact hΦ.bind hΦ.newObject fun _ => hΦ.pure _
  | push => exact hΦ.bind (harg .push 2) fun _ => hΦ.bind hΦ.newObject fun _ => hΦ.pure _
  | puts => exact hΦ.bind (hΦ.forM (fun _ => hΦ.write _) args) fun _ => hΦ.pure _
  | print => exact hΦ.bind (hΦ.write _) fun _ => hΦ.pure _

variable {eval eval' : Evaluator} (h : ∀ i e, Φ (eval i e) (eval' i e))

include h

theorem stmt (hΦ : Congruence Φ) (i : ScopeId) (s : Stmt) :
    Φ (Eval.stmt eval i s) (Eval.stmt eval' i s) := by
  cases s with
  | bind x e => exact hΦ.bind (h i e) fun v => hΦ.bind (hΦ.define i x v) fun _ => hΦ.pure _
  | ret e => exact hΦ.bind (h i e) fun v => hΦ.stop (.returned v)
  | expr e => exact h i e

theorem stmtsFrom (hΦ : Congruence Φ) (i : ScopeId) (v : Value) (ss : List Stmt) :
    Φ (Eval.stmtsFrom eval i v ss) (Eval.stmtsFrom eval' i v ss) :=
  hΦ.foldlM (fun _ s => hΦ.stmt h i s) v ss

theorem callClosure (hΦ : Congruence Φ) (f : Closure) (args : List Value) :
    Φ (Eval.callClosure eval f args) (Eval.callClosure eval' f args) := by
  unfold Eval.callClosure
  split
  · exact hΦ.fail _
  · apply hΦ.bind (hΦ.newScope f.scope)
    intro i
    apply hΦ.bind (hΦ.forM (fun p => hΦ.define i p.1 p.2) _)
    intro _
    exact hΦ.catchReturn (hΦ.stmtsFrom h i .null f.body)

theorem apply (hΦ : Congruence Φ) (f : Value) (args : List Value) :
    Φ (Eval.apply eval f args) (Eval.apply eval' f args) := by
  cases f with
  | fn o f => exact hΦ.callClosure h f args
  | builtin b => exact hΦ.builtin b args
  | _ => exact hΦ.fail _

/-! ## 3. Quotes and expressions -/

theorem quoteNode (hΦ : Congruence Φ) (i : ScopeId) (e : Expr) :
    Φ (Eval.quoteNode eval i e) (Eval.quoteNode eval' i e) := by
  have hunquote (e : Expr) : Φ (unquote eval i e) (unquote eval' i e) := by
    unfold unquote
    split
    · exact hΦ.bind (hΦ.catchReturn (h i _)) fun _ => hΦ.ofExcept _
    · exact hΦ.pure e
  exact Traversal.expr_alike hΦ.toAlike (Traversal.bottomUp_actAlike hΦ.toAlike hunquote) e

theorem entry (hΦ : Congruence Φ) (i : ScopeId) (t : Value.Pairs) (p : Expr × Expr) :
    Φ (Eval.entry eval i t p) (Eval.entry eval' i t p) := by
  apply hΦ.bind (h i p.1)
  intro k
  cases k.key? with
  | none => exact hΦ.fail _
  | some key => exact hΦ.bind (h i p.2) fun _ => hΦ.pure _

-- One node, over related evaluators for the parts.
theorem step (hΦ : Congruence Φ) (i : ScopeId) (e : Expr) :
    Φ (Eval.step eval i e) (Eval.step eval' i e) := by
  cases e with
  | ident x =>
    apply hΦ.bind (hΦ.lookup i x)
    intro v?
    cases v? with
    | some v => exact hΦ.pure v
    | none =>
      cases Builtin.ofName? x with
      | some b => exact hΦ.pure _
      | none => exact hΦ.fail _
  | int n | bool b => exact hΦ.pure _
  | str text => exact hΦ.bind hΦ.newObject fun _ => hΦ.pure _
  | array elems =>
    exact hΦ.bind (hΦ.mapM (h i) elems) fun _ => hΦ.bind hΦ.newObject fun _ => hΦ.pure _
  | hash ps =>
    apply hΦ.bind (hΦ.foldlM (fun t p => hΦ.entry h i t p) [] ps)
    intro _
    exact hΦ.bind hΦ.newObject fun _ => hΦ.pure _
  | unary op e => exact hΦ.bind (h i e) fun _ => hΦ.ofExcept _
  | binary op l r =>
    apply hΦ.bind (h i l)
    intro _
    apply hΦ.bind (h i r)
    intro _
    exact hΦ.bind hΦ.newObject fun _ => hΦ.ofExcept _
  | cond test yes no =>
    apply hΦ.bind (h i test)
    intro v
    by_cases hv : v.truthy = true
    · rw [if_pos hv, if_pos hv]
      exact hΦ.stmtsFrom h i .null yes
    · rw [if_neg hv, if_neg hv]
      cases no with
      | some ss => exact hΦ.stmtsFrom h i .null ss
      | none => exact hΦ.pure _
  | fn params body | macroFn params body => exact hΦ.bind hΦ.newObject fun _ => hΦ.pure _
  | call callee args =>
    cases hq : (Expr.call callee args).callTo? "quote" with
    | some quoted =>
      simp only [Eval.step, hq, quote]
      split
      · apply hΦ.bind (hΦ.quoteNode h i _)
        intro _
        exact hΦ.bind hΦ.newObject fun _ => hΦ.pure _
      · exact hΦ.fail _
    | none =>
      simp only [Eval.step, hq]
      apply hΦ.bind (h i callee)
      intro f
      exact hΦ.bind (hΦ.mapM (h i) args) fun vs => hΦ.apply h f vs
  | index l r => exact hΦ.bind (h i l) fun _ => hΦ.bind (h i r) fun _ => hΦ.ofExcept _

/-! ## 4. Macros -/

theorem expandProgram (hΦ : Congruence Φ) (i : ScopeId) (p : Program) :
    Φ (Eval.expandProgram eval i p) (Eval.expandProgram eval' i p) := by
  have hquoted (e : Expr) : Φ (quoted e) (quoted e) :=
    hΦ.bind hΦ.newObject fun _ => hΦ.pure _
  have hcall (e : Expr) : Φ (expandCall eval i e) (expandCall eval' i e) := by
    unfold expandCall
    split
    · next f args =>
      apply hΦ.bind (hΦ.lookup i f)
      intro v?
      split
      · next o c =>
        apply hΦ.bind (hΦ.mapM hquoted args)
        intro vs
        apply hΦ.bind (hΦ.callClosure h c vs)
        intro v
        cases v with
        | quote _ node => exact hΦ.pure node
        | _ => exact hΦ.fail _
      · exact hΦ.pure _
    · exact hΦ.pure _
  exact Traversal.program_alike hΦ.toAlike (Traversal.bottomUp_actAlike hΦ.toAlike hcall) p

end Congruence

/-! ## 5. Depth -/

/-- Wherever `p` ends, `q` ends in the same way. -/
def EndsAs ⦃α : Type⦄ (p q : Eval α) : Prop := ∀ m r, p m = some r → q m = some r

theorem endsAs_refl {α : Type} (p : Eval α) : EndsAs p p := fun _ _ h => h

theorem endsAs_congruence : Congruence EndsAs where
  pure a := endsAs_refl _
  bind {α β p q f g} hp hf m r h := by
    rw [bind_apply] at h ⊢
    rcases hpm : p m with _ | ⟨s | a, m'⟩
    · rw [hpm] at h
      cases h
    · rw [hpm] at h
      rw [hp m _ hpm]
      exact h
    · rw [hpm] at h
      rw [hp m _ hpm]
      exact hf a m' r h
  stop s := endsAs_refl _
  catchReturn {p q} hp m r h := by
    unfold catchReturn at h ⊢
    rcases hpm : p m with _ | r'
    · rw [hpm] at h
      cases h
    · rw [hpm] at h
      rw [hp m _ hpm]
      exact h
  newObject := endsAs_refl _
  newScope _ := endsAs_refl _
  define _ _ _ := endsAs_refl _
  lookup _ _ := endsAs_refl _
  write _ := endsAs_refl _

-- What ends at some depth ends in the same way at every larger one.
theorem eval_endsAs {n k : Nat} (hk : n ≤ k) (i : ScopeId) (e : Expr) :
    EndsAs (eval n i e) (eval k i e) := by
  induction n generalizing k i e with
  | zero => exact fun m r h => nomatch h
  | succ n ih =>
    obtain ⟨k, rfl⟩ : ∃ k', k = k' + 1 := ⟨k - 1, by omega⟩
    exact endsAs_congruence.step (fun i e => ih (Nat.le_of_succ_le_succ hk) i e) i e

theorem stmts_endsAs {n k : Nat} (hk : n ≤ k) (i : ScopeId) (ss : List Stmt) :
    EndsAs (stmts (eval n) i ss) (stmts (eval k) i ss) :=
  endsAs_congruence.stmtsFrom (eval_endsAs hk) i .null ss

-- What a result of statements is as the value of a program.
def valueOf : Except Stop Value → Value
  | .ok v => v
  | .error (.returned v) => v
  | .error (.failed e) => .error e

theorem program_eq (n : Nat) (i : ScopeId) (p : Program) (m : Machine) :
    program n i p m = (stmts (Eval.eval n) i p m).map fun r => (valueOf r.1, r.2) := by
  unfold program
  rcases stmts (Eval.eval n) i p m with _ | ⟨(_ | _) | _, m'⟩ <;> rfl

-- What a result of the pass over a program is as that of its expansion.
def expansionOf : Except Stop Program → Except EvalError Program
  | .ok q => .ok q
  | .error (.returned v) => .error (.expansionNotQuote v.type)
  | .error (.failed e) => .error e

theorem expandMacros_eq (n : Nat) (i : ScopeId) (p : Program) (m : Machine) :
    expandMacros n i p m =
      (Eval.expandProgram (Eval.eval n) i p m).map fun r => (expansionOf r.1, r.2) := by
  unfold expandMacros
  rcases Eval.expandProgram (Eval.eval n) i p m with _ | ⟨(_ | _) | _, m'⟩ <;> rfl

theorem program_mono {n k : Nat} (hk : n ≤ k) {i : ScopeId} {p : Program} {m : Machine}
    {r : Value × Machine} (h : program n i p m = some r) : program k i p m = some r := by
  rw [program_eq] at h ⊢
  rcases Option.map_eq_some_iff.1 h with ⟨x, hx, rfl⟩
  rw [stmts_endsAs hk i p m x hx]
  rfl

theorem expandMacros_mono {n k : Nat} (hk : n ≤ k) {i : ScopeId} {p : Program} {m : Machine}
    {r : Except EvalError Program × Machine} (h : expandMacros n i p m = some r) :
    expandMacros k i p m = some r := by
  rw [expandMacros_eq] at h ⊢
  rcases Option.map_eq_some_iff.1 h with ⟨x, hx, rfl⟩
  rw [endsAs_congruence.expandProgram (eval_endsAs hk) i p m x hx]
  rfl

end Eval

end Monkey
