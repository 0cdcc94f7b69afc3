import Monkey.Expr.Traversal

/-!
# Passes — two traversals side by side

Two traversals that act alike on every node act alike on every tree.  What "alike" means is up to
the caller: any relation between computations that holds of two equal results and is kept by
sequencing will do.  With the identity monad on one side this is induction over a single pass.
-/

namespace Monkey

/-! ## 1. Two passes side by side -/

/-- A relation between the computations of two monads that sequencing keeps. -/
structure Alike {m n : Type → Type} [Monad m] [Monad n]
    (Φ : ∀ ⦃α : Type⦄, m α → n α → Prop) : Prop where
  pure {α : Type} (a : α) : Φ (pure a : m α) (pure a)
  bind {α β : Type} {p : m α} {q : n α} {f : α → m β} {g : α → n β} :
    Φ p q → (∀ a, Φ (f a) (g a)) → Φ (p >>= f) (q >>= g)

namespace Traversal

variable {m n : Type → Type} [Monad m] [Monad n] {Φ : ∀ ⦃α : Type⦄, m α → n α → Prop}

/-- The actions of two traversals are alike. -/
structure ActAlike (Φ : ∀ ⦃α : Type⦄, m α → n α → Prop) (t : Traversal m) (u : Traversal n) :
    Prop where
  enterProgram : Φ t.enterProgram u.enterProgram
  enterStmt (s : Stmt) : Φ (t.enterStmt s) (u.enterStmt s)
  enterBlock (b : Block) : Φ (t.enterBlock b) (u.enterBlock b)
  enterExpr (e : Expr) : Φ (t.enterExpr e) (u.enterExpr e)
  leaveExpr (e : Expr) : Φ (t.leaveExpr e) (u.leaveExpr e)

theorem bottomUp_actAlike (hΦ : Alike Φ) {f : Expr → m Expr} {g : Expr → n Expr}
    (h : ∀ e, Φ (f e) (g e)) : ActAlike Φ (bottomUp f) (bottomUp g) where
  enterProgram := hΦ.pure ()
  enterStmt _ := hΦ.pure ()
  enterBlock _ := hΦ.pure true
  enterExpr _ := hΦ.pure ()
  leaveExpr := h

variable {t : Traversal m} {u : Traversal n}

theorem inBlock_alike (hΦ : Alike Φ) (h : ActAlike Φ t u) (b : Block) {p : m Block} {q : n Block}
    (hpq : Φ p q) : Φ (t.inBlock b p) (u.inBlock b q) := by
  unfold inBlock
  apply hΦ.bind (h.enterBlock b)
  intro through
  cases through with
  | true => exact hpq
  | false => exact hΦ.pure b

mutual

theorem expr_alike (hΦ : Alike Φ) (h : ActAlike Φ t u) (e : Expr) : Φ (t.expr e) (u.expr e) := by
  cases e with
  | ident x | int n | bool b | str text =>
    rw [expr, expr]
    exact hΦ.bind (h.enterExpr _) fun _ => h.leaveExpr _
  | array elems =>
    rw [expr, expr]
    apply hΦ.bind (h.enterExpr _)
    intro _
    exact hΦ.bind (exprs_alike hΦ h elems) fun _ => h.leaveExpr _
  | hash ps =>
    rw [expr, expr]
    apply hΦ.bind (h.enterExpr _)
    intro _
    exact hΦ.bind (pairs_alike hΦ h ps) fun _ => h.leaveExpr _
  | unary op a =>
    rw [expr, expr]
    apply hΦ.bind (h.enterExpr _)
    intro _
    exact hΦ.bind (expr_alike hΦ h a) fun _ => h.leaveExpr _
  | binary op a b =>
    rw [expr, expr]
    apply hΦ.bind (h.enterExpr _)
    intro _
    apply hΦ.bind (expr_alike hΦ h a)
    intro _
    exact hΦ.bind (expr_alike hΦ h b) fun _ => h.leaveExpr _
  | cond test yes no =>
    cases no with
    | none =>
      rw [expr, expr]
      apply hΦ.bind (h.enterExpr _)
      intro _
      apply hΦ.bind (expr_alike hΦ h test)
      intro _
      exact hΦ.bind (inBlock_alike hΦ h yes (stmts_alike hΦ h yes)) fun _ => h.leaveExpr _
    | some no =>
      rw [expr, expr]
      apply hΦ.bind (h.enterExpr _)
      intro _
      apply hΦ.bind (expr_alike hΦ h test)
      intro _
      apply hΦ.bind (inBlock_alike hΦ h yes (stmts_alike hΦ h yes))
      intro _
      exact hΦ.bind (inBlock_alike hΦ h no (stmts_alike hΦ h no)) fun _ => h.leaveExpr _
  | fn params body | macroFn params body =>
    rw [expr, expr]
    apply hΦ.bind (h.enterExpr _)
    intro _
    exact hΦ.bind (inBlock_alike hΦ h body (stmts_alike hΦ h body)) fun _ => h.leaveExpr _
  | call callee args =>
    rw [expr, expr]
    apply hΦ.bind (h.enterExpr _)
    intro _
    apply hΦ.bind (expr_alike hΦ h callee)
    intro _
    exact hΦ.bind (exprs_alike hΦ h args) fun _ => h.leaveExpr _
  | index a i =>
    rw [expr, expr]
    apply hΦ.bind (h.enterExpr _)
    intro _
    apply hΦ.bind (expr_alike hΦ h a)
    intro _
    exact hΦ.bind (expr_alike hΦ h i) fun _ => h.leaveExpr _
termination_by structural e

theorem exprs_alike (hΦ : Alike Φ) (h : ActAlike Φ t u) (es : List Expr) :
    Φ (t.exprs es) (u.exprs es) := by
  cases es with
  | nil => exact hΦ.pure []
  | cons e es =>
    rw [exprs, exprs]
    apply hΦ.bind (expr_alike hΦ h e)
    intro _
    exact hΦ.bind (exprs_alike hΦ h es) fun _ => hΦ.pure _
termination_by structural es

theorem pairs_alike (hΦ : Alike Φ) (h : ActAlike Φ t u) (ps : List (Expr × Expr)) :
    Φ (t.pairs ps) (u.pairs ps) := by
  cases ps with
  | nil => exact hΦ.pure []
  | cons p ps =>
    rcases p with ⟨k, v⟩
    rw [pairs, pairs]
    apply hΦ.bind (expr_alike hΦ h k)
    intro _
    apply hΦ.bind (expr_alike hΦ h v)
    intro _
    exact hΦ.bind (pairs_alike hΦ h ps) fun _ => hΦ.pure _
termination_by structural ps

theorem stmt_alike (hΦ : Alike Φ) (h : ActAlike Φ t u) (s : Stmt) : Φ (t.stmt s) (u.stmt s) := by
  cases s with
  | bind x e | ret e | expr e =>
    rw [stmt, stmt]
    apply hΦ.bind (h.enterStmt _)
    intro _
    exact hΦ.bind (expr_alike hΦ h e) fun _ => hΦ.pure _
termination_by structural s

theorem stmts_alike (hΦ : Alike Φ) (h : ActAlike Φ t u) (ss : List Stmt) :
    Φ (t.stmts ss) (u.stmts ss) := by
  cases ss with
  | nil => exact hΦ.pure []
  | cons s ss =>
    rw [stmts, stmts]
    apply hΦ.bind (stmt_alike hΦ h s)
    intro _
    exact hΦ.bind (stmts_alike hΦ h ss) fun _ => hΦ.pure _
termination_by structural ss

end

-- Traversals that act alike on the nodes of a program act alike on the program.
theorem program_alike (hΦ : Alike Φ) (h : ActAlike Φ t u) (p : Program) :
    Φ (t.program p) (u.program p) := by
  unfold program
  exact hΦ.bind h.enterProgram fun _ => stmts_alike hΦ h p

/-! ## 2. The pass that changes nothing -/

section

variable [LawfulMonad m]

theorem inBlock_identity (b : Block) :
    (identity : Traversal m).inBlock b (pure b) = pure b := by
  simp [inBlock, identity]

mutual

theorem expr_identity (e : Expr) : (identity : Traversal m).expr e = pure e := by
  cases e with
  | ident x | int n | bool b | str text =>
    rw [expr]
    exact pure_bind ..
  | array elems =>
    rw [expr, exprs_identity elems, pure_bind]
    exact pure_bind ..
  | hash ps =>
    rw [expr, pairs_identity ps, pure_bind]
    exact pure_bind ..
  | unary op a =>
    rw [expr, expr_identity a, pure_bind]
    exact pure_bind ..
  | binary op a b =>
    rw [expr, expr_identity a, expr_identity b, pure_bind, pure_bind]
    exact pure_bind ..
  | cond test yes no =>
    cases no with
    | none =>
      rw [expr, expr_identity test, stmts_identity yes, inBlock_identity, pure_bind, pure_bind]
      exact pure_bind ..
    | some no =>
      rw [expr, expr_identity test, stmts_identity yes, stmts_identity no, inBlock_identity,
        inBlock_identity, pure_bind, pure_bind, pure_bind]
      exact pure_bind ..
  | fn params body | macroFn params body =>
    rw [expr, stmts_identity body, inBlock_identity, pure_bind]
    exact pure_bind ..
  | call callee args =>
    rw [expr, expr_identity callee, exprs_identity args, pure_bind, pure_bind]
    exact pure_bind ..
  | index a i =>
    rw [expr, expr_identity a, expr_identity i, pure_bind, pure_bind]
    exact pure_bind ..
termination_by structural e

theorem exprs_identity (es : List Expr) : (identity : Traversal m).exprs es = pure es := by
  cases es with
  | nil => rw [exprs]
  | cons e es => rw [exprs, expr_identity e, exprs_identity es, pure_bind, pure_bind]
termination_by structural es

theorem pairs_identity (ps : List (Expr × Expr)) :
    (identity : Traversal m).pairs ps = pure ps := by
  cases ps with
  | nil => rw [pairs]
  | cons p ps =>
    rcases p with ⟨k, v⟩
    rw [pairs, expr_identity k, expr_identity v, pairs_identity ps, pure_bind, pure_bind, pure_bind]
termination_by structural ps

theorem stmt_identity (s : Stmt) : (identity : Traversal m).stmt s = pure s := by
  cases s with
  | bind x e | ret e | expr e =>
    rw [stmt, expr_identity e, pure_bind]
    exact pure_bind ..
termination_by structural s

theorem stmts_identity (ss : List Stmt) : (identity : Traversal m).stmts ss = pure ss := by
  cases ss with
  | nil => rw [stmts]
  | cons s ss => rw [stmts, stmt_identity s, stmts_identity ss, pure_bind, pure_bind]
termination_by structural ss

end

-- A pass without actions rebuilds the program it was given.
theorem program_identity (p : Program) : (identity : Traversal m).program p = pure p := by
  rw [program, stmts_identity]
  exact pure_bind ..

end

end Traversal

end Monkey
