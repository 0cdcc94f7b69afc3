import Mathlib.Data.List.Forall2
import Monkey.Expr.Traversal

/-!
# Rebuilding — what a pass makes of the parts of a tree

A pass from the leaves up meets every expression with its parts already rebuilt.  So what holds
between an expression and what stands in its place follows from what one action makes of it, if that
much is known of the parts.  The computations of the pass are judged by what they come to, and
nothing is asked of a judgement but that sequencing keeps it.
-/

namespace Monkey

/-- The expression that a statement holds. -/
def Stmt.value : Stmt → Expr
  | bind _ e => e
  | ret e => e
  | expr e => e

namespace Expr

/-! ## 1. Inside an expression -/

/-- `Child d e`: the expression `d` is a part of `e`, or is held by a statement that is one. -/
inductive Child : Expr → Expr → Prop
  | elem {d es} : d ∈ es → Child d (.array es)
  | key {p ps} : p ∈ ps → Child p.1 (.hash ps)
  | entry {p ps} : p ∈ ps → Child p.2 (.hash ps)
  | operand {op d} : Child d (.unary op d)
  | left {op d e} : Child d (.binary op d e)
  | right {op d e} : Child e (.binary op d e)
  | test {d yes no} : Child d (.cond d yes no)
  | yes {d s yes no} : s ∈ yes → Child s.value (.cond d yes no)
  | no {d s yes no} : s ∈ no → Child s.value (.cond d yes (some no))
  | fnBody {ps s b} : s ∈ b → Child s.value (.fn ps b)
  | macroBody {ps s b} : s ∈ b → Child s.value (.macroFn ps b)
  | callee {d es} : Child d (.call d es)
  | arg {d e es} : d ∈ es → Child d (.call e es)
  | indexed {d e} : Child d (.index d e)
  | idx {d e} : Child e (.index d e)

-- Parts are smaller, so what is shown of an expression may be taken to hold of its parts.
theorem Child.sizeOf_lt {d e : Expr} (h : Child d e) : sizeOf d < sizeOf e := by
  have hvalue {s : Stmt} {ss : List Stmt} (hs : s ∈ ss) : sizeOf s.value < sizeOf ss := by
    have hlt := List.sizeOf_lt_of_mem hs
    cases s with
    | bind x e =>
      rw [Stmt.bind.sizeOf_spec] at hlt
      show sizeOf e < sizeOf ss
      omega
    | ret e =>
      rw [Stmt.ret.sizeOf_spec] at hlt
      show sizeOf e < sizeOf ss
      omega
    | expr e =>
      rw [Stmt.expr.sizeOf_spec] at hlt
      show sizeOf e < sizeOf ss
      omega
  cases h with
  | elem hd =>
    have hlt := List.sizeOf_lt_of_mem hd
    rw [array.sizeOf_spec]
    omega
  | @key p _ hp | @entry p _ hp =>
    have hlt := List.sizeOf_lt_of_mem hp
    rw [Prod.mk.sizeOf_spec] at hlt
    rw [hash.sizeOf_spec]
    omega
  | operand =>
    rw [unary.sizeOf_spec]
    omega
  | left | right =>
    rw [binary.sizeOf_spec]
    omega
  | test =>
    rw [cond.sizeOf_spec]
    omega
  | yes hs =>
    have hlt := hvalue hs
    rw [cond.sizeOf_spec]
    omega
  | no hs =>
    have hlt := hvalue hs
    rw [cond.sizeOf_spec, Option.some.sizeOf_spec]
    omega
  | fnBody hs =>
    have hlt := hvalue hs
    rw [fn.sizeOf_spec]
    omega
  | macroBody hs =>
    have hlt := hvalue hs
    rw [macroFn.sizeOf_spec]
    omega
  | callee =>
    rw [call.sizeOf_spec]
    omega
  | arg hd =>
    have hlt := List.sizeOf_lt_of_mem hd
    rw [call.sizeOf_spec]
    omega
  | indexed | idx =>
    rw [index.sizeOf_spec]
    omega

/-- `Inside d e`: the expression `d` stands somewhere in `e`, or is `e` itself. -/
inductive Inside : Expr → Expr → Prop
  | self (e : Expr) : Inside e e
  | part {c d e} : Child d e → Inside c d → Inside c e

/-- Whatever stands in the expression, itself included, is of the class `P`. -/
def Every (P : Expr → Prop) (e : Expr) : Prop := ∀ d, Inside d e → P d

variable {P Q : Expr → Prop} {d e e' : Expr}

theorem Every.self (h : Every P e) : P e := h e (.self e)

theorem Every.child (h : Every P e) (hd : Child d e) : Every P d :=
  fun c hc => h c (.part hd hc)

theorem every_iff : Every P e ↔ P e ∧ ∀ d, Child d e → Every P d := by
  apply Iff.intro
  · exact fun h => ⟨h.self, fun d hd => h.child hd⟩
  · rintro ⟨he, hparts⟩ c hc
    cases hc with
    | self => exact he
    | part hd hc => exact hparts _ hd c hc

theorem Every.imp (h : Every P e) (hPQ : ∀ d, P d → Q d) : Every Q e :=
  fun d hd => hPQ d (h d hd)

section

variable {es : List Expr} {ps : List (Expr × Expr)}

theorem every_iff_of_no_child (h : ∀ d, ¬ Child d e) : Every P e ↔ P e := by
  rw [every_iff]
  exact and_iff_left fun d hd => absurd hd (h d)

@[simp] theorem every_ident_iff {x : String} : Every P (.ident x) ↔ P (.ident x) :=
  every_iff_of_no_child (by intro d hd; cases hd)

@[simp] theorem every_int_iff {n : Int64} : Every P (.int n) ↔ P (.int n) :=
  every_iff_of_no_child (by intro d hd; cases hd)

@[simp] theorem every_bool_iff {b : Bool} : Every P (.bool b) ↔ P (.bool b) :=
  every_iff_of_no_child (by intro d hd; cases hd)

@[simp] theorem every_str_iff {text : String} : Every P (.str text) ↔ P (.str text) :=
  every_iff_of_no_child (by intro d hd; cases hd)

@[simp] theorem every_array_iff :
    Every P (.array es) ↔ P (.array es) ∧ ∀ d ∈ es, Every P d := by
  rw [every_iff]
  refine and_congr_right fun _ => ⟨fun h d hd => h d (.elem hd), ?_⟩
  intro h d hd
  cases hd with
  | elem hd => exact h d hd

@[simp] theorem every_hash_iff :
    Every P (.hash ps) ↔ P (.hash ps) ∧ ∀ p ∈ ps, Every P p.1 ∧ Every P p.2 := by
  rw [every_iff]
  refine and_congr_right fun _ => ⟨fun h p hp => ⟨h _ (.key hp), h _ (.entry hp)⟩, ?_⟩
  intro h d hd
  cases hd with
  | key hp => exact (h _ hp).1
  | entry hp => exact (h _ hp).2

@[simp] theorem every_binary_iff {op : BinaryOp} :
    Every P (.binary op d e) ↔ P (.binary op d e) ∧ Every P d ∧ Every P e := by
  rw [every_iff]
  refine and_congr_right fun _ => ⟨fun h => ⟨h d .left, h e .right⟩, ?_⟩
  intro h c hc
  cases hc with
  | left => exact h.1
  | right => exact h.2

@[simp] theorem every_call_iff :
    Every P (.call e es) ↔ P (.call e es) ∧ Every P e ∧ ∀ d ∈ es, Every P d := by
  rw [every_iff]
  refine and_congr_right fun _ => ⟨fun h => ⟨h e .callee, fun d hd => h d (.arg hd)⟩, ?_⟩
  intro h d hd
  cases hd with
  | callee => exact h.1
  | arg hd => exact h.2 d hd

-- The statements of a body hold what stands in the function.
@[simp] theorem every_fn_iff {params : List String} {b : Block} :
    Every P (.fn params b) ↔ P (.fn params b) ∧ ∀ s ∈ b, s.value.Every P := by
  rw [every_iff]
  refine and_congr_right fun _ => ⟨fun h s hs => h _ (.fnBody hs), ?_⟩
  intro h d hd
  cases hd with
  | fnBody hs => exact h _ hs

end

end Expr

/-! ## 2. Rebuilt expressions -/

open List (Forall₂)

variable {R : Expr → Expr → Prop}

/-- The statements are of one kind, bind one name, and hold related expressions. -/
inductive Stmt.Rebuilt (R : Expr → Expr → Prop) : Stmt → Stmt → Prop
  | bind {x e e'} : R e e' → Rebuilt R (.bind x e) (.bind x e')
  | ret {e e'} : R e e' → Rebuilt R (.ret e) (.ret e')
  | expr {e e'} : R e e' → Rebuilt R (.expr e) (.expr e')

/-- The expressions are of one form, and the parts of the second are related to those of the first
in the same places. -/
inductive Expr.Rebuilt (R : Expr → Expr → Prop) : Expr → Expr → Prop
  | ident (x) : Rebuilt R (.ident x) (.ident x)
  | int (n) : Rebuilt R (.int n) (.int n)
  | bool (b) : Rebuilt R (.bool b) (.bool b)
  | str (text) : Rebuilt R (.str text) (.str text)
  | array {es es'} : Forall₂ R es es' → Rebuilt R (.array es) (.array es')
  | hash {ps ps'} : Forall₂ (fun p p' => R p.1 p'.1 ∧ R p.2 p'.2) ps ps' →
      Rebuilt R (.hash ps) (.hash ps')
  | unary {op e e'} : R e e' → Rebuilt R (.unary op e) (.unary op e')
  | binary {op d d' e e'} : R d d' → R e e' → Rebuilt R (.binary op d e) (.binary op d' e')
  | condOnly {d d' yes yes'} : R d d' → Forall₂ (Stmt.Rebuilt R) yes yes' →
      Rebuilt R (.cond d yes none) (.cond d' yes' none)
  | cond {d d' yes yes' no no'} : R d d' → Forall₂ (Stmt.Rebuilt R) yes yes' →
      Forall₂ (Stmt.Rebuilt R) no no' →
      Rebuilt R (.cond d yes (some no)) (.cond d' yes' (some no'))
  | fn {ps b b'} : Forall₂ (Stmt.Rebuilt R) b b' → Rebuilt R (.fn ps b) (.fn ps b')
  | macroFn {ps b b'} : Forall₂ (Stmt.Rebuilt R) b b' → Rebuilt R (.macroFn ps b) (.macroFn ps b')
  | call {d d' es es'} : R d d' → Forall₂ R es es' → Rebuilt R (.call d es) (.call d' es')
  | index {d d' e e'} : R d d' → R e e' → Rebuilt R (.index d e) (.index d' e')

theorem exists_of_mem_right {α β : Type} {T : α → β → Prop} {as : List α} {bs : List β} {b : β}
    (h : Forall₂ T as bs) (hb : b ∈ bs) : ∃ a ∈ as, T a b := by
  induction h with
  | nil => cases hb
  | cons hab _ ih =>
    rcases List.mem_cons.1 hb with rfl | hb
    · exact ⟨_, List.mem_cons_self, hab⟩
    · obtain ⟨a, ha, hab⟩ := ih hb
      exact ⟨a, List.mem_cons_of_mem _ ha, hab⟩

theorem Stmt.Rebuilt.value {s s' : Stmt} (h : s.Rebuilt R s') : R s.value s'.value := by
  cases h with
  | bind h | ret h | expr h => exact h

theorem Stmt.Rebuilt.exists_value {ss ss' : List Stmt} (h : Forall₂ (Stmt.Rebuilt R) ss ss')
    {s' : Stmt} (hs' : s' ∈ ss') : ∃ s ∈ ss, R s.value s'.value := by
  obtain ⟨s, hs, hss⟩ := exists_of_mem_right h hs'
  exact ⟨s, hs, hss.value⟩

namespace Expr.Rebuilt

variable {d d' e e' : Expr}

-- Each part of what was rebuilt stands in the place of a part.
theorem exists_child (h : Rebuilt R e e') (hd : Child d' e') : ∃ d, Child d e ∧ R d d' := by
  cases h with
  | ident | int | bool | str => cases hd
  | array hes =>
    cases hd with
    | elem hmem =>
      obtain ⟨d, hd, hR⟩ := exists_of_mem_right hes hmem
      exact ⟨d, .elem hd, hR⟩
  | hash hps =>
    cases hd with
    | key hmem =>
      obtain ⟨p, hp, hR⟩ := exists_of_mem_right hps hmem
      exact ⟨p.1, .key hp, hR.1⟩
    | entry hmem =>
      obtain ⟨p, hp, hR⟩ := exists_of_mem_right hps hmem
      exact ⟨p.2, .entry hp, hR.2⟩
  | unary hR =>
    cases hd with
    | operand => exact ⟨_, .operand, hR⟩
  | binary hR hR' =>
    cases hd with
    | left => exact ⟨_, .left, hR⟩
    | right => exact ⟨_, .right, hR'⟩
  | condOnly hR hyes =>
    cases hd with
    | test => exact ⟨_, .test, hR⟩
    | yes hmem =>
      obtain ⟨s, hs, hR⟩ := Stmt.Rebuilt.exists_value hyes hmem
      exact ⟨s.value, .yes hs, hR⟩
  | cond hR hyes hno =>
    cases hd with
    | test => exact ⟨_, .test, hR⟩
    | yes hmem =>
      obtain ⟨s, hs, hR⟩ := Stmt.Rebuilt.exists_value hyes hmem
      exact ⟨s.value, .yes hs, hR⟩
    | no hmem =>
      obtain ⟨s, hs, hR⟩ := Stmt.Rebuilt.exists_value hno hmem
      exact ⟨s.value, .no hs, hR⟩
  | fn hb =>
    cases hd with
    | fnBody hmem =>
      obtain ⟨s, hs, hR⟩ := Stmt.Rebuilt.exists_value hb hmem
      exact ⟨s.value, .fnBody hs, hR⟩
  | macroFn hb =>
    cases hd with
    | macroBody hmem =>
      obtain ⟨s, hs, hR⟩ := Stmt.Rebuilt.exists_value hb hmem
      exact ⟨s.value, .macroBody hs, hR⟩
  | call hR hes =>
    cases hd with
    | callee => exact ⟨_, .callee, hR⟩
    | arg hmem =>
      obtain ⟨d, hd, hR⟩ := exists_of_mem_right hes hmem
      exact ⟨d, .arg hd, hR⟩
  | index hR hR' =>
    cases hd with
    | indexed => exact ⟨_, .indexed, hR⟩
    | idx => exact ⟨_, .idx, hR'⟩

end Expr.Rebuilt

theorem Stmt.Rebuilt.eq {s s' : Stmt} (h : s.Rebuilt Eq s') : s = s' := by
  cases h with
  | bind h | ret h | expr h => rw [h]

-- An expression whose parts are all in their places is the same.
theorem Expr.Rebuilt.eq {e e' : Expr} (h : e.Rebuilt Eq e') : e = e' := by
  have hexprs {es es' : List Expr} (h : Forall₂ Eq es es') : es = es' :=
    List.forall₂_eq_eq_eq ▸ h
  have hpairs {ps ps' : List (Expr × Expr)}
      (h : Forall₂ (fun p p' => p.1 = p'.1 ∧ p.2 = p'.2) ps ps') : ps = ps' :=
    List.forall₂_eq_eq_eq ▸ h.imp fun _ _ h => Prod.ext h.1 h.2
  have hstmts {ss ss' : List Stmt} (h : Forall₂ (Stmt.Rebuilt Eq) ss ss') : ss = ss' :=
    List.forall₂_eq_eq_eq ▸ h.imp fun _ _ h => h.eq
  cases h with
  | ident | int | bool | str => rfl
  | array hes => rw [hexprs hes]
  | hash hps => rw [hpairs hps]
  | unary h => rw [h]
  | binary h h' => rw [h, h']
  | condOnly h hyes => rw [h, hstmts hyes]
  | cond h hyes hno => rw [h, hstmts hyes, hstmts hno]
  | fn hb | macroFn hb => rw [hstmts hb]
  | call h hes => rw [h, hexprs hes]
  | index h h' => rw [h, h']

/-! ## 3. Passes from the leaves up -/

/-- A way to judge computations side by side by what both come to, which sequencing keeps. -/
structure Judgement {m n : Type → Type} [Monad m] [Monad n]
    (Φ : ∀ ⦃α : Type⦄, m α → n α → (α → Prop) → Prop) : Prop where
  pure {α : Type} {Q : α → Prop} {a : α} : Q a → Φ (pure a : m α) (pure a) Q
  bind {α β : Type} {p : m α} {q : n α} {f : α → m β} {g : α → n β} {Q : α → Prop} {T : β → Prop} :
    Φ p q Q → (∀ a, Q a → Φ (f a) (g a) T) → Φ (p >>= f) (q >>= g) T

namespace Traversal

variable {m n : Type → Type} [Monad m] [Monad n]
  {Φ : ∀ ⦃α : Type⦄, m α → n α → (α → Prop) → Prop} {f : Expr → m Expr} {g : Expr → n Expr}
  {P : Expr → Prop}

-- Such a pass goes through every block.
theorem inBlock_rebuilds (hΦ : Judgement Φ) (b : Block) {p : m Block} {q : n Block}
    {T : Block → Prop} (hpq : Φ p q T) :
    Φ ((bottomUp f).inBlock b p) ((bottomUp g).inBlock b q) T :=
  hΦ.bind (Q := (· = true)) (hΦ.pure rfl) (by rintro _ rfl; exact hpq)

-- Before an expression is gone through, nothing happens.
theorem enter_rebuilds (hΦ : Judgement Φ) (e : Expr) {p : m Expr} {q : n Expr} {T : Expr → Prop}
    (hpq : Φ p q T) :
    Φ ((bottomUp f).enterExpr e >>= fun _ => p) ((bottomUp g).enterExpr e >>= fun _ => q) T :=
  hΦ.bind (Q := fun _ => True) (hΦ.pure trivial) fun _ _ => hpq

/-- Of an expression of the class `P` with rebuilt parts, the actions make one that is related to
it. -/
def Rebuilds (Φ : ∀ ⦃α : Type⦄, m α → n α → (α → Prop) → Prop) (P : Expr → Prop)
    (R : Expr → Expr → Prop) (f : Expr → m Expr) (g : Expr → n Expr) : Prop :=
  ∀ e e', e.Every P → e.Rebuilt R e' → Φ (f e') (g e') (R e)

mutual

-- What one action makes of an expression with rebuilt parts, the pass makes of a whole tree.
theorem expr_rebuilds (hΦ : Judgement Φ) (h : Rebuilds Φ P R f g) (e : Expr) (he : e.Every P) :
    Φ ((bottomUp f).expr e) ((bottomUp g).expr e) (R e) := by
  cases e with
  | ident x =>
    rw [expr, expr]
    exact enter_rebuilds hΦ _ (h _ _ he (.ident x))
  | int n =>
    rw [expr, expr]
    exact enter_rebuilds hΦ _ (h _ _ he (.int n))
  | bool b =>
    rw [expr, expr]
    exact enter_rebuilds hΦ _ (h _ _ he (.bool b))
  | str text =>
    rw [expr, expr]
    exact enter_rebuilds hΦ _ (h _ _ he (.str text))
  | array elems =>
    rw [expr, expr]
    apply enter_rebuilds hΦ
    apply hΦ.bind (exprs_rebuilds hΦ h elems fun d hd => he.child (.elem hd))
    intro es hes
    exact h _ _ he (.array hes)
  | hash ps =>
    rw [expr, expr]
    apply enter_rebuilds hΦ
    apply hΦ.bind (pairs_rebuilds hΦ h ps fun p hp => ⟨he.child (.key hp), he.child (.entry hp)⟩)
    intro ps' hps
    exact h _ _ he (.hash hps)
  | unary op a =>
    rw [expr, expr]
    apply enter_rebuilds hΦ
    apply hΦ.bind (expr_rebuilds hΦ h a (he.child .operand))
    intro a' ha
    exact h _ _ he (.unary ha)
  | binary op a b =>
    rw [expr, expr]
    apply enter_rebuilds hΦ
    apply hΦ.bind (expr_rebuilds hΦ h a (he.child .left))
    intro a' ha
    apply hΦ.bind (expr_rebuilds hΦ h b (he.child .right))
    intro b' hb
    exact h _ _ he (.binary ha hb)
  | cond test yes no =>
    cases no with
    | none =>
      rw [expr, expr]
      apply enter_rebuilds hΦ
      apply hΦ.bind (expr_rebuilds hΦ h test (he.child .test))
      intro test' htest
      have hstmts := stmts_rebuilds hΦ h yes fun s hs => he.child (.yes hs)
      apply hΦ.bind (inBlock_rebuilds hΦ yes hstmts)
      intro yes' hyes
      exact h _ _ he (.condOnly htest hyes)
    | some no =>
      rw [expr, expr]
      apply enter_rebuilds hΦ
      apply hΦ.bind (expr_rebuilds hΦ h test (he.child .test))
      intro test' htest
      have hstmts := stmts_rebuilds hΦ h yes fun s hs => he.child (.yes hs)
      apply hΦ.bind (inBlock_rebuilds hΦ yes hstmts)
      intro yes' hyes
      have hstmts' := stmts_rebuilds hΦ h no fun s hs => he.child (.no hs)
      apply hΦ.bind (inBlock_rebuilds hΦ no hstmts')
      intro no' hno
      exact h _ _ he (.cond htest hyes hno)
  | fn params body =>
    rw [expr, expr]
    apply enter_rebuilds hΦ
    have hstmts := stmts_rebuilds hΦ h body fun s hs => he.child (.fnBody hs)
    apply hΦ.bind (inBlock_rebuilds hΦ body hstmts)
    intro body' hbody
    exact h _ _ he (.fn hbody)
  | macroFn params body =>
    rw [expr, expr]
    apply enter_rebuilds hΦ
    have hstmts := stmts_rebuilds hΦ h body fun s hs => he.child (.macroBody hs)
    apply hΦ.bind (inBlock_rebuilds hΦ body hstmts)
    intro body' hbody
    exact h _ _ he (.macroFn hbody)
  | call callee args =>
    rw [expr, expr]
    apply enter_rebuilds hΦ
    apply hΦ.bind (expr_rebuilds hΦ h callee (he.child .callee))
    intro callee' hcallee
    apply hΦ.bind (exprs_rebuilds hΦ h args fun d hd => he.child (.arg hd))
    intro args' hargs
    exact h _ _ he (.call hcallee hargs)
  | index a i =>
    rw [expr, expr]
    apply enter_rebuilds hΦ
    apply hΦ.bind (expr_rebuilds hΦ h a (he.child .indexed))
    intro a' ha
    apply hΦ.bind (expr_rebuilds hΦ h i (he.child .idx))
    intro i' hi
    exact h _ _ he (.index ha hi)
termination_by structural e

theorem exprs_rebuilds (hΦ : Judgement Φ) (h : Rebuilds Φ P R f g) (es : List Expr)
    (hes : ∀ e ∈ es, e.Every P) :
    Φ ((bottomUp f).exprs es) ((bottomUp g).exprs es) (Forall₂ R es) := by
  cases es with
  | nil => exact hΦ.pure .nil
  | cons e es =>
    rw [exprs, exprs]
    apply hΦ.bind (expr_rebuilds hΦ h e (hes e List.mem_cons_self))
    intro e' he
    apply hΦ.bind (exprs_rebuilds hΦ h es fun d hd => hes d (List.mem_cons_of_mem e hd))
    intro es' hes
    exact hΦ.pure (.cons he hes)
termination_by structural es

theorem pairs_rebuilds (hΦ : Judgement Φ) (h : Rebuilds Φ P R f g) (ps : List (Expr × Expr))
    (hps : ∀ p ∈ ps, p.1.Every P ∧ p.2.Every P) :
    Φ ((bottomUp f).pairs ps) ((bottomUp g).pairs ps)
      (Forall₂ (fun p p' => R p.1 p'.1 ∧ R p.2 p'.2) ps) := by
  cases ps with
  | nil => exact hΦ.pure .nil
  | cons p ps =>
    rcases p with ⟨k, v⟩
    obtain ⟨hk, hv⟩ := hps (k, v) List.mem_cons_self
    rw [pairs, pairs]
    apply hΦ.bind (expr_rebuilds hΦ h k hk)
    intro k' hk
    apply hΦ.bind (expr_rebuilds hΦ h v hv)
    intro v' hv
    apply hΦ.bind (pairs_rebuilds hΦ h ps fun p hp => hps p (List.mem_cons_of_mem _ hp))
    intro ps' hps
    exact hΦ.pure (.cons ⟨hk, hv⟩ hps)
termination_by structural ps

theorem stmt_rebuilds (hΦ : Judgement Φ) (h : Rebuilds Φ P R f g) (s : Stmt)
    (hs : s.value.Every P) :
    Φ ((bottomUp f).stmt s) ((bottomUp g).stmt s) (s.Rebuilt R) := by
  have henter {p : m Stmt} {q : n Stmt} (hpq : Φ p q (s.Rebuilt R)) :
      Φ ((bottomUp f).enterStmt s >>= fun _ => p) ((bottomUp g).enterStmt s >>= fun _ => q)
        (s.Rebuilt R) :=
    hΦ.bind (Q := fun _ => True) (hΦ.pure trivial) fun _ _ => hpq
  cases s with
  | bind x e =>
    rw [stmt, stmt]
    apply henter
    exact hΦ.bind (expr_rebuilds hΦ h e hs) fun e' he => hΦ.pure (.bind he)
  | ret e =>
    rw [stmt, stmt]
    apply henter
    exact hΦ.bind (expr_rebuilds hΦ h e hs) fun e' he => hΦ.pure (.ret he)
  | expr e =>
    rw [stmt, stmt]
    apply henter
    exact hΦ.bind (expr_rebuilds hΦ h e hs) fun e' he => hΦ.pure (.expr he)
termination_by structural s

theorem stmts_rebuilds (hΦ : Judgement Φ) (h : Rebuilds Φ P R f g) (ss : List Stmt)
    (hss : ∀ s ∈ ss, s.value.Every P) :
    Φ ((bottomUp f).stmts ss) ((bottomUp g).stmts ss) (Forall₂ (Stmt.Rebuilt R) ss) := by
  cases ss with
  | nil => exact hΦ.pure .nil
  | cons s ss =>
    rw [stmts, stmts]
    apply hΦ.bind (stmt_rebuilds hΦ h s (hss s List.mem_cons_self))
    intro s' hs
    apply hΦ.bind (stmts_rebuilds hΦ h ss fun t ht => hss t (List.mem_cons_of_mem s ht))
    intro ss' hss
    exact hΦ.pure (.cons hs hss)
termination_by structural ss

end

theorem program_rebuilds (hΦ : Judgement Φ) (h : Rebuilds Φ P R f g) (p : Program)
    (hp : ∀ s ∈ p, s.value.Every P) :
    Φ ((bottomUp f).program p) ((bottomUp g).program p) (Forall₂ (Stmt.Rebuilt R) p) := by
  unfold program
  apply hΦ.bind (Q := fun _ => True) (hΦ.pure trivial)
  exact fun _ _ => stmts_rebuilds hΦ h p hp

end Traversal

end Monkey
