import Monkey.Proofs.Run.Ends
import Monkey.Proofs.Run.Rebuild

/-!
# Splicing — a quote is filled in from left to right

A quote is rebuilt from the leaves up, and what is unquoted is evaluated on the way.  If nothing is
unquoted inside of what is unquoted, nor called, then this is the same as evaluating all that is
unquoted first, from left to right, and then putting the literals in their places at once: `unquoted`
lists what is to be evaluated, and `fill` puts expressions in.
-/

namespace Monkey

/-! ## 1. What is unquoted, and what is put in its place -/

/-- The call that unquotes an expression. -/
def Expr.unquoting (d : Expr) : Expr := .call (.ident "unquote") [d]

mutual

/-- What is unquoted in an expression, from left to right. -/
def Expr.unquoted : Expr → List Expr
  | .ident _ | .int _ | .bool _ | .str _ => []
  | .array es => Expr.unquotedList es
  | .hash ps => Expr.unquotedPairs ps
  | .unary _ a => a.unquoted
  | .binary _ a b => a.unquoted ++ b.unquoted
  | .cond test yes none => test.unquoted ++ Stmt.unquotedList yes
  | .cond test yes (some no) =>
    test.unquoted ++ (Stmt.unquotedList yes ++ Stmt.unquotedList no)
  | .fn _ body => Stmt.unquotedList body
  | .macroFn _ body => Stmt.unquotedList body
  | .call callee args =>
    match (Expr.call callee args).callTo? "unquote" with
    | some [d] => [d]
    | _ => callee.unquoted ++ Expr.unquotedList args
  | .index a i => a.unquoted ++ i.unquoted
termination_by structural e => e

def Expr.unquotedList : List Expr → List Expr
  | [] => []
  | e :: es => e.unquoted ++ Expr.unquotedList es
termination_by structural es => es

def Expr.unquotedPairs : List (Expr × Expr) → List Expr
  | [] => []
  | (k, v) :: ps => k.unquoted ++ (v.unquoted ++ Expr.unquotedPairs ps)
termination_by structural ps => ps

def Stmt.unquoted : Stmt → List Expr
  | .bind _ e => e.unquoted
  | .ret e => e.unquoted
  | .expr e => e.unquoted
termination_by structural s => s

def Stmt.unquotedList : List Stmt → List Expr
  | [] => []
  | s :: ss => s.unquoted ++ Stmt.unquotedList ss
termination_by structural ss => ss

end

mutual

/-- The expression with the expressions `us` in the places of the calls that unquote in it, the first
in the place of the first call.  All else stays. -/
def Expr.fill (us : List Expr) : Expr → Expr
  | .ident x => .ident x
  | .int n => .int n
  | .bool b => .bool b
  | .str text => .str text
  | .array es => .array (Expr.fillList us es)
  | .hash ps => .hash (Expr.fillPairs us ps)
  | .unary op a => .unary op (a.fill us)
  | .binary op a b =>
    .binary op (a.fill (us.take a.unquoted.length)) (b.fill (us.drop a.unquoted.length))
  | .cond test yes none =>
    .cond (test.fill (us.take test.unquoted.length))
      (Stmt.fillList (us.drop test.unquoted.length) yes) none
  | .cond test yes (some no) =>
    let vs := us.drop test.unquoted.length
    .cond (test.fill (us.take test.unquoted.length))
      (Stmt.fillList (vs.take (Stmt.unquotedList yes).length) yes)
      (some (Stmt.fillList (vs.drop (Stmt.unquotedList yes).length) no))
  | .fn params body => .fn params (Stmt.fillList us body)
  | .macroFn params body => .macroFn params (Stmt.fillList us body)
  | .call callee args =>
    match (Expr.call callee args).callTo? "unquote" with
    | some [d] => us.headD (.unquoting d)
    | _ =>
      .call (callee.fill (us.take callee.unquoted.length))
        (Expr.fillList (us.drop callee.unquoted.length) args)
  | .index a i =>
    .index (a.fill (us.take a.unquoted.length)) (i.fill (us.drop a.unquoted.length))
termination_by structural e => e

def Expr.fillList (us : List Expr) : List Expr → List Expr
  | [] => []
  | e :: es => e.fill (us.take e.unquoted.length) :: Expr.fillList (us.drop e.unquoted.length) es
termination_by structural es => es

def Expr.fillPairs (us : List Expr) : List (Expr × Expr) → List (Expr × Expr)
  | [] => []
  | (k, v) :: ps =>
    let vs := us.drop k.unquoted.length
    (k.fill (us.take k.unquoted.length), v.fill (vs.take v.unquoted.length)) ::
      Expr.fillPairs (vs.drop v.unquoted.length) ps
termination_by structural ps => ps

def Stmt.fill (us : List Expr) : Stmt → Stmt
  | .bind x e => .bind x (e.fill us)
  | .ret e => .ret (e.fill us)
  | .expr e => .expr (e.fill us)
termination_by structural s => s

def Stmt.fillList (us : List Expr) : List Stmt → List Stmt
  | [] => []
  | s :: ss => s.fill (us.take s.unquoted.length) :: Stmt.fillList (us.drop s.unquoted.length) ss
termination_by structural ss => ss

end

/-- What may stand in a quote: nothing is unquoted inside of what is unquoted, and nothing that is
unquoted is called. -/
structure Expr.Spliceable (e : Expr) : Prop where
  flat {d : Expr} : e = .unquoting d → d.Every fun c => ∀ b, c ≠ .unquoting b
  callee_ne (d : Expr) (args : List Expr) : e ≠ .call (.unquoting d) args

namespace Expr

variable {us : List Expr} {d e c : Expr} {es : List Expr}

@[simp] theorem unquoted_unquoting (d : Expr) : (unquoting d).unquoted = [d] := rfl

@[simp] theorem fill_unquoting (u d : Expr) : (unquoting d).fill [u] = u := rfl

-- Any other call is no more than its parts.
theorem unquoted_call (h : ∀ d, call c es ≠ unquoting d) :
    (call c es).unquoted = c.unquoted ++ unquotedList es := by
  rw [unquoted]
  split
  · next d hd => exact absurd (callTo?_eq_some_iff.1 hd) (h d)
  · rfl

theorem fill_call (h : ∀ d, call c es ≠ unquoting d) : (call c es).fill us =
    .call (c.fill (us.take c.unquoted.length)) (fillList (us.drop c.unquoted.length) es) := by
  rw [fill]
  split
  · next d hd => exact absurd (callTo?_eq_some_iff.1 hd) (h d)
  · rfl

theorem unquotedList_eq_flatMap (es : List Expr) : unquotedList es = es.flatMap unquoted := by
  induction es with
  | nil => rfl
  | cons e es ih => rw [unquotedList, ih, List.flatMap_cons]

theorem unquotedPairs_eq_flatMap (ps : List (Expr × Expr)) :
    unquotedPairs ps = ps.flatMap fun p => p.1.unquoted ++ p.2.unquoted := by
  induction ps with
  | nil => rfl
  | cons p ps ih => rw [unquotedPairs, ih, List.flatMap_cons, List.append_assoc]

theorem unquotedStmts_eq_flatMap (ss : List Stmt) :
    Stmt.unquotedList ss = ss.flatMap fun s => s.value.unquoted := by
  induction ss with
  | nil => rfl
  | cons s ss ih =>
    rw [Stmt.unquotedList, ih, List.flatMap_cons]
    cases s <;> rfl

-- What is listed as unquoted is unquoted somewhere in the expression.
theorem inside_of_mem_unquoted (e : Expr) {d : Expr} (hd : d ∈ e.unquoted) :
    Inside (unquoting d) e := by
  have hpart {c : Expr} (hc : Child c e) (hd : d ∈ c.unquoted) : Inside (unquoting d) e :=
    .part hc (inside_of_mem_unquoted c hd)
  have hstmts {ss : List Stmt} (hss : ∀ s ∈ ss, Child s.value e)
      (hd : d ∈ Stmt.unquotedList ss) : Inside (unquoting d) e := by
    rw [unquotedStmts_eq_flatMap] at hd
    obtain ⟨s, hs, hd⟩ := List.mem_flatMap.1 hd
    exact hpart (hss s hs) hd
  have hexprs {es : List Expr} (hes : ∀ a ∈ es, Child a e) (hd : d ∈ unquotedList es) :
      Inside (unquoting d) e := by
    rw [unquotedList_eq_flatMap] at hd
    obtain ⟨a, ha, hd⟩ := List.mem_flatMap.1 hd
    exact hpart (hes a ha) hd
  cases e with
  | ident | int | bool | str => cases hd
  | array es => exact hexprs (fun _ => .elem) hd
  | hash ps =>
    rw [unquoted, unquotedPairs_eq_flatMap] at hd
    obtain ⟨p, hp, hd⟩ := List.mem_flatMap.1 hd
    rcases List.mem_append.1 hd with hd | hd
    · exact hpart (.key hp) hd
    · exact hpart (.entry hp) hd
  | unary op a => exact hpart .operand hd
  | binary op a b =>
    rcases List.mem_append.1 hd with hd | hd
    · exact hpart .left hd
    · exact hpart .right hd
  | cond test yes no =>
    cases no with
    | none =>
      rcases List.mem_append.1 hd with hd | hd
      · exact hpart .test hd
      · exact hstmts (fun _ => .yes) hd
    | some no =>
      rcases List.mem_append.1 hd with hd | hd
      · exact hpart .test hd
      · rcases List.mem_append.1 hd with hd | hd
        · exact hstmts (fun _ => .yes) hd
        · exact hstmts (fun _ => .no) hd
  | fn params body => exact hstmts (fun _ => .fnBody) hd
  | macroFn params body => exact hstmts (fun _ => .macroBody) hd
  | call callee args =>
    by_cases hun : ∃ b, call callee args = unquoting b
    · obtain ⟨b, hb⟩ := hun
      rw [hb, unquoted_unquoting] at hd
      obtain rfl := List.mem_singleton.1 hd
      exact hb ▸ .self _
    · rw [unquoted_call fun b hb => hun ⟨b, hb⟩] at hd
      rcases List.mem_append.1 hd with hd | hd
      · exact hpart .callee hd
      · exact hexprs (fun _ => .arg) hd
  | index a i =>
    rcases List.mem_append.1 hd with hd | hd
    · exact hpart .indexed hd
    · exact hpart .idx hd
termination_by e
decreasing_by exact hc.sizeOf_lt

theorem length_fillList (us es : List Expr) : (fillList us es).length = es.length := by
  induction es generalizing us with
  | nil => rfl
  | cons e es ih => exact congrArg (· + 1) (ih _)

-- A name stands only where it stood, or where something was put in.
theorem of_fill_eq_ident {x : String} (h : e.fill us = .ident x) :
    e = .ident x ∨ ∃ d, e = unquoting d := by
  by_cases hun : ∃ d, e = unquoting d
  · exact .inr hun
  · cases e with
    | ident y => exact .inl h
    | call c es =>
      rw [fill_call fun d hd => hun ⟨d, hd⟩] at h
      cases h
    | cond test yes no => cases no <;> cases h
    | _ => cases h

-- Where all that is unquoted is replaced, no call has come to be one that unquotes.
theorem fill_call_ne_unquoting (hspl : Spliceable (call c es)) (h : ∀ d, call c es ≠ unquoting d)
    (us vs : List Expr) (d : Expr) : call (c.fill us) (fillList vs es) ≠ unquoting d := by
  intro hd
  injection hd with hc hes
  rcases of_fill_eq_ident hc with rfl | ⟨b, rfl⟩
  · have hone : es.length = 1 := by
      rw [← length_fillList vs es, hes]
      rfl
    obtain ⟨a, rfl⟩ := List.length_eq_one_iff.1 hone
    exact h a rfl
  · exact hspl.callee_ne b es rfl

end Expr

/-! ## 2. One run over a list -/

section

variable {m : Type → Type} [Monad m] [LawfulMonad m] {α β γ δ : Type} {s : α → m β}

-- Behind a run over a list, nothing counts but what is done with as many results.
theorem mapM_bind_congr {as : List α} {g g' : List β → m γ}
    (h : ∀ bs, bs.length = as.length → g bs = g' bs) : as.mapM s >>= g = as.mapM s >>= g' := by
  induction as generalizing g g' with
  | nil => simpa using h [] rfl
  | cons a as ih =>
    simp only [List.mapM_cons, bind_assoc, pure_bind]
    refine bind_congr fun b => ih fun bs hbs => h (b :: bs) ?_
    rw [List.length_cons, hbs, List.length_cons]

/-- The computation is to run `s` on each of `as`, and to make `g` of what these runs come to. -/
def Runs (s : α → m β) (as : List α) (g : List β → γ) (p : m γ) : Prop := p = g <$> as.mapM s

variable {as as' : List α} {g : List β → γ} {p : m γ}

theorem Runs.pure (c : γ) : Runs s [] (fun _ => c) (pure c) := by
  simp [Runs]

theorem Runs.one (a : α) {g : List β → β} (hg : ∀ b, g [b] = b) : Runs s [a] g (s a) := by
  simp [Runs, hg]

-- What is made of the result alone is one more step to it.
theorem Runs.then (hp : Runs s as g p) {f : γ → m δ} {h : List β → δ}
    (hf : ∀ bs, f (g bs) = Pure.pure (h bs)) : Runs s as h (p >>= f) := by
  rw [Runs, hp, map_eq_pure_bind, map_eq_pure_bind, bind_assoc]
  refine bind_congr fun bs => ?_
  rw [pure_bind, hf]

-- Of two runs one behind the other, the first has the first results.
theorem Runs.bind (hp : Runs s as g p) {f : γ → m δ} {h : List β → List β → δ}
    (hf : ∀ bs, Runs s as' (h bs) (f (g bs))) :
    Runs s (as ++ as') (fun bs => h (bs.take as.length) (bs.drop as.length)) (p >>= f) := by
  have hsplit {bs bs' : List β} (hbs : bs.length = as.length) :
      h ((bs ++ bs').take as.length) ((bs ++ bs').drop as.length) = h bs bs' := by
    rw [← hbs, List.take_left, List.drop_left]
  rw [Runs, hp, List.mapM_append]
  simp only [map_eq_pure_bind, bind_assoc, pure_bind]
  apply mapM_bind_congr
  intro bs hbs
  rw [hf bs, map_eq_pure_bind]
  refine bind_congr fun bs' => ?_
  rw [hsplit hbs]

end

/-! ## 3. A pass that splices -/

namespace Traversal

open Monkey.Expr

section

variable {m : Type → Type} [Monad m] [LawfulMonad m] {f s : Expr → m Expr}

/-- The actions replace what is unquoted by what `s` makes of it, and nothing else. -/
structure Splices (f s : Expr → m Expr) : Prop where
  unquoting (d : Expr) : f (.unquoting d) = s d
  keep {e : Expr} : (∀ d, e ≠ .unquoting d) → f e = pure e

-- Before an expression is gone through, nothing happens.
theorem enter_eq (e : Expr) (p : m Expr) :
    ((bottomUp f).enterExpr e >>= fun _ => p) = p := pure_bind _ _

-- Nor before a block.
theorem inBlock_eq (b : Block) (p : m Block) : (bottomUp f).inBlock b p = p := pure_bind _ _

/-- The computation does no more than come to a result, of the class `Q`. -/
def JustYields ⦃α : Type⦄ (p _ : m α) (Q : α → Prop) : Prop := ∃ a, p = pure a ∧ Q a

theorem justYields_judgement : Judgement (JustYields (m := m)) where
  pure ha := ⟨_, rfl, ha⟩
  bind := by
    intro α β p q f g Q T hp hf
    obtain ⟨a, rfl, ha⟩ := hp
    obtain ⟨b, hb, hT⟩ := hf a ha
    exact ⟨b, by rw [pure_bind, hb], hT⟩

-- Where nothing is unquoted, the pass does nothing.
theorem expr_eq_pure (hf : Splices f s) {e : Expr} (he : e.Every fun c => ∀ d, c ≠ .unquoting d) :
    (bottomUp f).expr e = pure e := by
  have hact : Rebuilds (JustYields (m := m)) (fun c => ∀ d, c ≠ .unquoting d) Eq f f := by
    intro c c' hc hcc'
    obtain rfl := hcc'.eq
    exact ⟨c, hf.keep hc.self, rfl⟩
  obtain ⟨e', he', rfl⟩ := expr_rebuilds justYields_judgement hact e he
  exact he'

theorem unquoting_expr (hf : Splices f s) {d : Expr}
    (hd : d.Every fun c => ∀ b, c ≠ .unquoting b) : (bottomUp f).expr (.unquoting d) = s d := by
  have hcallee : (bottomUp f).expr (.ident "unquote") = pure (.ident "unquote") :=
    expr_eq_pure hf (every_ident_iff.2 nofun)
  have harg : (bottomUp f).exprs [d] = pure [d] := by
    rw [exprs, exprs, expr_eq_pure hf hd, pure_bind, pure_bind]
  rw [unquoting, expr, enter_eq, hcallee, pure_bind, harg, pure_bind]
  exact hf.unquoting d

mutual

theorem expr_runs (hf : Splices f s) (e : Expr) (he : e.Every Spliceable) :
    Runs s e.unquoted (fun us => e.fill us) ((bottomUp f).expr e) := by
  have hleaf {a : Expr} (ha : ∀ d, a ≠ .unquoting d) : Runs s [] (fun _ => a) (f a) :=
    hf.keep ha ▸ .pure a
  cases e with
  | ident x =>
    rw [expr, enter_eq]
    exact hleaf nofun
  | int n =>
    rw [expr, enter_eq]
    exact hleaf nofun
  | bool b =>
    rw [expr, enter_eq]
    exact hleaf nofun
  | str text =>
    rw [expr, enter_eq]
    exact hleaf nofun
  | array elems =>
    have helems := exprs_runs hf elems fun d hd => he.child (.elem hd)
    rw [expr, enter_eq]
    exact helems.then fun us => hf.keep nofun
  | hash ps =>
    have hps := pairs_runs hf ps fun p hp => ⟨he.child (.key hp), he.child (.entry hp)⟩
    rw [expr, enter_eq]
    exact hps.then fun us => hf.keep nofun
  | unary op a =>
    rw [expr, enter_eq]
    exact (expr_runs hf a (he.child .operand)).then fun us => hf.keep nofun
  | binary op a b =>
    have ha := expr_runs hf a (he.child .left)
    have hb := expr_runs hf b (he.child .right)
    rw [expr, enter_eq]
    apply ha.bind (h := fun us vs => Expr.binary op (a.fill us) (b.fill vs))
    exact fun us => hb.then fun vs => hf.keep nofun
  | cond test yes no =>
    have htest := expr_runs hf test (he.child .test)
    have hyes := stmts_runs hf yes fun t ht => he.child (.yes ht)
    cases no with
    | none =>
      rw [expr, enter_eq, inBlock_eq]
      apply htest.bind (h := fun us vs => Expr.cond (test.fill us) (Stmt.fillList vs yes) none)
      exact fun us => hyes.then fun vs => hf.keep nofun
    | some no =>
      have hno := stmts_runs hf no fun t ht => he.child (.no ht)
      rw [expr, enter_eq, inBlock_eq, inBlock_eq]
      apply htest.bind (h := fun us vs => Expr.cond (test.fill us)
        (Stmt.fillList (vs.take (Stmt.unquotedList yes).length) yes)
        (some (Stmt.fillList (vs.drop (Stmt.unquotedList yes).length) no)))
      intro us
      apply hyes.bind (h := fun vs ws =>
        Expr.cond (test.fill us) (Stmt.fillList vs yes) (some (Stmt.fillList ws no)))
      exact fun vs => hno.then fun ws => hf.keep nofun
  | fn params body =>
    have hbody := stmts_runs hf body fun t ht => he.child (.fnBody ht)
    rw [expr, enter_eq, inBlock_eq]
    exact hbody.then fun us => hf.keep nofun
  | macroFn params body =>
    have hbody := stmts_runs hf body fun t ht => he.child (.macroBody ht)
    rw [expr, enter_eq, inBlock_eq]
    exact hbody.then fun us => hf.keep nofun
  | call callee args =>
    have hcallee := expr_runs hf callee (he.child .callee)
    have hargs := exprs_runs hf args fun d hd => he.child (.arg hd)
    by_cases hun : ∃ d, Expr.call callee args = .unquoting d
    · obtain ⟨d, hd⟩ := hun
      rw [hd] at he ⊢
      rw [unquoting_expr hf (he.self.flat rfl)]
      exact .one d fun u => rfl
    · have hne (d : Expr) : Expr.call callee args ≠ .unquoting d := fun hd => hun ⟨d, hd⟩
      rw [expr, enter_eq, unquoted_call hne]
      simp only [fill_call hne]
      apply hcallee.bind (h := fun us vs => Expr.call (callee.fill us) (fillList vs args))
      exact fun us => hargs.then fun vs => hf.keep (fill_call_ne_unquoting he.self hne us vs)
  | index a i =>
    have ha := expr_runs hf a (he.child .indexed)
    have hi := expr_runs hf i (he.child .idx)
    rw [expr, enter_eq]
    apply ha.bind (h := fun us vs => Expr.index (a.fill us) (i.fill vs))
    exact fun us => hi.then fun vs => hf.keep nofun
termination_by structural e

theorem exprs_runs (hf : Splices f s) (es : List Expr) (hes : ∀ e ∈ es, e.Every Spliceable) :
    Runs s (unquotedList es) (fun us => fillList us es) ((bottomUp f).exprs es) := by
  cases es with
  | nil => exact .pure []
  | cons e es =>
    have he := expr_runs hf e (hes e List.mem_cons_self)
    have htail := exprs_runs hf es fun d hd => hes d (List.mem_cons_of_mem e hd)
    rw [exprs]
    apply he.bind (h := fun us vs => e.fill us :: fillList vs es)
    exact fun us => htail.then fun vs => rfl
termination_by structural es

theorem pairs_runs (hf : Splices f s) (ps : List (Expr × Expr))
    (hps : ∀ p ∈ ps, p.1.Every Spliceable ∧ p.2.Every Spliceable) :
    Runs s (unquotedPairs ps) (fun us => fillPairs us ps) ((bottomUp f).pairs ps) := by
  cases ps with
  | nil => exact .pure []
  | cons p ps =>
    rcases p with ⟨k, v⟩
    obtain ⟨hk, hv⟩ := hps (k, v) List.mem_cons_self
    have htail := pairs_runs hf ps fun p hp => hps p (List.mem_cons_of_mem _ hp)
    rw [pairs]
    apply (expr_runs hf k hk).bind (h := fun us vs =>
      (k.fill us, v.fill (vs.take v.unquoted.length)) :: fillPairs (vs.drop v.unquoted.length) ps)
    intro us
    apply (expr_runs hf v hv).bind (h := fun vs ws => (k.fill us, v.fill vs) :: fillPairs ws ps)
    exact fun vs => htail.then fun ws => rfl
termination_by structural ps

theorem stmt_runs (hf : Splices f s) (t : Stmt) (ht : t.value.Every Spliceable) :
    Runs s t.unquoted (fun us => t.fill us) ((bottomUp f).stmt t) := by
  have henter (p : m Stmt) : ((bottomUp f).enterStmt t >>= fun _ => p) = p := pure_bind _ _
  cases t with
  | bind x e =>
    rw [stmt, henter]
    exact (expr_runs hf e ht).then fun us => rfl
  | ret e =>
    rw [stmt, henter]
    exact (expr_runs hf e ht).then fun us => rfl
  | expr e =>
    rw [stmt, henter]
    exact (expr_runs hf e ht).then fun us => rfl
termination_by structural t

theorem stmts_runs (hf : Splices f s) (ss : List Stmt) (hss : ∀ t ∈ ss, t.value.Every Spliceable) :
    Runs s (Stmt.unquotedList ss) (fun us => Stmt.fillList us ss) ((bottomUp f).stmts ss) := by
  cases ss with
  | nil => exact .pure []
  | cons t ss =>
    have ht := stmt_runs hf t (hss t List.mem_cons_self)
    have htail := stmts_runs hf ss fun u hu => hss u (List.mem_cons_of_mem t hu)
    rw [stmts]
    apply ht.bind (h := fun us vs => t.fill us :: Stmt.fillList vs ss)
    exact fun us => htail.then fun vs => rfl
termination_by structural ss

end

end

end Traversal

/-! ## 4. Quotes -/

namespace Eval

variable {n : Nat} {i : ScopeId} {e : Expr}

/-- What is spliced in for an unquoted expression: the literal of its value, if it has one.  A value
that is returned counts like any other. -/
def spliced (eval : Evaluator) (i : ScopeId) (d : Expr) : Eval Expr := do
  ofExcept (← catchReturn (eval i d)).literal

theorem unquote_splices (eval : Evaluator) (i : ScopeId) :
    Traversal.Splices (unquote eval i) (spliced eval i) where
  unquoting _ := rfl
  keep := by
    intro e he
    unfold unquote
    split
    · next d hd => exact absurd (Expr.callTo?_eq_some_iff.1 hd) (he d)
    · rfl

-- A name that is bound to a quote is replaced by what is quoted, and nothing else happens.
theorem spliced_of_lookup {m : Machine} {x : String} {o : ObjectId} {a : Expr}
    (h : m.store.lookup i x = some (.quote o a)) (n : Nat) :
    spliced (eval (n + 1)) i (.ident x) m = some (.ok a, m) := by
  have heval : eval (n + 1) i (.ident x) m = some (.ok (.quote o a), m) := by
    show name i x m = _
    rw [name, bind_apply]
    simp only [lookup, h, pure_apply]
  rw [spliced, bind_apply, catchReturn, heval]
  rfl

theorem eval_quote (n : Nat) (i : ScopeId) (e : Expr) :
    eval (n + 1) i (.call (.ident "quote") [e]) = do
      let node ← quoteNode (eval n) i e
      return .quote (← newObject) node := rfl

theorem eval_quote_eq_splice (n : Nat) (i : ScopeId) (he : e.Every Expr.Spliceable) :
    eval (n + 1) i (.call (.ident "quote") [e]) = do
      let us ← e.unquoted.mapM (spliced (eval n) i)
      return .quote (← newObject) (e.fill us) := by
  have hnode : quoteNode (eval n) i e = e.fill <$> e.unquoted.mapM (spliced (eval n) i) :=
    Traversal.expr_runs (unquote_splices (eval n) i) e he
  rw [eval_quote, hnode, map_eq_pure_bind, bind_assoc]
  rfl

theorem eval_quote_of_not_unquoting (n : Nat) (i : ScopeId)
    (he : e.Every fun c => ∀ d, c ≠ .unquoting d) (m : Machine) :
    eval (n + 1) i (.call (.ident "quote") [e]) m =
      some (.ok (.quote m.nextObject e), m.takeObject) := by
  have hnode : quoteNode (eval n) i e = pure e :=
    Traversal.expr_eq_pure (unquote_splices (eval n) i) he
  rw [eval_quote, hnode]
  rfl

-- Behind what is spliced in, nothing stops a quote.
theorem eval_quote_eq_error_iff (he : e.Every Expr.Spliceable) {m m' : Machine} {s : Stop} :
    eval (n + 1) i (.call (.ident "quote") [e]) m = some (.error s, m') ↔
      StoppedAt (spliced (eval n) i) s e.unquoted m m' := by
  rw [eval_quote_eq_splice n i he, bind_eq_error_iff, mapM_eq_error_iff]
  apply or_iff_left
  rintro ⟨us, m₁, -, h⟩
  cases h

/-- **Quoting is simultaneous splicing.**  If nothing is unquoted inside of what is unquoted, nor
called, then to quote an expression is to evaluate all that is unquoted in it, from left to right,
and to put the literals in their places at once.  The first run that is stopped stops the quote, and
what is behind it is not evaluated.  Where nothing is unquoted, the quote is of the expression
itself, and nothing happens but that an object is made. -/
theorem quote_splices (n : Nat) (i : ScopeId) (e : Expr) :
    (e.Every Expr.Spliceable →
      eval (n + 1) i (.call (.ident "quote") [e]) = (do
        let us ← e.unquoted.mapM (spliced (eval n) i)
        return .quote (← newObject) (e.fill us)) ∧
      ∀ m s m', eval (n + 1) i (.call (.ident "quote") [e]) m = some (.error s, m') ↔
        StoppedAt (spliced (eval n) i) s e.unquoted m m') ∧
    ((e.Every fun c => ∀ d, c ≠ .unquoting d) →
      ∀ m, eval (n + 1) i (.call (.ident "quote") [e]) m =
        some (.ok (.quote m.nextObject e), m.takeObject)) :=
  ⟨fun he => ⟨eval_quote_eq_splice n i he, fun _ _ _ => eval_quote_eq_error_iff he⟩,
    eval_quote_of_not_unquoting n i⟩

/-- Scope 0 binds `x` to five. -/
def fiveBound : Machine := ((Machine.initial .silent).pushScope none).define 0 "x" (.int 5)

/-- In `[unquote(x + 1), unquote(y)]` the sum is evaluated before `y`, which has no value, stops the
quote.  In `[unquote(x + 1), y]` that name is left as it is. -/
theorem quote_of_sum_and_name :
    let sum : Expr := .binary .add (.ident "x") (.int 1)
    eval 3 0 (.call (.ident "quote") [.array [.unquoting sum, .unquoting (.ident "y")]]) fiveBound =
      some (.error (.failed (.unboundName "y")), fiveBound.takeObject) ∧
    eval 3 0 (.call (.ident "quote") [.array [.unquoting sum, .ident "y"]]) fiveBound =
      some (.ok (.quote 1 (.array [.int 6, .ident "y"])), fiveBound.takeObject.takeObject) ∧
    eval 3 0 (.call (.ident "quote") [.ident "y"]) fiveBound =
      some (.ok (.quote 0 (.ident "y")), fiveBound.takeObject) := by
  intro sum
  have hleaf {e : Expr} (he : ∀ c es, e ≠ .call c es) : e.Spliceable :=
    ⟨fun h => absurd h (he _ _), fun _ => he _⟩
  have hunquote {d : Expr} (hd : d.Every fun c => ∀ b, c ≠ .unquoting b)
      (hd' : d.Every Expr.Spliceable) : (Expr.unquoting d).Every Expr.Spliceable := by
    refine Expr.every_call_iff.2 ⟨⟨?_, nofun⟩, Expr.every_ident_iff.2 (hleaf nofun), ?_⟩
    · rintro b ⟨⟩
      exact hd
    · simpa using hd'
  have hy : (Expr.ident "y").Every Expr.Spliceable := Expr.every_ident_iff.2 (hleaf nofun)
  have hsum : (Expr.unquoting sum).Every Expr.Spliceable := by
    apply hunquote
    · simp [sum, Expr.unquoting]
    · simp [sum, hleaf]
  have hboth : (Expr.array [.unquoting sum, .unquoting (.ident "y")]).Every Expr.Spliceable := by
    have hy' := hunquote (Expr.every_ident_iff.2 nofun) hy
    simp [hsum, hy', hleaf]
  have hone : (Expr.array [.unquoting sum, .ident "y"]).Every Expr.Spliceable := by
    simp [hsum, hleaf]
  refine ⟨(((quote_splices 2 0 _).1 hboth).2 _ _ _).2 (.later rfl (.here rfl)), ?_, ?_⟩
  · rw [((quote_splices 2 0 _).1 hone).1]
    rfl
  · exact (quote_splices 2 0 _).2 (Expr.every_ident_iff.2 nofun) fiveBound

end Eval

end Monkey
