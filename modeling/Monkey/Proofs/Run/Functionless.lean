import Monkey.Proofs.Run.Code
import Monkey.Proofs.Run.Congruence
import Monkey.Proofs.Run.Evaluator
import Monkey.Proofs.Run.Lookup
import Monkey.Proofs.Run.Splice

/-!
# Programs without functions — they come to an end

Nothing but a function can make a program run for ever.  What is unquoted need not be a part of the
program, though: it is rebuilt first, from syntax that other quotes have left, and may be larger than
anything in the program.  But syntax that was quoted has nothing in it to unquote, so to quote it
once more runs nothing, and its value is found from its own parts.
-/

namespace Monkey

/-! ## 1. Inert syntax and inert values -/

/-- The expression is no function literal. -/
def Expr.NotFn (e : Expr) : Prop := ∀ ps b, e ≠ .fn ps b

/-- The expression is neither a function literal nor a call that unquotes. -/
def Expr.Inert (e : Expr) : Prop := e.NotFn ∧ ∀ d, e ≠ .unquoting d

namespace Value

/-- The value is no function, and nothing in the syntax that it quotes is a function literal or a
call that unquotes. -/
structure InertPart (v : Value) : Prop where
  noFn : ∀ o f, v ≠ .fn o f
  node : ∀ o d, v = .quote o d → d.Every Expr.Inert

/-- The value is inert, and so is all that it holds. -/
def Inert (v : Value) : Prop := v.Every InertPart

/-- In all syntax that the value quotes or holds quoted, no call unquotes. -/
def UnquoteFree (v : Value) : Prop :=
  v.Every fun w => ∀ o d, w = .quote o d → d.Every fun c => ∀ b, c ≠ .unquoting b

variable {v w : Value} {o : ObjectId}

theorem Inert.unquoteFree (h : v.Inert) : v.UnquoteFree :=
  Every.imp h fun _ hw o d hd => (hw.node o d hd).imp fun _ hc => hc.2

-- A value that is no code is inert by itself.
theorem inertPart_of_not_code (hfn : ∀ o f, v ≠ .fn o f) (hquote : ∀ o d, v ≠ .quote o d) :
    v.InertPart :=
  ⟨hfn, fun o d hd => absurd hd (hquote o d)⟩

theorem inert_int (n : Int64) : (int n).Inert :=
  every_int_iff.2 (inertPart_of_not_code nofun nofun)

theorem inert_bool (b : Bool) : (bool b).Inert :=
  every_bool_iff.2 (inertPart_of_not_code nofun nofun)

theorem inert_null : null.Inert := every_null_iff.2 (inertPart_of_not_code nofun nofun)

theorem inert_str (o : ObjectId) (text : String) : (str o text).Inert :=
  every_str_iff.2 (inertPart_of_not_code nofun nofun)

theorem inert_builtin (b : Builtin) : (builtin b).Inert :=
  every_builtin_iff.2 (inertPart_of_not_code nofun nofun)

theorem inert_macroFn (o : ObjectId) (f : Closure) : (macroFn o f).Inert :=
  every_macroFn_iff.2 (inertPart_of_not_code nofun nofun)

theorem inert_quote {d : Expr} (h : d.Every Expr.Inert) : (quote o d).Inert := by
  refine every_quote_iff.2 ⟨nofun, ?_⟩
  rintro _ _ ⟨⟩
  exact h

theorem inert_array {vs : List Value} (h : ∀ v ∈ vs, v.Inert) : (array o vs).Inert :=
  every_array_iff.2 ⟨inertPart_of_not_code nofun nofun, h⟩

theorem inert_hash {es : Pairs} (h : ∀ e ∈ es, e.2.key.Inert ∧ e.2.value.Inert) :
    (hash o es).Inert :=
  every_hash_iff.2 ⟨inertPart_of_not_code nofun nofun, h⟩

theorem Fresh.inert (h : Fresh o w) : w.Inert := by
  cases h with
  | int n => exact inert_int n
  | bool b => exact inert_bool b
  | str text => exact inert_str o text

theorem inert_of_applyIndex {i : Value} (h : v.applyIndex i = .ok w) (hv : v.Inert) :
    w.Inert := by
  rcases part_of_applyIndex h with rfl | hpart
  · exact inert_null
  · exact Every.part hv hpart

theorem inert_of_arrayArgument {b : Builtin} {arity : Nat} {args elems : List Value}
    (h : b.arrayArgument arity args = .ok elems) (hargs : ∀ v ∈ args, v.Inert) :
    ∀ v ∈ elems, v.Inert := by
  intro v hv
  obtain ⟨a, ha, hpart⟩ := part_of_arrayArgument h v hv
  exact Every.part (hargs a ha) hpart

-- The literal of an inert value can be put in a quote.
theorem Inert.literal {e : Expr} (hv : v.Inert) (h : v.literal = .ok e) : e.Every Expr.Inert := by
  have hdata (e : Expr) (he : e.spellsOut = true) : e.Inert := by
    cases e with
    | int | bool | str | array | hash =>
      constructor
      · intro ps b h
        cases h
      · intro d h
        cases h
    | _ => cases he
  have hcode (w : Value) (hw : w.InertPart) : ∀ d, w.code? = some d → d.Every Expr.Inert := by
    intro d hd
    cases w with
    | quote o node =>
      cases hd
      exact hw.node o _ rfl
    | fn o f => exact absurd rfl (hw.noFn o f)
    | _ => cases hd
  exact literal_every hdata h (Every.imp hv hcode)

end Value

/-! ## 2. Stores that hold inert values only -/

/-- Scope `i` is there, has no scope around it, and binds names to inert values only. -/
def Store.Tidy (i : ScopeId) (σ : Store) : Prop :=
  ∃ s, σ.scopes[i]? = some s ∧ s.parent = none ∧ ∀ b ∈ s.bindings, b.2.Inert

namespace Store

variable {σ : Store} {i : ScopeId} {x : String} {v : Value}

theorem Tidy.lookup (h : σ.Tidy i) (hv : σ.lookup i x = some v) : v.Inert := by
  obtain ⟨s, hs, hparent, hinert⟩ := h
  rw [Store.lookup, lookupWithin, hs] at hv
  cases hx : s.bindings.get? x with
  | some w =>
    simp only [hx] at hv
    cases hv
    exact hinert _ (Table.mem_of_get? hx)
  | none =>
    simp only [hx, hparent] at hv
    cases hv

theorem Tidy.define (h : σ.Tidy i) (x : String) (hv : v.Inert) : (σ.define i x v).Tidy i := by
  obtain ⟨s, hs, hparent, hinert⟩ := h
  refine ⟨{ s with bindings := s.bindings.insert x v }, ?_, hparent, ?_⟩
  · rw [getElem?_define_self, hs]
    rfl
  intro b hb
  rcases Table.mem_insert hb with rfl | hb
  · exact hv
  · exact hinert b hb

theorem tidy_push (σ : Store) : (σ.push none).Tidy σ.next :=
  ⟨⟨[], none⟩, σ.getElem?_push_next none, rfl, nofun⟩

end Store

namespace Eval

/-! ## 3. Computations that settle -/

/-- A result of the class `Q`, an inert value that is returned, or an error. -/
inductive Ended {α : Type} (Q : α → Prop) : Except Stop α → Prop
  | ok {a} : Q a → Ended Q (.ok a)
  | returned {v : Value} : v.Inert → Ended Q (.error (.returned v))
  | failed (e : EvalError) : Ended Q (.error (.failed e))

/-- On every machine with a tidy store, the computation comes to the same end at all depths from some
on, and leaves the store tidy. -/
def Settles (i : ScopeId) {α : Type} (p : Nat → Eval α) (Q : α → Prop) : Prop :=
  ∀ m : Machine, m.store.Tidy i →
    ∃ n r m', (∀ k ≥ n, p k m = some (r, m')) ∧ m'.store.Tidy i ∧ Ended Q r

section

variable {α β : Type} {i : ScopeId} {p : Nat → Eval α} {f : Nat → α → Eval β} {Q : α → Prop}
  {T : β → Prop}

theorem settles_pure {a : α} (ha : Q a) : Settles i (fun _ => pure a) Q :=
  fun m hm => ⟨0, _, m, fun _ _ => rfl, hm, .ok ha⟩

theorem settles_fail (e : EvalError) : Settles i (fun _ => (fail e : Eval α)) Q :=
  fun m hm => ⟨0, _, m, fun _ _ => rfl, hm, .failed e⟩

theorem settles_stop {v : Value} (hv : v.Inert) :
    Settles i (fun _ => (stop (.returned v) : Eval α)) Q :=
  fun m hm => ⟨0, _, m, fun _ _ => rfl, hm, .returned hv⟩

theorem settles_ofExcept {r : Except EvalError α} (h : ∀ a, r = .ok a → Q a) :
    Settles i (fun _ => ofExcept r) Q := by
  cases r with
  | ok a => exact settles_pure (h a rfl)
  | error e => exact settles_fail e

theorem settles_newObject : Settles i (fun _ => newObject) fun _ => True :=
  fun m hm => ⟨0, _, m.takeObject, fun _ _ => rfl, hm, .ok trivial⟩

theorem settles_write (text : String) : Settles i (fun _ => write text) fun _ => True :=
  fun m hm => ⟨0, _, m.write text, fun _ _ => rfl, hm, .ok trivial⟩

theorem settles_define (x : String) {v : Value} (hv : v.Inert) :
    Settles i (fun _ => define i x v) fun _ => True :=
  fun m hm => ⟨0, _, m.define i x v, fun _ _ => rfl, hm.define x hv, .ok trivial⟩

theorem settles_lookup (x : String) :
    Settles i (fun _ => lookup i x) fun v? => ∀ v, v? = some v → v.Inert :=
  fun m hm => ⟨0, _, m, fun _ _ => rfl, hm, .ok fun _ hv => hm.lookup hv⟩

-- Behind a computation that has settled, the depth that both need is the larger one.
theorem Settles.bind (hp : Settles i p Q) (hf : ∀ a, Q a → Settles i (fun k => f k a) T) :
    Settles i (fun k => p k >>= f k) T := by
  intro m hm
  obtain ⟨n, r, m₁, hn, hm₁, hr⟩ := hp m hm
  cases hr with
  | @ok a ha =>
    obtain ⟨n', r', m₂, hn', hm₂, hr'⟩ := hf a ha m₁ hm₁
    refine ⟨max n n', r', m₂, fun k hk => ?_, hm₂, hr'⟩
    show (p k >>= f k) m = _
    rw [bind_apply, hn k (by omega)]
    exact hn' k (by omega)
  | @returned v hv =>
    refine ⟨n, _, m₁, fun k hk => ?_, hm₁, .returned hv⟩
    show (p k >>= f k) m = _
    rw [bind_apply, hn k hk]
  | failed e =>
    refine ⟨n, _, m₁, fun k hk => ?_, hm₁, .failed e⟩
    show (p k >>= f k) m = _
    rw [bind_apply, hn k hk]

theorem Settles.catchReturn {p : Nat → Eval Value} (hp : Settles i p Value.Inert) :
    Settles i (fun k => catchReturn (p k)) Value.Inert := by
  intro m hm
  obtain ⟨n, r, m', hn, hm', hr⟩ := hp m hm
  cases hr with
  | ok hv | returned hv =>
    refine ⟨n, _, m', fun k hk => ?_, hm', .ok hv⟩
    show Eval.catchReturn (p k) m = _
    rw [Eval.catchReturn, hn k hk]
  | failed e =>
    refine ⟨n, _, m', fun k hk => ?_, hm', .failed e⟩
    show Eval.catchReturn (p k) m = _
    rw [Eval.catchReturn, hn k hk]

-- An object is made of what was found, last of all.
theorem settles_object {g : ObjectId → Value} (h : ∀ o, (g o).Inert) :
    Settles i (fun _ => do return g (← newObject)) Value.Inert :=
  settles_newObject.bind fun o _ => settles_pure (h o)

theorem settles_mapM {as : List α} (h : ∀ a ∈ as, Settles i (fun k => f k a) T) :
    Settles i (fun k => as.mapM (f k)) fun bs => ∀ b ∈ bs, T b := by
  induction as with
  | nil => exact settles_pure nofun
  | cons a as ih =>
    obtain ⟨ha, has⟩ := List.forall_mem_cons.1 h
    simp only [List.mapM_cons]
    apply ha.bind
    intro b hb
    apply (ih has).bind
    intro bs hbs
    exact settles_pure (List.forall_mem_cons.2 ⟨hb, hbs⟩)

theorem settles_foldlM {g : Nat → β → α → Eval β} {as : List α}
    (h : ∀ a ∈ as, ∀ b, T b → Settles i (fun k => g k b a) T) {b : β} (hb : T b) :
    Settles i (fun k => as.foldlM (g k) b) T := by
  induction as generalizing b with
  | nil => exact settles_pure hb
  | cons a as ih =>
    obtain ⟨ha, has⟩ := List.forall_mem_cons.1 h
    simp only [List.foldlM_cons]
    apply (ha b hb).bind
    intro b' hb'
    exact ih has hb'

theorem settles_forM {g : α → Eval Unit} (h : ∀ a, Settles i (fun _ => g a) fun _ => True)
    (as : List α) : Settles i (fun _ => as.forM g) fun _ => True := by
  induction as with
  | nil => exact settles_pure trivial
  | cons a as ih => exact (h a).bind fun _ _ => ih

end

/-! ## 4. One node -/

variable {i : ScopeId}

theorem settles_builtin (b : Builtin) {args : List Value} (hargs : ∀ v ∈ args, v.Inert) :
    Settles i (fun _ => b.call args) Value.Inert := by
  have harg (b : Builtin) (arity : Nat) : Settles i
      (fun _ => ofExcept (b.arrayArgument arity args)) fun vs => ∀ v ∈ vs, v.Inert :=
    settles_ofExcept fun vs hvs => Value.inert_of_arrayArgument hvs hargs
  have hget {vs : List Value} (hvs : ∀ v ∈ vs, v.Inert) {v? : Option Value}
      (hv? : ∀ v, v? = some v → v ∈ vs) : (v?.getD .null).Inert := by
    cases v? with
    | none => exact Value.inert_null
    | some v => exact hvs v (hv? v rfl)
  cases b with
  | len =>
    apply (settles_ofExcept (Q := fun _ => True) fun _ _ => trivial).bind
    exact fun n _ => settles_pure (Value.inert_int _)
  | first =>
    apply (harg .first 1).bind
    exact fun vs hvs => settles_pure (hget hvs fun v hv => List.mem_of_head? hv)
  | last =>
    apply (harg .last 1).bind
    exact fun vs hvs => settles_pure (hget hvs fun v hv => List.mem_of_getLast? hv)
  | rest =>
    apply (harg .rest 1).bind
    intro vs hvs
    cases vs with
    | nil => exact settles_pure Value.inert_null
    | cons v vs => exact settles_object fun o => Value.inert_array (List.forall_mem_cons.1 hvs).2
  | push =>
    apply (harg .push 2).bind
    intro vs hvs
    refine settles_object fun o => Value.inert_array fun v hv => ?_
    rcases List.mem_append.1 hv with hv | hv
    · exact hvs v hv
    · exact hargs v (List.mem_of_mem_drop hv)
  | puts =>
    have hlines := settles_forM (i := i) (fun v : Value => settles_write (v.display ++ "\n")) args
    exact hlines.bind fun _ _ => settles_pure Value.inert_null
  | print => exact (settles_write _).bind fun _ _ => settles_pure Value.inert_null

variable {ev : Nat → Evaluator}

theorem settles_stmt {s : Stmt} (h : Settles i (fun k => ev k i s.value) Value.Inert) :
    Settles i (fun k => stmt (ev k) i s) Value.Inert := by
  cases s with
  | bind x e =>
    apply h.bind
    intro v hv
    exact (settles_define x hv).bind fun _ _ => settles_pure Value.inert_null
  | ret e => exact h.bind fun v hv => settles_stop hv
  | expr e => exact h

theorem settles_stmts {ss : List Stmt}
    (h : ∀ s ∈ ss, Settles i (fun k => ev k i s.value) Value.Inert) :
    Settles i (fun k => stmts (ev k) i ss) Value.Inert :=
  settles_foldlM (fun s hs _ _ => settles_stmt (h s hs)) Value.inert_null

-- What is called is no function, so its body is not run.
theorem settles_apply {callee : Value} {args : List Value} (hcallee : callee.Inert)
    (hargs : ∀ v ∈ args, v.Inert) :
    Settles i (fun k => apply (ev k) callee args) Value.Inert := by
  cases callee with
  | fn o f => exact absurd rfl (hcallee.self.noFn o f)
  | builtin b => exact settles_builtin b hargs
  | _ => exact settles_fail _

theorem settles_entry {t : Value.Pairs} (ht : ∀ e ∈ t, e.2.key.Inert ∧ e.2.value.Inert)
    {p : Expr × Expr}
    (hkey : Settles i (fun k => ev k i p.1) Value.Inert)
    (hvalue : Settles i (fun k => ev k i p.2) Value.Inert) :
    Settles i (fun k => entry (ev k) i t p)
      fun t' => ∀ e ∈ t', e.2.key.Inert ∧ e.2.value.Inert := by
  apply hkey.bind
  intro u hu
  cases u.key? with
  | none => exact settles_fail _
  | some key =>
    apply hvalue.bind
    intro v hv
    refine settles_pure fun e he => ?_
    rcases Table.mem_insert he with rfl | he
    · exact ⟨hu, hv⟩
    · exact ht e he

-- An expression settles if its parts do and, where it quotes, the quote is filled in.
theorem settles_step {e : Expr} (he : e.NotFn)
    (hparts : ∀ d, Expr.Child d e → Settles i (fun k => ev k i d) Value.Inert)
    (hquote : ∀ d, e = .call (.ident "quote") [d] →
      Settles i (fun k => quoteNode (ev k) i d) (Expr.Every Expr.Inert)) :
    Settles i (fun k => step (ev k) i e) Value.Inert := by
  cases e with
  | ident x =>
    apply (settles_lookup x).bind
    intro v? hv?
    cases v? with
    | some v => exact settles_pure (hv? v rfl)
    | none =>
      cases Builtin.ofName? x with
      | some b => exact settles_pure (Value.inert_builtin b)
      | none => exact settles_fail _
  | int n => exact settles_pure (Value.inert_int n)
  | bool b => exact settles_pure (Value.inert_bool b)
  | str text => exact settles_object fun o => Value.inert_str o text
  | array elems =>
    apply (settles_mapM fun d hd => hparts d (.elem hd)).bind
    exact fun vs hvs => settles_object fun o => Value.inert_array hvs
  | hash ps =>
    have hps : Settles i (fun k => ps.foldlM (entry (ev k) i) [])
        fun t => ∀ e ∈ t, e.2.key.Inert ∧ e.2.value.Inert :=
      settles_foldlM (fun p hp t ht =>
        settles_entry ht (hparts p.1 (.key hp)) (hparts p.2 (.entry hp))) nofun
    exact hps.bind fun t ht => settles_object fun o => Value.inert_hash ht
  | unary op a =>
    apply (hparts a .operand).bind
    exact fun v _ => settles_ofExcept fun w hw => (Value.fresh_of_applyUnary hw 0).inert
  | binary op a b =>
    apply (hparts a .left).bind
    intro v _
    apply (hparts b .right).bind
    intro w _
    apply settles_newObject.bind
    exact fun o _ => settles_ofExcept fun u hu => (Value.fresh_of_applyBinary hu).inert
  | cond test yes no =>
    apply (hparts test .test).bind
    intro v _
    by_cases hv : v.truthy = true
    · simp only [if_pos hv]
      exact settles_stmts fun s hs => hparts _ (.yes hs)
    · simp only [if_neg hv]
      cases no with
      | some ss => exact settles_stmts fun s hs => hparts _ (.no hs)
      | none => exact settles_pure Value.inert_null
  | fn params body => exact absurd rfl (he params body)
  | macroFn params body => exact settles_object fun o => Value.inert_macroFn o _
  | call callee args =>
    cases hq : (Expr.call callee args).callTo? "quote" with
    | some quoted =>
      simp only [step, hq, quote]
      split
      · next d =>
        apply (hquote d (Expr.callTo?_eq_some_iff.1 hq)).bind
        exact fun node hnode => settles_object fun o => Value.inert_quote hnode
      · exact settles_fail _
    | none =>
      simp only [step, hq]
      apply (hparts callee .callee).bind
      intro f hf
      apply (settles_mapM fun d hd => hparts d (.arg hd)).bind
      exact fun vs hvs => settles_apply hf hvs
  | index a b =>
    apply (hparts a .indexed).bind
    intro v hv
    apply (hparts b .idx).bind
    exact fun w _ => settles_ofExcept fun u hu => Value.inert_of_applyIndex hu hv

/-! ## 5. Evaluation that is watched -/

open Classical in
/-- Evaluates as `eval` does, but breaks off, as if the depth did not suffice, behind any node whose
value is not of the class `P`. -/
noncomputable def watched (P : Value → Prop) : Nat → Evaluator
  | 0 => fun _ _ => unfinished
  | n + 1 => fun i e => do
    let v ← step (watched P n) i e
    if P v then return v else unfinished

open Classical in
theorem watched_succ (P : Value → Prop) (n : Nat) (i : ScopeId) (e : Expr) (m : Machine) :
    watched P (n + 1) i e m =
      match step (watched P n) i e m with
      | some (.ok v, m') => if P v then some (.ok v, m') else none
      | r => r := by
  show (step (watched P n) i e >>= fun v => if P v then pure v else unfinished) m = _
  rw [bind_apply]
  rcases step (watched P n) i e m with _ | ⟨s | v, m'⟩
  · rfl
  · rfl
  · simp only
    split <;> rfl

-- Evaluation that is not broken off is evaluation.
theorem watched_endsAs (P : Value → Prop) (n : Nat) (i : ScopeId) (e : Expr) :
    EndsAs (watched P n i e) (eval n i e) := by
  induction n generalizing i e with
  | zero => exact fun m r h => nomatch h
  | succ n ih =>
    intro m r h
    have hstep := endsAs_congruence.step ih i e m
    rw [watched_succ] at h
    split at h
    · next v m' hm =>
      split at h
      · exact hstep r (hm.trans h)
      · cases h
    · exact hstep r h

theorem settles_watched {P : Value → Prop} (hP : ∀ v, v.Inert → P v) {e : Expr}
    (h : Settles i (fun k => step (watched P k) i e) Value.Inert) :
    Settles i (fun k => watched P k i e) Value.Inert := by
  intro m hm
  obtain ⟨n, r, m', hn, hm', hr⟩ := h m hm
  refine ⟨n + 1, r, m', fun k hk => ?_, hm', hr⟩
  obtain ⟨k, rfl⟩ : ∃ k', k = k' + 1 := ⟨k - 1, by omega⟩
  show watched P (k + 1) i e m = _
  have hk : step (watched P k) i e m = some (r, m') := hn k (by omega)
  rw [watched_succ, hk]
  cases hr with
  | ok hv => exact if_pos (hP _ hv)
  | returned hv => rfl
  | failed e => rfl

/-! ## 6. Quotes, and programs -/

-- A pass at all depths at once is, at each of them, the pass at that depth.
theorem quoteNode_eq_pass (ev : Nat → Evaluator) (i : ScopeId) (e : Expr) (k : Nat) :
    (Traversal.bottomUp (m := ReaderT Nat Eval) fun e k => unquote (ev k) i e).expr e k =
      quoteNode (ev k) i e := by
  have halike : Alike (m := ReaderT Nat Eval) fun α p (q : Eval α) => p k = q := by
    refine ⟨fun a => rfl, ?_⟩
    intro α β p q f g hp hf
    show (p k >>= fun a => f a k) = q >>= g
    rw [hp, funext hf]
  exact Traversal.expr_alike halike (Traversal.bottomUp_actAlike halike fun _ => rfl) e

theorem settles_judgement (i : ScopeId) :
    Judgement (m := ReaderT Nat Eval) (n := ReaderT Nat Eval)
      fun _ p _ Q => Settles i p Q where
  pure ha := settles_pure ha
  bind hp hf := hp.bind hf

section

variable {P : Value → Prop} (hP : ∀ v, v.Inert → P v)

include hP

-- Inert syntax settles: to quote a part of it runs nothing.
theorem settles_of_inert (e : Expr) (he : e.Every Expr.Inert) :
    Settles i (fun k => watched P k i e) Value.Inert := by
  apply settles_watched hP
  apply settles_step he.self.1
  · exact fun d hd => settles_of_inert d (he.child hd)
  · rintro d rfl
    have hd := he.child (.arg List.mem_cons_self)
    have hnode (k : Nat) : quoteNode (watched P k) i d = pure d :=
      Traversal.expr_eq_pure (unquote_splices _ i) (hd.imp fun _ hc => hc.2)
    simp only [hnode]
    exact settles_pure hd
termination_by sizeOf e
decreasing_by exact hd.sizeOf_lt

theorem settles_unquote {e : Expr} (he : e.NotFn)
    (hparts : ∀ d, Expr.Child d e → d.Every Expr.Inert) :
    Settles i (fun k => unquote (watched P k) i e) (Expr.Every Expr.Inert) := by
  by_cases hun : ∃ d, e = .unquoting d
  · obtain ⟨d, rfl⟩ := hun
    have hd := settles_of_inert hP (i := i) d (hparts d (.arg List.mem_cons_self))
    apply hd.catchReturn.bind
    exact fun v hv => settles_ofExcept fun c hc => hv.literal hc
  · have hne (d : Expr) : e ≠ .unquoting d := fun hd => hun ⟨d, hd⟩
    have hkeep (k : Nat) : unquote (watched P k) i e = pure e := (unquote_splices _ i).keep hne
    simp only [hkeep]
    exact settles_pure (Expr.every_iff.2 ⟨⟨he, hne⟩, hparts⟩)

-- The syntax that a quote is filled in with is inert, and so is what is rebuilt around it.
theorem settles_quoteNode {e : Expr} (he : e.Every Expr.NotFn) :
    Settles i (fun k => quoteNode (watched P k) i e) (Expr.Every Expr.Inert) := by
  have hact : Traversal.Rebuilds (m := ReaderT Nat Eval) (n := ReaderT Nat Eval)
      (fun _ p _ Q => Settles i p Q) Expr.NotFn (fun _ c => c.Every Expr.Inert)
      (fun c k => unquote (watched P k) i c) fun c k => unquote (watched P k) i c := by
    intro c c' hc hcc'
    apply settles_unquote hP
    · rintro params body rfl
      cases hcc' with
      | fn => exact hc.self params _ rfl
    · intro d' hd'
      obtain ⟨d, -, hd⟩ := hcc'.exists_child hd'
      exact hd
  have hpass := Traversal.expr_rebuilds (settles_judgement i) hact e he
  simp only [← quoteNode_eq_pass]
  exact hpass

-- So does whatever holds no function literal: what its quotes are filled in with settles.
theorem settles_of_noFn (e : Expr) (he : e.Every Expr.NotFn) :
    Settles i (fun k => watched P k i e) Value.Inert := by
  apply settles_watched hP
  apply settles_step he.self
  · exact fun d hd => settles_of_noFn d (he.child hd)
  · rintro d rfl
    exact settles_quoteNode hP (he.child (.arg List.mem_cons_self))
termination_by sizeOf e
decreasing_by exact hd.sizeOf_lt

end

/-- **Programs without function literals come to an end**, whatever they quote and unquote.  No
function literal may stand anywhere in the program, in quotes and macros included.  Then from some
depth on the program, run in a new scope, always ends in the same way.  And on its way there it
evaluates nothing to a value that is or holds a quote in which a call still unquotes. -/
theorem functionless_programs_end (p : Program) (hp : ∀ s ∈ p, s.value.Every Expr.NotFn)
    (m : Machine) : ∃ n r m', ∀ k ≥ n,
      program k m.store.next p (m.pushScope none) = some (valueOf r, m') ∧
      stmts (watched Value.UnquoteFree k) m.store.next p (m.pushScope none) = some (r, m') := by
  have hfree (v : Value) (hv : v.Inert) : v.UnquoteFree := hv.unquoteFree
  have hstmts : Settles m.store.next
      (fun k => stmts (watched Value.UnquoteFree k) m.store.next p) Value.Inert :=
    settles_stmts fun s hs => settles_of_noFn hfree s.value (hp s hs)
  obtain ⟨n, r, m', hn, -, -⟩ := hstmts (m.pushScope none) (Store.tidy_push m.store)
  refine ⟨n, r, m', fun k hk => ⟨?_, hn k hk⟩⟩
  have hends := endsAs_congruence.stmtsFrom (watched_endsAs Value.UnquoteFree k) m.store.next
  rw [program_eq, stmts, hends .null p _ _ (hn k hk)]
  rfl

/-- The program `quote(unquote(quote(unquote))(unquote(quote(1)) + 2))`.  What it unquotes last is a
call whose callee was spliced in, of a sum whose left side was. -/
def splicedCall : Program :=
  let quoted (e : Expr) : Expr := .call (.ident "quote") [e]
  let sum : Expr := .binary .add (.unquoting (quoted (.int 1))) (.int 2)
  [.expr (quoted (.call (.unquoting (quoted (.ident "unquote"))) [sum]))]

/-- It has no function literal, and its value is the quote of three. -/
theorem splicedCall_value :
    (∀ s ∈ splicedCall, s.value.Every Expr.NotFn) ∧
      ∃ n r m', ∀ k ≥ n,
        program k 0 splicedCall ((Machine.initial .silent).pushScope none) =
          some (.quote 3 (.int 3), m') ∧
        stmts (watched Value.UnquoteFree k) 0 splicedCall
          ((Machine.initial .silent).pushScope none) = some (r, m') := by
  have hnoFn : ∀ s ∈ splicedCall, s.value.Every Expr.NotFn := by
    simp [splicedCall, Stmt.value, Expr.unquoting, Expr.NotFn]
  refine ⟨hnoFn, ?_⟩
  obtain ⟨n, r, m', hn⟩ := functionless_programs_end splicedCall hnoFn (.initial .silent)
  have hrun : (program 5 0 splicedCall ((Machine.initial .silent).pushScope none)).map Prod.fst =
      some (.quote 3 (.int 3)) := rfl
  obtain ⟨⟨v, m₁⟩, hv, hquote⟩ := Option.map_eq_some_iff.1 hrun
  have hvalue : valueOf r = .quote 3 (.int 3) := by
    have hmax := (hn (max n 5) (Nat.le_max_left n 5)).1
    cases hmax.symm.trans (program_mono (Nat.le_max_right n 5) hv)
    exact hquote
  exact ⟨n, r, m', hvalue ▸ hn⟩

end Eval

end Monkey
