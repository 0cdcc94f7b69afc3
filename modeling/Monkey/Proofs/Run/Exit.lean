import Monkey.Proofs.Run.Hash
import Monkey.Proofs.Run.Printing
import Monkey.Proofs.Run.Rebuild

/-!
# Exits — programs are sequences that can be left early

A statement that is stopped stops the statements around it, through whatever lies in between: the
branches, operands, arguments, elements, pairs and indexes in which it stands, but no call.  What
stands behind is not run, so it has no influence.  Statements that come to their end hand on what
they have left, and those behind go on in it.
-/

namespace Monkey

open Store

namespace Eval

variable {α β : Type} {n k : Nat} {i : ScopeId} {m m' m₁ : Machine} {x : Stop} {v : Value}

/-! ## 1. Statements in two parts -/

section

variable {eval : Evaluator}

-- The value that statements start with matters only if there are none.
theorem stmtsFrom_eq_stmts {ss : List Stmt} (hss : ss ≠ []) (v : Value) :
    stmtsFrom eval i v ss = stmts eval i ss := by
  rcases List.exists_cons_of_ne_nil hss with ⟨s, ss, rfl⟩
  rfl

theorem stmts_append (ss ts : List Stmt) :
    stmts eval i (ss ++ ts) = stmts eval i ss >>= fun v => stmtsFrom eval i v ts :=
  List.foldlM_append

-- A first part that comes to its end hands its machine on to the second.
theorem stmts_append_of_ok {ss ts : List Stmt} {v : Value}
    (h : stmts eval i ss m = some (.ok v, m')) (hts : ts ≠ []) :
    stmts eval i (ss ++ ts) m = stmts eval i ts m' := by
  rw [stmts_append, bind_apply, h, ← stmtsFrom_eq_stmts hts v]

-- A first part that is stopped stops the whole.
theorem stmts_append_of_error {ss : List Stmt} {r : Stop}
    (h : stmts eval i ss m = some (.error r, m')) (ts : List Stmt) :
    stmts eval i (ss ++ ts) m = some (.error r, m') := by
  rw [stmts_append, bind_apply, h]

end

/-! ## 2. What comes to be run -/

/-- Elements are run in order, each in the machine that those before it have left, and all before
`c` come to their ends.  So `c` is run in the machine `m'`. -/
inductive ArrivesAt (run : α → Eval β) : List α → Machine → α → Machine → Prop
  | first {a as m} : ArrivesAt run (a :: as) m a m
  | next {a as b m m₁ c m'} : run a m = some (.ok b, m₁) → ArrivesAt run as m₁ c m' →
      ArrivesAt run (a :: as) m c m'

theorem stoppedAt_iff {run : α → Eval β} {as : List α} :
    StoppedAt run x as m m' ↔
      ∃ c m₁, ArrivesAt run as m c m₁ ∧ run c m₁ = some (.error x, m') := by
  constructor
  · intro h
    induction h with
    | here h => exact ⟨_, _, .first, h⟩
    | later h _ ih =>
      obtain ⟨c, m₁, hc, hrun⟩ := ih
      exact ⟨c, m₁, .next h hc, hrun⟩
  · rintro ⟨c, m₁, hc, hrun⟩
    induction hc with
    | first => exact .here hrun
    | next h _ ih => exact .later h (ih hrun)

/-- To evaluate the expression in the machine `m`, the statement is run in the machine `m'`.  A part
of the expression counts as the statement that it makes.  Neither the body of what is called nor
what is unquoted inside a quote is meant. -/
inductive Visits (n : Nat) (i : ScopeId) : Expr → Machine → Stmt → Machine → Prop
  | elem {es e m m'} : ArrivesAt (eval n i) es m e m' → Visits n i (.array es) m (.expr e) m'
  | key {ps p m m'} : ArrivesAt (pair (eval n) i) ps m p m' →
      Visits n i (.hash ps) m (.expr p.1) m'
  | entry {ps p m m₁ k m'} : ArrivesAt (pair (eval n) i) ps m p m₁ →
      eval n i p.1 m₁ = some (.ok k, m') → k.key?.isSome → Visits n i (.hash ps) m (.expr p.2) m'
  | operand {op e m} : Visits n i (.unary op e) m (.expr e) m
  | left {op l r m} : Visits n i (.binary op l r) m (.expr l) m
  | right {op l r m v m'} : eval n i l m = some (.ok v, m') →
      Visits n i (.binary op l r) m (.expr r) m'
  | test {test yes no m} : Visits n i (.cond test yes no) m (.expr test) m
  | yes {test yes no m v m₁ s m'} : eval n i test m = some (.ok v, m₁) → v.truthy = true →
      ArrivesAt (stmt (eval n) i) yes m₁ s m' → Visits n i (.cond test yes no) m s m'
  | no {test yes no m v m₁ s m'} : eval n i test m = some (.ok v, m₁) → v.truthy ≠ true →
      ArrivesAt (stmt (eval n) i) no m₁ s m' → Visits n i (.cond test yes (some no)) m s m'
  | callee {f args m} : (Expr.call f args).callTo? "quote" = none →
      Visits n i (.call f args) m (.expr f) m
  | arg {f args m v m₁ e m'} : (Expr.call f args).callTo? "quote" = none →
      eval n i f m = some (.ok v, m₁) → ArrivesAt (eval n i) args m₁ e m' →
      Visits n i (.call f args) m (.expr e) m'
  | indexed {l r m} : Visits n i (.index l r) m (.expr l) m
  | idx {l r m v m'} : eval n i l m = some (.ok v, m') → Visits n i (.index l r) m (.expr r) m'

/-- Running the statement with the depth `n` in the machine `m`, one comes to run `t` with the depth
`k` in `m'`: it is the statement itself, or lies inside of it at any depth. -/
inductive Encloses (i : ScopeId) : Nat → Stmt → Machine → Nat → Stmt → Machine → Prop
  | self {n s m} : Encloses i n s m n s m
  | inner {n s m u m₁ k t m'} : Visits n i s.value m u m₁ → Encloses i n u m₁ k t m' →
      Encloses i (n + 1) s m k t m'

/-- Running statements, one comes to run `t`, which is one of them or lies inside of one. -/
def GetsTo (n : Nat) (i : ScopeId) (ss : List Stmt) (m : Machine) (k : Nat) (t : Stmt)
    (m' : Machine) : Prop :=
  ∃ s m₁, ArrivesAt (stmt (eval n) i) ss m s m₁ ∧ Encloses i n s m₁ k t m'

/-! ## 3. A stop goes through -/

theorem eval_call {f : Expr} {args : List Expr}
    (h : (Expr.call f args).callTo? "quote" = none) : eval (n + 1) i (.call f args) = (do
      let v ← eval n i f
      let vs ← args.mapM (eval n i)
      apply (eval n) v vs) := by
  simp only [eval, step, h]

-- What a part stops with, stops the whole.
theorem eval_of_visits {e : Expr} {t : Stmt} (h : Visits n i e m t m₁)
    (ht : stmt (eval n) i t m₁ = some (.error x, m')) :
    eval (n + 1) i e m = some (.error x, m') := by
  have hmapM {es : List Expr} {d : Expr} {m} (hd : ArrivesAt (eval n i) es m d m₁)
      (hrun : eval n i d m₁ = some (.error x, m')) :
      es.mapM (eval n i) m = some (.error x, m') :=
    mapM_eq_error_iff.2 (stoppedAt_iff.2 ⟨d, m₁, hd, hrun⟩)
  have hstmts {ss : List Stmt} {m} (hs : ArrivesAt (stmt (eval n) i) ss m t m₁) :
      stmts (eval n) i ss m = some (.error x, m') :=
    stmtsFrom_eq_error_iff.2 (stoppedAt_iff.2 ⟨t, m₁, hs, ht⟩)
  cases h with
  | elem hd => exact bind_eq_error_iff.2 (.inl (hmapM hd ht))
  | key hp =>
    have hpair : pair (eval n) i _ m₁ = some (.error x, m') := bind_eq_error_iff.2 (.inl ht)
    exact eval_hash_eq_error_iff.2 (stoppedAt_iff.2 ⟨_, _, hp, hpair⟩)
  | entry hp hk hkey =>
    obtain ⟨key, hkey⟩ := Option.isSome_iff_exists.1 hkey
    refine eval_hash_eq_error_iff.2 (stoppedAt_iff.2 ⟨_, _, hp, ?_⟩)
    refine bind_eq_error_iff.2 (.inr ⟨_, _, hk, ?_⟩)
    simp only [hkey]
    exact bind_eq_error_iff.2 (.inl ht)
  | operand | left | test | indexed => exact bind_eq_error_iff.2 (.inl ht)
  | right hl | idx hl =>
    exact bind_eq_error_iff.2 (.inr ⟨_, _, hl, bind_eq_error_iff.2 (.inl ht)⟩)
  | yes htest hv hs =>
    refine bind_eq_error_iff.2 (.inr ⟨_, _, htest, ?_⟩)
    rw [if_pos hv]
    exact hstmts hs
  | no htest hv hs =>
    refine bind_eq_error_iff.2 (.inr ⟨_, _, htest, ?_⟩)
    rw [if_neg hv]
    exact hstmts hs
  | callee hq =>
    rw [eval_call hq]
    exact bind_eq_error_iff.2 (.inl ht)
  | arg hq hf hd =>
    rw [eval_call hq]
    exact bind_eq_error_iff.2 (.inr ⟨_, _, hf, bind_eq_error_iff.2 (.inl (hmapM hd ht))⟩)

-- Nor can a statement go on if its expression is stopped.
theorem stmt_of_value_error {eval : Evaluator} {s : Stmt}
    (h : eval i s.value m = some (.error x, m')) : stmt eval i s m = some (.error x, m') := by
  cases s with
  | expr e => exact h
  | _ => exact bind_eq_error_iff.2 (.inl h)

theorem Encloses.stmt_error {s t : Stmt} (h : Encloses i n s m k t m₁)
    (ht : stmt (eval k) i t m₁ = some (.error x, m')) :
    stmt (eval n) i s m = some (.error x, m') := by
  induction h with
  | self => exact ht
  | inner hu _ ih => exact stmt_of_value_error (eval_of_visits hu (ih ht))

theorem GetsTo.stmts_error {ss : List Stmt} {t : Stmt} (h : GetsTo n i ss m k t m₁)
    (ht : stmt (eval k) i t m₁ = some (.error x, m')) :
    stmts (eval n) i ss m = some (.error x, m') := by
  obtain ⟨s, m₂, hs, hencloses⟩ := h
  exact stmtsFrom_eq_error_iff.2 (stoppedAt_iff.2 ⟨s, m₂, hs, hencloses.stmt_error ht⟩)

/-! ## 4. Where a return comes from -/

-- Only a part that a return stops can make it stop an expression: no operation, call or quote does.
theorem exists_visits_of_returned {e : Expr}
    (h : eval (n + 1) i e m = some (.error (.returned v), m')) :
    ∃ t m₁, Visits n i e m t m₁ ∧ stmt (eval n) i t m₁ = some (.error (.returned v), m') := by
  have hmapM {es : List Expr} {m} (hes : es.mapM (eval n i) m = some (.error (.returned v), m')) :
      ∃ d m₁, ArrivesAt (eval n i) es m d m₁ ∧
        stmt (eval n) i (.expr d) m₁ = some (.error (.returned v), m') :=
    stoppedAt_iff.1 (mapM_eq_error_iff.1 hes)
  have hstmts {ss : List Stmt} {m}
      (hss : stmts (eval n) i ss m = some (.error (.returned v), m')) :
      ∃ s m₁, ArrivesAt (stmt (eval n) i) ss m s m₁ ∧
        stmt (eval n) i s m₁ = some (.error (.returned v), m') :=
    stoppedAt_iff.1 (stmtsFrom_eq_error_iff.1 hss)
  cases e with
  | ident y =>
    obtain h | ⟨w, m₁, -, h⟩ := bind_eq_error_iff.1 h
    · exact absurd h (neverReturns_lookup i y m v m')
    · cases w with
      | some w => cases h
      | none =>
        cases hb : Builtin.ofName? y <;> simp only [hb] at h <;> cases h
  | int | bool | str | fn | macroFn => cases h
  | array es =>
    obtain h | ⟨vs, m₁, -, h⟩ := bind_eq_error_iff.1 h
    · obtain ⟨d, m₁, hd, hrun⟩ := hmapM h
      exact ⟨_, m₁, .elem hd, hrun⟩
    · cases h
  | hash ps =>
    obtain ⟨p, m₁, hp, h⟩ := stoppedAt_iff.1 (eval_hash_eq_error_iff.1 h)
    obtain h | ⟨k, m₂, hk, h⟩ := bind_eq_error_iff.1 h
    · exact ⟨_, m₁, .key hp, h⟩
    · cases hkey : k.key? with
      | none =>
        simp only [hkey] at h
        cases h
      | some key =>
        simp only [hkey] at h
        obtain h | ⟨w, m₃, -, h⟩ := bind_eq_error_iff.1 h
        · exact ⟨_, m₂, .entry hp hk (by rw [hkey]; rfl), h⟩
        · cases h
  | unary op d =>
    obtain h | ⟨w, m₁, -, h⟩ := bind_eq_error_iff.1 h
    · exact ⟨_, m, .operand, h⟩
    · exact absurd h (neverReturns_ofExcept _ m₁ v m')
  | binary op l r =>
    obtain h | ⟨a, m₁, hl, h⟩ := bind_eq_error_iff.1 h
    · exact ⟨_, m, .left, h⟩
    · obtain h | ⟨b, m₂, -, h⟩ := bind_eq_error_iff.1 h
      · exact ⟨_, m₁, .right hl, h⟩
      · exact absurd h (neverReturns_ofExcept _ m₂.takeObject v m')
  | cond test yes no =>
    obtain h | ⟨w, m₁, htest, h⟩ := bind_eq_error_iff.1 h
    · exact ⟨_, m, .test, h⟩
    · by_cases hw : w.truthy = true
      · rw [if_pos hw] at h
        obtain ⟨s, m₂, hs, hrun⟩ := hstmts h
        exact ⟨s, m₂, .yes htest hw hs, hrun⟩
      · rw [if_neg hw] at h
        cases no with
        | none => cases h
        | some ss =>
          obtain ⟨s, m₂, hs, hrun⟩ := hstmts h
          exact ⟨s, m₂, .no htest hw hs, hrun⟩
  | call f args =>
    cases hq : (Expr.call f args).callTo? "quote" with
    | some quoted =>
      simp only [eval, step, hq] at h
      exact absurd h (neverReturns_quote (eval n) i quoted m v m')
    | none =>
      rw [eval_call hq] at h
      obtain h | ⟨w, m₁, hf, h⟩ := bind_eq_error_iff.1 h
      · exact ⟨_, m, .callee hq, h⟩
      · obtain h | ⟨vs, m₂, -, h⟩ := bind_eq_error_iff.1 h
        · obtain ⟨d, m₂, hd, hrun⟩ := hmapM h
          exact ⟨_, m₂, .arg hq hf hd, hrun⟩
        · exact absurd h (neverReturns_apply (eval n) w vs m₂ v m')
  | index l r =>
    obtain h | ⟨a, m₁, hl, h⟩ := bind_eq_error_iff.1 h
    · exact ⟨_, m, .indexed, h⟩
    · obtain h | ⟨b, m₂, -, h⟩ := bind_eq_error_iff.1 h
      · exact ⟨_, m₁, .idx hl, h⟩
      · exact absurd h (neverReturns_ofExcept _ m₂ v m')

-- By induction on the depth: the way down to the return is one visit after the other.
theorem exists_encloses_of_returned {s : Stmt}
    (h : stmt (eval n) i s m = some (.error (.returned v), m')) :
    ∃ k d m₁, Encloses i n s m k (.ret d) m₁ ∧ eval k i d m₁ = some (.ok v, m') := by
  induction n generalizing s m with
  | zero => cases s <;> cases h
  | succ n ih =>
    have hvalue (hs : eval (n + 1) i s.value m = some (.error (.returned v), m')) :
        ∃ k d m₁, Encloses i (n + 1) s m k (.ret d) m₁ ∧ eval k i d m₁ = some (.ok v, m') := by
      obtain ⟨t, m₁, ht, hrun⟩ := exists_visits_of_returned hs
      obtain ⟨k, d, m₂, hencloses, hd⟩ := ih hrun
      exact ⟨k, d, m₂, .inner ht hencloses, hd⟩
    cases s with
    | bind y e =>
      obtain h | ⟨w, m₁, -, h⟩ := bind_eq_error_iff.1 h
      · exact hvalue h
      · cases h
    | ret e =>
      obtain h | ⟨w, m₁, he, h⟩ := bind_eq_error_iff.1 h
      · exact hvalue h
      · cases h
        exact ⟨n + 1, e, m, .self, he⟩
    | expr e => exact hvalue h

theorem stmts_returned_iff {ss : List Stmt} :
    stmts (eval n) i ss m = some (.error (.returned v), m') ↔
      ∃ k d m₁, GetsTo n i ss m k (.ret d) m₁ ∧ eval k i d m₁ = some (.ok v, m') := by
  constructor
  · intro h
    obtain ⟨s, m₁, hs, hrun⟩ := stoppedAt_iff.1 (stmtsFrom_eq_error_iff.1 h)
    obtain ⟨k, d, m₂, hencloses, hd⟩ := exists_encloses_of_returned hrun
    exact ⟨k, d, m₂, ⟨s, m₁, hs, hencloses⟩, hd⟩
  · rintro ⟨k, d, m₁, hgets, hd⟩
    refine hgets.stmts_error (x := .returned v) ?_
    exact bind_eq_error_iff.2 (.inr ⟨v, m', hd, rfl⟩)

/-! ## 5. Bodies -/

theorem define_newest (ss : Array Scope) (s : Scope) (x : String) (v : Value) :
    (Store.mk (ss.push s)).define ss.size x v =
      ⟨ss.push { s with bindings := s.bindings.insert x v }⟩ := by
  refine congrArg Store.mk (Array.ext_getElem? fun i => ?_)
  by_cases hi : i = ss.size
  · rw [hi, Array.getElem?_modify]
    simp
  · simp [Array.getElem?_modify, Array.getElem?_push, hi, Ne.symm hi]

-- Names that are bound in the newest scope get into its table, and nothing else changes.
theorem forM_define_newest (ss : Array Scope) (s : Scope) (ps : List (String × Value))
    (o : ObjectId) (out : Output) :
    (ps.forM fun p => define ss.size p.1 p.2) ⟨⟨ss.push s⟩, o, out⟩ =
      some (.ok (), ⟨⟨ss.push { s with bindings := Table.insertAll ps s.bindings }⟩, o, out⟩) := by
  induction ps generalizing s with
  | nil => rfl
  | cons p ps ih =>
    have hp : define ss.size p.1 p.2 ⟨⟨ss.push s⟩, o, out⟩ =
        some (.ok (), ⟨⟨ss.push { s with bindings := s.bindings.insert p.1 p.2 }⟩, o, out⟩) := by
      rw [← define_newest]
      rfl
    show (define ss.size p.1 p.2 >>= fun _ => ps.forM _) _ = _
    rw [bind_apply, hp]
    exact ih _

-- The scope of a call binds the parameters, and what the call was made in stays as it was.
theorem bindParams_newest (params : List String) (vs : List Value) (parent : Option ScopeId)
    (m : Machine) : bindParams m.store.next params vs (m.pushScope parent) =
      some (.ok (), ⟨⟨m.store.scopes.push ⟨Table.insertAll (params.zip vs) [], parent⟩⟩,
        m.nextObject, m.output⟩) :=
  forM_define_newest m.store.scopes ⟨[], parent⟩ (params.zip vs) m.nextObject m.output

/-- The machine in which the body of a function is run, whose scope is the newest one and binds the
parameters to the arguments. -/
def entered (m : Machine) (f : Closure) (args : List Value) : Machine :=
  { m with store := ⟨m.store.scopes.push
    ⟨Table.insertAll (f.params.zip args) [], some f.scope⟩⟩ }

theorem callClosure_eq {f : Closure} {args : List Value} (h : f.params.length = args.length)
    (eval : Evaluator) (m : Machine) : callClosure eval f args m =
      catchReturn (stmts eval m.store.next f.body) (entered m f args) := by
  have hparams := bindParams_newest f.params args (some f.scope) m
  rw [callClosure, if_neg (not_not_intro h)]
  show (bindParams m.store.next f.params args >>= _) (m.pushScope (some f.scope)) = _
  rw [bind_apply, hparams]
  rfl

-- What a result of a body is as that of the call.
def caught : Except Stop Value → Except Stop Value
  | .error (.returned v) => .ok v
  | r => r

theorem catchReturn_apply (p : Eval Value) (m : Machine) :
    catchReturn p m = (p m).map fun r => (caught r.1, r.2) := by
  unfold catchReturn
  rcases p m with _ | ⟨(_ | _) | _, _⟩ <;> rfl

theorem callClosure_of_stmts {f : Closure} {args : List Value}
    (hargs : f.params.length = args.length) {r : Except Stop Value}
    (h : stmts (eval n) m.store.next f.body (entered m f args) = some (r, m')) :
    callClosure (eval n) f args m = some (caught r, m') := by
  rw [callClosure_eq hargs, catchReturn_apply, h]
  rfl

-- A body that goes on behind statements that have come to their end.
theorem callClosure_append_of_ok {f : Closure} {args : List Value}
    (hargs : f.params.length = args.length)
    (h : stmts (eval n) m.store.next f.body (entered m f args) = some (.ok v, m')) (b : Block) :
    callClosure (eval n) { f with body := f.body ++ b } args m =
      if b = [] then some (.ok v, m') else catchReturn (stmts (eval n) m.store.next b) m' := by
  split
  · next hb =>
    rw [hb, List.append_nil]
    exact callClosure_of_stmts hargs h
  · next hb =>
    rw [callClosure_eq (f := { f with body := f.body ++ b }) hargs, catchReturn_apply,
      catchReturn_apply]
    exact congrArg _ (stmts_append_of_ok h hb)

/-! ## 6. Sequences with early exit -/

theorem program_of_stmts {p : Program} {r : Except Stop Value}
    (h : stmts (eval n) i p m = some (r, m')) : program n i p m = some (valueOf r, m') := by
  rw [program_eq, h]
  rfl

-- A program behind statements that have come to their end.
theorem program_append_of_ok {p : Program} (h : stmts (eval n) i p m = some (.ok v, m'))
    (q : Program) : program n i (p ++ q) m = if q = [] then some (v, m') else program n i q m' := by
  split
  · next hq =>
    rw [hq, List.append_nil]
    exact program_of_stmts h
  · next hq => rw [program_eq, program_eq, stmts_append_of_ok h hq]

theorem exists_write_of_stmts {p : Program} {r : Except Stop Value}
    (h : stmts (eval n) i p m = some (r, m')) : ∃ t, m'.output = m.output.write t := by
  have hprogram : program n i p (m.withOutput m.output) = _ := program_of_stmts h
  rcases program_blind n i p m with hnone | ⟨t, w, m₁, hwrites⟩
  · rw [hnone] at hprogram
    cases hprogram
  · rw [hwrites] at hprogram
    cases hprogram
    exact ⟨t, rfl⟩

/-- With every output the program `q` writes the same text in the machine `m'` and leaves the same
behind, and so it does behind `p`, which has come to the value `v` and left `m'`: the whole writes
what `p` has written, and then this text. -/
def WritesBehind (n : Nat) (i : ScopeId) (p q : Program) (m : Machine) (v : Value) (m' : Machine) :
    Prop :=
  ∃ t u w m'', m'.output = m.output.write t ∧
    (∀ o, program n i q (m'.withOutput o) = some (w, Machine.withOutput m'' (o.write u))) ∧
    program n i (p ++ q) m =
      some (if q = [] then v else w, m''.withOutput (m.output.write (t ++ u)))

theorem writesBehind_of_ok {p : Program} (h : stmts (eval n) i p m = some (.ok v, m'))
    (q : Program) :
    (∀ o, program n i q (m'.withOutput o) = none) ∨ WritesBehind n i p q m v m' := by
  obtain ⟨t, ht⟩ := exists_write_of_stmts h
  rcases program_blind n i q m' with hnone | ⟨u, w, m'', hwrites⟩
  · exact .inl hnone
  · refine .inr ⟨t, u, w, m'', ht, hwrites, ?_⟩
    have hself : program n i q m' = some (w, m''.withOutput (m.output.write (t ++ u))) := by
      rw [Output.write_append, ← ht]
      exact hwrites m'.output
    rw [program_append_of_ok h]
    split
    · next hq =>
      subst hq
      cases hself
      rfl
    · exact hself

/-- **Programs are sequences with early exit.**  A statement that is reached, inside of whatever but
a call, and stopped, stops the program, and it is by a `return` that is reached in this way that a
program is stopped with a value.  A program that is stopped does the same with every other program
behind it.  One that comes to its end hands on the machine that it leaves: the other runs in it, its
value is that of the whole, unless it has no statement, and what it writes stands behind what was
written before.  The body of a function can be cut into parts in the same way. -/
theorem programs_exit_early (n : Nat) (i : ScopeId) (p : Program) (m : Machine) :
    (∀ k t m₁ x m', GetsTo n i p m k t m₁ → stmt (eval k) i t m₁ = some (.error x, m') →
      stmts (eval n) i p m = some (.error x, m')) ∧
    (∀ v m', stmts (eval n) i p m = some (.error (.returned v), m') ↔
      ∃ k d m₁, GetsTo n i p m k (.ret d) m₁ ∧ eval k i d m₁ = some (.ok v, m')) ∧
    (∀ x m', stmts (eval n) i p m = some (.error x, m') → ∀ q, ∀ k ≥ n,
      program k i (p ++ q) m = program k i p m ∧
      program k i p m = some (valueOf (.error x), m')) ∧
    (∀ v m', stmts (eval n) i p m = some (.ok v, m') → ∀ q, ∀ k ≥ n,
      program k i (p ++ q) m = (if q = [] then some (v, m') else program k i q m') ∧
      ((∀ o, program k i q (m'.withOutput o) = none) ∨ WritesBehind k i p q m v m')) ∧
    ∀ (f : Closure) (args : List Value) (b : Block), f.params.length = args.length →
      (∀ x m', stmts (eval n) m.store.next f.body (entered m f args) = some (.error x, m') →
        ∀ k ≥ n, callClosure (eval k) { f with body := f.body ++ b } args m =
            callClosure (eval k) f args m ∧
          callClosure (eval k) f args m = some (caught (.error x), m')) ∧
      (∀ v m', stmts (eval n) m.store.next f.body (entered m f args) = some (.ok v, m') →
        ∀ k ≥ n, callClosure (eval k) { f with body := f.body ++ b } args m =
          if b = [] then some (.ok v, m') else catchReturn (stmts (eval k) m.store.next b) m') := by
  refine ⟨fun _ _ _ _ _ ht hrun => ht.stmts_error hrun, fun _ _ => stmts_returned_iff, ?_, ?_, ?_⟩
  · intro x m' h q k hk
    have h' := stmts_endsAs hk i p m _ h
    have halone := program_of_stmts h'
    have hwhole := program_of_stmts (stmts_append_of_error h' q)
    exact ⟨hwhole.trans halone.symm, halone⟩
  · intro v m' h q k hk
    have h' := stmts_endsAs hk i p m _ h
    exact ⟨program_append_of_ok h' q, writesBehind_of_ok h' q⟩
  · intro f args b hargs
    refine ⟨fun x m' h k hk => ?_, fun v m' h k hk => ?_⟩
    · have h' := stmts_endsAs hk _ f.body _ _ h
      have halone := callClosure_of_stmts hargs h'
      have hwhole := callClosure_of_stmts (f := { f with body := f.body ++ b }) hargs
        (stmts_append_of_error h' b)
      exact ⟨hwhole.trans halone.symm, halone⟩
    · exact callClosure_append_of_ok hargs (stmts_endsAs hk _ f.body _ _ h) b

/-- In `1 + if (true) { return 2 }; y` a `return` is reached inside of an operand, so it does no
harm that `y` is unbound, be this a program or the body of a function.  In `3; y` it does. -/
theorem return_inside_operand :
    let m := Machine.initial .silent
    let p : Program := [.expr (.binary .add (.int 1) (.cond (.bool true) [.ret (.int 2)] none))]
    let y : Program := [.expr (.ident "y")]
    let f : Closure := ⟨[], p, 0⟩
    program 3 0 (p ++ y) m = some (.int 2, m) ∧
    callClosure (eval 3) { f with body := p ++ y } [] m = some (.ok (.int 2), entered m f []) ∧
    program 1 0 ([.expr (.int 3)] ++ y) m = some (.error (.unboundName "y"), m) := by
  intro m p y f
  have hgets (j : ScopeId) (m : Machine) : GetsTo 3 j p m 1 (.ret (.int 2)) m :=
    ⟨_, m, .first, .inner (.right rfl) (.inner (.yes rfl rfl .first) .self)⟩
  have hprogram := programs_exit_early 3 0 p m
  have hbody := programs_exit_early 3 m.store.next p (entered m f [])
  have hstop := (hprogram.2.1 (.int 2) m).2 ⟨1, _, m, hgets 0 m, rfl⟩
  have hreturn := hbody.1 1 _ _ (.returned (.int 2)) _ (hgets _ _) rfl
  have hends := (programs_exit_early 1 0 [.expr (.int 3)] m).2.2.2.1 (.int 3) m rfl
  refine ⟨?_, ?_, ?_⟩
  · obtain ⟨hwhole, halone⟩ := hprogram.2.2.1 _ m hstop y 3 (Nat.le_refl 3)
    exact hwhole.trans halone
  · obtain ⟨hwhole, halone⟩ := (hprogram.2.2.2.2 f [] y rfl).1 _ _ hreturn 3 (Nat.le_refl 3)
    exact hwhole.trans halone
  · exact (hends y 1 (Nat.le_refl 1)).1

end Eval

end Monkey
