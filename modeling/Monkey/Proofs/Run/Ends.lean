import Monkey.Proofs.Run.Congruence

/-!
# Ends — what the end of a run says about its parts

A sequence that comes to its end has come through each of its parts, and one that was stopped was
stopped in one of them: none of those behind it was reached.  A `return` stops no more than the call
around it, so whatever is made of calls only is stopped by errors alone.
-/

namespace Monkey

namespace Eval

variable {α β : Type} {p : Eval α} {f : α → Eval β} {m m' m'' : Machine} {s : Stop}

/-! ## 1. Sequences -/

theorem bind_eq_ok_iff {b : β} : (p >>= f) m = some (.ok b, m'') ↔
    ∃ a m', p m = some (.ok a, m') ∧ f a m' = some (.ok b, m'') := by
  rw [bind_apply]
  rcases p m with _ | ⟨s | a, m'⟩
  · exact ⟨nofun, fun ⟨_, _, h, _⟩ => nomatch h⟩
  · exact ⟨nofun, fun ⟨_, _, h, _⟩ => nomatch h⟩
  · apply Iff.intro
    · exact fun h => ⟨a, m', rfl, h⟩
    · rintro ⟨_, _, h, hf⟩
      cases h
      exact hf

theorem bind_eq_error_iff : (p >>= f) m = some (.error s, m'') ↔
    p m = some (.error s, m'') ∨
      ∃ a m', p m = some (.ok a, m') ∧ f a m' = some (.error s, m'') := by
  rw [bind_apply]
  rcases p m with _ | ⟨s' | a, m'⟩
  · exact ⟨nofun, fun h => h.elim nofun fun ⟨_, _, h, _⟩ => nomatch h⟩
  · apply Iff.intro
    · intro h
      cases h
      exact .inl rfl
    · rintro (h | ⟨_, _, h, _⟩)
      · cases h
        rfl
      · cases h
  · apply Iff.intro
    · exact fun h => .inr ⟨a, m', rfl, h⟩
    · rintro (h | ⟨_, _, h, hf⟩)
      · cases h
      · cases h
        exact hf

-- Runs that all leave the machine as it is may be made in turn.
theorem mapM_of_stays {run : α → Eval β} {g : α → β} {as : List α}
    (h : ∀ a ∈ as, run a m = some (.ok (g a), m)) : as.mapM run m = some (.ok (as.map g), m) := by
  induction as with
  | nil => rfl
  | cons a as ih =>
    obtain ⟨ha, has⟩ := List.forall_mem_cons.1 h
    rw [List.mapM_cons, bind_apply, ha]
    simp only [bind_apply, ih has, pure_apply, List.map_cons]

/-! ## 2. Where a run was stopped -/

/-- Elements were run in order, each in the machine that those before it had left, up to one that
was stopped by `s`.  That one has left the machine `m'`. -/
inductive StoppedAt (run : α → Eval β) (s : Stop) : List α → Machine → Machine → Prop
  | here {a as m m'} : run a m = some (.error s, m') → StoppedAt run s (a :: as) m m'
  | later {a as b m m₁ m'} : run a m = some (.ok b, m₁) → StoppedAt run s as m₁ m' →
      StoppedAt run s (a :: as) m m'

theorem stmtsFrom_eq_error_iff {eval : Evaluator} {i : ScopeId} {ss : List Stmt} {v : Value} :
    stmtsFrom eval i v ss m = some (.error s, m') ↔ StoppedAt (stmt eval i) s ss m m' := by
  induction ss generalizing v m with
  | nil => exact ⟨nofun, nofun⟩
  | cons t ss ih =>
    rw [stmtsFrom, List.foldlM_cons, bind_eq_error_iff]
    apply Iff.intro
    · rintro (h | ⟨w, m₁, h, hss⟩)
      · exact .here h
      · exact .later h (ih.1 hss)
    · intro h
      cases h with
      | here h => exact .inl h
      | later h hss => exact .inr ⟨_, _, h, ih.2 hss⟩

theorem mapM_eq_error_iff {run : α → Eval β} {as : List α} :
    as.mapM run m = some (.error s, m') ↔ StoppedAt run s as m m' := by
  induction as generalizing m with
  | nil => exact ⟨nofun, nofun⟩
  | cons a as ih =>
    rw [List.mapM_cons, bind_eq_error_iff]
    apply Iff.intro
    · rintro (h | ⟨b, m₁, h, has⟩)
      · exact .here h
      · rcases bind_eq_error_iff.1 has with has | ⟨_, _, _, hpure⟩
        · exact .later h (ih.1 has)
        · cases hpure
    · intro h
      cases h with
      | here h => exact .inl h
      | later h has => exact .inr ⟨_, _, h, bind_eq_error_iff.2 (.inl (ih.2 has))⟩

-- Every result is one of an element that was run.
theorem exists_of_mem_mapM {run : α → Eval β} {as : List α} {bs : List β}
    (h : as.mapM run m = some (.ok bs, m')) {b : β} (hb : b ∈ bs) :
    ∃ a ∈ as, ∃ m₁ m₂, run a m₁ = some (.ok b, m₂) := by
  induction as generalizing m bs with
  | nil =>
    cases h
    cases hb
  | cons a as ih =>
    rw [List.mapM_cons] at h
    obtain ⟨c, m₁, hc, hrest⟩ := bind_eq_ok_iff.1 h
    obtain ⟨cs, m₂, hcs, hpure⟩ := bind_eq_ok_iff.1 hrest
    cases hpure
    rcases List.mem_cons.1 hb with rfl | hb
    · exact ⟨a, List.mem_cons_self, m, m₁, hc⟩
    · obtain ⟨a', ha', hrun⟩ := ih hcs hb
      exact ⟨a', List.mem_cons_of_mem a ha', hrun⟩

theorem traversal_stmts_eq_error_iff {t : Traversal Eval} {ss : List Stmt} :
    t.stmts ss m = some (.error s, m') ↔ StoppedAt t.stmt s ss m m' := by
  induction ss generalizing m with
  | nil => exact ⟨nofun, nofun⟩
  | cons u ss ih =>
    rw [Traversal.stmts, bind_eq_error_iff]
    apply Iff.intro
    · rintro (h | ⟨u', m₁, h, hss⟩)
      · exact .here h
      · rcases bind_eq_error_iff.1 hss with hss | ⟨_, _, _, hpure⟩
        · exact .later h (ih.1 hss)
        · cases hpure
    · intro h
      cases h with
      | here h => exact .inl h
      | later h hss => exact .inr ⟨_, _, h, bind_eq_error_iff.2 (.inl (ih.2 hss))⟩

/-! ## 3. Calls are never stopped by a return -/

/-- If the computation is stopped, then by an error. -/
def NeverReturns (p : Eval α) : Prop := ∀ m v m', p m ≠ some (.error (.returned v), m')

theorem NeverReturns.bind (hp : NeverReturns p) (hf : ∀ a, NeverReturns (f a)) :
    NeverReturns (p >>= f) := by
  intro m v m' h
  rcases bind_eq_error_iff.1 h with h | ⟨a, m₁, -, h⟩
  · exact hp m v m' h
  · exact hf a m₁ v m' h

theorem neverReturns_pure (a : α) : NeverReturns (pure a : Eval α) := nofun

theorem neverReturns_fail (e : EvalError) : NeverReturns (fail e : Eval α) := nofun

theorem neverReturns_ofExcept (r : Except EvalError α) : NeverReturns (ofExcept r) := by
  cases r with
  | ok a => exact neverReturns_pure a
  | error e => exact neverReturns_fail e

theorem neverReturns_newObject : NeverReturns newObject := nofun

theorem neverReturns_newScope (i : ScopeId) : NeverReturns (newScope i) := nofun

theorem neverReturns_define (i : ScopeId) (x : String) (v : Value) :
    NeverReturns (define i x v) := nofun

theorem neverReturns_lookup (i : ScopeId) (x : String) : NeverReturns (lookup i x) := nofun

theorem neverReturns_write (text : String) : NeverReturns (write text) := nofun

theorem neverReturns_catchReturn (p : Eval Value) : NeverReturns (catchReturn p) := by
  intro m v m' h
  unfold catchReturn at h
  split at h
  · cases h
  · next hnot => exact hnot v m' h

-- What never returns has nothing to catch.
theorem NeverReturns.catchReturn_eq {p : Eval Value} (hp : NeverReturns p) : catchReturn p = p := by
  funext m
  unfold catchReturn
  split
  · next h => exact absurd h (hp m _ _)
  · rfl

theorem neverReturns_alike : Alike fun α (p _ : Eval α) => NeverReturns p where
  pure := neverReturns_pure
  bind := NeverReturns.bind

theorem NeverReturns.mapM {g : α → Eval β} (h : ∀ a, NeverReturns (g a)) (as : List α) :
    NeverReturns (as.mapM g) := by
  induction as with
  | nil => exact neverReturns_pure []
  | cons a as ih =>
    rw [List.mapM_cons]
    exact (h a).bind fun b => ih.bind fun bs => neverReturns_pure _

theorem NeverReturns.forM {g : α → Eval Unit} (h : ∀ a, NeverReturns (g a)) (as : List α) :
    NeverReturns (as.forM g) := by
  induction as with
  | nil => exact neverReturns_pure ()
  | cons a as ih => exact (h a).bind fun _ => ih

theorem neverReturns_builtin (b : Builtin) (args : List Value) : NeverReturns (b.call args) := by
  have harg (b : Builtin) (arity : Nat) := neverReturns_ofExcept (b.arrayArgument arity args)
  have harray (vs : List Value) : NeverReturns (do return Value.array (← newObject) vs) :=
    neverReturns_newObject.bind fun _ => neverReturns_pure _
  cases b with
  | len => exact (neverReturns_ofExcept _).bind fun _ => neverReturns_pure _
  | first => exact (harg .first 1).bind fun _ => neverReturns_pure _
  | last => exact (harg .last 1).bind fun _ => neverReturns_pure _
  | rest =>
    apply (harg .rest 1).bind
    intro elems
    cases elems with
    | nil => exact neverReturns_pure _
    | cons _ elems => exact harray elems
  | push => exact (harg .push 2).bind fun elems => harray _
  | puts =>
    have hlines := NeverReturns.forM (fun v : Value => neverReturns_write (v.display ++ "\n")) args
    exact hlines.bind fun _ => neverReturns_pure _
  | print => exact (neverReturns_write _).bind fun _ => neverReturns_pure _

variable (eval : Evaluator)

theorem neverReturns_callClosure (c : Closure) (args : List Value) :
    NeverReturns (callClosure eval c args) := by
  unfold callClosure
  split
  · exact neverReturns_fail _
  · apply (neverReturns_newScope c.scope).bind
    intro i
    have hbind : NeverReturns (bindParams i c.params args) :=
      NeverReturns.forM (fun p : String × Value => neverReturns_define i p.1 p.2) _
    exact hbind.bind fun _ => neverReturns_catchReturn _

theorem neverReturns_apply (v : Value) (args : List Value) : NeverReturns (apply eval v args) := by
  cases v with
  | fn o c => exact neverReturns_callClosure eval c args
  | builtin b => exact neverReturns_builtin b args
  | _ => exact neverReturns_fail _

-- A `return` inside of what is unquoted counts as its value.
theorem neverReturns_quote (i : ScopeId) (args : List Expr) :
    NeverReturns (quote eval i args) := by
  have hunquote (e : Expr) : NeverReturns (unquote eval i e) := by
    unfold unquote
    split
    · exact (neverReturns_catchReturn _).bind fun _ => neverReturns_ofExcept _
    · exact neverReturns_pure e
  have hact := Traversal.bottomUp_actAlike (g := unquote eval i) neverReturns_alike hunquote
  unfold quote
  split
  · next e =>
    have hnode : NeverReturns (quoteNode eval i e) :=
      Traversal.expr_alike neverReturns_alike hact e
    exact hnode.bind fun _ => neverReturns_newObject.bind fun _ => neverReturns_pure _
  · exact neverReturns_fail _

theorem neverReturns_callMacro (c : Closure) (args : List Expr) :
    NeverReturns (callMacro eval c args) := by
  have hquoted (e : Expr) : NeverReturns (quoted e) :=
    neverReturns_newObject.bind fun _ => neverReturns_pure _
  apply (NeverReturns.mapM hquoted args).bind
  intro vs
  apply (neverReturns_callClosure eval c vs).bind
  intro v
  cases v with
  | quote _ node => exact neverReturns_pure node
  | _ => exact neverReturns_fail _

theorem neverReturns_expandProgram (i : ScopeId) (p : Program) :
    NeverReturns (expandProgram eval i p) := by
  have hcall (e : Expr) : NeverReturns (expandCall eval i e) := by
    unfold expandCall
    split
    · next x args =>
      apply (neverReturns_lookup i x).bind
      intro v?
      split
      · exact neverReturns_callMacro eval _ args
      · exact neverReturns_pure _
    · exact neverReturns_pure e
  have hact := Traversal.bottomUp_actAlike (g := expandCall eval i) neverReturns_alike hcall
  exact Traversal.program_alike neverReturns_alike hact p

end Eval

end Monkey
