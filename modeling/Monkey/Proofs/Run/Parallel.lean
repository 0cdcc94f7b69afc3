import Monkey.Expansion
import Monkey.Proofs.Run.Simulation

/-!
# Parallel runs — the evaluator on two machines

Each operation of the evaluator matches itself on a machine that has in common what a lawful
simulation asks for, if the evaluator for the parts does.  Induction on the depth then gives the
whole evaluator, and with it statements, calls, programs and the expansion of macros.
-/

namespace Monkey

open Value

-- Where the parts that were rebuilt mention only some names, so does the whole.
theorem Expr.names_of_rebuilt {N : String → Prop} {e e' : Expr} (he : e.Names N)
    (h : e.Rebuilt (fun _ d => d.Names N) e') : e'.Names N := by
  refine every_iff.2 ⟨?_, fun d hd => ?_⟩
  · rintro x rfl
    cases h
    exact he.self x rfl
  · obtain ⟨_, -, hnames⟩ := h.exists_child hd
    exact hnames

namespace Simulation

variable {S : Simulation} {i : ScopeId} {o : ObjectId} {m m' : Machine} {eval : Evaluator}
  {v w : Value} {vs ws : List Value}

/-! ## 1. Twins -/

theorem twin_str (ho : S.object m o) (text : String) :
    S.Twin m (.str o text) (.str (S.ρ.object o) text) :=
  ⟨within_str_iff.2 ho, rfl⟩

theorem Twins.array (h : S.Twins m vs ws) (ho : S.object m o) :
    S.Twin m (.array o vs) (.array (S.ρ.object o) ws) :=
  ⟨within_array_iff.2 ⟨ho, h.within⟩, by rw [rename, renameList_eq_map, h.eq]⟩

theorem twin_quote (ho : S.object m o) {node : Expr} (hnode : node.Names S.name) :
    S.Twin m (.quote o node) (.quote (S.ρ.object o) node) :=
  ⟨within_quote_iff.2 ⟨ho, hnode⟩, rfl⟩

theorem twin_getD {v? : Option Value} (h : ∀ v, v? = some v → v.Within (S.bounds m)) :
    S.Twin m (v?.getD .null) ((v?.map (rename S.ρ)).getD .null) := by
  cases v? with
  | none => exact twin_of_object?_eq_none rfl rfl
  | some v => exact ⟨h v rfl, rfl⟩

/-- The second table has the entries of the first one, under their other names. -/
structure TwinEntries (S : Simulation) (m : Machine) (t u : Pairs) : Prop where
  within : ∀ e ∈ t, e.2.key.Within (S.bounds m) ∧ e.2.value.Within (S.bounds m)
  eq : u = t.mapValues (HashPair.map (rename S.ρ))

theorem TwinEntries.nil : S.TwinEntries m [] [] := ⟨fun _ he => absurd he List.not_mem_nil, rfl⟩

variable {t u : Pairs}

theorem TwinEntries.mono {m₁ : Machine} (h : S.TwinEntries m t u) (hS : S.Lawful)
    (hm : m.Grows m₁) : S.TwinEntries m₁ t u :=
  ⟨fun e he => (h.within e he).imp (hS.within_mono hm) (hS.within_mono hm), h.eq⟩

theorem TwinEntries.insert {k l : Value} (h : S.TwinEntries m t u) (key : HashKey)
    (hkl : S.Twin m k l) (hvw : S.Twin m v w) :
    S.TwinEntries m (t.insert key ⟨k, v⟩) (u.insert key ⟨l, w⟩) := by
  refine ⟨fun e hmem => ?_, ?_⟩
  · rcases Table.mem_insert hmem with rfl | hmem
    · exact ⟨hkl.within, hvw.within⟩
    · exact h.within e hmem
  · rw [h.eq, hkl.eq, hvw.eq, ← Table.insert_mapValues]
    rfl

theorem TwinEntries.hash (h : S.TwinEntries m t u) (ho : S.object m o) :
    S.Twin m (.hash o t) (.hash (S.ρ.object o) u) :=
  ⟨within_hash_iff.2 ⟨ho, h.within⟩, by rw [rename, renameEntries_eq_mapValues, h.eq]⟩

/-! ## 2. Builtins -/

theorem Lawful.array (hS : S.Lawful) (h : S.related m m') (hvs : S.Twins m vs ws) :
    S.Matches m m' (do return .array (← .newObject) vs) (do return .array (← .newObject) ws)
      S.Twin := by
  apply (hS.newObject h).bind
  rintro o _ m₁ m₁' hm₁ h₁ ⟨ho, rfl⟩
  exact matches_pure h₁ ((hvs.mono hS hm₁).array ho)

theorem Lawful.builtin (hS : S.Lawful) (b : Builtin) (h : S.related m m') (hvs : S.Twins m vs ws) :
    S.Matches m m' (b.call vs) (b.call ws) S.Twin := by
  have harg (b : Builtin) (arity : Nat) :
      S.Matches m m' (.ofExcept (b.arrayArgument arity vs)) (.ofExcept (b.arrayArgument arity ws))
        S.Twins := by
    apply matches_ofExcept (k := List.map (rename S.ρ)) h
    · rw [hvs.eq, arrayArgument_rename]
    · exact fun elems he => ⟨within_of_arrayArgument he hvs.within, rfl⟩
  cases b with
  | len =>
    have hmeasure : S.Matches m m' (.ofExcept (Builtin.measure vs)) (.ofExcept (Builtin.measure ws))
        fun _ k k' => k' = k := by
      apply matches_ofExcept (k := id) h
      · rw [hvs.eq, measure_rename, Except.map_id]
        rfl
      · exact fun _ _ => rfl
    apply hmeasure.bind
    rintro k _ m₁ m₁' - h₁ rfl
    exact matches_pure h₁ (twin_of_object?_eq_none rfl rfl)
  | first =>
    apply (harg .first 1).bind
    rintro elems _ m₁ m₁' - h₁ ⟨helems, rfl⟩
    apply matches_pure h₁
    rw [List.head?_map]
    exact twin_getD fun v hv => helems v (List.mem_of_head? hv)
  | last =>
    apply (harg .last 1).bind
    rintro elems _ m₁ m₁' - h₁ ⟨helems, rfl⟩
    apply matches_pure h₁
    rw [List.getLast?_map]
    exact twin_getD fun v hv => helems v (List.mem_of_getLast? hv)
  | rest =>
    apply (harg .rest 1).bind
    rintro elems _ m₁ m₁' - h₁ ⟨helems, rfl⟩
    cases elems with
    | nil => exact matches_pure h₁ (twin_of_object?_eq_none rfl rfl)
    | cons v elems => exact hS.array h₁ ⟨(List.forall_mem_cons.1 helems).2, rfl⟩
  | push =>
    apply (harg .push 2).bind
    rintro elems _ m₁ m₁' hm₁ h₁ ⟨helems, rfl⟩
    have hvs₁ := hvs.mono hS hm₁
    refine hS.array h₁ ⟨List.forall_mem_append.2 ⟨helems, fun v hv => ?_⟩, ?_⟩
    · exact hvs₁.within v (List.mem_of_mem_drop hv)
    · rw [hvs.eq, List.map_append, List.map_drop]
  | puts =>
    have hlines : S.Matches m m' (vs.forM fun v => .write (v.display ++ "\n"))
        (ws.forM fun v => .write (v.display ++ "\n")) fun _ _ _ => True := by
      rw [hvs.eq]
      apply matches_forM vs _ h
      intro v _ m₁ m₁' _ h₁
      rw [display_rename]
      exact hS.print h₁ _
    apply hlines.bind
    intro _ _ m₁ m₁' _ h₁ _
    exact matches_pure h₁ (twin_of_object?_eq_none rfl rfl)
  | print =>
    have hsame : displayList ws = displayList vs := by
      rw [hvs.eq, ← renameList_eq_map, displayList_rename]
    show S.Matches m m' (.write (" ".intercalate (displayList vs)) >>= _)
      (.write (" ".intercalate (displayList ws)) >>= _) S.Twin
    rw [hsame]
    apply (hS.print h _).bind
    intro _ _ m₁ m₁' _ h₁ _
    exact matches_pure h₁ (twin_of_object?_eq_none rfl rfl)

/-! ## 3. Statements and calls -/

/-- On related machines the evaluator comes to twins. -/
def Simulates (S : Simulation) (eval : Evaluator) : Prop :=
  ∀ i e m m', S.related m m' → S.scope m i → e.Names S.name →
    S.Matches m m' (eval i e) (eval (S.ρ.scope i) e) S.Twin

theorem Lawful.stmt (hS : S.Lawful) (he : S.Simulates eval) {s : Stmt} (hs : s.value.Names S.name)
    (h : S.related m m') (hi : S.scope m i) :
    S.Matches m m' (Eval.stmt eval i s) (Eval.stmt eval (S.ρ.scope i) s) S.Twin := by
  cases s with
  | bind x e =>
    apply (he i e m m' h hi hs).bind
    intro v w m₁ m₁' hm₁ h₁ hvw
    apply (hS.binds h₁ (hS.scope_mono hm₁ hi) x hvw).bind
    intro _ _ m₂ m₂' _ h₂ _
    exact matches_pure h₂ (twin_of_object?_eq_none rfl rfl)
  | ret e =>
    apply (he i e m m' h hi hs).bind
    intro v w m₁ m₁' _ h₁ hvw
    exact matches_return h₁ hvw
  | expr e => exact he i e m m' h hi hs

theorem Lawful.stmts (hS : S.Lawful) (he : S.Simulates eval) {ss : List Stmt}
    (hss : ∀ s ∈ ss, s.value.Names S.name) (h : S.related m m') (hi : S.scope m i) :
    S.Matches m m' (Eval.stmts eval i ss) (Eval.stmts eval (S.ρ.scope i) ss) S.Twin := by
  refine matches_foldlM ss (fun s hs _ _ m₁ m₁' hm₁ h₁ _ => ?_) h
    (twin_of_object?_eq_none rfl rfl)
  exact hS.stmt he (hss s hs) h₁ (hS.scope_mono hm₁ hi)

theorem Lawful.bindParams (hS : S.Lawful) (params : List String) (h : S.related m m')
    (hi : S.scope m i) (hvs : S.Twins m vs ws) :
    S.Matches m m' (Eval.bindParams i params vs) (Eval.bindParams (S.ρ.scope i) params ws)
      fun _ _ _ => True := by
  unfold Eval.bindParams
  rw [hvs.eq, List.zip_map_right]
  refine matches_forM _ (fun p hp m₁ m₁' hm₁ h₁ => ?_) h
  have hv := hvs.within p.2 (List.of_mem_zip hp).2
  exact hS.binds h₁ (hS.scope_mono hm₁ hi) p.1 ⟨hS.within_mono hm₁ hv, rfl⟩

theorem Lawful.callClosure (hS : S.Lawful) (he : S.Simulates eval) {f : Closure}
    (hf : f.Within (S.bounds m)) (h : S.related m m') (hvs : S.Twins m vs ws) :
    S.Matches m m' (Eval.callClosure eval f vs) (Eval.callClosure eval (f.rename S.ρ) ws)
      S.Twin := by
  have hlength : ws.length = vs.length := by rw [hvs.eq, List.length_map]
  unfold Eval.callClosure
  rw [hlength]
  show S.Matches m m' (if f.params.length ≠ vs.length then _ else _)
    (if f.params.length ≠ vs.length then _ else _) S.Twin
  split
  · exact matches_fail h _
  · obtain ⟨h₁, hj, hnext⟩ := hS.enter h hf.scope
    have hscope : S.Matches m m' (.newScope f.scope) (.newScope (S.ρ.scope f.scope))
        fun m₁ j j' => S.scope m₁ j ∧ j' = S.ρ.scope j :=
      .ended rfl rfl (m.grows_pushScope _) h₁ (.ok ⟨hj, hnext⟩)
    apply hscope.bind
    rintro j _ m₁ m₁' hm₁ h₁ ⟨hj, rfl⟩
    apply (hS.bindParams f.params h₁ hj (hvs.mono hS hm₁)).bind
    intro _ _ m₂ m₂' hm₂ h₂ _
    exact (hS.stmts he hf.code h₂ (hS.scope_mono hm₂ hj)).catchReturn

theorem Lawful.apply (hS : S.Lawful) (he : S.Simulates eval) (h : S.related m m')
    (hvw : S.Twin m v w) (hvs : S.Twins m vs ws) :
    S.Matches m m' (Eval.apply eval v vs) (Eval.apply eval w ws) S.Twin := by
  obtain ⟨hv, rfl⟩ := hvw
  cases v with
  | fn o f => exact hS.callClosure he (within_fn_iff.1 hv).2 h hvs
  | builtin b => exact hS.builtin b h hvs
  | _ => exact matches_fail h _

/-! ## 4. Quotes -/

/-- Wherever both machines hold scope `i`, both computations come to one and the same, which is of
the class `Q`. -/
def Agrees (S : Simulation) (i : ScopeId) ⦃α : Type⦄ (p q : Eval α) (Q : α → Prop) : Prop :=
  ∀ m m', S.related m m' → S.scope m i → S.Matches m m' p q fun _ a b => b = a ∧ Q a

theorem Lawful.judgement (hS : S.Lawful) (i : ScopeId) : Judgement (S.Agrees i) where
  pure ha _ _ h _ := matches_pure h ⟨rfl, ha⟩
  bind hpq hfg m m' h hi := by
    apply (hpq m m' h hi).bind
    rintro _ a m₁ m₁' hm₁ h₁ ⟨rfl, ha⟩
    exact hfg a ha m₁ m₁' h₁ (hS.scope_mono hm₁ hi)

theorem Simulates.unquote (he : S.Simulates eval) {e : Expr} (hnames : e.Names S.name)
    (h : S.related m m') (hi : S.scope m i) :
    S.Matches m m' (Eval.unquote eval i e) (Eval.unquote eval (S.ρ.scope i) e)
      fun _ a b => b = a ∧ a.Names S.name := by
  unfold Eval.unquote
  split
  · next d hd =>
    obtain rfl := Expr.callTo?_eq_some_iff.1 hd
    have hd := hnames.child (.arg List.mem_cons_self)
    apply (he i d m m' h hi hd).catchReturn.bind
    rintro v _ m₁ m₁' - h₁ ⟨hv, rfl⟩
    apply matches_ofExcept (k := id) h₁
    · rw [literal_rename, Except.map_id]
      rfl
    · exact fun a ha => ⟨rfl, literal_names ha hv⟩
  · exact matches_pure h ⟨rfl, hnames⟩

theorem Lawful.quote (hS : S.Lawful) (he : S.Simulates eval) {args : List Expr}
    (hargs : ∀ e ∈ args, e.Names S.name) (h : S.related m m') (hi : S.scope m i) :
    S.Matches m m' (Eval.quote eval i args) (Eval.quote eval (S.ρ.scope i) args) S.Twin := by
  have hact : Traversal.Rebuilds (S.Agrees i) (fun d => ∀ x, d = .ident x → S.name x)
      (fun _ d => d.Names S.name) (Eval.unquote eval i) (Eval.unquote eval (S.ρ.scope i)) :=
    fun e e' hnames hee' m m' h hi => he.unquote (Expr.names_of_rebuilt hnames hee') h hi
  unfold Eval.quote
  split
  · next e =>
    have hnode := Traversal.expr_rebuilds (hS.judgement i) hact e (hargs e List.mem_cons_self)
    apply (hnode m m' h hi).bind
    rintro node _ m₁ m₁' - h₁ ⟨rfl, hnames⟩
    apply (hS.newObject h₁).bind
    rintro o _ m₂ m₂' - h₂ ⟨ho, rfl⟩
    exact matches_pure h₂ (twin_quote ho hnames)
  · exact matches_fail h _

/-! ## 5. Expressions -/

theorem Lawful.name (hS : S.Lawful) {x : String} (hx : S.name x) (h : S.related m m')
    (hi : S.scope m i) :
    S.Matches m m' (Eval.name i x) (Eval.name (S.ρ.scope i) x) S.Twin := by
  apply (hS.looksUp hx h hi).bind
  rintro v? _ m₁ m₁' - h₁ ⟨rfl, hv⟩
  cases v? with
  | some v => exact matches_pure h₁ ⟨hv v rfl, rfl⟩
  | none =>
    cases Builtin.ofName? x with
    | some b => exact matches_pure h₁ (twin_of_object?_eq_none rfl rfl)
    | none => exact matches_fail h₁ _

theorem Lawful.exprs (hS : S.Lawful) (he : S.Simulates eval) {es : List Expr}
    (hes : ∀ e ∈ es, e.Names S.name) (h : S.related m m') (hi : S.scope m i) :
    S.Matches m m' (es.mapM (eval i)) (es.mapM (eval (S.ρ.scope i))) S.Twins :=
  hS.mapM es (fun e hmem m₁ m₁' hm₁ h₁ => he i e m₁ m₁' h₁ (hS.scope_mono hm₁ hi) (hes e hmem)) h

theorem Lawful.entry (hS : S.Lawful) (he : S.Simulates eval) {p : Expr × Expr}
    (hp : p.1.Names S.name ∧ p.2.Names S.name) (h : S.related m m') (hi : S.scope m i)
    (htu : S.TwinEntries m t u) :
    S.Matches m m' (Eval.entry eval i t p) (Eval.entry eval (S.ρ.scope i) u p)
      S.TwinEntries := by
  apply (he i p.1 m m' h hi hp.1).bind
  rintro k l m₁ m₁' hm₁ h₁ hkl
  have hkey : l.key? = k.key? := by rw [hkl.eq, key?_rename]
  have htype : l.type = k.type := by rw [hkl.eq, type_rename]
  rw [hkey, htype]
  cases k.key? with
  | none => exact matches_fail h₁ _
  | some key =>
    apply (he i p.2 m₁ m₁' h₁ (hS.scope_mono hm₁ hi) hp.2).bind
    intro v w m₂ m₂' hm₂ h₂ hvw
    exact matches_pure h₂ ((htu.mono hS (hm₁.trans hm₂)).insert key (hkl.mono hS hm₂) hvw)

-- One node, over an evaluator for the parts.
theorem Lawful.step (hS : S.Lawful) (he : S.Simulates eval) : S.Simulates (Eval.step eval) := by
  intro i e m m' h hi hnames
  cases e with
  | ident x => exact hS.name (hnames.self x rfl) h hi
  | int n | bool b => exact matches_pure h (twin_of_object?_eq_none rfl rfl)
  | str text =>
    apply (hS.newObject h).bind
    rintro o _ m₁ m₁' - h₁ ⟨ho, rfl⟩
    exact matches_pure h₁ (twin_str ho text)
  | array elems =>
    apply (hS.exprs he (fun e hmem => hnames.child (.elem hmem)) h hi).bind
    intro vs ws m₁ m₁' _ h₁ hvs
    exact hS.array h₁ hvs
  | hash ps =>
    have hentries : S.Matches m m' (ps.foldlM (Eval.entry eval i) [])
        (ps.foldlM (Eval.entry eval (S.ρ.scope i)) []) S.TwinEntries := by
      refine matches_foldlM ps (fun p hp t u m₁ m₁' hm₁ h₁ htu => ?_) h TwinEntries.nil
      have hp := And.intro (hnames.child (.key hp)) (hnames.child (.entry hp))
      exact hS.entry he hp h₁ (hS.scope_mono hm₁ hi) htu
    apply hentries.bind
    intro t u m₁ m₁' _ h₁ htu
    apply (hS.newObject h₁).bind
    rintro o _ m₂ m₂' hm₂ h₂ ⟨ho, rfl⟩
    exact matches_pure h₂ ((htu.mono hS hm₂).hash ho)
  | unary op e =>
    apply (he i e m m' h hi (hnames.child .operand)).bind
    rintro v _ m₁ m₁' - h₁ ⟨-, rfl⟩
    apply matches_ofExcept h₁ (applyUnary_rename op v)
    exact fun w hw => ⟨within_of_applyUnary hw, rfl⟩
  | binary op l r =>
    apply (he i l m m' h hi (hnames.child .left)).bind
    rintro a _ m₁ m₁' hm₁ h₁ ⟨-, rfl⟩
    apply (he i r m₁ m₁' h₁ (hS.scope_mono hm₁ hi) (hnames.child .right)).bind
    rintro b _ m₂ m₂' - h₂ ⟨-, rfl⟩
    apply (hS.newObject h₂).bind
    rintro o _ m₃ m₃' - h₃ ⟨ho, rfl⟩
    apply matches_ofExcept h₃ (applyBinary_rename hS.object_injective o op a b)
    exact fun w hw => ⟨within_of_applyBinary hw ho, rfl⟩
  | cond test yes no =>
    apply (he i test m m' h hi (hnames.child .test)).bind
    rintro v _ m₁ m₁' hm₁ h₁ ⟨-, rfl⟩
    have hi₁ := hS.scope_mono hm₁ hi
    rw [truthy_rename]
    by_cases hv : v.truthy = true
    · rw [if_pos hv, if_pos hv]
      exact hS.stmts he (fun s hs => hnames.child (.yes hs)) h₁ hi₁
    · rw [if_neg hv, if_neg hv]
      cases no with
      | some ss => exact hS.stmts he (fun s hs => hnames.child (.no hs)) h₁ hi₁
      | none => exact matches_pure h₁ (twin_of_object?_eq_none rfl rfl)
  | fn params body =>
    apply (hS.newObject h).bind
    rintro o _ m₁ m₁' hm₁ h₁ ⟨ho, rfl⟩
    have hf : Closure.Within (S.bounds m₁) ⟨params, body, i⟩ :=
      ⟨hS.scope_mono hm₁ hi, fun s hs => hnames.child (.fnBody hs)⟩
    exact matches_pure h₁ ⟨within_fn_iff.2 ⟨ho, hf⟩, rfl⟩
  | macroFn params body =>
    apply (hS.newObject h).bind
    rintro o _ m₁ m₁' hm₁ h₁ ⟨ho, rfl⟩
    have hf : Closure.Within (S.bounds m₁) ⟨params, body, i⟩ :=
      ⟨hS.scope_mono hm₁ hi, fun s hs => hnames.child (.macroBody hs)⟩
    exact matches_pure h₁ ⟨within_macroFn_iff.2 ⟨ho, hf⟩, rfl⟩
  | call callee args =>
    have hargs (e : Expr) (hmem : e ∈ args) := hnames.child (.arg hmem)
    cases hq : (Expr.call callee args).callTo? "quote" with
    | some quoted =>
      simp only [Eval.step, hq]
      obtain ⟨-, rfl⟩ := Expr.call.inj (Expr.callTo?_eq_some_iff.1 hq)
      exact hS.quote he hargs h hi
    | none =>
      simp only [Eval.step, hq]
      apply (he i callee m m' h hi (hnames.child .callee)).bind
      intro f g m₁ m₁' hm₁ h₁ hfg
      apply (hS.exprs he hargs h₁ (hS.scope_mono hm₁ hi)).bind
      intro vs ws m₂ m₂' hm₂ h₂ hvs
      exact hS.apply he h₂ (hfg.mono hS hm₂) hvs
  | index l r =>
    apply (he i l m m' h hi (hnames.child .indexed)).bind
    rintro a _ m₁ m₁' hm₁ h₁ ⟨ha, rfl⟩
    apply (he i r m₁ m₁' h₁ (hS.scope_mono hm₁ hi) (hnames.child .idx)).bind
    rintro b _ m₂ m₂' hm₂ h₂ ⟨-, rfl⟩
    apply matches_ofExcept h₂ (applyIndex_rename a b)
    exact fun w hw => ⟨within_of_applyIndex hw (hS.within_mono hm₂ ha), rfl⟩

/-- **The evaluator is simulated by itself**, at whatever depth, wherever the things that it does to
a machine are. -/
theorem Lawful.simulates (hS : S.Lawful) (n : Nat) : S.Simulates (Eval.eval n) := by
  induction n with
  | zero => exact fun _ _ _ _ _ _ _ => .unfinished rfl rfl
  | succ n ih => exact hS.step ih

/-! ## 6. Macros -/

theorem Lawful.callMacro (hS : S.Lawful) (he : S.Simulates eval) {f : Closure}
    (hf : f.Within (S.bounds m)) {args : List Expr} (hargs : ∀ e ∈ args, e.Names S.name)
    (h : S.related m m') :
    S.Matches m m' (Eval.callMacro eval f args) (Eval.callMacro eval (f.rename S.ρ) args)
      fun _ a b => b = a ∧ a.Names S.name := by
  have hquoted : S.Matches m m' (args.mapM Eval.quoted) (args.mapM Eval.quoted) S.Twins := by
    refine hS.mapM args (fun e hmem m₁ m₁' _ h₁ => ?_) h
    apply (hS.newObject h₁).bind
    rintro o _ m₂ m₂' - h₂ ⟨ho, rfl⟩
    exact matches_pure h₂ (twin_quote ho (hargs e hmem))
  apply hquoted.bind
  intro vs ws m₁ m₁' hm₁ h₁ hvs
  have hf₁ : f.Within (S.bounds m₁) := ⟨hS.scope_mono hm₁ hf.scope, hf.code⟩
  apply (hS.callClosure he hf₁ h₁ hvs).bind
  rintro v _ m₂ m₂' - h₂ ⟨hv, rfl⟩
  cases v with
  | quote o node => exact matches_pure h₂ ⟨rfl, (within_quote_iff.1 hv).2⟩
  | _ => exact matches_fail h₂ _

theorem Lawful.expandCall (hS : S.Lawful) (he : S.Simulates eval) {e : Expr}
    (hnames : e.Names S.name) (h : S.related m m') (hi : S.scope m i) :
    S.Matches m m' (Eval.expandCall eval i e) (Eval.expandCall eval (S.ρ.scope i) e)
      fun _ a b => b = a ∧ a.Names S.name := by
  unfold Eval.expandCall
  split
  · next f args =>
    apply (hS.looksUp ((hnames.child .callee).self f rfl) h hi).bind
    rintro v? _ m₁ m₁' - h₁ ⟨rfl, hv⟩
    cases v? with
    | none => exact matches_pure h₁ ⟨rfl, hnames⟩
    | some v =>
      cases v with
      | macroFn o c =>
        have hc := (within_macroFn_iff.1 (hv _ rfl)).2
        exact hS.callMacro he hc (fun a ha => hnames.child (.arg ha)) h₁
      | _ => exact matches_pure h₁ ⟨rfl, hnames⟩
  · exact matches_pure h ⟨rfl, hnames⟩

theorem Lawful.expandProgram (hS : S.Lawful) (he : S.Simulates eval) {p : Program}
    (hp : ∀ s ∈ p, s.value.Names S.name) (h : S.related m m') (hi : S.scope m i) :
    S.Matches m m' (Eval.expandProgram eval i p) (Eval.expandProgram eval (S.ρ.scope i) p)
      fun _ q q' => q' = q ∧ List.Forall₂ (Stmt.Rebuilt fun _ d => d.Names S.name) p q := by
  have hact : Traversal.Rebuilds (S.Agrees i) (fun d => ∀ x, d = .ident x → S.name x)
      (fun _ d => d.Names S.name) (Eval.expandCall eval i)
      (Eval.expandCall eval (S.ρ.scope i)) :=
    fun e e' hnames hee' m m' h hi => hS.expandCall he (Expr.names_of_rebuilt hnames hee') h hi
  exact Traversal.program_rebuilds (hS.judgement i) hact p hp m m' h hi

end Simulation

end Monkey
