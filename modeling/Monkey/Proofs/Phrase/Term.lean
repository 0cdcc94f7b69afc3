import Monkey.Proofs.Phrase.Block

/-!
# Terms — what stands between the operators

Hashes, branches, functions and the other primary expressions, with the calls and indexes behind
them.  With these all productions are there, and `Parser.expr` is exact.
-/

namespace Monkey

namespace Phrase

open Monkey.Parser Cursor

variable {n : Nat}

/-! ## 1. Closed expressions -/

section

variable {expr : Parser Expr} {c c' d : Cursor} {β : Type}

theorem expr_expect_bind_of_passes (hexpr : Reads n expr Expression EndsExpr) (hc : c.Within n)
    {close : Symbol} (hclose : close ∉ carryingOn) {ks : List TokenKind} {e : Expr}
    (he : Expression ks e) (hd : c.Passes (ks ++ [.symbol close]) d) (f : Expr → Parser β) :
    (do let e ← expr; let _ ← expect (.symbol close); f e) c = f e d := by
  rcases passes_append_iff.1 hd with ⟨c₁, hks, hlast⟩
  have hkind := hlast.current_kind
  have hread := hexpr.complete hc hks he (hkind ▸ endsExpr_symbol hclose) (by rw [hkind]; simp)
  rw [bind_of_ok hread, expect_bind_of_passes (hks.within hc) (plain_symbol _) hlast]

-- An expression in front of a sign that carries nothing on is read whatever stands behind the sign.
theorem expr_expect_bind_eq_ok_iff (hexpr : Reads n expr Expression EndsExpr) (hc : c.Within n)
    {close : Symbol} (hclose : close ∉ carryingOn) {f : Expr → Parser β} {b : β} :
    (do let e ← expr; let _ ← expect (.symbol close); f e) c = (.ok b, c') ↔
      ∃ ks e d, Expression ks e ∧ c.Passes (ks ++ [.symbol close]) d ∧ f e d = (.ok b, c') := by
  apply Iff.intro
  · intro h
    rcases bind_eq_ok_iff.1 h with ⟨e, c₁, he, h⟩
    rcases hexpr.sound hc he with ⟨ks, hks, hPe, -⟩
    rcases (expect_bind_eq_ok_iff (hks.within hc) (plain_symbol _)).1 h with ⟨d, hd, h⟩
    exact ⟨ks, e, d, hPe, hks.trans hd, h⟩
  · intro h
    rcases h with ⟨ks, e, d, hPe, hd, h⟩
    rw [expr_expect_bind_of_passes hexpr hc hclose hPe hd]
    exact h

end

/-! ## 2. Hashes -/

section

variable {expr : Parser Expr} {c c' : Cursor}

/-- From `c` to `c'` stands a key with its value, and the comma behind it unless a brace follows. -/
def PairEnded (c : Cursor) (p : Expr × Expr) (c' : Cursor) : Prop :=
  ∃ ks, Pair Expression ks p ∧ (c.Passes (ks ++ [.symbol .comma]) c' ∨
    c.Passes ks c' ∧ c'.current.kind = .symbol .rbrace)

/-- What stands between the braces of a hash. -/
inductive PairRow : Language (List (Expr × Expr))
  | nil : PairRow [] []
  | commas {ks ps} : Commas (Pair Expression) ks ps → PairRow ks ps
  | comma {ks ps} : Commas (Pair Expression) ks ps → PairRow (ks ++ [.symbol .comma]) ps

theorem Pair.startsWith {ks : List TokenKind} {p : Expr × Expr} (h : Pair Expression ks p) :
    StartsWith startsExpr ks := by
  cases h with
  | intro hk _ => exact hk.startsWith.append _

theorem Commas.startsWith {P : Language α} {S : TokenKind → Bool} {ks : List TokenKind}
    {as : List α} (hP : ∀ {ks a}, P ks a → StartsWith S ks) (h : Commas P ks as) :
    StartsWith S ks := by
  cases h with
  | one ha => exact hP ha
  | more ha _ => exact (hP ha).append _

-- Where a brace stands next, the row is at its end.
theorem PairRow.eq_nil {ks : List TokenKind} {ps : List (Expr × Expr)} (h : PairRow ks ps)
    (hks : c.Passes ks c') (hk : c.current.kind = .symbol .rbrace) : ks = [] ∧ ps = [] := by
  have hfalse {js : List TokenKind} (hjs : StartsWith startsExpr js) (h : c.Passes js c') :
      False := by
    rcases hjs with ⟨k, ls, rfl, hstart⟩
    rw [← h.current_kind, hk] at hstart
    exact absurd hstart (by decide)
  cases h with
  | nil => exact ⟨rfl, rfl⟩
  | commas h => exact (hfalse (h.startsWith Pair.startsWith) hks).elim
  | comma h => exact (hfalse ((h.startsWith Pair.startsWith).append _) hks).elim

theorem PairRow.cons {ks js : List TokenKind} {p : Expr × Expr} {ps : List (Expr × Expr)}
    (hp : Pair Expression ks p) (h : PairRow js ps) :
    PairRow (ks ++ .symbol .comma :: js) (p :: ps) := by
  cases h with
  | nil => exact .comma (.one hp)
  | commas h => exact .commas (.more hp h)
  | comma h => simpa using PairRow.comma (.more hp h)

-- The loop inside the braces of a hash.
def hashStep (expr : Parser Expr) :
    TokenKind → Option (List (Expr × Expr) → Parser (List (Expr × Expr)))
  | .symbol .rbrace => none
  | _ => some fun ps => do
    let key ← expr
    let _ ← expect (.symbol .colon)
    let value ← expr
    unless ← check (.symbol .rbrace) do
      let _ ← expect (.symbol .comma)
    return ps ++ [(key, value)]

theorem hashStep_eq_none_iff {k : TokenKind} : hashStep expr k = none ↔ k = .symbol .rbrace := by
  unfold hashStep
  split <;> simp_all

-- The cursor behind the value, wherever the pair ends.
theorem pairEnded_iff {p : Expr × Expr} :
    PairEnded c p c' ↔ ∃ ks d, Pair Expression ks p ∧ c.Passes ks d ∧
      (d.Passes [.symbol .comma] c' ∨ c' = d ∧ d.current.kind = .symbol .rbrace) := by
  apply Iff.intro
  · intro h
    rcases h with ⟨ks, hp, h | ⟨h, hend⟩⟩
    · rcases passes_append_iff.1 h with ⟨d, hd, hcomma⟩
      exact ⟨ks, d, hp, hd, .inl hcomma⟩
    · exact ⟨ks, c', hp, h, .inr ⟨rfl, hend⟩⟩
  · intro h
    rcases h with ⟨ks, d, hp, hd, hcomma | ⟨rfl, hend⟩⟩
    · exact ⟨ks, hp, .inl (hd.trans hcomma)⟩
    · exact ⟨ks, hp, .inr ⟨hd, hend⟩⟩

-- Behind a pair stands a comma, which is read, or the brace, which is not.
theorem commaUnlessBrace_eq_ok_iff (hc : c.Within n) {α : Type} {a b : α} :
    (do
      let last ← check (.symbol .rbrace)
      if last = true then return a
      else
        let _ ← expect (.symbol .comma)
        return a : Parser α) c = (.ok b, c') ↔
      b = a ∧ (c.Passes [.symbol .comma] c' ∨ c' = c ∧ c.current.kind = .symbol .rbrace) := by
  rw [check_bind]
  by_cases hlast : c.current.kind = .symbol .rbrace
  · rw [if_pos (by simpa using hlast)]
    apply Iff.intro
    · intro h
      rcases pure_eq_ok_iff.1 h with ⟨rfl, rfl⟩
      exact ⟨rfl, .inr ⟨rfl, hlast⟩⟩
    · intro h
      rcases h with ⟨rfl, hcomma | ⟨rfl, -⟩⟩
      · exact absurd (hlast.symm.trans hcomma.current_kind) (by decide)
      · rfl
  · rw [if_neg (by simpa using hlast), expect_bind_eq_ok_iff hc (plain_symbol _)]
    apply Iff.intro
    · intro h
      rcases h with ⟨d, hd, h⟩
      rcases pure_eq_ok_iff.1 h with ⟨rfl, rfl⟩
      exact ⟨rfl, .inl hd⟩
    · intro h
      rcases h with ⟨rfl, hcomma | ⟨-, hend⟩⟩
      · exact ⟨c', hcomma, rfl⟩
      · exact absurd hend hlast

theorem hashStep_of_eq_some {k : TokenKind}
    {f : List (Expr × Expr) → Parser (List (Expr × Expr))} (hk : hashStep expr k = some f)
    (ps : List (Expr × Expr)) :
    f ps = do
      let key ← expr
      let _ ← expect (.symbol .colon)
      let value ← expr
      let last ← check (.symbol .rbrace)
      if last = true then return ps ++ [(key, value)]
      else
        let _ ← expect (.symbol .comma)
        return ps ++ [(key, value)] := by
  unfold hashStep at hk
  split at hk
  · cases hk
  · cases hk
    rfl

-- A step reads one pair.
theorem hashStep_eq_ok_iff (hexpr : Reads n expr Expression EndsExpr) (hc : c.Within n)
    {k : TokenKind} {f : List (Expr × Expr) → Parser (List (Expr × Expr))}
    (hk : hashStep expr k = some f) {ps qs : List (Expr × Expr)} :
    f ps c = (.ok qs, c') ↔ ∃ p, qs = ps ++ [p] ∧ PairEnded c p c' := by
  rw [hashStep_of_eq_some hk, expr_expect_bind_eq_ok_iff hexpr hc (by decide)]
  apply Iff.intro
  · intro h
    rcases h with ⟨ks, key, c₁, hkey, hks, h⟩
    have hc₁ := hks.within hc
    rcases bind_eq_ok_iff.1 h with ⟨value, c₂, hvalue, h⟩
    rcases hexpr.sound hc₁ hvalue with ⟨js, hjs, hPvalue, -⟩
    rcases (commaUnlessBrace_eq_ok_iff (hjs.within hc₁)).1 h with ⟨rfl, hlast⟩
    refine ⟨(key, value), rfl, pairEnded_iff.2 ⟨_, c₂, .intro hkey hPvalue, ?_, hlast⟩⟩
    simpa using hks.trans hjs
  · intro h
    rcases h with ⟨p, rfl, h⟩
    rcases pairEnded_iff.1 h with ⟨_, c₂, ⟨hkey, hvalue⟩, hpass, hlast⟩
    rcases passes_append_cons_iff.1 hpass with ⟨c₁, hks, hjs⟩
    have hc₁ := hks.within hc
    have hkind : c₂.current.kind = .symbol .comma ∨ c₂.current.kind = .symbol .rbrace := by
      rcases hlast with hcomma | ⟨-, hend⟩
      · exact .inl hcomma.current_kind
      · exact .inr hend
    have hends : EndsExpr c₂.current.kind ∧ c₂.current.kind ≠ .keyword .elseWord := by
      rcases hkind with h | h <;> rw [h] <;> exact ⟨endsExpr_symbol (by decide), by simp⟩
    have hread := hexpr.complete hc₁ hjs hvalue hends.1 hends.2
    refine ⟨_, _, c₁, hkey, hks, bind_eq_ok_iff.2 ⟨_, c₂, hread, ?_⟩⟩
    exact (commaUnlessBrace_eq_ok_iff (hjs.within hc₁)).2 ⟨rfl, hlast⟩

-- A pair is at least one token long.
theorem PairEnded.passes {p : Expr × Expr} (h : PairEnded c p c') :
    ∃ ks, StartsWith startsExpr ks ∧ c.Passes ks c' := by
  rcases h with ⟨ks, hp, h | ⟨h, -⟩⟩
  · exact ⟨_, hp.startsWith.append _, h⟩
  · exact ⟨ks, hp.startsWith, h⟩

theorem hashStep_reads (hexpr : Reads n expr Expression EndsExpr) :
    StepsRead n (hashStep expr) := by
  intro ps qs c d f hc hk hf
  rcases (hashStep_eq_ok_iff hexpr hc hk).1 hf with ⟨p, -, hp⟩
  rcases hp.passes with ⟨ks, hstart, hks⟩
  exact ⟨ks, hstart.ne_nil, hks⟩

theorem pairRow_of_loops (hexpr : Reads n expr Expression EndsExpr) (hc : c.Within n)
    {ps qs : List (Expr × Expr)} (h : Loops (hashStep expr) ps c qs c') :
    ∃ us ks, qs = ps ++ us ∧ c.Passes ks c' ∧ PairRow ks us ∧
      c'.current.kind = .symbol .rbrace := by
  induction h with
  | @done ps c hk =>
    exact ⟨[], [], (List.append_nil ps).symm, .refl c, .nil, hashStep_eq_none_iff.1 hk⟩
  | step hk hf _ ih =>
    rcases (hashStep_eq_ok_iff hexpr hc hk).1 hf with ⟨p, rfl, hp⟩
    rcases hp.passes with ⟨_, -, hpass⟩
    rcases ih (hpass.within hc) with ⟨us, js, rfl, hjs, hrow, hend⟩
    rcases hp with ⟨ks, hP, hks | ⟨hks, hbrace⟩⟩
    · exact ⟨p :: us, _, by simp, hks.trans hjs, by simpa using hrow.cons hP, hend⟩
    · rcases hrow.eq_nil hjs hbrace with ⟨rfl, rfl⟩
      exact ⟨[p], _, by simp, hks.trans hjs, by simpa using PairRow.commas (.one hP), hend⟩

theorem loops_of_pairEnded (hexpr : Reads n expr Expression EndsExpr) (hc : c.Within n)
    {p : Expr × Expr} {d : Cursor} (hp : PairEnded c p d) {ps qs : List (Expr × Expr)}
    (h : Loops (hashStep expr) (ps ++ [p]) d qs c') : Loops (hashStep expr) ps c qs c' := by
  rcases hp.passes with ⟨_, ⟨k, js, rfl, hstart⟩, hpass⟩
  cases hk : hashStep expr c.current.kind with
  | none =>
    rw [← hpass.current_kind, hashStep_eq_none_iff.1 hk] at hstart
    exact absurd hstart (by decide)
  | some f => exact .step hk ((hashStep_eq_ok_iff hexpr hc hk).2 ⟨p, rfl, hp⟩) h

theorem loops_of_commas_pair (hexpr : Reads n expr Expression EndsExpr) (hc : c.Within n)
    {ks : List TokenKind} {us : List (Expr × Expr)} (h : Commas (Pair Expression) ks us)
    {d : Cursor} (hks : c.Passes ks d) (hend : c'.current.kind = .symbol .rbrace)
    (hlast : d.Passes [.symbol .comma] c' ∨ c' = d) (ps : List (Expr × Expr)) :
    Loops (hashStep expr) ps c (ps ++ us) c' := by
  induction h generalizing c ps with
  | @one ks p hp =>
    refine loops_of_pairEnded hexpr hc ⟨ks, hp, ?_⟩ (.done (hashStep_eq_none_iff.2 hend))
    rcases hlast with h | rfl
    · exact .inl (hks.trans h)
    · exact .inr ⟨hks, hend⟩
  | @more ks js p us hp _ ih =>
    rcases passes_append_cons_iff.1 hks with ⟨e, he, hjs⟩
    have hloop := ih (he.within hc) hjs (ps ++ [p])
    rw [List.append_assoc, List.singleton_append] at hloop
    exact loops_of_pairEnded hexpr hc ⟨ks, hp, .inl he⟩ hloop

theorem PairRow.loops (hexpr : Reads n expr Expression EndsExpr) (hc : c.Within n)
    {ks : List TokenKind} {us : List (Expr × Expr)} (h : PairRow ks us) (hks : c.Passes ks c')
    (hend : c'.current.kind = .symbol .rbrace) : Loops (hashStep expr) [] c us c' := by
  cases h with
  | nil =>
    rcases passes_nil_iff.1 hks with rfl
    exact .done (hashStep_eq_none_iff.2 hend)
  | commas h => exact loops_of_commas_pair hexpr hc h hks hend (.inr rfl) []
  | comma h =>
    rcases passes_append_iff.1 hks with ⟨d, hd, hcomma⟩
    exact loops_of_commas_pair hexpr hc h hd hend (.inl hcomma) []

-- Pairs between braces.
theorem hash_eq_ok_iff (hexpr : Reads n expr Expression EndsExpr) (hc : c.Within (n + 1))
    {e : Expr} :
    Grammar.hash expr c = (.ok e, c') ↔
      ∃ ks ps, e = .hash ps ∧ PairRow ks ps ∧
        c.Passes (.symbol .lbrace :: ks ++ [.symbol .rbrace]) c' := by
  have hnext := hashStep_reads hexpr
  apply Iff.intro
  · intro h
    rcases (expect_bind_eq_ok_iff hc (plain_symbol _)).1 h with ⟨d, hd, h⟩
    have hdw := hd.within_of_ne_nil (List.cons_ne_nil _ _) hc
    rcases bind_eq_ok_iff.1 h with ⟨ps, d', hps, h⟩
    obtain ⟨_, ks, rfl, hks, hrow, -⟩ :=
      pairRow_of_loops hexpr hdw ((loop_eq_ok_iff hnext hdw).1 hps)
    rcases (expect_bind_eq_ok_iff (hks.within hdw) (plain_symbol _)).1 h with ⟨e', he', h⟩
    rcases pure_eq_ok_iff.1 h with ⟨rfl, rfl⟩
    exact ⟨ks, _, rfl, hrow, (hd.trans hks).trans he'⟩
  · intro h
    rcases h with ⟨ks, ps, rfl, hrow, hpass⟩
    rcases passes_append_iff.1 hpass with ⟨d', hpass, hlast⟩
    rcases passes_cons_iff_exists.1 hpass with ⟨d, hd, hks⟩
    have hdw := hd.within_of_ne_nil (List.cons_ne_nil _ _) hc
    have hloop := (loop_eq_ok_iff hnext hdw).2 (hrow.loops hexpr hdw hks hlast.current_kind)
    refine (expect_bind_eq_ok_iff hc (plain_symbol _)).2 ⟨d, hd, ?_⟩
    refine bind_eq_ok_iff.2 ⟨ps, d', hloop, ?_⟩
    exact (expect_bind_eq_ok_iff (hks.within hdw) (plain_symbol _)).2 ⟨c', hlast, rfl⟩

-- What stands between the braces, braces included.
theorem PairRow.primary {ks : List TokenKind} {ps : List (Expr × Expr)} (h : PairRow ks ps) :
    Primary Expression (.symbol .lbrace :: ks ++ [.symbol .rbrace]) (.hash ps) := by
  cases h with
  | nil => exact .hash .none
  | commas h => exact .hash (.some h)
  | comma h => simpa using Primary.hashComma h

/-! ## 3. Branches and functions -/

-- A branch takes in an `else` that stands behind it.
theorem cond_sound (hexpr : Reads n expr Expression EndsExpr) (hc : c.Within (n + 1)) {e : Expr}
    (h : Grammar.cond expr c = (.ok e, c')) :
    ∃ ks, c.Passes ks c' ∧ Primary Expression ks e := by
  rcases (expect_bind_eq_ok_iff hc (plain_keyword _)).1 h with ⟨c₁, hif, h⟩
  have hc₁ := hif.within_of_ne_nil (List.cons_ne_nil _ _) hc
  rcases (expect_bind_eq_ok_iff hc₁ (plain_symbol _)).1 h with ⟨c₂, hopen, h⟩
  have hc₂ := hopen.within hc₁
  rcases (expr_expect_bind_eq_ok_iff hexpr hc₂ (by decide)).1 h with ⟨ks, test, c₃, hPtest, hks, h⟩
  have hc₃ := hks.within hc₂
  rcases bind_eq_ok_iff.1 h with ⟨yes, c₄, hyes, h⟩
  rcases (block_eq_ok_iff hexpr hc₃).1 hyes with ⟨js, hjs, hPyes⟩
  have hc₄ := hjs.within hc₃
  have hpass := ((hif.trans hopen).trans hks).trans hjs
  -- an `else` that stands here belongs to this branch
  rcases (eat_bind_eq_ok_iff hc₄ (plain_keyword _)).1 h with ⟨c₅, helse, h⟩ | ⟨-, h⟩
  · rcases bind_eq_ok_iff.1 h with ⟨no, c₆, hno, h⟩
    rcases pure_eq_ok_iff.1 h with ⟨rfl, rfl⟩
    rcases (block_eq_ok_iff hexpr (helse.within hc₄)).1 hno with ⟨ls, hls, hPno⟩
    refine ⟨_, (hpass.trans helse).trans hls, ?_⟩
    simpa using Primary.condElse hPtest hPyes hPno
  · rcases pure_eq_ok_iff.1 h with ⟨rfl, rfl⟩
    exact ⟨_, hpass, by simpa using Primary.cond hPtest hPyes⟩

-- The test and the first block of a branch are read whatever follows.
theorem cond_of_passes (hexpr : Reads n expr Expression EndsExpr) (hc : c.Within (n + 1))
    {ks js : List TokenKind} {test : Expr} {yes : Block} (htest : Expression ks test)
    (hyes : Braced Expression js yes)
    (h : c.Passes (.keyword .ifWord :: .symbol .lparen :: ks ++ .symbol .rparen :: js) c') :
    c'.Within n ∧ Grammar.cond expr c = (do
      if ← eat (.keyword .elseWord) then
        return .cond test yes (some (← Grammar.block expr))
      else
        return .cond test yes none : Parser Expr) c' := by
  rcases passes_append_cons_iff.1 h with ⟨c₃, h, hjs⟩
  rcases passes_cons_iff_exists.1 h with ⟨c₁, hif, h⟩
  rcases passes_cons_iff_exists.1 h with ⟨c₂, hopen, hks⟩
  have hc₁ := hif.within_of_ne_nil (List.cons_ne_nil _ _) hc
  have hc₂ := hopen.within hc₁
  have hc₃ := hks.within hc₂
  have hyes' := (block_eq_ok_iff hexpr hc₃).2 ⟨js, hjs, hyes⟩
  refine ⟨hjs.within hc₃, ?_⟩
  rw [Grammar.cond, expect_bind_of_passes hc (plain_keyword _) hif,
    expect_bind_of_passes hc₁ (plain_symbol _) hopen,
    expr_expect_bind_of_passes hexpr hc₂ (by decide) htest hks, bind_of_ok hyes']

-- Parameters and a body.
theorem function_eq_ok_iff (hexpr : Reads n expr Expression EndsExpr) (hc : c.Within n)
    (g : List String → Block → Expr) {e : Expr} :
    (do let ps ← Grammar.params; return g ps (← Grammar.block expr) : Parser Expr) c =
        (.ok e, c') ↔
      ∃ ks js ps body, e = g ps body ∧ Items Name ks ps ∧ Braced Expression js body ∧
        c.Passes (.symbol .lparen :: ks ++ .symbol .rparen :: js) c' := by
  apply Iff.intro
  · intro h
    rcases bind_eq_ok_iff.1 h with ⟨ps, d, hps, h⟩
    rcases (params_eq_ok_iff hc).1 hps with ⟨ks, hks, hnames⟩
    rcases bind_eq_ok_iff.1 h with ⟨body, d', hbody, h⟩
    rcases pure_eq_ok_iff.1 h with ⟨rfl, rfl⟩
    rcases (block_eq_ok_iff hexpr (hks.within hc)).1 hbody with ⟨js, hjs, hbraced⟩
    exact ⟨ks, js, ps, body, rfl, hnames, hbraced, by simpa using hks.trans hjs⟩
  · intro h
    rcases h with ⟨ks, js, ps, body, rfl, hnames, hbraced, h⟩
    rcases passes_append_cons_iff.1 h with ⟨d, hks, hjs⟩
    have hps := (params_eq_ok_iff hc).2 ⟨ks, hks, hnames⟩
    have hbody := (block_eq_ok_iff hexpr (hks.within hc)).2 ⟨js, hjs, hbraced⟩
    rw [bind_of_ok hps, bind_of_ok hbody]
    rfl

/-! ## 4. Primary expressions -/

-- Expressions with commas between them, up to and including the sign that closes them.
theorem exprList_eq_ok_iff (hexpr : Reads n expr Expression EndsExpr) (hc : c.Within n)
    {close : Symbol} (hclose : close ∉ .comma :: carryingOn)
    (hstart : startsExpr (.symbol close) = false) {es : List Expr} :
    Grammar.exprList expr close c = (.ok es, c') ↔
      ∃ ks, c.Passes (ks ++ [.symbol close]) c' ∧ Items Expression ks es := by
  rw [List.mem_cons, not_or] at hclose
  rw [exprList_eq]
  refine itemsUntil_eq_ok_iff hexpr (endsExpr_symbol (by decide)) (endsExpr_symbol hclose.2)
    hclose.1 (fun h => ?_) hc
  rcases h.startsWith with ⟨k, js, rfl, hk⟩
  refine ⟨k, js, rfl, ?_⟩
  intro h
  subst h
  simp [hstart] at hk

theorem primary_sound (hexpr : Reads n expr Expression EndsExpr) (hc : c.Within (n + 1))
    {e : Expr} (h : Grammar.primary expr c = (.ok e, c')) :
    ∃ ks, c.Passes ks c' ∧ Primary Expression ks e := by
  unfold Grammar.primary at h
  rw [kind_bind] at h
  -- a hash and a branch read their first token themselves, in all other forms it is read here
  have hread (hk : c.current.kind ≠ .eof) := hc.passes_advance hk
  have hadv (hk : c.current.kind ≠ .eof) := (hread hk).within_of_ne_nil (List.cons_ne_nil _ _) hc
  cases hk : c.current.kind with
  | ident x =>
    rw [hk] at h hread
    rcases pure_eq_ok_iff.1 h with ⟨rfl, rfl⟩
    exact ⟨_, hread nofun, .ident x⟩
  | int text =>
    rw [hk] at h hread
    cases hn : Numeral.word? text with
    | none =>
      simp only [hn] at h
      exact absurd h fail_ne_ok
    | some n =>
      simp only [hn] at h
      rcases pure_eq_ok_iff.1 h with ⟨rfl, rfl⟩
      exact ⟨_, hread nofun, .int (Numeral.word?_eq_some_iff.1 hn)⟩
  | str text =>
    rw [hk] at h hread
    rcases pure_eq_ok_iff.1 h with ⟨rfl, rfl⟩
    exact ⟨_, hread nofun, .str text⟩
  | symbol s =>
    have hc' := hadv (by rw [hk]; simp)
    rw [hk] at h hread
    cases s with
    | lparen =>
      rcases (expr_expect_bind_eq_ok_iff hexpr hc' (by decide)).1 h with ⟨ks, x, d, hPx, hks, h⟩
      rcases pure_eq_ok_iff.1 h with ⟨rfl, rfl⟩
      exact ⟨_, (hread nofun).trans hks, .group hPx⟩
    | lbracket =>
      obtain ⟨es, d, hes, h⟩ :=
        bind_eq_ok_iff.1 (show (Grammar.exprList expr .rbracket >>= _) c.advance = _ from h)
      rcases pure_eq_ok_iff.1 h with ⟨rfl, rfl⟩
      rcases (exprList_eq_ok_iff hexpr hc' (by decide) rfl).1 hes with ⟨ks, hks, hitems⟩
      exact ⟨_, (hread nofun).trans hks, .array hitems⟩
    | lbrace =>
      rcases (hash_eq_ok_iff hexpr hc).1 h with ⟨ks, ps, rfl, hrow, hpass⟩
      exact ⟨_, hpass, hrow.primary⟩
    | _ => exact absurd h fail_ne_ok
  | keyword w =>
    have hc' := hadv (by rw [hk]; simp)
    rw [hk] at h hread
    cases w with
    | trueWord =>
      rcases pure_eq_ok_iff.1 h with ⟨rfl, rfl⟩
      exact ⟨_, hread nofun, .yes⟩
    | falseWord =>
      rcases pure_eq_ok_iff.1 h with ⟨rfl, rfl⟩
      exact ⟨_, hread nofun, .no⟩
    | ifWord => exact cond_sound hexpr hc h
    | fnWord =>
      obtain ⟨ks, js, ps, body, rfl, hnames, hbody, hpass⟩ :=
        (function_eq_ok_iff hexpr hc' .fn).1 h
      exact ⟨_, (hread nofun).trans hpass, .fn hnames hbody⟩
    | macroWord =>
      obtain ⟨ks, js, ps, body, rfl, hnames, hbody, hpass⟩ :=
        (function_eq_ok_iff hexpr hc' .macroFn).1 h
      exact ⟨_, (hread nofun).trans hpass, .macroFn hnames hbody⟩
    | _ => exact absurd h fail_ne_ok
  | illegal _ | eof =>
    rw [hk] at h
    exact absurd h fail_ne_ok

theorem primary_complete (hexpr : Reads n expr Expression EndsExpr) (hc : c.Within (n + 1))
    {ks : List TokenKind} {e : Expr} (hks : c.Passes ks c') (h : Primary Expression ks e)
    (helse : c'.current.kind ≠ .keyword .elseWord) : Grammar.primary expr c = (.ok e, c') := by
  have hread {k : TokenKind} {js : List TokenKind} (h : c.Passes (k :: js) c') (hk : k ≠ .eof) :
      c.current.kind = k ∧ c.advance.Passes js c' ∧ c.advance.Within n := by
    rcases passes_cons_iff.1 h with ⟨-, rfl, hjs⟩
    exact ⟨rfl, hjs, (hc.passes_advance hk).within_of_ne_nil (List.cons_ne_nil _ _) hc⟩
  unfold Grammar.primary
  rw [kind_bind]
  cases h with
  | ident x | str text | yes | no =>
    obtain ⟨hk, hrest, -⟩ := hread hks nofun
    rw [hk, passes_nil_iff.1 hrest]
    rfl
  | @int text n hn =>
    obtain ⟨hk, hrest, -⟩ := hread hks nofun
    simp only [hk, Numeral.word?_eq_some_iff.2 hn]
    rw [passes_nil_iff.1 hrest]
    rfl
  | @group ks e hPe =>
    obtain ⟨hk, hrest, hc'⟩ := hread hks nofun
    rw [hk]
    exact expr_expect_bind_of_passes hexpr hc' (by decide) hPe hrest pure
  | array hitems =>
    obtain ⟨hk, hrest, hc'⟩ := hread hks nofun
    have hes := (exprList_eq_ok_iff hexpr hc' (by decide) rfl).2 ⟨_, hrest, hitems⟩
    rw [hk]
    show (Grammar.exprList expr .rbracket >>= _) c.advance = _
    rw [bind_of_ok hes]
    rfl
  | hash hitems =>
    rw [(hread hks nofun).1]
    refine (hash_eq_ok_iff hexpr hc).2 ⟨_, _, rfl, ?_, hks⟩
    cases hitems with
    | none => exact .nil
    | some h => exact .commas h
  | hashComma h =>
    rw [(hread hks nofun).1]
    exact (hash_eq_ok_iff hexpr hc).2 ⟨_, _, rfl, .comma h, by simpa using hks⟩
  | cond htest hyes =>
    rcases cond_of_passes hexpr hc htest hyes hks with ⟨-, h⟩
    rw [(hread hks nofun).1]
    apply h.trans
    rw [eat_bind_of_ne (plain_keyword _) helse]
    rfl
  | @condElse ks js ls test yes no htest hyes hno =>
    -- the tokens are split in front of the `else`, so that `cond_of_passes` applies
    rw [← List.cons_append, ← List.append_assoc] at hks
    rcases passes_append_iff.1 hks with ⟨d, hd, hrest⟩
    rcases cond_of_passes hexpr hc htest hyes hd with ⟨hdw, h⟩
    rcases passes_cons_iff_exists.1 hrest with ⟨d', helse, hls⟩
    have hno' := (block_eq_ok_iff hexpr (helse.within hdw)).2 ⟨ls, hls, hno⟩
    rw [(hread hks nofun).1]
    apply h.trans
    rw [eat_bind_of_passes hdw (plain_keyword _) helse]
    show (Grammar.block expr >>= _) d' = _
    rw [bind_of_ok hno']
    rfl
  | fn hnames hbody =>
    obtain ⟨hk, hrest, hc'⟩ := hread hks nofun
    rw [hk]
    exact (function_eq_ok_iff hexpr hc' .fn).2 ⟨_, _, _, _, rfl, hnames, hbody, hrest⟩
  | macroFn hnames hbody =>
    obtain ⟨hk, hrest, hc'⟩ := hread hks nofun
    rw [hk]
    exact (function_eq_ok_iff hexpr hc' .macroFn).2 ⟨_, _, _, _, rfl, hnames, hbody, hrest⟩

/-! ## 5. Calls and indexes -/

-- The loop behind a primary expression.
def postfixStep (expr : Parser Expr) : TokenKind → Option (Expr → Parser Expr)
  | .symbol .lparen => some fun e => do advance; return .call e (← Grammar.exprList expr .rparen)
  | .symbol .lbracket => some fun e => do
    advance
    let i ← expr
    let _ ← expect (.symbol .rbracket)
    return .index e i
  | _ => none

theorem postfixStep_eq_none_iff {k : TokenKind} : postfixStep expr k = none ↔ endsPostfix k := by
  unfold postfixStep
  split <;> simp_all [endsPostfix]

/-- What one step puts behind the expression `a` in front of it. -/
inductive PostfixStep : Expr → Language Expr
  | call {a ks args} : Items Expression ks args →
      PostfixStep a (.symbol .lparen :: (ks ++ [.symbol .rparen])) (.call a args)
  | index {a ks i} : Expression ks i →
      PostfixStep a (.symbol .lbracket :: (ks ++ [.symbol .rbracket])) (.index a i)

theorem PostfixStep.postfix {a b : Expr} {ks js : List TokenKind} (h : PostfixStep a js b)
    (ha : Postfix Expression ks a) : Postfix Expression (ks ++ js) b := by
  cases h with
  | call hargs => exact .call ha hargs
  | index hi => exact .index ha hi

theorem PostfixStep.startsWith {a b : Expr} {ks : List TokenKind} (h : PostfixStep a ks b) :
    ∃ k js, ks = k :: js ∧ ¬ endsPostfix k ∧ k ≠ .eof := by
  have hends (k : TokenKind) (hk : k = .symbol .lparen ∨ k = .symbol .lbracket) :
      ¬ endsPostfix k ∧ k ≠ .eof := by
    rcases hk with rfl | rfl <;> simp [endsPostfix]
  cases h with
  | call _ => exact ⟨_, _, rfl, hends _ (.inl rfl)⟩
  | index _ => exact ⟨_, _, rfl, hends _ (.inr rfl)⟩

theorem postfixStep_eq_ok_iff (hexpr : Reads n expr Expression EndsExpr)
    (hc : c.Within (n + 1)) {f : Expr → Parser Expr} (hk : postfixStep expr c.current.kind = some f)
    {a b : Expr} : f a c = (.ok b, c') ↔ ∃ ks, c.Passes ks c' ∧ PostfixStep a ks b := by
  have hne : c.current.kind ≠ .eof := by
    intro h
    rw [h] at hk
    cases hk
  have hread := hc.passes_advance hne
  have hc' := hread.within_of_ne_nil (List.cons_ne_nil _ _) hc
  unfold postfixStep at hk
  split at hk
  case h_1 hkind =>
    rcases Option.some.inj hk with rfl
    rw [hkind] at hread
    apply Iff.intro
    · intro h
      obtain ⟨es, d, hes, h⟩ :=
        bind_eq_ok_iff.1 (show (Grammar.exprList expr .rparen >>= _) c.advance = _ from h)
      rcases pure_eq_ok_iff.1 h with ⟨rfl, rfl⟩
      rcases (exprList_eq_ok_iff hexpr hc' (by decide) rfl).1 hes with ⟨ks, hks, hitems⟩
      exact ⟨_, hread.trans hks, .call hitems⟩
    · intro h
      rcases h with ⟨_, hpass, hstep⟩
      cases hstep with
      | call hitems =>
        have hes := (exprList_eq_ok_iff hexpr hc' (by decide) rfl).2
          ⟨_, (passes_cons_iff.1 hpass).2.2, hitems⟩
        show (Grammar.exprList expr .rparen >>= _) c.advance = _
        rw [bind_of_ok hes]
        rfl
      | index _ => exact absurd (hkind.symm.trans hpass.current_kind) (by decide)
  case h_2 hkind =>
    rcases Option.some.inj hk with rfl
    rw [hkind] at hread
    apply Iff.intro
    · intro h
      rcases (expr_expect_bind_eq_ok_iff hexpr hc' (by decide)).1 h with ⟨ks, i, d, hPi, hks, h⟩
      rcases pure_eq_ok_iff.1 h with ⟨rfl, rfl⟩
      exact ⟨_, hread.trans hks, .index hPi⟩
    · intro h
      rcases h with ⟨_, hpass, hstep⟩
      cases hstep with
      | call _ => exact absurd (hkind.symm.trans hpass.current_kind) (by decide)
      | index hPi =>
        have hrest := (passes_cons_iff.1 hpass).2.2
        exact expr_expect_bind_of_passes hexpr hc' (by decide) hPi hrest (pure ∘ Expr.index a)
  case h_3 => cases hk

theorem postfixStep_extends (hexpr : Reads n expr Expression EndsExpr) :
    StepsExtend (n + 1) (postfixStep expr) (Postfix Expression) (fun _ => True) := by
  intro a b c d f hc hk hf
  rcases (postfixStep_eq_ok_iff hexpr hc hk).1 hf with ⟨ks, hks, hstep⟩
  rcases hstep.startsWith with ⟨k, js, rfl, -⟩
  exact ⟨_, List.cons_ne_nil k js, hks, trivial, fun ls ha => hstep.postfix ha⟩

theorem PostfixStep.loops (hexpr : Reads n expr Expression EndsExpr) {a b : Expr}
    {ks : List TokenKind} (hstep : PostfixStep a ks b) (hc : c.Within (n + 1))
    (hks : c.Passes ks c') {r : Expr} {d : Cursor} (h : Loops (postfixStep expr) b c' r d) :
    Loops (postfixStep expr) a c r d := by
  rcases hstep.startsWith with ⟨k, js, rfl, hk, -⟩
  cases hf : postfixStep expr c.current.kind with
  | none => exact absurd (hks.current_kind ▸ postfixStep_eq_none_iff.1 hf) hk
  | some f => exact .step hf ((postfixStep_eq_ok_iff hexpr hc hf).2 ⟨_, hks, hstep⟩) h

-- The primary expression in front is read first, and the loop takes it from there to the whole.
theorem loops_of_postfix (hexpr : Reads n expr Expression EndsExpr) (hc : c.Within (n + 1))
    {ks : List TokenKind} {e : Expr} (h : Postfix Expression ks e) (hks : c.Passes ks c')
    (helse : c'.current.kind ≠ .keyword .elseWord) :
    ∃ a d, Grammar.primary expr c = (.ok a, d) ∧
      ∀ {r x}, Loops (postfixStep expr) e c' r x → Loops (postfixStep expr) a d r x := by
  -- the primary expression is innermost, so the induction goes from the last step to the first
  induction h generalizing c' with
  | primary h => exact ⟨_, c', primary_complete hexpr hc hks h helse, id⟩
  | call _ hargs ih =>
    rcases passes_append_iff.1 hks with ⟨d, hd, hrest⟩
    rcases ih hd (by rw [hrest.current_kind]; simp) with ⟨a, d', ha, hloop⟩
    refine ⟨a, d', ha, fun h => hloop ?_⟩
    exact PostfixStep.loops hexpr (.call hargs) (hd.within hc) hrest h
  | index _ hi ih =>
    rcases passes_append_iff.1 hks with ⟨d, hd, hrest⟩
    rcases ih hd (by rw [hrest.current_kind]; simp) with ⟨a, d', ha, hloop⟩
    refine ⟨a, d', ha, fun h => hloop ?_⟩
    exact PostfixStep.loops hexpr (.index hi) (hd.within hc) hrest h

-- A primary expression with the calls and indexes behind it.
theorem postfixed_reads (hexpr : Reads n expr Expression EndsExpr) :
    Reads (n + 1) (Grammar.postfixed expr) (Postfix Expression) endsPostfix := by
  have hnext := postfixStep_extends hexpr
  constructor
  · intro c e c' hc h
    rcases bind_eq_ok_iff.1 h with ⟨a, d, ha, h⟩
    rcases primary_sound hexpr hc ha with ⟨ks, hks, hPa⟩
    rcases loop_sound hnext (hks.within hc) h (.primary hPa) trivial with ⟨js, hjs, he, -, hend⟩
    exact ⟨ks ++ js, hks.trans hjs, he, postfixStep_eq_none_iff.1 hend⟩
  · intro c ks e c' hc hks he hend helse
    rcases loops_of_postfix hexpr hc he hks helse with ⟨a, d, ha, hloop⟩
    rcases primary_sound hexpr hc ha with ⟨js, hjs, -⟩
    have h := hloop (.done (postfixStep_eq_none_iff.2 hend))
    exact bind_eq_ok_iff.2 ⟨a, d, ha, (loop_eq_ok_iff hnext.stepsRead (hjs.within hc)).2 h⟩

/-! ## 6. Expressions -/

theorem lists_equality : Lists Grammar.equalityOp? equalityOps := by
  intro k op
  unfold Grammar.equalityOp?
  split <;> cases op <;> simp_all [equalityOps]

theorem lists_comparison : Lists Grammar.comparisonOp? comparisonOps := by
  intro k op
  unfold Grammar.comparisonOp?
  split <;> cases op <;> simp_all [comparisonOps]

theorem lists_additive : Lists Grammar.additiveOp? additiveOps := by
  intro k op
  unfold Grammar.additiveOp?
  split <;> cases op <;> simp_all [additiveOps]

theorem lists_multiplicative : Lists Grammar.multiplicativeOp? multiplicativeOps := by
  intro k op
  unfold Grammar.multiplicativeOp?
  split <;> cases op <;> simp_all [multiplicativeOps]

-- The body of the parser for expressions, over an exact parser for the expressions inside.
theorem equality_reads (hexpr : Reads n expr Expression EndsExpr) :
    Reads (n + 1) (Grammar.equality expr) Expression EndsExpr := by
  have hunary := unary_reads (postfixed_reads hexpr)
  have hmul := leftAssoc_reads lists_multiplicative hunary (by decide)
  have hadd := leftAssoc_reads lists_additive hmul (by decide)
  have hcmp := leftAssoc_reads lists_comparison hadd (by decide)
  have heq := leftAssoc_reads lists_equality hcmp (by decide)
  constructor
  · intro c e c' hc h
    rcases heq.sound hc h with ⟨ks, hks, he, hend⟩
    exact ⟨ks, hks, .intro he, hend⟩
  · intro c ks e c' hc hks h hend helse
    rcases h with ⟨he⟩
    exact heq.complete hc hks he hend helse

end

/-- The parser for expressions yields exactly the trees of the expressions in front of it. -/
theorem expr_reads (n : Nat) : Reads n Parser.expr Expression EndsExpr :=
  fix_reads (fun _ _ => equality_reads) n

end Phrase

end Monkey
