import Monkey.Proofs.Phrase.Sequence

/-!
# Blocks — statements, with their semicolons or without

A statement reads the semicolon behind it, so a row of statements may be cut in one way only.  That
way is kept by `StmtsBetween`, which goes from cursor to cursor; the grammar's `Statements` says the
same of the tokens alone, and the two are proved equal here.
-/

namespace Monkey

namespace Phrase

open Monkey.Parser Cursor

variable {α : Type} {n : Nat}

/-! ## 1. What ends an expression -/

/-- The tokens that end an expression. -/
def EndsExpr : TokenKind → Prop :=
  endsLevel equalityOps (endsLevel comparisonOps (endsLevel additiveOps
    (endsLevel multiplicativeOps endsPostfix)))

/-- The signs that carry on what stands before them. -/
def carryingOn : List Symbol :=
  [.lparen, .lbracket, .star, .slash, .plus, .minus, .lt, .gt, .eqEq, .notEq]

theorem endsExpr_iff {k : TokenKind} : EndsExpr k ↔ ∀ s ∈ carryingOn, k ≠ .symbol s := by
  simp only [EndsExpr, endsLevel, endsPostfix, equalityOps, comparisonOps, additiveOps,
    multiplicativeOps, carryingOn, List.forall_mem_cons, List.not_mem_nil, false_implies,
    implies_true, and_true, and_assoc]

theorem endsExpr_symbol {s : Symbol} (h : s ∉ carryingOn) : EndsExpr (.symbol s) :=
  endsExpr_iff.2 fun _ ht he => h (TokenKind.symbol.inj he ▸ ht)

-- A token that starts a statement and carries nothing on ends an expression.
theorem endsExpr_of_startsStmt {k : TokenKind} {ks : List TokenKind} (h : startsStmt k = true)
    (hk : ¬ CarriesOn (k :: ks)) : EndsExpr k := by
  apply endsExpr_iff.2
  intro s hs he
  subst he
  simp only [CarriesOn, List.head?_cons, Option.some.injEq, TokenKind.symbol.injEq,
    not_or] at hk
  -- of the signs that carry on, only the three of `CarriesOn` start a statement
  revert h hk hs
  cases s <;> decide

theorem not_carriesOn_of_endsExpr {k : TokenKind} (ks : List TokenKind) (h : EndsExpr k) :
    ¬ CarriesOn (k :: ks) := by
  have h := endsExpr_iff.1 h
  simp only [CarriesOn, List.head?_cons, Option.some.injEq]
  intro hcarry
  rcases hcarry with hk | hk | hk
  · exact h .lparen (by decide) hk
  · exact h .lbracket (by decide) hk
  · exact h .minus (by decide) hk

-- The tokens that can never stand behind a statement inside a program.
theorem startsStmt_ne {k : TokenKind} (h : startsStmt k = true) :
    k ≠ .keyword .elseWord ∧ k ≠ .symbol .semicolon ∧ k ≠ .symbol .rbrace ∧ k ≠ .eof := by
  refine ⟨?_, ?_, ?_, ?_⟩ <;> rintro rfl <;> revert h <;> decide

section

variable {expr : Parser Expr} {c c' : Cursor}

/-- From `c` to `c'` stands a phrase of `P` with a semicolon, or one without that is ended by what
stands behind it. -/
def Ended (P : Language α) (c : Cursor) (a : α) (c' : Cursor) : Prop :=
  ∃ ks, P ks a ∧ (c.Passes (ks ++ [.symbol .semicolon]) c' ∨
    c.Passes ks c' ∧ EndsExpr c'.current.kind ∧ c'.current.kind ≠ .symbol .semicolon)

theorem Ended.passes {β : Type} {P : Language α} {Q : Language β} {a : α} {b : β}
    {js : List TokenKind} {d : Cursor} (h : Ended P d a c') (hjs : c.Passes js d)
    (hPQ : ∀ ks, P ks a → Q (js ++ ks) b) :
    Ended Q c b c' := by
  rcases h with ⟨ks, hP, hks | ⟨hks, hend⟩⟩
  · exact ⟨js ++ ks, hPQ ks hP, .inl (by simpa using hjs.trans hks)⟩
  · exact ⟨js ++ ks, hPQ ks hP, .inr ⟨hjs.trans hks, hend⟩⟩

-- An expression with the semicolon behind it, if there is one.
theorem ended_sound (hexpr : Reads n expr Expression EndsExpr) (hc : c.Within n) {g : Expr → Stmt}
    {s : Stmt}
    (h : (do let v ← expr; let _ ← eat (.symbol .semicolon); return g v : Parser Stmt) c =
      (.ok s, c')) : ∃ v, s = g v ∧ Ended Expression c v c' := by
  rcases bind_eq_ok_iff.1 h with ⟨v, d, hv, h⟩
  rcases hexpr.sound hc hv with ⟨ks, hks, hPv, hend⟩
  rcases (eat_bind_eq_ok_iff (hks.within hc) (plain_symbol _)).1 h with ⟨e, he, h⟩ | ⟨hne, h⟩
  · rcases pure_eq_ok_iff.1 h with ⟨rfl, rfl⟩
    exact ⟨v, rfl, ks, hPv, .inl (hks.trans he)⟩
  · rcases pure_eq_ok_iff.1 h with ⟨rfl, rfl⟩
    exact ⟨v, rfl, ks, hPv, .inr ⟨hks, hend, hne⟩⟩

-- What stands behind a semicolon has no say in how the expression in front of it is read.
theorem closed_complete (hexpr : Reads n expr Expression EndsExpr) (hc : c.Within n)
    (g : Expr → Stmt) {v : Expr} {ks : List TokenKind} (hv : Expression ks v)
    (hks : c.Passes (ks ++ [.symbol .semicolon]) c') :
    (do let v ← expr; let _ ← eat (.symbol .semicolon); return g v : Parser Stmt) c =
      (.ok (g v), c') := by
  rcases passes_append_iff.1 hks with ⟨d, hd, hlast⟩
  have hkind := hlast.current_kind
  have hv := hexpr.complete hc hd hv (hkind ▸ endsExpr_symbol (by decide)) (by rw [hkind]; simp)
  refine bind_eq_ok_iff.2 ⟨v, d, hv, (eat_bind_eq_ok_iff (hd.within hc) (plain_symbol _)).2 ?_⟩
  exact .inl ⟨c', hlast, rfl⟩

theorem bare_complete (hexpr : Reads n expr Expression EndsExpr) (hc : c.Within n)
    (g : Expr → Stmt) {v : Expr} {ks : List TokenKind} (hv : Expression ks v)
    (hks : c.Passes ks c') (hend : EndsExpr c'.current.kind)
    (hne : c'.current.kind ≠ .symbol .semicolon) (helse : c'.current.kind ≠ .keyword .elseWord) :
    (do let v ← expr; let _ ← eat (.symbol .semicolon); return g v : Parser Stmt) c =
      (.ok (g v), c') := by
  have hv := hexpr.complete hc hks hv hend helse
  refine bind_eq_ok_iff.2 ⟨v, c', hv, (eat_bind_eq_ok_iff (hks.within hc) (plain_symbol _)).2 ?_⟩
  exact .inr ⟨hne, rfl⟩

theorem stmt_of_let (h : c.current.kind = .keyword .letWord) :
    Grammar.stmt expr c = (do
      let x ← Grammar.name
      let _ ← expect (.symbol .assign)
      let value ← expr
      let _ ← eat (.symbol .semicolon)
      return .bind x value : Parser Stmt) c.advance := by
  unfold Grammar.stmt
  rw [kind_bind, h]
  rfl

theorem stmt_of_return (h : c.current.kind = .keyword .returnWord) :
    Grammar.stmt expr c = (do
      let value ← expr
      let _ ← eat (.symbol .semicolon)
      return .ret value : Parser Stmt) c.advance := by
  unfold Grammar.stmt
  rw [kind_bind, h]
  rfl

theorem stmt_of_ne (hlet : c.current.kind ≠ .keyword .letWord)
    (hret : c.current.kind ≠ .keyword .returnWord) :
    Grammar.stmt expr c = (do
      let e ← expr
      let _ ← eat (.symbol .semicolon)
      return .expr e : Parser Stmt) c := by
  unfold Grammar.stmt
  rw [kind_bind]
  cases hk : c.current.kind with
  | keyword w =>
    rw [hk] at hlet hret
    cases w with
    | letWord => exact absurd rfl hlet
    | returnWord => exact absurd rfl hret
    | _ => rfl
  | _ => rfl

theorem stmt_sound (hexpr : Reads n expr Expression EndsExpr) (hc : c.Within n) {s : Stmt}
    (h : Grammar.stmt expr c = (.ok s, c')) : Ended (Statement Expression) c s c' := by
  -- the first token decides the form, and `ended_sound` settles the expression and the semicolon
  by_cases hlet : c.current.kind = .keyword .letWord
  · rw [stmt_of_let hlet] at h
    have hread := hc.passes_advance (by rw [hlet]; simp)
    rw [hlet] at hread
    have hcw := hread.within hc
    rcases bind_eq_ok_iff.1 h with ⟨x, d, hx, h⟩
    rcases (name_reads n).sound hcw hx with ⟨_, hxs, ⟨_⟩, -⟩
    have hd := hxs.within hcw
    rcases (expect_bind_eq_ok_iff hd (plain_symbol _)).1 h with ⟨e, he, h⟩
    rcases ended_sound hexpr (he.within hd) h with ⟨v, rfl, hv⟩
    apply hv.passes ((hread.trans hxs).trans he)
    intro ks hks
    exact .bind hks
  · by_cases hret : c.current.kind = .keyword .returnWord
    · rw [stmt_of_return hret] at h
      have hread := hc.passes_advance (by rw [hret]; simp)
      rw [hret] at hread
      rcases ended_sound hexpr (hread.within hc) h with ⟨v, rfl, hv⟩
      apply hv.passes hread
      intro ks hks
      exact .ret hks
    · rw [stmt_of_ne hlet hret] at h
      rcases ended_sound hexpr hc h with ⟨v, rfl, hv⟩
      apply hv.passes (.refl c)
      intro ks hks
      exact .expr hks

-- A statement is parsed if the expression that it ends with is, together with the tokens `js` behind
-- that expression.
theorem stmt_of_statement (hc : c.Within n) {ks js : List TokenKind} {s : Stmt}
    (hs : Statement Expression ks s) (h : c.Passes (ks ++ js) c')
    (hvalue : ∀ (g : Expr → Stmt) {d ls v}, d.Within n → Expression ls v → d.Passes (ls ++ js) c' →
      (do let v ← expr; let _ ← eat (.symbol .semicolon); return g v : Parser Stmt) d =
        (.ok (g v), c')) : Grammar.stmt expr c = (.ok s, c') := by
  cases hs with
  | @bind x ks v hv =>
    rcases passes_cons_iff_exists.1 h with ⟨c₁, hlet, h₁⟩
    rcases passes_cons_iff_exists.1 h₁ with ⟨c₂, hx, h₂⟩
    rcases passes_cons_iff_exists.1 h₂ with ⟨d, hassign, hvs⟩
    have hc₁ := hlet.within hc
    have hc₂ := hx.within hc₁
    have hname := (name_reads n).complete hc₁ hx (.ident x) trivial
      (by rw [hassign.current_kind]; simp)
    rcases (hc.passes_single_iff (by simp)).1 hlet with ⟨hkind, rfl⟩
    rw [stmt_of_let hkind]
    refine bind_eq_ok_iff.2 ⟨x, c₂, hname, (expect_bind_eq_ok_iff hc₂ (plain_symbol _)).2 ?_⟩
    exact ⟨d, hassign, hvalue (.bind x) (hassign.within hc₂) hv hvs⟩
  | @ret ks v hv =>
    rcases passes_cons_iff_exists.1 h with ⟨d, hret, hvs⟩
    have hd := hret.within hc
    rcases (hc.passes_single_iff (by simp)).1 hret with ⟨hkind, rfl⟩
    rw [stmt_of_return hkind]
    exact hvalue .ret hd hv hvs
  | @expr ks v hv =>
    rcases hv.startsWith with ⟨k, ls, rfl, hk⟩
    have hkind : c.current.kind = k := h.current_kind
    -- no expression starts with one of the two words
    rw [stmt_of_ne]
    · exact hvalue .expr hc hv h
    · intro hlet
      simp [← hkind, hlet, startsExpr, startsPrimary] at hk
    · intro hret
      simp [← hkind, hret, startsExpr, startsPrimary] at hk

/-- A statement with its semicolon is parsed whatever stands behind it. -/
theorem stmt_of_closed (hexpr : Reads n expr Expression EndsExpr) (hc : c.Within n) {s : Stmt}
    {ks : List TokenKind} (hs : Statement Expression ks s)
    (h : c.Passes (ks ++ [.symbol .semicolon]) c') : Grammar.stmt expr c = (.ok s, c') :=
  stmt_of_statement hc hs h fun g _ _ _ hd hv hks => closed_complete hexpr hd g hv hks

theorem stmt_complete (hexpr : Reads n expr Expression EndsExpr) (hc : c.Within n) {s : Stmt}
    (h : Ended (Statement Expression) c s c') (helse : c'.current.kind ≠ .keyword .elseWord) :
    Grammar.stmt expr c = (.ok s, c') := by
  rcases h with ⟨ks, hs, hks | ⟨hks, hend, hne⟩⟩
  · exact stmt_of_closed hexpr hc hs hks
  · have hks' : c.Passes (ks ++ []) c' := by rwa [List.append_nil]
    apply stmt_of_statement hc hs hks'
    intro g d ls v hd hv hls
    rw [List.append_nil] at hls
    exact bare_complete hexpr hd g hv hls hend hne helse

/-- Statements in a row, each with its semicolon or without. -/
inductive StmtsBetween : Cursor → List Stmt → Cursor → Prop
  | nil (c : Cursor) : StmtsBetween c [] c
  | cons {c d c' s ss} : Ended (Statement Expression) c s d → StmtsBetween d ss c' →
      StmtsBetween c (s :: ss) c'

-- A statement reads at least one token, and the first one starts a statement.
theorem Ended.startsStmt {s : Stmt} (h : Ended (Statement Expression) c s c') :
    Phrase.startsStmt c.current.kind = true ∧ ∃ ks, ks ≠ [] ∧ c.Passes ks c' := by
  rcases h with ⟨ks, hs, h⟩
  rcases hs.startsWith with ⟨k, js, rfl, hk⟩
  rcases h with h | ⟨h, -⟩
  · exact ⟨h.current_kind ▸ hk, _, List.cons_ne_nil _ _, h⟩
  · exact ⟨h.current_kind ▸ hk, _, List.cons_ne_nil _ _, h⟩

theorem StmtsBetween.statements {ss : List Stmt} (h : StmtsBetween c ss c') :
    ∃ ks, c.Passes ks c' ∧ Statements Expression ks ss := by
  induction h with
  | nil c => exact ⟨[], .refl c, .nil⟩
  | @cons c d c' s ss hs _ ih =>
    rcases ih with ⟨js, hjs, hss⟩
    rcases hs with ⟨ks, hPs, hks | ⟨hks, hend, -⟩⟩
    · refine ⟨_, hks.trans hjs, ?_⟩
      simpa using Statements.closed hPs hss
    · refine ⟨ks ++ js, hks.trans hjs, .bare hPs ?_ hss⟩
      cases js with
      | nil => simp [CarriesOn]
      | cons k js => exact not_carriesOn_of_endsExpr js (hjs.current_kind ▸ hend)

-- The converse holds where the statements are followed by a token that ends an expression.
theorem stmtsBetween_of_statements {ks : List TokenKind} {ss : List Stmt}
    (h : Statements Expression ks ss) (hks : c.Passes ks c') (hend : EndsExpr c'.current.kind)
    (hne : c'.current.kind ≠ .symbol .semicolon) : StmtsBetween c ss c' := by
  induction h generalizing c with
  | nil =>
    rcases passes_nil_iff.1 hks with rfl
    exact .nil c'
  | closed hs _ ih =>
    rcases passes_append_cons_iff.1 hks with ⟨d, hd, hjs⟩
    exact .cons ⟨_, hs, .inl hd⟩ (ih hjs)
  | @bare ks js s ss hs hcarry hss ih =>
    rcases passes_append_iff.1 hks with ⟨d, hd, hjs⟩
    refine .cons ⟨ks, hs, .inr ⟨hd, ?_⟩⟩ (ih hjs)
    -- what ends a bare statement is the end of the row or the first token of the next one
    cases hss with
    | nil => exact passes_nil_iff.1 hjs ▸ ⟨hend, hne⟩
    | closed hs' _ | bare hs' _ _ =>
      rcases hs'.startsWith with ⟨k, ls, rfl, hk⟩
      rw [hjs.current_kind]
      exact ⟨endsExpr_of_startsStmt hk hcarry, (startsStmt_ne hk).2.1⟩

-- No `else` stands behind a statement inside a block or a program.
theorem StmtsBetween.ne_else {ss : List Stmt} (h : StmtsBetween c ss c')
    (helse : c'.current.kind ≠ .keyword .elseWord) : c.current.kind ≠ .keyword .elseWord := by
  cases h with
  | nil => exact helse
  | cons hs _ => exact (startsStmt_ne hs.startsStmt.1).1

-- The loop inside the braces of a block.
def blockStep (expr : Parser Expr) : TokenKind → Option (List Stmt → Parser (List Stmt))
  | .symbol .rbrace => none
  | .eof => none
  | _ => some fun ss => do return ss ++ [← Grammar.stmt expr]

theorem blockStep_eq_none_iff {k : TokenKind} :
    blockStep expr k = none ↔ k = .symbol .rbrace ∨ k = .eof := by
  unfold blockStep
  split <;> simp_all

theorem blockStep_eq_some {k : TokenKind} {f : List Stmt → Parser (List Stmt)}
    (h : blockStep expr k = some f) : (fun ss => do return ss ++ [← Grammar.stmt expr]) = f := by
  unfold blockStep at h
  split at h <;> simp_all

theorem blockStep_reads (hexpr : Reads n expr Expression EndsExpr) :
    StepsRead n (blockStep expr) := by
  intro ss ts c d f hc hk hf
  rcases blockStep_eq_some hk with rfl
  rcases map_eq_ok_iff.1 (by simpa using hf) with ⟨s, hs, -⟩
  exact (stmt_sound hexpr hc hs).startsStmt.2

theorem stmtsBetween_of_loops (hexpr : Reads n expr Expression EndsExpr) (hc : c.Within n)
    {ss ts : List Stmt} (h : Loops (blockStep expr) ss c ts c') :
    ∃ us, ts = ss ++ us ∧ StmtsBetween c us c' := by
  induction h with
  | done _ => exact ⟨[], (List.append_nil _).symm, .nil _⟩
  | step hk hf _ ih =>
    rcases blockStep_eq_some hk with rfl
    rcases map_eq_ok_iff.1 (by simpa using hf) with ⟨s, hs, rfl⟩
    have hstmt := stmt_sound hexpr hc hs
    rcases hstmt.startsStmt.2 with ⟨ks, -, hks⟩
    rcases ih (hks.within hc) with ⟨us, rfl, hus⟩
    exact ⟨s :: us, by simp, .cons hstmt hus⟩

theorem StmtsBetween.loops (hexpr : Reads n expr Expression EndsExpr) {us : List Stmt}
    (h : StmtsBetween c us c') (hc : c.Within n) (hend : c'.current.kind = .symbol .rbrace)
    (ss : List Stmt) : Loops (blockStep expr) ss c (ss ++ us) c' := by
  induction h generalizing ss with
  | nil c =>
    rw [List.append_nil]
    exact .done (blockStep_eq_none_iff.2 (.inl hend))
  | @cons c d c' s us hs hus ih =>
    rcases hs.startsStmt with ⟨hstart, ks, -, hks⟩
    -- behind it stands another statement or the brace, and neither is an `else`
    have hstmt := stmt_complete hexpr hc hs (hus.ne_else (by rw [hend]; simp))
    have hf : (do return ss ++ [← Grammar.stmt expr] : Parser (List Stmt)) c =
        (.ok (ss ++ [s]), d) :=
      bind_eq_ok_iff.2 ⟨s, d, hstmt, rfl⟩
    have hloop := ih (hks.within hc) hend (ss ++ [s])
    rw [List.append_assoc, List.singleton_append] at hloop
    cases hk : blockStep expr c.current.kind with
    | none =>
      have := startsStmt_ne hstart
      rcases blockStep_eq_none_iff.1 hk with h | h <;> simp [h] at this
    | some f =>
      rcases blockStep_eq_some hk with rfl
      exact .step hk hf hloop

-- Statements between braces.  What follows the block has no say in how it is read.
theorem block_eq_ok_iff (hexpr : Reads n expr Expression EndsExpr) (hc : c.Within n) {b : Block} :
    Grammar.block expr c = (.ok b, c') ↔ ∃ ks, c.Passes ks c' ∧ Braced Expression ks b := by
  have hnext := blockStep_reads hexpr
  apply Iff.intro
  · intro h
    rcases (expect_bind_eq_ok_iff hc (plain_symbol _)).1 h with ⟨d, hd, h⟩
    have hdw := hd.within hc
    rcases bind_eq_ok_iff.1 h with ⟨ss, e, hss, h⟩
    rcases stmtsBetween_of_loops hexpr hdw ((loop_eq_ok_iff hnext hdw).1 hss) with ⟨us, rfl, hus⟩
    rcases hus.statements with ⟨ks, hks, hstmts⟩
    rcases (expect_bind_eq_ok_iff (hks.within hdw) (plain_symbol _)).1 h with ⟨e', he', h⟩
    rcases pure_eq_ok_iff.1 h with ⟨rfl, rfl⟩
    exact ⟨_, (hd.trans hks).trans he', .intro hstmts⟩
  · intro h
    rcases h with ⟨_, hpass, ⟨hstmts⟩⟩
    rcases passes_append_iff.1 hpass with ⟨e, hpass, hlast⟩
    rcases passes_cons_iff_exists.1 hpass with ⟨d, hd, hks⟩
    have hdw := hd.within hc
    have hend := hlast.current_kind
    -- the closing brace is what ends the last statement
    have hus := stmtsBetween_of_statements hstmts hks (hend ▸ endsExpr_symbol (by decide))
      (by rw [hend]; simp)
    have hloop := (loop_eq_ok_iff hnext hdw).2 (hus.loops hexpr hdw hend [])
    refine (expect_bind_eq_ok_iff hc (plain_symbol _)).2 ⟨d, hd, ?_⟩
    refine bind_eq_ok_iff.2 ⟨b, e, hloop, ?_⟩
    exact (expect_bind_eq_ok_iff (hks.within hdw) (plain_symbol _)).2 ⟨c', hlast, rfl⟩

end

end Phrase

end Monkey
