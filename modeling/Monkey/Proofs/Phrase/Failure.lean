import Monkey.Proofs.Phrase.Term

/-!
# Failures — where parsing stops, and why not earlier

A parser fails at a token that its error names, and what it has read up to there is the beginning of
a phrase: some tokens behind it would have made it a whole one.  So no parser goes on behind the
first token at which every phrase has become impossible.
-/

namespace Monkey

/-- The error stands at the token and tells what it is. -/
structure ParseError.Names (e : ParseError) (t : Token) : Prop where
  span_eq : e.span = t.span
  told : match e.cause with
    | .unexpectedToken _ found => found = t.kind.description
    | .noExpression found => found = t.kind.description
    | .integerRange text => t.kind = .int text
    | .illegalToken text => t.kind = .illegal text

namespace Phrase

open Monkey.Parser Cursor

variable {α β : Type} {n : Nat}

/-! ## 1. Beginnings of phrases -/

/-- The tokens are the beginning of a phrase of `P`. -/
def Viable (P : Language α) (ks : List TokenKind) : Prop :=
  ∃ us a, .eof ∉ us ∧ P (ks ++ us) a

/-- A parser that reads `ks` and fails behind them. -/
structure FailsBehind (c : Cursor) (ks : List TokenKind) (e : ParseError) (d : Cursor) : Prop where
  passes : c.Passes ks d
  names : e.Names d.current

/-- On cursors with fewer than `n` tokens left, `p` fails only behind the beginning of a phrase of
`P`, and its error names the token there. -/
def FailsIn (n : Nat) (p : Parser α) (P : Language β) : Prop :=
  ∀ ⦃c : Cursor⦄ ⦃e : ParseError⦄ ⦃d : Cursor⦄, c.Within n → p c = (.error e, d) →
    ∃ ks, FailsBehind c ks e d ∧ Viable P ks

section

variable {P : Language α} {Q : Language β} {p : Parser α} {f : α → Parser β} {c d : Cursor}
  {e : ParseError} {ks js : List TokenKind} {k : TokenKind}

theorem Viable.of_phrase {a : α} (us : List TokenKind) (hus : .eof ∉ us) (h : P (ks ++ us) a) :
    Viable P ks :=
  ⟨us, a, hus, h⟩

-- A phrase between other tokens begins with what stands in front of it and its own beginning.
theorem Viable.inside (h : Viable P ks) (js us : List TokenKind) (hus : .eof ∉ us)
    (hPQ : ∀ ls a, P ls a → ∃ b, Q (js ++ ls ++ us) b) : Viable Q (js ++ ks) := by
  rcases h with ⟨ls, a, hls, ha⟩
  rcases hPQ _ a ha with ⟨b, hb⟩
  refine ⟨ls ++ us, b, ?_, ?_⟩
  · simp [hls, hus]
  · simpa using hb

theorem Viable.mono (h : Viable P ks) (hPQ : ∀ ls a, P ls a → ∃ b, Q ls b) : Viable Q ks := by
  simpa using h.inside [] [] (by simp) (by simpa using hPQ)

-- A part that fails behind other tokens of the phrase it belongs to.  Some of these, `ls`, may have
-- been read before.
theorem FailsIn.behind_phrase {γ : Type} {p : Parser γ} (hp : FailsIn n p P) {b : Cursor}
    {ls : List TokenKind} (hjs : c.Passes js b) (hb : b.Within n) (us : List TokenKind)
    (hus : .eof ∉ us) (hPQ : ∀ ks a, P ks a → ∃ r, Q (ls ++ (js ++ ks ++ us)) r)
    (h : p b = (.error e, d)) : ∃ ks, FailsBehind c ks e d ∧ Viable Q (ls ++ ks) := by
  rcases hp hb h with ⟨ks, hfail, hks⟩
  refine ⟨js ++ ks, ⟨hjs.trans hfail.passes, hfail.names⟩, ?_⟩
  rw [← List.append_assoc]
  exact hks.inside (ls ++ js) us hus (by simpa using hPQ)

theorem FailsIn.behind {γ : Type} {p : Parser γ} (hp : FailsIn n p P) {b : Cursor}
    (hjs : c.Passes js b) (hb : b.Within n) (us : List TokenKind) (hus : .eof ∉ us)
    (hPQ : ∀ ls a, P ls a → ∃ r, Q (js ++ ls ++ us) r) (h : p b = (.error e, d)) :
    ∃ ks, FailsBehind c ks e d ∧ Viable Q ks := by
  have hbehind : ∃ ks, FailsBehind c ks e d ∧ Viable Q ([] ++ ks) :=
    hp.behind_phrase hjs hb us hus hPQ h
  exact hbehind

theorem FailsBehind.prepend (h : FailsBehind d ks e c) {b : Cursor} (hjs : b.Passes js d) :
    FailsBehind b (js ++ ks) e c :=
  ⟨hjs.trans h.passes, h.names⟩

/-! ## 2. Inversion of failures -/

theorem pure_ne_error {a : α} : (pure a : Parser α) c ≠ (.error e, d) := by
  simp [pure_apply]

theorem bind_eq_error_iff : (p >>= f) c = (.error e, d) ↔
    p c = (.error e, d) ∨ ∃ a b, p c = (.ok a, b) ∧ f a b = (.error e, d) := by
  rw [bind_apply]
  rcases p c with ⟨e | a, b⟩
  · simp
  · apply Iff.intro
    · intro h
      exact .inr ⟨a, b, rfl, h⟩
    · intro h
      rcases h with h | ⟨_, _, h, hf⟩
      · cases h
      · cases h
        exact hf

theorem map_of_error {g : α → β} (h : (do return g (← p) : Parser β) c = (.error e, d)) :
    p c = (.error e, d) := by
  rcases bind_eq_error_iff.1 h with h | ⟨_, _, _, h⟩
  · exact h
  · exact absurd h pure_ne_error

theorem failsBehind_fail {cause : ParseCause} (h : (fail cause : Parser α) c = (.error e, d))
    (hnames : ParseError.Names ⟨cause, c.current.span⟩ c.current) : FailsBehind c [] e d := by
  cases h
  exact ⟨.refl c, hnames⟩

theorem failsBehind_unexpected {expected : String}
    (h : (unexpected expected : Parser α) c = (.error e, d)) : FailsBehind c [] e d := by
  have hfail : (fail (.unexpectedToken expected c.current.kind.description) : Parser α) c =
      (.error e, d) := h
  exact failsBehind_fail hfail ⟨rfl, rfl⟩

-- A token that need not be there makes nothing fail.
theorem eat_bind_eq_error_iff (hc : c.Within n) (hk : Plain k) {f : Bool → Parser β} :
    (eat k >>= f) c = (.error e, d) ↔
      (∃ b, c.Passes [k] b ∧ f true b = (.error e, d)) ∨
        (c.current.kind ≠ k ∧ f false c = (.error e, d)) := by
  simp only [bind_apply, eat_apply c hk, hc.passes_single_iff hk.ne_eof]
  by_cases h : c.current.kind = k
  · simp [h]
  · simp [h]

-- A token that has to be there is missing, or what follows it fails.
theorem expect_bind_of_error (hc : c.Within n) (hk : Plain k) {f : Span → Parser β}
    (h : (expect k >>= f) c = (.error e, d)) :
    FailsBehind c [] e d ∨ ∃ b, c.Passes [k] b ∧ f c.current.span b = (.error e, d) := by
  rw [bind_apply, expect_apply c hk] at h
  by_cases hkind : c.current.kind = k
  · rw [if_pos hkind] at h
    exact .inr ⟨c.advance, (hc.passes_single_iff hk.ne_eof).2 ⟨hkind, rfl⟩, h⟩
  · rw [if_neg hkind] at h
    cases h
    exact .inl ⟨.refl c, rfl, rfl⟩

-- A loop fails in one of its steps, where what the steps before it keep holds.
theorem loop_of_failing {next : TokenKind → Option (α → Parser α)} {I : α → Cursor → Prop} {a : α}
    (hread : StepsRead n next)
    (hstep : ∀ a b c d f, c.Within n → I a c → next c.current.kind = some f →
      f a c = (.ok b, d) → I b d)
    (hc : c.Within n) (ha : I a c) (h : loop next a c = (.error e, d)) :
    ∃ b c' f, c'.Within n ∧ I b c' ∧ next c'.current.kind = some f ∧ f b c' = (.error e, d) := by
  induction hm : c.remaining using Nat.strongRecOn generalizing a c with
  | ind m ih =>
    subst hm
    cases hk : next c.current.kind with
    | none => simp [loop_of_none hk] at h
    | some f =>
      rcases hf : f a c with ⟨e' | b, c'⟩
      · rw [loop_of_error hk hf] at h
        cases h
        exact ⟨a, c, f, hc, ha, hk, hf⟩
      · rcases hread hc hk hf with ⟨ks, hne, hks⟩
        have hlt := hks.remaining_lt hne
        rw [loop_of_ok hk hf hlt] at h
        exact ih _ hlt (hks.within hc) (hstep a b c c' f hc ha hk hf) h rfl

variable {stop : TokenKind → Prop}

-- A phrase and the token behind it: the phrase may fail, or the token may be missing.
theorem expect_behind_of_error (hp : FailsIn n p P) (hread : Reads n p P stop) (hc : c.Within n)
    (hk : Plain k) {f : α → Parser β}
    (h : (do let a ← p; let _ ← expect k; f a) c = (.error e, d)) :
    (∃ ks, FailsBehind c ks e d ∧ Viable P ks) ∨
      ∃ ks a b, P ks a ∧ c.Passes (ks ++ [k]) b ∧ f a b = (.error e, d) := by
  rcases bind_eq_error_iff.1 h with h | ⟨a, b, ha, h⟩
  · exact .inl (hp hc h)
  · rcases hread.sound hc ha with ⟨ks, hks, hPa, -⟩
    rcases expect_bind_of_error (hks.within hc) hk h with hmissing | ⟨b', hb', h⟩
    · refine .inl ⟨ks, ?_, .of_phrase [] (by simp) (by simpa using hPa)⟩
      simpa using hmissing.prepend hks
    · exact .inr ⟨ks, a, b', hPa, hks.trans hb', h⟩

/-! ## 3. Sequences -/

theorem name_fails : FailsIn n Grammar.name Name := by
  intro c e d _ h
  refine ⟨[], ?_, .of_phrase [.ident "x"] (by simp) (.ident "x")⟩
  unfold Grammar.name at h
  rw [kind_bind] at h
  cases hk : c.current.kind with
  | ident x =>
    rw [hk] at h
    exact absurd h pure_ne_error
  | illegal _ | eof | int _ | str _ | symbol _ | keyword _ =>
    rw [hk] at h
    exact failsBehind_unexpected h

-- If the steps put phrases together, a failing one stands behind a phrase.
theorem loop_fails {next : TokenKind → Option (α → Parser α)} {L : Language α}
    (hnext : StepsExtend n next L stop)
    (hfail : ∀ a c e d f ls, c.Within n → L ls a → next c.current.kind = some f →
      f a c = (.error e, d) → ∃ ks, FailsBehind c ks e d ∧ Viable Q (ls ++ ks))
    (hc : c.Within n) {a : α} (ha : L ks a) (h : loop next a c = (.error e, d)) :
    ∃ js, FailsBehind c js e d ∧ Viable Q (ks ++ js) := by
  have hstep : ∀ a b c₁ c₂ f, c₁.Within n → (∃ js, c.Passes js c₁ ∧ L (ks ++ js) a) →
      next c₁.current.kind = some f → f a c₁ = (.ok b, c₂) →
      ∃ js, c.Passes js c₂ ∧ L (ks ++ js) b := by
    intro a b c₁ c₂ f hc₁ ha hk hf
    rcases ha with ⟨js, hjs, ha⟩
    rcases hnext hc₁ hk hf with ⟨ls, -, hls, -, hb⟩
    exact ⟨js ++ ls, hjs.trans hls, by simpa using hb _ ha⟩
  rcases loop_of_failing hnext.stepsRead hstep hc ⟨[], .refl c, by simpa using ha⟩ h with
    ⟨b, c', f, hc', ⟨js, hjs, hb⟩, hk, hf⟩
  rcases hfail b c' e d f _ hc' hb hk hf with ⟨ls, hfails, hviable⟩
  exact ⟨js ++ ls, hfails.prepend hjs, by simpa using hviable⟩

theorem commas_fails (hp : FailsIn n p P) (hread : Reads n p P stop) :
    FailsIn n (do loop (commaStep p) [← p]) (Commas P) := by
  intro c e d hc h
  rcases bind_eq_error_iff.1 h with h | ⟨a, c₁, ha, h⟩
  · rcases hp hc h with ⟨ks, hfail, hks⟩
    exact ⟨ks, hfail, hks.mono fun ls a ha => ⟨[a], .one ha⟩⟩
  rcases hread.sound hc ha with ⟨ks, hks, hPa, -⟩
  have hloop := loop_fails (commaStep_extends hread) (Q := Commas P) ?_ (hks.within hc) (.one hPa) h
  · rcases hloop with ⟨js, hfail, hviable⟩
    exact ⟨ks ++ js, hfail.prepend hks, hviable⟩
  intro as c e d f ls hc has hk hf
  rcases commaStep_eq_some_iff.1 hk with ⟨hcomma, rfl⟩
  have hcut := hc.passes_advance (by rw [hcomma]; simp)
  rw [hcomma] at hcut
  exact hp.behind_phrase hcut (hcut.within hc) [] (by simp)
    (fun js b hb => ⟨as ++ [b], by simpa using has.concat hb⟩) (map_of_error hf)

-- Phrases with commas between them, up to the sign that closes them.
theorem itemsUntil_fails (hp : FailsIn n p P) (hread : Reads n p P stop)
    (hcomma : stop (.symbol .comma)) (close : Symbol) :
    FailsIn n (itemsUntil p close) (Items P) := by
  intro c e d hc h
  rcases (eat_bind_eq_error_iff hc (plain_symbol close)).1 h with ⟨b, -, h⟩ | ⟨-, h⟩
  · exact absurd h pure_ne_error
  rcases expect_behind_of_error (commas_fails hp hread) (commas_reads hread hcomma) hc
    (plain_symbol close) h with ⟨ks, hfail, hks⟩ | ⟨_, _, _, _, _, h⟩
  · exact ⟨ks, hfail, hks.mono fun ls as has => ⟨as, .some has⟩⟩
  · exact absurd h pure_ne_error

end

/-- Names between parentheses. -/
inductive Params : Language (List String)
  | intro {ks xs} : Items Name ks xs → Params (.symbol .lparen :: ks ++ [.symbol .rparen]) xs

theorem params_fails (n : Nat) : FailsIn n Grammar.params Params := by
  intro c e d hc h
  rw [params_eq] at h
  rcases expect_bind_of_error hc (plain_symbol _) h with hmissing | ⟨b, hb, h⟩
  · exact ⟨[], hmissing, .of_phrase _ (by simp) (.intro .none)⟩
  · exact (itemsUntil_fails name_fails (name_reads n) trivial .rparen).behind hb (hb.within hc)
      [.symbol .rparen] (by simp) (fun ls xs hxs => ⟨xs, .intro hxs⟩) h

/-! ## 4. Statements and blocks -/

section

variable {expr : Parser Expr} {c c' d : Cursor} {e : ParseError}

-- The least phrases that can be put where an expression or a block is missing.
theorem expression_ident (x : String) : Expression [.ident x] (.ident x) :=
  .ofUnary (.postfixed (.primary (.ident x)))

theorem braced_nil : Braced Expression [.symbol .lbrace, .symbol .rbrace] [] := .intro .nil

theorem ended_of_error {g : Expr → Stmt}
    (h : (do let v ← expr; let _ ← eat (.symbol .semicolon); return g v : Parser Stmt) c =
      (.error e, d)) : expr c = (.error e, d) := by
  rcases bind_eq_error_iff.1 h with h | ⟨v, b, -, h⟩
  · exact h
  · rw [bind_apply, eat_apply b (plain_symbol _)] at h
    by_cases hk : b.current.kind = .symbol .semicolon
    · rw [if_pos hk] at h
      cases h
    · rw [if_neg hk] at h
      cases h

theorem stmt_fails (hexpr : FailsIn n expr Expression) :
    FailsIn n (Grammar.stmt expr) (Statement Expression) := by
  intro c e d hc h
  by_cases hlet : c.current.kind = .keyword .letWord
  · rw [stmt_of_let hlet] at h
    have hread := hc.passes_advance (by rw [hlet]; simp)
    rw [hlet] at hread
    have hcw := hread.within hc
    rcases bind_eq_error_iff.1 h with h | ⟨x, b, hx, h⟩
    · exact name_fails.behind hread hcw [.symbol .assign, .ident "x"] (by simp)
        (by rintro _ _ ⟨y⟩; exact ⟨_, .bind (expression_ident "x")⟩) h
    rcases (name_reads n).sound hcw hx with ⟨_, hxs, ⟨_⟩, -⟩
    have hpass := hread.trans hxs
    rcases expect_bind_of_error (hxs.within hcw) (plain_symbol _) h with hmissing | ⟨b', hb', h⟩
    · exact ⟨_, hmissing.prepend hpass,
        .of_phrase [.symbol .assign, .ident "x"] (by simp) (.bind (expression_ident "x"))⟩
    · have hb := hpass.trans hb'
      exact hexpr.behind hb (hb.within hc) [] (by simp)
        (fun ls v hv => ⟨_, by simpa using .bind hv⟩) (ended_of_error h)
  by_cases hret : c.current.kind = .keyword .returnWord
  · rw [stmt_of_return hret] at h
    have hread := hc.passes_advance (by rw [hret]; simp)
    rw [hret] at hread
    exact hexpr.behind hread (hread.within hc) [] (by simp)
      (fun ls v hv => ⟨_, by simpa using .ret hv⟩) (ended_of_error h)
  · rw [stmt_of_ne hlet hret] at h
    exact hexpr.behind (.refl c) hc [] (by simp) (fun ls v hv => ⟨_, by simpa using .expr hv⟩)
      (ended_of_error h)

-- Behind statements the beginning of another one is the beginning of statements.
theorem StmtsBetween.viable {ss : List Stmt} (h : StmtsBetween c ss c') {ks : List TokenKind}
    (hks : c'.Passes ks d) (hviable : Viable (Statement Expression) ks) :
    ∃ js, c.Passes js d ∧ Viable (Statements Expression) js := by
  induction h with
  | nil c =>
    refine ⟨ks, hks, hviable.mono ?_⟩
    intro ls s hs
    exact ⟨[s], by simpa using Statements.bare hs (by simp [CarriesOn]) .nil⟩
  | @cons c b c' s ss hs _ ih =>
    rcases ih hks with ⟨js, hjs, us, ts, hus, hts⟩
    rcases hs with ⟨ls, hPs, hls | ⟨hls, hend, -⟩⟩
    · exact ⟨_, hls.trans hjs, .of_phrase us hus (by simpa using Statements.closed hPs hts)⟩
    · refine ⟨ls ++ js, hls.trans hjs, ?_⟩
      cases js with
      | nil =>
        -- nothing is read behind the statement, so it may as well be the last one
        refine .of_phrase (a := [s]) [] (by simp) ?_
        simpa using Statements.bare hPs (by simp [CarriesOn]) .nil
      | cons k js =>
        have hcarry := not_carriesOn_of_endsExpr (js ++ us) (hjs.current_kind ▸ hend)
        exact .of_phrase us hus (by simpa using Statements.bare hPs hcarry hts)

theorem StmtsBetween.concat {ss : List Stmt} {s : Stmt} (h : StmtsBetween c ss c')
    (hs : Ended (Statement Expression) c' s d) : StmtsBetween c (ss ++ [s]) d := by
  induction h with
  | nil c => exact .cons hs (.nil d)
  | cons hs' _ ih => exact .cons hs' (ih hs)

theorem block_fails (hexpr : FailsIn n expr Expression) (hread : Reads n expr Expression EndsExpr) :
    FailsIn n (Grammar.block expr) (Braced Expression) := by
  have hnext := blockStep_reads hread
  intro c e d hc h
  rcases expect_bind_of_error hc (plain_symbol _) h with hmissing | ⟨b, hb, h⟩
  · exact ⟨[], hmissing, .of_phrase _ (by simp) braced_nil⟩
  have hbw := hb.within hc
  rcases bind_eq_error_iff.1 h with h | ⟨ss, b', hss, h⟩
  · -- the statements in front of the failing one are whole
    have hstep : ∀ ss ts c₁ c₂ f, c₁.Within n → StmtsBetween b ss c₁ →
        blockStep expr c₁.current.kind = some f → f ss c₁ = (.ok ts, c₂) →
        StmtsBetween b ts c₂ := by
      intro ss ts c₁ c₂ f hc₁ hss hk hf
      rcases blockStep_eq_some hk with rfl
      rcases map_eq_ok_iff.1 (by simpa using hf) with ⟨s, hs, rfl⟩
      exact hss.concat (stmt_sound hread hc₁ hs)
    rcases loop_of_failing hnext hstep hbw (.nil b) h with ⟨ss, c₁, f, hc₁, hss, hk, hf⟩
    rcases blockStep_eq_some hk with rfl
    rcases stmt_fails hexpr hc₁ (map_of_error hf) with ⟨ks, hfail, hks⟩
    rcases hss.viable hfail.passes hks with ⟨js, hjs, hviable⟩
    refine ⟨_, ⟨hb.trans hjs, hfail.names⟩, ?_⟩
    exact hviable.inside [.symbol .lbrace] [.symbol .rbrace] (by simp)
      fun ls ss hss => ⟨ss, .intro hss⟩
  · rcases stmtsBetween_of_loops hread hbw ((loop_eq_ok_iff hnext hbw).1 hss) with ⟨us, rfl, hus⟩
    rcases hus.statements with ⟨ks, hks, hstmts⟩
    rcases expect_bind_of_error (hks.within hbw) (plain_symbol _) h with hmissing | ⟨_, _, h⟩
    · exact ⟨_, hmissing.prepend (hb.trans hks),
        .of_phrase [.symbol .rbrace] (by simp) (by simpa using Braced.intro hstmts)⟩
    · exact absurd h pure_ne_error

/-! ## 5. Terms -/

section

variable (hexpr : FailsIn n expr Expression) (hread : Reads n expr Expression EndsExpr)

include hexpr hread

-- One pair of a hash.  What is missing behind a value is a comma.
theorem pair_fails {k : TokenKind} {f : List (Expr × Expr) → Parser (List (Expr × Expr))}
    (hk : hashStep expr k = some f) (ps : List (Expr × Expr)) :
    FailsIn n (f ps) (Pair Expression) := by
  intro c e d hc h
  rw [hashStep_of_eq_some hk] at h
  rcases expect_behind_of_error hexpr hread hc (plain_symbol _) h with
    ⟨ks, hfail, hks⟩ | ⟨ks, key, b, hkey, hb, h⟩
  · refine ⟨ks, hfail, ?_⟩
    have hwhole := hks.inside (Q := Pair Expression) [] [.symbol .colon, .ident "x"] (by simp)
      fun ls key hkey => ⟨_, by simpa using .intro hkey (expression_ident "x")⟩
    simpa using hwhole
  have hbw := hb.within hc
  rcases bind_eq_error_iff.1 h with h | ⟨value, b', hvalue, h⟩
  · exact hexpr.behind hb hbw [] (by simp)
      (fun ls value hvalue => ⟨_, by simpa using .intro hkey hvalue⟩) h
  rcases hread.sound hbw hvalue with ⟨js, hjs, hPvalue, -⟩
  rw [check_bind] at h
  split at h
  · exact absurd h pure_ne_error
  rcases expect_bind_of_error (hjs.within hbw) (plain_symbol _) h with hmissing | ⟨_, _, h⟩
  · refine ⟨_, hmissing.prepend (hb.trans hjs), .of_phrase (a := (key, value)) [] (by simp) ?_⟩
    simpa using Pair.intro hkey hPvalue
  · exact absurd h pure_ne_error

/-- Pairs behind which another one may stand. -/
def OpenPairs (ks : List TokenKind) (ps : List (Expr × Expr)) : Prop :=
  ∀ js p, Pair Expression js p → Commas (Pair Expression) (ks ++ js) (ps ++ [p])

theorem hash_fails {c d : Cursor} {e : ParseError} (hc : c.Within (n + 1))
    (h : Grammar.hash expr c = (.error e, d)) :
    ∃ ks, FailsBehind c ks e d ∧ Viable (Primary Expression) ks := by
  have hnext := hashStep_reads hread
  rcases expect_bind_of_error hc (plain_symbol _) h with hmissing | ⟨b, hb, h⟩
  · exact ⟨[], hmissing, .of_phrase [.ident "x"] (by simp) (.ident "x")⟩
  have hbw := hb.within_of_ne_nil (by simp) hc
  rcases bind_eq_error_iff.1 h with h | ⟨ps, b', hps, h⟩
  · have hstep : ∀ ps qs c₁ c₂ f, c₁.Within n →
        (∃ ks, b.Passes ks c₁ ∧ (c₁.current.kind ≠ .symbol .rbrace → OpenPairs ks ps)) →
        hashStep expr c₁.current.kind = some f → f ps c₁ = (.ok qs, c₂) →
        ∃ ks, b.Passes ks c₂ ∧ (c₂.current.kind ≠ .symbol .rbrace → OpenPairs ks qs) := by
      intro ps qs c₁ c₂ f hc₁ hI hk hf
      rcases hI with ⟨ks, hks, hopen⟩
      rcases (hashStep_eq_ok_iff hread hc₁ hk).1 hf with ⟨p, rfl, js, hp, hjs | ⟨hjs, hbrace⟩⟩
      · refine ⟨_, hks.trans hjs, fun _ ls q hq => ?_⟩
        have hps : Commas (Pair Expression) (ks ++ js) (ps ++ [p]) := by
          apply hopen _ js p hp
          intro hk'
          simp [hashStep_eq_none_iff.2 hk'] at hk
        simpa using hps.concat hq
      · exact ⟨_, hks.trans hjs, fun hne => absurd hbrace hne⟩
    have hinit : OpenPairs [] [] := fun js p hp => .one hp
    rcases loop_of_failing hnext hstep hbw ⟨[], .refl b, fun _ => hinit⟩ h with
      ⟨ps, c₁, f, hc₁, ⟨ks, hks, hopen⟩, hk, hf⟩
    have hopen := hopen fun hk' => by simp [hashStep_eq_none_iff.2 hk'] at hk
    refine (pair_fails hexpr hread hk ps).behind (hb.trans hks) hc₁ [.symbol .rbrace] (by simp) ?_ hf
    intro ls p hp
    exact ⟨_, by simpa using Primary.hash (.some (hopen ls p hp))⟩
  · -- the loop stops at a brace only, so the brace is there
    rcases pairRow_of_loops hread hbw ((loop_eq_ok_iff hnext hbw).1 hps) with
      ⟨us, ks, -, hks, -, hbrace⟩
    have hbw' := hks.within hbw
    have hlast := (hbw'.passes_single_iff (by simp)).2 ⟨hbrace, rfl⟩
    rw [expect_bind_of_passes hbw' (plain_symbol _) hlast] at h
    exact absurd h pure_ne_error

theorem cond_fails {c d : Cursor} {e : ParseError} (hc : c.Within (n + 1))
    (h : Grammar.cond expr c = (.error e, d)) :
    ∃ ks, FailsBehind c ks e d ∧ Viable (Primary Expression) ks := by
  have hx := expression_ident "x"
  have hleast : Primary Expression [.keyword .ifWord, .symbol .lparen, .ident "x", .symbol .rparen,
      .symbol .lbrace, .symbol .rbrace] (.cond (.ident "x") [] none) := .cond hx braced_nil
  rcases expect_bind_of_error hc (plain_keyword _) h with hmissing | ⟨c₁, hif, h⟩
  · exact ⟨[], hmissing, .of_phrase _ (by simp) hleast⟩
  have hc₁ := hif.within_of_ne_nil (by simp) hc
  rcases expect_bind_of_error hc₁ (plain_symbol _) h with hmissing | ⟨c₂, hopen, h⟩
  · exact ⟨_, hmissing.prepend hif, .of_phrase _ (by simp) hleast⟩
  have hpass := hif.trans hopen
  have hc₂ := hopen.within hc₁
  rcases expect_behind_of_error hexpr hread hc₂ (plain_symbol _) h with
    ⟨ks, hfail, hks⟩ | ⟨ks, test, c₃, htest, hks, h⟩
  · refine ⟨_, hfail.prepend hpass, ?_⟩
    exact hks.inside _ [.symbol .rparen, .symbol .lbrace, .symbol .rbrace] (by simp)
      fun ls test htest => ⟨_, by simpa using Primary.cond htest braced_nil⟩
  have hc₃ := hks.within hc₂
  have hblock := block_fails hexpr hread
  rcases bind_eq_error_iff.1 h with h | ⟨yes, c₄, hyes, h⟩
  · exact hblock.behind (hpass.trans hks) hc₃ [] (by simp)
      (fun ls yes hyes => ⟨_, by simpa using Primary.cond htest hyes⟩) h
  rcases (block_eq_ok_iff hread hc₃).1 hyes with ⟨js, hjs, hPyes⟩
  have hc₄ := hjs.within hc₃
  rcases (eat_bind_eq_error_iff hc₄ (plain_keyword _)).1 h with ⟨c₅, helse, h⟩ | ⟨-, h⟩
  · exact hblock.behind (((hpass.trans hks).trans hjs).trans helse) (helse.within hc₄) [] (by simp)
      (fun ls no hno => ⟨_, by simpa using Primary.condElse htest hPyes hno⟩) (map_of_error h)
  · exact absurd h pure_ne_error

-- A function or a macro behind the word that starts it.
theorem function_fails {w : Keyword} {g : List String → Block → Expr}
    (hg : ∀ {ks js ps body}, Items Name ks ps → Braced Expression js body →
      Primary Expression (.keyword w :: .symbol .lparen :: ks ++ .symbol .rparen :: js) (g ps body))
    {c b d : Cursor} {e : ParseError} (hb : c.Passes [.keyword w] b) (hbw : b.Within n)
    (h : (do let ps ← Grammar.params; return g ps (← Grammar.block expr) : Parser Expr) b =
      (.error e, d)) :
    ∃ ks, FailsBehind c ks e d ∧ Viable (Primary Expression) ks := by
  rcases bind_eq_error_iff.1 h with h | ⟨ps, b', hps, h⟩
  · refine (params_fails n).behind hb hbw [.symbol .lbrace, .symbol .rbrace] (by simp) ?_ h
    rintro _ ps ⟨hnames⟩
    exact ⟨_, by simpa using hg hnames braced_nil⟩
  rcases (params_eq_ok_iff hbw).1 hps with ⟨ks, hks, hnames⟩
  exact (block_fails hexpr hread).behind (hb.trans hks) (hks.within hbw) [] (by simp)
    (fun ls body hbody => ⟨_, by simpa using hg hnames hbody⟩) (map_of_error h)

theorem exprList_fails (close : Symbol) :
    FailsIn n (Grammar.exprList expr close) (Items Expression) := by
  rw [exprList_eq]
  exact itemsUntil_fails hexpr hread (endsExpr_symbol (by decide)) close

theorem primary_fails : FailsIn (n + 1) (Grammar.primary expr) (Primary Expression) := by
  intro c e d hc h
  have hleast : Viable (Primary Expression) [] := .of_phrase [.ident "x"] (by simp) (.ident "x")
  unfold Grammar.primary at h
  rw [kind_bind] at h
  have hread' (hk : c.current.kind ≠ .eof) := hc.passes_advance hk
  have hadv (hk : c.current.kind ≠ .eof) := (hread' hk).within_of_ne_nil (by simp) hc
  cases hk : c.current.kind with
  | ident x | str text =>
    rw [hk] at h
    exact absurd h pure_ne_error
  | int text =>
    rw [hk] at h
    cases hn : Numeral.word? text with
    | none =>
      simp only [hn] at h
      exact ⟨[], failsBehind_fail h ⟨rfl, hk⟩, hleast⟩
    | some n =>
      simp only [hn] at h
      exact absurd h pure_ne_error
  | symbol s =>
    have hc' := hadv (by rw [hk]; simp)
    have hb := hread' (by rw [hk]; simp)
    rw [hk] at h hb
    cases s with
    | lparen =>
      rcases expect_behind_of_error hexpr hread hc' (plain_symbol _) h with
        ⟨ks, hfail, hks⟩ | ⟨_, _, _, _, _, h⟩
      · refine ⟨_, hfail.prepend hb, ?_⟩
        exact hks.inside [.symbol .lparen] [.symbol .rparen] (by simp)
          fun ls x hx => ⟨x, .group hx⟩
      · exact absurd h pure_ne_error
    | lbracket =>
      exact (exprList_fails hexpr hread .rbracket).behind hb hc' [.symbol .rbracket] (by simp)
        (fun ls es hes => ⟨_, .array hes⟩) (map_of_error h)
    | lbrace => exact hash_fails hexpr hread hc h
    | _ => exact ⟨[], failsBehind_fail h ⟨rfl, by simp [hk]⟩, hleast⟩
  | keyword w =>
    have hc' := hadv (by rw [hk]; simp)
    have hb := hread' (by rw [hk]; simp)
    rw [hk] at h hb
    cases w with
    | trueWord | falseWord => exact absurd h pure_ne_error
    | ifWord => exact cond_fails hexpr hread hc h
    | fnWord => exact function_fails hexpr hread .fn hb hc' h
    | macroWord => exact function_fails hexpr hread .macroFn hb hc' h
    | _ => exact ⟨[], failsBehind_fail h ⟨rfl, by simp [hk]⟩, hleast⟩
  | illegal text =>
    rw [hk] at h
    exact ⟨[], failsBehind_fail h ⟨rfl, hk⟩, hleast⟩
  | eof =>
    rw [hk] at h
    exact ⟨[], failsBehind_fail h ⟨rfl, by simp [hk]⟩, hleast⟩

theorem postfixed_fails : FailsIn (n + 1) (Grammar.postfixed expr) (Postfix Expression) := by
  intro c e d hc h
  rcases bind_eq_error_iff.1 h with h | ⟨a, c₁, ha, h⟩
  · exact (primary_fails hexpr hread).behind (.refl c) hc [] (by simp)
      (fun ls x hx => ⟨x, by simpa using .primary hx⟩) h
  rcases primary_sound hread hc ha with ⟨ks, hks, hPa⟩
  have hloop := loop_fails (postfixStep_extends hread) (Q := Postfix Expression) ?_ (hks.within hc)
    (.primary hPa) h
  · rcases hloop with ⟨js, hfail, hviable⟩
    exact ⟨ks ++ js, hfail.prepend hks, hviable⟩
  intro a c e d f ls hc ha hk hf
  have hne : c.current.kind ≠ .eof := by
    intro h
    rw [h] at hk
    cases hk
  have hb := hc.passes_advance hne
  have hc' := hb.within_of_ne_nil (by simp) hc
  unfold postfixStep at hk
  split at hk
  case h_1 hkind =>
    cases hk
    rw [hkind] at hb
    exact (exprList_fails hexpr hread .rparen).behind_phrase hb hc' [.symbol .rparen] (by simp)
      (fun js args hargs => ⟨_, by simpa using Postfix.call ha hargs⟩) (map_of_error hf)
  case h_2 hkind =>
    cases hk
    rw [hkind] at hb
    rcases expect_behind_of_error hexpr hread hc' (plain_symbol _) hf with
      ⟨js, hfail, hjs⟩ | ⟨_, _, _, _, _, hf⟩
    · refine ⟨_, hfail.prepend hb, ?_⟩
      have hindex := hjs.inside (Q := Postfix Expression) (ls ++ [.symbol .lbracket])
        [.symbol .rbracket] (by simp) fun ls' i hi => ⟨_, by simpa using Postfix.index ha hi⟩
      simpa using hindex
    · exact absurd hf pure_ne_error
  case h_3 => cases hk

theorem unary_fails : FailsIn (n + 1) (Grammar.unary expr) (Unary Expression) := by
  have hnext := signStep_extends (n + 1)
  intro c e d hc h
  rcases bind_eq_error_iff.1 h with h | ⟨ops, c₁, hops, h⟩
  · -- reading a sign does not fail
    rcases loop_of_failing (I := fun _ _ => True) hnext.stepsRead (by simp) hc trivial h with
      ⟨ops, c₁, f, _, -, hk, hf⟩
    rcases Option.map_eq_some_iff.1 hk with ⟨op, -, rfl⟩
    exact absurd hf pure_ne_error
  rcases loop_sound hnext hc hops .nil trivial with ⟨ks, hks, hsigns, -⟩
  exact (postfixed_fails hexpr hread).behind hks (hks.within hc) [] (by simp)
    (fun ls x hx => ⟨_, by simpa using hsigns.unary (.postfixed hx)⟩) (map_of_error h)

end

theorem leftAssoc_fails {op? : TokenKind → Option BinaryOp} {ops : List (Symbol × BinaryOp)}
    {operand : Parser Expr} {P : Language Expr} {stop : TokenKind → Prop} (hop : Lists op? ops)
    (hp : FailsIn n operand P) (hread : Reads n operand P stop) :
    FailsIn n (Grammar.leftAssoc op? operand) (LeftAssoc ops P) := by
  intro c e d hc h
  rcases bind_eq_error_iff.1 h with h | ⟨a, c₁, ha, h⟩
  · exact hp.behind (.refl c) hc [] (by simp) (fun ls x hx => ⟨x, by simpa using .operand hx⟩) h
  rcases hread.sound hc ha with ⟨ks, hks, hPa, -⟩
  have hloop := loop_fails (leftStep_extends hop hread) (Q := LeftAssoc ops P) ?_ (hks.within hc)
    (.operand hPa) h
  · rcases hloop with ⟨js, hfail, hviable⟩
    exact ⟨ks ++ js, hfail.prepend hks, hviable⟩
  intro a c e d f ls hc ha hk hf
  rcases Option.map_eq_some_iff.1 hk with ⟨op, hop?, rfl⟩
  rcases (hop _ op).1 hop? with ⟨s, hs, hmem⟩
  have hb := hc.passes_advance (by rw [hs]; simp)
  rw [hs] at hb
  exact hp.behind_phrase hb (hb.within hc) [] (by simp)
    (fun js x hx => ⟨_, by simpa using LeftAssoc.binary ha hmem hx⟩) (map_of_error hf)

theorem equality_fails (hexpr : FailsIn n expr Expression)
    (hread : Reads n expr Expression EndsExpr) :
    FailsIn (n + 1) (Grammar.equality expr) Expression := by
  have hunary := unary_reads (postfixed_reads hread)
  have hmul := leftAssoc_reads lists_multiplicative hunary (by decide)
  have hadd := leftAssoc_reads lists_additive hmul (by decide)
  have hcmp := leftAssoc_reads lists_comparison hadd (by decide)
  have hfails := leftAssoc_fails lists_equality (leftAssoc_fails lists_comparison
    (leftAssoc_fails lists_additive (leftAssoc_fails lists_multiplicative
      (unary_fails hexpr hread) hunary) hmul) hadd) hcmp
  intro c e d hc h
  exact hfails.behind (.refl c) hc [] (by simp) (fun ls x hx => ⟨x, by simpa using .intro hx⟩) h

-- A recursive parser fails only behind beginnings if its body does, given such a parser for its
-- parts.
theorem fix_fails {f : Parser α → Parser α} {P : Language α} {stop : TokenKind → Prop}
    (hread : ∀ n, Reads n (fix f) P stop)
    (h : ∀ n p, FailsIn n p P → Reads n p P stop → FailsIn (n + 1) (f p) P) (n : Nat) :
    FailsIn n (fix f) P := by
  induction n using Nat.strongRecOn with
  | ind n ih =>
    intro c e d hc hp
    have hbody : FailsIn (c.remaining + 1)
        (f fun d => if d.remaining < c.remaining then fix f d else unexpected "EXPR" d) P := by
      refine h _ _ ?_ ⟨fun hd => ?_, fun hd => ?_⟩
      · intro b e d hb hp
        simp only [hb.remaining_lt, if_true] at hp
        exact ih _ hc.remaining_lt hb hp
      · simpa only [hd.remaining_lt, if_true] using (hread _).sound hd
      · simpa only [hd.remaining_lt, if_true] using (hread _).complete hd
    rw [fix] at hp
    exact hbody ⟨hc.last_kind, Nat.lt_succ_self _⟩ hp

theorem expr_fails (n : Nat) : FailsIn n Parser.expr Expression :=
  fix_fails expr_reads (fun _ _ => equality_fails) n

/-- The parser for statements fails only behind the beginning of a statement, and its error names
the token there. -/
theorem statement_fails (n : Nat) : FailsIn n Parser.stmt (Statement Expression) :=
  stmt_fails (expr_fails n)

end

end Phrase

end Monkey
