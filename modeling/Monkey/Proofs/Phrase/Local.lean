import Monkey.Parser.Grammar
import Monkey.Proofs.Phrase.Term

/-!
# Locality — parsers look at no token behind the one they stop at

A parser reads some tokens and stops at the next one.  Whatever stands behind that one, it does the
same.  A recursive parser hands itself on with a bound on the tokens that are left, and two texts
that agree only up to some token have different numbers of tokens left; so `Local` speaks of two
parsers, each on cursors of its own bound, and `Local.fix` takes the bounds away.
-/

namespace Monkey

namespace Cursor

/-- The cursor in front of the tokens `ts`, behind which it goes on at `c`. -/
def prepend (c : Cursor) (ts : List Token) : Cursor := { c with rest := ts ++ c.rest }

variable {c c' d : Cursor} {ts us : List Token} {n : Nat}

@[simp] theorem prepend_nil (c : Cursor) : c.prepend [] = c := rfl

theorem prepend_append (c : Cursor) (ts us : List Token) :
    c.prepend (ts ++ us) = (c.prepend us).prepend ts := by
  simp [prepend]

@[simp] theorem remaining_prepend (c : Cursor) (ts : List Token) :
    (c.prepend ts).remaining = ts.length + c.remaining := by
  simp [remaining, prepend]

theorem prepend_inj : c.prepend ts = c.prepend us ↔ ts = us := by
  simp [prepend]

-- The token in front does not depend on what stands behind it.
theorem current_prepend (h : d.current = c.current) (ts : List Token) :
    (d.prepend ts).current = (c.prepend ts).current := by
  cases ts with
  | nil => exact h
  | cons t ts => rfl

-- The tokens that are passed stand in front.
theorem Passes.eq_prepend {ks : List TokenKind} (h : c.Passes ks d) :
    ∃ ts, c = d.prepend ts ∧ ts.map (·.kind) = ks := by
  induction h with
  | refl c => exact ⟨[], rfl, rfl⟩
  | @step t _ _ _ _ _ ih =>
    rcases ih with ⟨us, hus, hks⟩
    refine ⟨t :: us, ?_, by rw [List.map_cons, hks]⟩
    simp only [prepend, mk.injEq] at hus ⊢
    simp [hus]

theorem Within.of_prepend (h : (c.prepend ts).Within n) : c.Within n where
  last_kind := h.last_kind
  remaining_lt := by
    have := h.remaining_lt
    rw [remaining_prepend] at this
    omega

theorem Within.mono {m : Nat} (h : c.Within n) (hnm : n ≤ m) : c.Within m where
  last_kind := h.last_kind
  remaining_lt := Nat.lt_of_lt_of_le h.remaining_lt hnm

-- A cursor that is not at the end stands in front of the token that it is on.
theorem Within.eq_prepend (h : c.Within n) (hk : c.current.kind ≠ .eof) :
    c = c.advance.prepend [c.current] := by
  rcases c with ⟨rest, last⟩
  cases rest with
  | nil => exact absurd h.last_kind hk
  | cons t ts => rfl

end Cursor

namespace Parser

open Cursor

variable {α β : Type} {k : TokenKind} {n m : Nat}

/-! ## 1. Local pairs of parsers -/

/-- On cursors that stand on a token of the kind `k`, what `p` does is done by `q` on every cursor
that agrees with the first one up to the token at which `p` stops.  Those of `p` have fewer than `n`
tokens left and those of `q` fewer than `m`. -/
def LocalAt (k : TokenKind) (n m : Nat) (p q : Parser α) : Prop :=
  ∀ ⦃c : Cursor⦄ ⦃r : Except ParseError α⦄ ⦃d : Cursor⦄, c.Within n → c.current.kind = k →
    p c = (r, d) → ∃ ts, c = d.prepend ts ∧
      ∀ d' : Cursor, (d'.prepend ts).Within m → d'.current = d.current →
        q (d'.prepend ts) = (r, d')

/-- `LocalAt` every kind of token. -/
def Local (n m : Nat) (p q : Parser α) : Prop := ∀ k, LocalAt k n m p q

section

variable {p q : Parser α} {f g : α → Parser β}

theorem LocalAt.mono {n' m' : Nat} (h : LocalAt k n' m' p q) (hn : n ≤ n') (hm : m ≤ m') :
    LocalAt k n m p q := by
  intro c r d hc hk hp
  rcases h (hc.mono hn) hk hp with ⟨ts, hts, hq⟩
  exact ⟨ts, hts, fun d' hd' => hq d' (hd'.mono hm)⟩

theorem Local.mono {n' m' : Nat} (h : Local n' m' p q) (hn : n ≤ n') (hm : m ≤ m') :
    Local n m p q :=
  fun k => (h k).mono hn hm

theorem LocalAt.pred (h : LocalAt k (n + 1) (m + 1) p q) : LocalAt k n m p q :=
  h.mono (Nat.le_succ n) (Nat.le_succ m)

theorem Local.pred (h : Local (n + 1) (m + 1) p q) : Local n m p q :=
  h.mono (Nat.le_succ n) (Nat.le_succ m)

theorem LocalAt.pure (a : α) : LocalAt k n m (pure a) (pure a) := by
  intro c r d _ _ hp
  cases hp
  exact ⟨[], rfl, fun d' _ _ => rfl⟩

-- An error names the token at which the parser stops, and no other.
theorem LocalAt.fail (cause : ParseCause) : LocalAt k n m (fail cause : Parser α) (fail cause) := by
  intro c r d _ _ hp
  cases hp
  refine ⟨[], rfl, ?_⟩
  intro d' _ hcurrent
  rw [prepend_nil, Parser.fail, hcurrent]

theorem LocalAt.bind (h : LocalAt k n m p q) (hf : ∀ a, Local n m (f a) (g a)) :
    LocalAt k n m (p >>= f) (q >>= g) := by
  intro c r d hc hk hp
  rw [bind_apply] at hp
  rcases hpc : p c with ⟨e | a, d₁⟩
  · rw [hpc] at hp
    cases hp
    rcases h hc hk hpc with ⟨ts, hts, hq⟩
    refine ⟨ts, hts, ?_⟩
    intro d' hd' hcurrent
    rw [bind_apply, hq d' hd' hcurrent]
  · rw [hpc] at hp
    rcases h hc hk hpc with ⟨ts, rfl, hq⟩
    rcases hf a _ hc.of_prepend rfl hp with ⟨us, rfl, hg⟩
    refine ⟨ts ++ us, (prepend_append d ts us).symm, ?_⟩
    intro d' hd' hcurrent
    rw [prepend_append] at hd' ⊢
    -- where `p` stops, the two cursors stand on the same token
    rw [bind_apply, hq _ hd' (current_prepend hcurrent us)]
    exact hg d' hd'.of_prepend hcurrent

theorem Local.bind (h : Local n m p q) (hf : ∀ a, Local n m (f a) (g a)) :
    Local n m (p >>= f) (q >>= g) :=
  fun k => (h k).bind hf

theorem Local.pure (a : α) : Local n m (pure a) (pure a) := fun _ => .pure a

-- Parsers that do the same where a token of the kind `k` stands.
theorem LocalAt.congr {p' q' : Parser α} (hp : ∀ c, c.current.kind = k → p c = p' c)
    (hq : ∀ c, c.current.kind = k → q c = q' c) (h : LocalAt k n m p' q') :
    LocalAt k n m p q := by
  intro c r d hc hk hpc
  rw [hp c hk] at hpc
  rcases h hc hk hpc with ⟨ts, rfl, hq'⟩
  refine ⟨ts, rfl, ?_⟩
  intro d' hd' hcurrent
  rw [hq _ (current_prepend hcurrent ts ▸ hk)]
  exact hq' d' hd' hcurrent

theorem Local.current_bind {f g : Token → Parser β} (h : ∀ t, LocalAt t.kind n m (f t) (g t)) :
    Local n m (current >>= f) (current >>= g) := by
  intro k c r d hc _ hp
  rcases h c.current hc rfl hp with ⟨ts, rfl, hq⟩
  refine ⟨ts, rfl, ?_⟩
  intro d' hd' hcurrent
  rw [Parser.current_bind, current_prepend hcurrent ts]
  exact hq d' hd' hcurrent

theorem Local.kind_bind {f g : TokenKind → Parser β} (h : ∀ k, LocalAt k n m (f k) (g k)) :
    Local n m (kind >>= f) (kind >>= g) :=
  .current_bind fun t => h t.kind

theorem Local.check_bind {f g : Bool → Parser β} (l : TokenKind)
    (h : ∀ b, Local n m (f b) (g b)) : Local n m (check l >>= f) (check l >>= g) :=
  .kind_bind fun k => h (TokenKind.SameClass k l) k

theorem Local.unexpected (expected : String) :
    Local n m (unexpected expected : Parser α) (unexpected expected) :=
  .kind_bind fun _ => .fail _

theorem Local.unexpected_bind (expected : String) (f g : α → Parser β) :
    Local n m (Parser.unexpected expected >>= f) (Parser.unexpected expected >>= g) :=
  .kind_bind fun k => .fail (.unexpectedToken expected k.description)

/-! ## 2. Reading one token -/

variable {l : TokenKind}

-- Behind a token that is read, one token fewer is left.
theorem LocalAt.advance_bind (hk : k ≠ .eof) (h : Local n m p q) :
    LocalAt k (n + 1) (m + 1) (do advance; p) (do advance; q) := by
  intro c r d hc hck hp
  subst hck
  have hcut := hc.eq_prepend hk
  have hread : c.advance.Within n := (hc.passes_advance hk).within_of_ne_nil (by simp) hc
  rcases h _ hread rfl hp with ⟨ts, hts, hq⟩
  refine ⟨c.current :: ts, ?_, ?_⟩
  · rw [hcut, hts]
    rfl
  · intro d' hd' hcurrent
    refine hq d' ⟨hd'.last_kind, ?_⟩ hcurrent
    have := hd'.remaining_lt
    simp only [remaining_prepend, List.length_cons] at this ⊢
    omega

theorem LocalAt.eat_bind_of_eq {f g : Bool → Parser β} (hl : Plain l)
    (h : Local n m (f true) (g true)) :
    LocalAt l (n + 1) (m + 1) (eat l >>= f) (eat l >>= g) := by
  have heat (f : Bool → Parser β) (c : Cursor) (hc : c.current.kind = l) :
      (eat l >>= f) c = (do advance; f true : Parser β) c := by
    rw [bind_apply, eat_apply c hl, if_pos hc]
    rfl
  exact .congr (heat f) (heat g) (.advance_bind hl.ne_eof h)

theorem LocalAt.eat_bind_of_ne {f g : Bool → Parser β} (hl : Plain l) (hk : k ≠ l)
    (h : LocalAt k n m (f false) (g false)) : LocalAt k n m (eat l >>= f) (eat l >>= g) :=
  .congr (fun _ hc => Parser.eat_bind_of_ne hl (hc ▸ hk))
    (fun _ hc => Parser.eat_bind_of_ne hl (hc ▸ hk)) h

theorem Local.eat_bind {f g : Bool → Parser β} (hl : Plain l) (h : ∀ b, Local n m (f b) (g b)) :
    Local n m (eat l >>= f) (eat l >>= g) := by
  intro k
  by_cases hk : k = l
  · subst hk
    exact (LocalAt.eat_bind_of_eq hl (h true)).pred
  · exact .eat_bind_of_ne hl hk (h false k)

theorem Local.expect_bind {f g : Span → Parser β} (hl : Plain l)
    (h : ∀ s, Local n m (f s) (g s)) :
    Local (n + 1) (m + 1) (expect l >>= f) (expect l >>= g) := by
  simp only [expect, bind_assoc]
  refine .current_bind fun t => ?_
  by_cases ht : t.kind = l
  · rw [ht]
    exact .eat_bind_of_eq hl (by simpa using h t.span)
  · exact .eat_bind_of_ne hl ht (by simpa using Local.unexpected_bind l.description f g t.kind)

/-! ## 3. Repetition and recursion -/

/-- The steps of two loops are local to each other. -/
def StepsLocal (n m : Nat) (next next' : TokenKind → Option (α → Parser α)) : Prop :=
  ∀ k, Option.Rel (fun f g => ∀ a, LocalAt k n m (f a) (g a)) (next k) (next' k)

theorem StepsLocal.intro {next next' : TokenKind → Option (α → Parser α)}
    (hnone : ∀ k, next k = none ↔ next' k = none)
    (hsome : ∀ k f g, next k = some f → next' k = some g → ∀ a, LocalAt k n m (f a) (g a)) :
    StepsLocal n m next next' := by
  intro k
  have hiff := hnone k
  have hstep := hsome k
  cases hf : next k with
  | none =>
    rw [hiff.1 hf]
    exact .none
  | some f =>
    cases hg : next' k with
    | none => simp [hf, hg] at hiff
    | some g => exact .some (hstep f g hf hg)

theorem loop_of_stuck {next : TokenKind → Option (α → Parser α)} {f : α → Parser α} {a b : α}
    {c d : Cursor} (h : next c.current.kind = some f) (hf : f a c = (.ok b, d))
    (hlt : ¬ d.remaining < c.remaining) : loop next a c = (.ok b, d) := by
  rw [loop]
  simp only [h, hf, hlt, if_false]

theorem Local.loop {next next' : TokenKind → Option (α → Parser α)}
    (h : StepsLocal n m next next') (a : α) : Local n m (loop next a) (loop next' a) := by
  intro k c r d hc hk hp
  clear hk
  -- the induction is on the tokens that are left, as the loop's own
  induction hi : c.remaining using Nat.strongRecOn generalizing a c with
  | ind i ih =>
    subst hi
    have hstep := h c.current.kind
    generalize hf : next c.current.kind = o, hg : next' c.current.kind = o' at hstep
    cases hstep with
    | none =>
      rw [loop_of_none hf] at hp
      cases hp
      exact ⟨[], rfl, fun d' _ hcurrent => loop_of_none (hcurrent ▸ hg)⟩
    | @some f g hfg =>
      rcases hfc : f a c with ⟨e | b, d₁⟩
      · rw [loop_of_error hf hfc] at hp
        cases hp
        rcases hfg a hc rfl hfc with ⟨ts, rfl, hq⟩
        refine ⟨ts, rfl, ?_⟩
        intro d' hd' hcurrent
        exact loop_of_error (current_prepend hcurrent ts ▸ hg) (hq d' hd' hcurrent)
      · rcases hfg a hc rfl hfc with ⟨ts, rfl, hq⟩
        cases ts with
        | nil =>
          rw [loop_of_stuck hf hfc (Nat.lt_irrefl _)] at hp
          cases hp
          refine ⟨[], rfl, ?_⟩
          intro d' hd' hcurrent
          exact loop_of_stuck (hcurrent ▸ hg) (hq d' hd' hcurrent) (Nat.lt_irrefl _)
        | cons t ts =>
          have hlt (d : Cursor) : d.remaining < (d.prepend (t :: ts)).remaining := by
            rw [remaining_prepend, List.length_cons]
            omega
          rw [loop_of_ok hf hfc (hlt d₁)] at hp
          rcases ih _ (hlt d₁) b hc.of_prepend hp rfl with ⟨us, rfl, hq'⟩
          refine ⟨t :: ts ++ us, (prepend_append d _ us).symm, ?_⟩
          intro d' hd' hcurrent
          have hcurrent' := current_prepend hcurrent us
          rw [prepend_append] at hd' ⊢
          rw [loop_of_ok (current_prepend hcurrent' (t :: ts) ▸ hg) (hq _ hd' hcurrent') (hlt _)]
          exact hq' d' hd'.of_prepend hcurrent

-- A recursive parser is local if its body is, given local parsers for its parts.
theorem Local.fix {f : Parser α → Parser α}
    (h : ∀ n m p q, Local n m p q → Local (n + 1) (m + 1) (f p) (f q)) (n m : Nat) :
    Local n m (Parser.fix f) (Parser.fix f) := by
  induction n using Nat.strongRecOn generalizing m with
  | ind n ih =>
    have hbody (c c' : Cursor) (hc : c.Within n) :
        Local (c.remaining + 1) (c'.remaining + 1)
          (f fun d =>
            if d.remaining < c.remaining then Parser.fix f d else Parser.unexpected "EXPR" d)
          (f fun d =>
            if d.remaining < c'.remaining then Parser.fix f d else Parser.unexpected "EXPR" d) := by
      apply h
      intro k d r e hd hk hp
      simp only [hd.remaining_lt, if_true] at hp
      rcases ih _ hc.remaining_lt c'.remaining k hd hk hp with ⟨ts, rfl, hq⟩
      refine ⟨ts, rfl, ?_⟩
      intro e' he' hcurrent
      simpa only [he'.remaining_lt, if_true] using hq e' he' hcurrent
    have hself {c : Cursor} {i : Nat} (hc : c.Within i) : c.Within (c.remaining + 1) :=
      ⟨hc.last_kind, Nat.lt_succ_self _⟩
    intro k c r d hc hk hp
    rw [Parser.fix] at hp
    -- the tokens that are read are the same for every cursor that is compared with `c`
    rcases hbody c c hc k (hself hc) hk hp with ⟨ts, rfl, -⟩
    refine ⟨ts, rfl, ?_⟩
    intro d' hd' hcurrent
    rcases hbody _ (d'.prepend ts) hc k (hself hc) hk hp with ⟨us, hus, hq⟩
    obtain rfl := prepend_inj.1 hus
    rw [Parser.fix]
    exact hq d' (hself hd') hcurrent

/-- Without bounds: what a local parser does on a cursor, it does on every cursor that agrees with it
up to the token at which it stops. -/
theorem Local.of_prepend (h : ∀ n m, Local n m p p) {c d : Cursor} {r : Except ParseError α}
    (hc : c.last.kind = .eof) (hp : p c = (r, d)) :
    ∃ ts, c = d.prepend ts ∧ ∀ d' : Cursor, d'.last.kind = .eof → d'.current = d.current →
      p (d'.prepend ts) = (r, d') := by
  have hself {c : Cursor} (hc : c.last.kind = .eof) : c.Within (c.remaining + 1) :=
    ⟨hc, Nat.lt_succ_self _⟩
  rcases h _ 0 _ (hself hc) rfl hp with ⟨ts, rfl, -⟩
  refine ⟨ts, rfl, ?_⟩
  intro d' hd' hcurrent
  rcases h _ ((d'.prepend ts).remaining + 1) _ (hself hc) rfl hp with ⟨us, hus, hq⟩
  obtain rfl := prepend_inj.1 hus
  exact hq d' (hself hd') hcurrent

end

end Parser

/-! ## 4. The grammar -/

namespace Grammar

open Monkey.Parser Phrase

variable {n m : Nat}

theorem name_local : Local n m name name := by
  refine .kind_bind fun k => ?_
  cases k with
  | ident x => exact (LocalAt.advance_bind (by simp) (.pure x)).pred
  | illegal _ | eof | int _ | str _ | symbol _ | keyword _ => exact Local.unexpected _ _

theorem commaStep_local {α : Type} {p q : Parser α} (h : Local n m p q) :
    StepsLocal n m (commaStep p) (commaStep q) := by
  refine .intro (fun k => commaStep_eq_none_iff.trans commaStep_eq_none_iff.symm) ?_
  intro k f g hf hg xs
  rcases commaStep_eq_some_iff.1 hf with ⟨rfl, rfl⟩
  rcases commaStep_eq_some_iff.1 hg with ⟨-, rfl⟩
  exact (LocalAt.advance_bind (by simp) (h.bind fun a => .pure (xs ++ [a]))).pred

theorem itemsUntil_local {α : Type} {p q : Parser α} (h : Local n m p q) (close : Symbol) :
    Local n m (itemsUntil p close) (itemsUntil q close) := by
  refine .eat_bind (plain_symbol close) fun b => ?_
  cases b with
  | true => exact .pure []
  | false =>
    refine .bind (h.bind fun a => .loop (commaStep_local h) [a]) fun xs => ?_
    exact (Local.expect_bind (plain_symbol close) fun _ => .pure xs).pred

theorem params_local : Local n m params params := by
  rw [params_eq]
  exact (Local.expect_bind (plain_symbol _) fun _ => itemsUntil_local name_local _).pred

section

variable {p q : Parser Expr} (h : Local n m p q)

include h

theorem exprList_local (close : Symbol) : Local n m (exprList p close) (exprList q close) := by
  rw [exprList_eq, exprList_eq]
  exact itemsUntil_local h close

-- An expression with the semicolon behind it, if there is one.
theorem ended_local (g : Expr → Stmt) :
    Local n m (do let v ← p; let _ ← eat (.symbol .semicolon); return g v)
      (do let v ← q; let _ ← eat (.symbol .semicolon); return g v) :=
  h.bind fun v => .eat_bind (plain_symbol _) fun _ => .pure (g v)

theorem stmt_local : Local n m (stmt p) (stmt q) := by
  intro k
  by_cases hlet : k = .keyword .letWord
  · subst hlet
    have hbind : Local n m
        (do let x ← name; let _ ← expect (.symbol .assign); let v ← p
            let _ ← eat (.symbol .semicolon); return .bind x v : Parser Stmt)
        (do let x ← name; let _ ← expect (.symbol .assign); let v ← q
            let _ ← eat (.symbol .semicolon); return .bind x v) :=
      .bind name_local fun x =>
        (Local.expect_bind (plain_symbol _) fun _ => ended_local h (.bind x)).pred
    exact .congr (fun _ => stmt_of_let) (fun _ => stmt_of_let)
      (LocalAt.advance_bind (by simp) hbind).pred
  by_cases hret : k = .keyword .returnWord
  · subst hret
    exact .congr (fun _ => stmt_of_return) (fun _ => stmt_of_return)
      (LocalAt.advance_bind (by simp) (ended_local h .ret)).pred
  · exact .congr (fun _ hk => stmt_of_ne (hk ▸ hlet) (hk ▸ hret))
      (fun _ hk => stmt_of_ne (hk ▸ hlet) (hk ▸ hret)) (ended_local h .expr k)

theorem blockStep_local : StepsLocal n m (blockStep p) (blockStep q) := by
  refine .intro (fun k => blockStep_eq_none_iff.trans blockStep_eq_none_iff.symm) ?_
  intro k f g hf hg ss
  rcases blockStep_eq_some hf with rfl
  rcases blockStep_eq_some hg with rfl
  exact Local.bind (stmt_local h) (fun s => .pure (ss ++ [s])) k

theorem block_local : Local n m (block p) (block q) := by
  refine (Local.expect_bind (plain_symbol _) fun _ => ?_).pred
  refine .bind (.loop (blockStep_local h) []) fun ss => ?_
  exact (Local.expect_bind (plain_symbol _) fun _ => .pure ss).pred

theorem hashStep_local : StepsLocal n m (hashStep p) (hashStep q) := by
  -- what stands behind a value
  have hlast (ps : List (Expr × Expr)) {r : Parser (List (Expr × Expr))}
      (hr : r = do
        let last ← check (.symbol .rbrace)
        if last = true then return ps
        else
          let _ ← expect (.symbol .comma)
          return ps) : Local n m r r := by
    subst hr
    refine .check_bind _ fun b => ?_
    cases b with
    | true => exact .pure _
    | false => exact (Local.expect_bind (plain_symbol _) fun _ => .pure _).pred
  refine .intro (fun k => hashStep_eq_none_iff.trans hashStep_eq_none_iff.symm) ?_
  intro k f g hf hg ps
  rw [hashStep_of_eq_some hf, hashStep_of_eq_some hg]
  refine Local.bind h (fun key => ?_) k
  refine (Local.expect_bind (plain_symbol _) fun _ => ?_).pred
  exact .bind h fun value => hlast (ps ++ [(key, value)]) rfl

theorem hash_local : Local (n + 1) (m + 1) (hash p) (hash q) := by
  refine .expect_bind (plain_symbol _) fun _ => ?_
  refine .bind (.loop (hashStep_local h) []) fun ps => ?_
  exact (Local.expect_bind (plain_symbol _) fun _ => .pure _).pred

theorem cond_local : Local (n + 1) (m + 1) (cond p) (cond q) := by
  refine .expect_bind (plain_keyword _) fun _ => ?_
  refine (Local.expect_bind (plain_symbol _) fun _ => ?_).pred
  refine .bind h fun test => ?_
  refine (Local.expect_bind (plain_symbol _) fun _ => ?_).pred
  refine .bind (block_local h) fun yes => ?_
  refine .eat_bind (plain_keyword _) fun b => ?_
  cases b with
  | true => exact .bind (block_local h) fun no => .pure _
  | false => exact .pure _

theorem primary_local : Local (n + 1) (m + 1) (primary p) (primary q) := by
  refine .kind_bind fun k => ?_
  have hfunction (g : List String → Block → Expr) : Local n m
      (do let ps ← params; return g ps (← block p)) (do let ps ← params; return g ps (← block q)) :=
    .bind params_local fun ps => .bind (block_local h) fun b => .pure (g ps b)
  cases k with
  | ident x => exact .advance_bind (by simp) (.pure _)
  | str text => exact .advance_bind (by simp) (.pure _)
  | int text =>
    cases hn : Numeral.word? text with
    | some i => simpa [hn] using LocalAt.advance_bind (by simp) (.pure _)
    | none => simpa [hn] using LocalAt.fail _
  | symbol s =>
    cases s with
    | lparen =>
      exact .advance_bind (by simp)
        (h.bind fun e => (Local.expect_bind (plain_symbol _) fun _ => .pure e).pred)
    | lbracket =>
      exact .advance_bind (by simp) ((exprList_local h _).bind fun es => .pure _)
    | lbrace => exact hash_local h _
    | _ => exact .fail _
  | keyword w =>
    cases w with
    | trueWord | falseWord => exact .advance_bind (by simp) (.pure _)
    | ifWord => exact cond_local h _
    | fnWord => exact .advance_bind (by simp) (hfunction .fn)
    | macroWord => exact .advance_bind (by simp) (hfunction .macroFn)
    | _ => exact .fail _
  | illegal _ | eof => exact .fail _

theorem postfixStep_local : StepsLocal (n + 1) (m + 1) (postfixStep p) (postfixStep q) := by
  refine .intro (fun k => postfixStep_eq_none_iff.trans postfixStep_eq_none_iff.symm) ?_
  intro k f g hf hg e
  unfold postfixStep at hf hg
  split at hf
  · cases hf
    cases hg
    exact .advance_bind (by simp) ((exprList_local h _).bind fun args => .pure _)
  · cases hf
    cases hg
    exact .advance_bind (by simp)
      (h.bind fun i => (Local.expect_bind (plain_symbol _) fun _ => .pure _).pred)
  · cases hf

theorem postfixed_local : Local (n + 1) (m + 1) (postfixed p) (postfixed q) :=
  .bind (primary_local h) fun e => .loop (postfixStep_local h) e

omit h in
theorem signStep_local : StepsLocal (n + 1) (m + 1) signStep signStep := by
  refine .intro (fun _ => Iff.rfl) ?_
  intro k f g hf hg ops
  obtain rfl := Option.some.inj (hf.symm.trans hg)
  rcases Option.map_eq_some_iff.1 hf with ⟨op, hop, rfl⟩
  rcases unaryOp?_eq_some_iff.1 hop with ⟨s, rfl, -⟩
  exact .advance_bind (by simp) (.pure _)

theorem unary_local : Local (n + 1) (m + 1) (unary p) (unary q) :=
  .bind (.loop signStep_local []) fun _ => .bind (postfixed_local h) fun _ => .pure _

section

variable {op? : TokenKind → Option BinaryOp} {ops : List (Symbol × BinaryOp)} (hop : Lists op? ops)

include hop

theorem leftStep_local : StepsLocal n m (leftStep op? p) (leftStep op? q) := by
  refine .intro (fun k => (leftStep_eq_none_iff hop).trans (leftStep_eq_none_iff hop).symm) ?_
  intro k f g hf hg left
  rcases Option.map_eq_some_iff.1 hf with ⟨op, hk, rfl⟩
  rcases Option.map_eq_some_iff.1 hg with ⟨op', hk', rfl⟩
  obtain rfl := Option.some.inj (hk.symm.trans hk')
  rcases (hop k op).1 hk with ⟨s, rfl, -⟩
  exact (LocalAt.advance_bind (by simp) (h.bind fun right => .pure _)).pred

theorem leftAssoc_local : Local n m (leftAssoc op? p) (leftAssoc op? q) :=
  h.bind fun e => .loop (leftStep_local h hop) e

end

theorem equality_local : Local (n + 1) (m + 1) (equality p) (equality q) :=
  leftAssoc_local (leftAssoc_local (leftAssoc_local (leftAssoc_local (unary_local h)
    lists_multiplicative) lists_additive) lists_comparison) lists_equality

end

end Grammar

namespace Parser

theorem expr_local (n m : Nat) : Local n m expr expr :=
  .fix (fun _ _ _ _ h => Grammar.equality_local h) n m

/-- A statement is parsed by its own tokens and the one behind them. -/
theorem stmt_local (n m : Nat) : Local n m stmt stmt := Grammar.stmt_local (expr_local n m)

end Parser

end Monkey
