import Monkey.Proofs.Phrase.FirstError
import Monkey.Proofs.Token.Position

/-!
# Recovery — the errors of a text stand in order

Behind an error parsing goes on after the next semicolon, so between two errors there is one.  The
errors are then found along the tokens, as `ErrorsAlong` says, and the order of the tokens in the
text is the order of the errors.
-/

namespace Monkey

namespace Phrase

open Monkey.Parser Cursor Lexer

/-! ## 1. Errors along tokens -/

/-- The errors name tokens one after the other, with a semicolon between each and the next.  The
semicolon may be the token that the error names. -/
inductive ErrorsAlong : List Token → List ParseError → Prop
  | none (ts : List Token) : ErrorsAlong ts []
  | last {before t after e} : e.Names t → ErrorsAlong (before ++ t :: after) [e]
  | more {before t after skipped semicolon rest e es} : e.Names t →
      t :: after = skipped ++ semicolon :: rest → semicolon.kind = .symbol .semicolon →
      ErrorsAlong rest es → ErrorsAlong (before ++ t :: after) (e :: es)

section

variable {c : Cursor}

theorem ToEnd.afterSemicolon (hc : ToEnd c) : ToEnd c.afterSemicolon where
  last_kind := hc.last_kind
  eof_notMem hmem := by
    rcases List.mem_map.1 hmem with ⟨t, ht, hk⟩
    have hsub := (List.tail_sublist _).trans
      (List.dropWhile_sublist (l := c.rest) (·.kind ≠ .symbol .semicolon))
    exact hc.eof_notMem (List.mem_map.2 ⟨t, hsub.subset ht, hk⟩)

-- The tokens from the one that the cursor stands on.
theorem exists_current_cons (c : Cursor) : ∃ after, c.rest ++ [c.last] = c.current :: after := by
  rcases c with ⟨_ | ⟨t, ts⟩, last⟩
  · exact ⟨[], rfl⟩
  · exact ⟨ts ++ [last], rfl⟩

-- Where no semicolon is left, nothing is left to be parsed.
theorem end_or_semicolon (c : Cursor) :
    c.afterSemicolon = ⟨[], c.last⟩ ∨ ∃ skipped semicolon,
      c.rest = skipped ++ semicolon :: c.afterSemicolon.rest ∧
        semicolon.kind = .symbol .semicolon := by
  have hcut := List.takeWhile_append_dropWhile (p := (·.kind ≠ .symbol .semicolon)) (l := c.rest)
  have hstop := List.head?_dropWhile_not (·.kind ≠ .symbol .semicolon) c.rest
  unfold Cursor.afterSemicolon
  cases hdrop : c.rest.dropWhile (·.kind ≠ .symbol .semicolon) with
  | nil => exact .inl rfl
  | cons t ts =>
    rw [hdrop] at hstop hcut
    exact .inr ⟨c.rest.takeWhile (·.kind ≠ .symbol .semicolon), t, hcut.symm, by simpa using hstop⟩

/-- The errors of a program, found along its tokens and the end. -/
theorem errors_along (hc : ToEnd c) : ErrorsAlong (c.rest ++ [c.last]) (parseFrom c).errors := by
  induction hm : c.remaining using Nat.strongRecOn generalizing c with
  | ind m ih =>
    subst hm
    cases herrors : (parseFrom c).errors with
    | nil => exact .none _
    | cons e es =>
      rcases runs_of_errors hc herrors with ⟨ss, b, d, hrun, -, hfail, rfl⟩
      rcases (hrun.stmtsBetween hc).statements with ⟨js, hjs, -⟩
      rcases statement_fails _ (hrun.toEnd hc).within hfail with ⟨ks, hfails, -⟩
      have hpass := hjs.trans hfails.passes
      have hd := hc.passes hpass
      rcases hpass.eq_prepend with ⟨us, rfl, -⟩
      rcases exists_current_cons d with ⟨after, hafter⟩
      have htokens : (d.prepend us).rest ++ [(d.prepend us).last] = us ++ d.current :: after := by
        rw [← hafter, prepend, List.append_assoc]
      rw [htokens]
      rcases end_or_semicolon d with hnone | ⟨skipped, semicolon, hskip, hsemicolon⟩
      · have hempty : (parseFrom d.afterSemicolon).errors = [] := by
          rw [parseFrom, if_pos (hd.afterSemicolon.atEnd_iff.2 hnone)]
          rfl
        rw [hempty]
        exact .last hfails.names
      · have hlt : d.afterSemicolon.remaining < (d.prepend us).remaining := by
          have hlength := congrArg List.length hskip
          simp only [List.length_append, List.length_cons] at hlength
          rw [remaining_prepend]
          show d.afterSemicolon.rest.length < us.length + d.rest.length
          omega
        have hcut : d.current :: after = skipped ++ semicolon ::
            (d.afterSemicolon.rest ++ [d.afterSemicolon.last]) := by
          rw [← hafter, hskip, List.append_assoc, List.cons_append]
          rfl
        exact .more hfails.names hcut hsemicolon (ih _ hlt hd.afterSemicolon rfl)

end

/-! ## 2. Order -/

section

variable {ts before after skipped rest : List Token} {t semicolon : Token} {e e' : ParseError}
  {es es₁ es₂ : List ParseError}

theorem ErrorsAlong.names (h : ErrorsAlong ts es) (he : e ∈ es) : ∃ t ∈ ts, e.Names t := by
  induction h with
  | none ts => cases he
  | @last before t after e' hnames =>
    obtain rfl := List.mem_singleton.1 he
    exact ⟨t, by simp, hnames⟩
  | @more before t after skipped semicolon rest e' es hnames hcut _ _ ih =>
    rcases List.mem_cons.1 he with rfl | he
    · exact ⟨t, by simp, hnames⟩
    · rcases ih he with ⟨u, hu, hnames'⟩
      refine ⟨u, ?_, hnames'⟩
      rw [hcut]
      simp [hu]

theorem ErrorsAlong.length_le (h : ErrorsAlong ts es) :
    es.length ≤ ts.countP (·.kind = .symbol .semicolon) + 1 := by
  induction h with
  | none ts => exact Nat.zero_le _
  | last _ => exact Nat.succ_le_succ (Nat.zero_le _)
  | @more before t after skipped semicolon rest e es _ hcut hsemicolon _ ih =>
    rw [hcut, List.countP_append, List.countP_append,
      List.countP_cons_of_pos (by simp [hsemicolon]), List.length_cons]
    omega

-- A semicolon behind an error, or in its place, and the tokens behind the semicolon.
theorem semicolon_behind (h : Ascending (before ++ t :: after))
    (hcut : t :: after = skipped ++ semicolon :: rest) :
    t.span.start ≤ semicolon.span.start ∧ (∀ u ∈ rest, semicolon.span.start < u.span.start) ∧
      Ascending rest := by
  have htail : Ascending (skipped ++ semicolon :: rest) := hcut ▸ (List.pairwise_append.1 h).2.1
  rcases List.pairwise_append.1 htail with ⟨-, hrest, hskipped⟩
  rcases List.pairwise_cons.1 hrest with ⟨hbehind, hrest⟩
  refine ⟨?_, hbehind, hrest⟩
  cases skipped with
  | nil =>
    obtain ⟨rfl, -⟩ := List.cons.inj hcut
    exact UInt32.le_refl _
  | cons s skipped =>
    obtain ⟨rfl, -⟩ := List.cons.inj hcut
    exact UInt32.le_of_lt (hskipped t List.mem_cons_self semicolon List.mem_cons_self)

theorem ErrorsAlong.ascending (h : ErrorsAlong ts es) (hts : Ascending ts) :
    es.Pairwise fun e e' => e.span.start < e'.span.start := by
  induction h with
  | none ts => exact .nil
  | last _ => exact List.pairwise_singleton _ _
  | more hnames hcut _ hes ih =>
    rcases semicolon_behind hts hcut with ⟨hle, hbehind, hrest⟩
    refine .cons ?_ (ih hrest)
    intro e' he'
    rcases hes.names he' with ⟨u, hu, hnames'⟩
    rw [hnames.span_eq, hnames'.span_eq]
    exact UInt32.lt_of_le_of_lt hle (hbehind u hu)

theorem ErrorsAlong.semicolon_between (h : ErrorsAlong ts es) (hts : Ascending ts)
    (hes : es = es₁ ++ e :: e' :: es₂) : ∃ t ∈ ts, t.kind = .symbol .semicolon ∧
      e.span.start ≤ t.span.start ∧ t.span.start < e'.span.start := by
  induction h generalizing es₁ with
  | none ts => simp at hes
  | last _ =>
    have hlength := congrArg List.length hes
    simp at hlength
    omega
  | @more before t after skipped semicolon rest d es hnames hcut hsemicolon halong ih =>
    rcases semicolon_behind hts hcut with ⟨hle, hbehind, hrest⟩
    cases es₁ with
    | nil =>
      obtain ⟨rfl, rfl⟩ := List.cons.inj hes
      rcases halong.names List.mem_cons_self with ⟨u, hu, hnames'⟩
      refine ⟨semicolon, by rw [hcut]; simp, hsemicolon, ?_, ?_⟩
      · rw [hnames.span_eq]
        exact hle
      · rw [hnames'.span_eq]
        exact hbehind u hu
    | cons d' es₁ =>
      obtain ⟨rfl, rfl⟩ := List.cons.inj hes
      rcases ih hrest rfl with ⟨u, hu, hbetween⟩
      exact ⟨u, by rw [hcut]; simp [hu], hbetween⟩

end

/-! ## 3. Texts -/

/-- The errors of a text with the tokens `ts` stand in order. -/
structure InOrder (source : String) (ts : List Token) (es : List ParseError) : Prop where
  -- Each error stands at one token and tells what it is.
  named : ∀ e ∈ es, ∃ t ∈ ts, e.Names t ∧ ∀ u ∈ ts, u.span = e.span → u = t
  ascending : es.Pairwise fun e e' => e.span.start < e'.span.start
  -- Between an error and the next one stands a semicolon.
  semicolon : ∀ es₁ e e' es₂, es = es₁ ++ e :: e' :: es₂ → ∃ t ∈ ts, t.kind = .symbol .semicolon ∧
    e.span.start ≤ t.span.start ∧ t.span.start < e'.span.start
  bounded : es.length ≤ ts.countP (·.kind = .symbol .semicolon) + 1
  positions : es.Pairwise fun e e' => (e.span.position source).Before (e'.span.position source)

theorem parseSource_along {source : String} (h : source.utf8ByteSize ≤ Span.maxOffset) :
    ErrorsAlong (lex source) (parseSource source).errors := by
  rcases lex_laid h with ⟨ts, stop, hts, -, -, hlaid⟩
  have hnone : ∀ t ∈ ts, t.kind ≠ .eof := by
    intro t ht
    rcases hlaid.spelled ht with ⟨_, _, _, _, hspells⟩
    exact hspells.ne_eof
  rw [parseSource, hts, parse_concat rfl hnone]
  exact errors_along (toEnd_mk rfl hnone)

/-- **Recovery is ordered and bounded.**  The errors of a text stand at tokens that lie further and
further on, and no two of them without a semicolon in between. -/
theorem parse_errors_inOrder (source : String) (h : source.utf8ByteSize ≤ Span.maxOffset) :
    InOrder source (lex source) (parseSource source).errors := by
  have halong := parseSource_along h
  rcases lex_ascending h with ⟨hts, hboundary⟩
  refine ⟨?_, halong.ascending hts, ?_, halong.length_le, ?_⟩
  · intro e he
    rcases halong.names he with ⟨t, ht, hnames⟩
    refine ⟨t, ht, hnames, ?_⟩
    intro u hu hspan
    exact hts.eq_of_span hu ht (hspan.trans hnames.span_eq)
  · intro es₁ e e' es₂ hes
    exact halong.semicolon_between hts hes
  · apply (halong.ascending hts).imp_of_mem
    intro e e' he he' hlt
    rcases halong.names he with ⟨t, ht, hnames⟩
    rcases halong.names he' with ⟨t', ht', hnames'⟩
    rw [hnames.span_eq, hnames'.span_eq] at hlt ⊢
    exact Span.position_before (hboundary t ht) (hboundary t' ht') hlt

/-- A binding without its sign, and one without its name. -/
theorem parse_errors_inOrder_bindings :
    (parseSource "let x 5;\nlet = 10;").errors.map (·.render "let x 5;\nlet = 10;") =
      ["1:7: expected next token to be =, got INT instead",
        "2:5: expected next token to be IDENT, got = instead"] ∧
    "let x 5;\nlet = 10;".utf8ByteSize ≤ Span.maxOffset ∧
    InOrder "let x 5;\nlet = 10;" (lex "let x 5;\nlet = 10;")
      (parseSource "let x 5;\nlet = 10;").errors :=
  ⟨by decide +kernel, by decide, parse_errors_inOrder _ (by decide)⟩

end Phrase

end Monkey
