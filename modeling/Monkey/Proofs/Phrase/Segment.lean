import Mathlib.Data.List.TakeWhile
import Monkey.Proofs.Phrase.Recovery
import Monkey.Proofs.Phrase.Split

/-!
# Segments — parsing is cut behind a semicolon

Let a row of tokens end with a semicolon, and let no error be found at the end behind it.  Then
parsing comes to rest just there: the semicolon belongs to a statement that it closes, or to what is
skipped behind an error.  Whatever tokens follow are parsed as if they stood alone, and it does not
matter whether the tokens in front of them could be parsed.
-/

namespace Monkey

namespace Phrase

open Monkey.Parser Cursor Lexer

variable {b c d : Cursor} {s : Stmt} {e : ParseError} {ts : List Token}

/-! ## 1. Rows that end with a semicolon -/

/-- No token is left in front of the end, or the last one that is left is a semicolon. -/
def Closed (c : Cursor) : Prop := Terminated (c.rest.map (·.kind))

theorem Closed.of_prepend (h : Closed (c.prepend ts)) : Closed c := by
  have hts : Terminated (ts.map (·.kind) ++ c.rest.map (·.kind)) := by
    rw [← List.map_append]
    exact h
  exact hts.of_append

theorem ToEnd.of_prepend (h : ToEnd (c.prepend ts)) : ToEnd c where
  last_kind := h.last_kind
  eof_notMem hmem := h.eof_notMem <| by
    show _ ∈ (ts ++ c.rest).map (·.kind)
    rw [List.map_append]
    exact List.mem_append_right _ hmem

-- The tokens of one cursor, with those of another behind them.
theorem ToEnd.prepend_rest (hc : ToEnd c) (hd : ToEnd d) : ToEnd (d.prepend c.rest) where
  last_kind := hd.last_kind
  eof_notMem hmem := by
    have hmem : .eof ∈ (c.rest ++ d.rest).map (·.kind) := hmem
    rw [List.map_append] at hmem
    rcases List.mem_append.1 hmem with hmem | hmem
    · exact hc.eof_notMem hmem
    · exact hd.eof_notMem hmem

theorem passes_prepend (d : Cursor) (ts : List Token) :
    (d.prepend ts).Passes (ts.map (·.kind)) d := by
  induction ts with
  | nil => exact .refl d
  | cons t ts ih => exact .step ih

theorem current_prepend_rest (hb : b.rest ≠ []) (d : Cursor) :
    (d.prepend b.rest).current = b.current := by
  rcases b with ⟨rest, last⟩
  obtain ⟨t, ts, rfl⟩ := List.exists_cons_of_ne_nil hb
  rfl

-- In a closed row a semicolon is left wherever a token is, so skipping ends inside the row.
theorem afterSemicolon_prepend (hb : b.rest ≠ []) (hclosed : Closed b) (d : Cursor) :
    (d.prepend b.rest).afterSemicolon = d.prepend b.afterSemicolon.rest := by
  obtain ⟨t, ht⟩ : ∃ t, b.rest.getLast? = some t := ⟨_, List.getLast?_eq_some_getLast hb⟩
  have hkind : t.kind = .symbol .semicolon := hclosed t.kind <| by
    rw [List.getLast?_map, ht]
    rfl
  have hne : b.rest.dropWhile (·.kind ≠ .symbol .semicolon) ≠ [] := by
    intro hnil
    have hall := List.dropWhile_eq_nil_iff.1 hnil t (List.mem_of_getLast? ht)
    exact of_decide_eq_true hall hkind
  show Cursor.mk ((b.rest ++ d.rest).dropWhile (·.kind ≠ .symbol .semicolon)).tail d.last =
    ⟨(b.rest.dropWhile (·.kind ≠ .symbol .semicolon)).tail ++ d.rest, d.last⟩
  rw [List.dropWhile_append, if_neg (by rwa [List.isEmpty_iff]), List.tail_append_of_ne_nil hne]

/-! ## 2. One step -/

-- A statement that ends with the row has taken the semicolon there, and one that ends earlier stops
-- at a token of the row.  In neither case it has looked at what follows.
theorem stmt_prepend_of_ok (hc : ToEnd c) (hclosed : Closed c) (hd : ToEnd d)
    (h : Parser.stmt c = (.ok s, b)) :
    Parser.stmt (d.prepend c.rest) = (.ok s, d.prepend b.rest) := by
  by_cases hb : b.rest = []
  · rcases stmt_sound (expr_reads _) hc.within h with ⟨ks, hs, hks | ⟨hks, -⟩⟩
    · have hrest := hks.rest_eq
      rw [hb, List.map_nil, List.append_nil] at hrest
      have hpass := passes_prepend d c.rest
      rw [hrest] at hpass
      rw [hb]
      exact stmt_of_closed (expr_reads _) (hc.prepend_rest hd).within hs hpass
    · -- no expression ends with a semicolon
      have hrest := hks.rest_eq
      rw [hb, List.map_nil, List.append_nil] at hrest
      exact absurd (hrest ▸ hclosed) hs.endsOpen.not_terminated
  · rcases Local.of_prepend stmt_local hc.last_kind h with ⟨us, rfl, hstmt⟩
    have hcut : d.prepend (b.prepend us).rest = (d.prepend b.rest).prepend us :=
      prepend_append d us _
    rw [hcut]
    exact hstmt _ hd.last_kind (current_prepend_rest hb d)

-- An error that is not found at the end is found at a token of the row.
theorem stmt_prepend_of_error (hc : ToEnd c) (hd : ToEnd d) (h : Parser.stmt c = (.error e, b))
    (hnone : ¬ e.Names c.last) :
    b.rest ≠ [] ∧ Parser.stmt (d.prepend c.rest) = (.error e, d.prepend b.rest) := by
  have hb : b.rest ≠ [] := by
    intro hb
    rcases statement_fails _ hc.within h with ⟨ks, hfails, -⟩
    have hcurrent : b.current = c.last := by
      rw [← hfails.passes.last_eq]
      rcases b with ⟨rest, last⟩
      obtain rfl : rest = [] := hb
      rfl
    exact hnone (hcurrent ▸ hfails.names)
  rcases Local.of_prepend stmt_local hc.last_kind h with ⟨us, rfl, hstmt⟩
  have hcut : d.prepend (b.prepend us).rest = (d.prepend b.rest).prepend us := prepend_append d us _
  rw [hcut]
  exact ⟨hb, hstmt _ hd.last_kind (current_prepend_rest hb d)⟩

-- What is skipped behind an error stands in front of where reading goes on.
theorem exists_prepend_afterSemicolon (c : Cursor) : ∃ ts, c = c.afterSemicolon.prepend ts := by
  obtain ⟨ts, hts⟩ : c.afterSemicolon.rest <:+ c.rest :=
    (List.tail_suffix _).trans (List.dropWhile_suffix _)
  refine ⟨ts, ?_⟩
  show c = Cursor.mk (ts ++ c.afterSemicolon.rest) c.last
  rw [hts]

-- What is left after a step is the end of what was left before it.
theorem exists_prepend_resume (hc : ToEnd c) : ∃ ts, c = (resume (Parser.stmt c)).prepend ts := by
  rcases h : Parser.stmt c with ⟨e | s, b⟩
  · rcases statement_fails _ hc.within h with ⟨ks, hfails, -⟩
    rcases hfails.passes.eq_prepend with ⟨ts, hts, -⟩
    rcases exists_prepend_afterSemicolon b with ⟨us, hus⟩
    refine ⟨ts ++ us, ?_⟩
    show c = b.afterSemicolon.prepend (ts ++ us)
    rw [prepend_append, ← hus, ← hts]
  · rcases passes_of_stmt hc h with ⟨ks, -, hks⟩
    rcases hks.eq_prepend with ⟨ts, hts, -⟩
    exact ⟨ts, hts⟩

/-- The two runs stay in step: with other tokens behind the row, a statement comes to the same, and
parsing goes on at the same token of the row. -/
theorem step_prepend (hc : ToEnd c) (hclosed : Closed c) (hd : ToEnd d)
    (hnone : ∀ e b, Parser.stmt c = (.error e, b) → ¬ e.Names c.last) :
    (Parser.stmt (d.prepend c.rest)).1 = (Parser.stmt c).1 ∧
      resume (Parser.stmt (d.prepend c.rest)) = d.prepend (resume (Parser.stmt c)).rest := by
  rcases h : Parser.stmt c with ⟨e | s, b⟩
  · rcases stmt_prepend_of_error hc hd h (hnone e b h) with ⟨hb, hstep⟩
    rcases statement_fails _ hc.within h with ⟨ks, hfails, -⟩
    rcases hfails.passes.eq_prepend with ⟨ts, rfl, -⟩
    rw [hstep]
    exact ⟨rfl, afterSemicolon_prepend hb hclosed.of_prepend d⟩
  · rw [stmt_prepend_of_ok hc hclosed hd h]
    exact ⟨rfl, rfl⟩

/-! ## 3. Whole rows -/

/-- The statements and the errors of two results, one result behind the other. -/
def join (r r' : ParseResult) : ParseResult := ⟨r.program ++ r'.program, r.errors ++ r'.errors⟩

theorem join_cons (first : Except ParseError Stmt) (r r' : ParseResult) :
    join (r.cons first) r' = (join r r').cons first := by
  cases first <;> rfl

theorem mem_errors_cons {first : Except ParseError Stmt} {r : ParseResult} (he : e ∈ r.errors) :
    e ∈ (r.cons first).errors := by
  cases first with
  | ok s => exact he
  | error e' => exact List.mem_cons_of_mem e' he

theorem parseFrom_prepend (hc : ToEnd c) (hclosed : Closed c) (hd : ToEnd d)
    (hnone : ∀ e ∈ (parseFrom c).errors, ¬ e.Names c.last) :
    parseFrom (d.prepend c.rest) = join (parseFrom c) (parseFrom d) := by
  induction hm : c.remaining using Nat.strongRecOn generalizing c with
  | ind m ih =>
    subst hm
    by_cases hend : c.atEnd = true
    · have hrest : c.rest = [] := congrArg Cursor.rest (hc.atEnd_iff.1 hend)
      rw [hrest, prepend_nil, parseFrom.eq_1 c, if_pos hend]
      rfl
    · have hstep := parseFrom_eq_cons hc hend
      have hends : ¬ (d.prepend c.rest).atEnd = true := by
        have hne : c.rest ≠ [] := by
          intro hrest
          have := remaining_pos hc hend
          rw [remaining, hrest] at this
          exact Nat.lt_irrefl 0 this
        rwa [atEnd, current_prepend_rest hne d]
      rcases step_prepend hc hclosed hd (fun e b h => hnone e <| by
        rw [hstep, h]
        exact List.mem_cons_self) with ⟨hfirst, hresume⟩
      have hlt := remaining_resume_lt hc hend
      rcases exists_prepend_resume hc with ⟨ts, hts⟩
      rw [hstep] at hnone ⊢
      rw [parseFrom_eq_cons (hc.prepend_rest hd) hends, hfirst, hresume, join_cons]
      generalize resume (Parser.stmt c) = b at *
      generalize (Parser.stmt c).1 = first at *
      subst hts
      rw [ih b.remaining hlt hc.of_prepend hclosed.of_prepend
        (fun e he => hnone e (mem_errors_cons he)) rfl]

/-- **Parsing and recovery are local to segments that end with a semicolon.**  If no error of such a
segment is found at the end behind it, then what follows the segment is parsed as if it stood alone,
statements as well as errors. -/
theorem parse_append {ts₁ ts₂ : List Token} {stop₁ stop : Token}
    (hts₁ : ∀ t ∈ ts₁, t.kind ≠ .eof) (hts₂ : ∀ t ∈ ts₂, t.kind ≠ .eof)
    (hstop₁ : stop₁.kind = .eof) (hstop : stop.kind = .eof)
    (hlast : ∀ t ∈ ts₁.getLast?, t.kind = .symbol .semicolon)
    (hnone : ∀ e ∈ (parse (ts₁ ++ [stop₁])).errors, ¬ e.Names stop₁) :
    (parse (ts₁ ++ ts₂ ++ [stop])).program =
        (parse (ts₁ ++ [stop₁])).program ++ (parse (ts₂ ++ [stop])).program ∧
      (parse (ts₁ ++ ts₂ ++ [stop])).errors =
        (parse (ts₁ ++ [stop₁])).errors ++ (parse (ts₂ ++ [stop])).errors := by
  have hwhole : ∀ t ∈ ts₁ ++ ts₂, t.kind ≠ .eof := List.forall_mem_append.2 ⟨hts₁, hts₂⟩
  have hclosed : Closed ⟨ts₁, stop₁⟩ := by
    intro k hk
    rw [List.getLast?_map] at hk
    rcases Option.map_eq_some_iff.1 hk with ⟨t, ht, rfl⟩
    exact hlast t ht
  rw [parse_concat hstop₁ hts₁] at hnone ⊢
  rw [parse_concat hstop hwhole, parse_concat hstop hts₂]
  have hparse := parseFrom_prepend (d := ⟨ts₂, stop⟩) (toEnd_mk hstop₁ hts₁) hclosed
    (toEnd_mk hstop hts₂) hnone
  have hparse : parseFrom ⟨ts₁ ++ ts₂, stop⟩ =
    join (parseFrom ⟨ts₁, stop₁⟩) (parseFrom ⟨ts₂, stop⟩) := hparse
  rw [hparse]
  exact ⟨rfl, rfl⟩

/-- The tokens of a binding whose name is missing. -/
def namelessBinding : List Token :=
  [⟨.keyword .letWord, ⟨0, 3⟩⟩, ⟨.symbol .assign, ⟨4, 5⟩⟩, ⟨.int "1", ⟨6, 7⟩⟩,
    ⟨.symbol .semicolon, ⟨7, 8⟩⟩]

/-- The name behind the binding is parsed, since the error does not stand at the end. -/
theorem parse_append_nameless :
    (parse (namelessBinding ++ [⟨.eof, ⟨8, 8⟩⟩])).errors =
      [⟨.unexpectedToken "IDENT" "=", ⟨4, 5⟩⟩] ∧
    (parse (namelessBinding ++ [⟨.ident "y", ⟨9, 10⟩⟩] ++ [⟨.eof, ⟨10, 10⟩⟩])).program =
      [.expr (.ident "y")] ∧
    (parse (namelessBinding ++ [⟨.ident "y", ⟨9, 10⟩⟩] ++ [⟨.eof, ⟨10, 10⟩⟩])).errors =
      [⟨.unexpectedToken "IDENT" "=", ⟨4, 5⟩⟩] := by
  have hfirst : parse (namelessBinding ++ [⟨.eof, ⟨8, 8⟩⟩]) =
      ⟨[], [⟨.unexpectedToken "IDENT" "=", ⟨4, 5⟩⟩]⟩ := by
    decide +kernel
  have hsecond : parse ([⟨.ident "y", ⟨9, 10⟩⟩] ++ [⟨.eof, ⟨10, 10⟩⟩]) =
      ⟨[.expr (.ident "y")], []⟩ := by
    decide +kernel
  have hnone : ∀ e ∈ (parse (namelessBinding ++ [⟨.eof, ⟨8, 8⟩⟩])).errors,
      ¬ e.Names ⟨.eof, ⟨8, 8⟩⟩ := by
    rw [hfirst]
    intro e he h
    obtain rfl := List.mem_singleton.1 he
    exact absurd h.span_eq (by decide)
  have hwhole := @parse_append namelessBinding [⟨.ident "y", ⟨9, 10⟩⟩] ⟨.eof, ⟨8, 8⟩⟩
    ⟨.eof, ⟨10, 10⟩⟩ (by decide) (by decide) rfl rfl (by decide) hnone
  rw [hfirst, hsecond] at hwhole
  exact ⟨by rw [hfirst], hwhole.1, hwhole.2⟩

end Phrase

end Monkey
