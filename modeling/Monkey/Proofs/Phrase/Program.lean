import Monkey.Parser.Program
import Monkey.Proofs.Phrase.Term

/-!
# Programs — which tokens parse without an error

A program is parsed statement by statement up to the end.  It has no error exactly if its tokens are
statements of the grammar, and then the parsed statements are the ones the grammar gives them.
-/

namespace Monkey

namespace Phrase

open Monkey.Parser Cursor

variable {c : Cursor} {p : Program}

-- A result that reports an error has one.
theorem cons_error_ne {e : ParseError} {r : ParseResult} : r.cons (.error e) ≠ ⟨p, []⟩ := by
  simp [ParseResult.cons]

theorem cons_ok_eq_iff {s : Stmt} {r : ParseResult} :
    r.cons (.ok s) = ⟨p, []⟩ ↔ ∃ ss, p = s :: ss ∧ r = ⟨ss, []⟩ := by
  rcases r with ⟨ss, es⟩
  apply Iff.intro
  · intro h
    cases h
    exact ⟨ss, rfl, rfl⟩
  · intro h
    rcases h with ⟨_, rfl, ⟨⟩⟩
    rfl

/-- The cursor goes up to the first end of the program. -/
structure ToEnd (c : Cursor) : Prop where
  last_kind : c.last.kind = .eof
  eof_notMem : .eof ∉ c.rest.map (·.kind)

theorem ToEnd.within (h : ToEnd c) : c.Within (c.remaining + 1) where
  last_kind := h.last_kind
  remaining_lt := Nat.lt_succ_self _

theorem ToEnd.passes {d : Cursor} {ks : List TokenKind} (h : ToEnd c) (hks : c.Passes ks d) :
    ToEnd d where
  last_kind := hks.last_eq ▸ h.last_kind
  eof_notMem hmem := h.eof_notMem (hks.rest_eq ▸ List.mem_append_right ks hmem)

theorem atEnd_iff : c.atEnd = true ↔ c.current.kind = .eof := decide_eq_true_iff

theorem ToEnd.atEnd_iff (h : ToEnd c) : c.atEnd = true ↔ c = ⟨[], c.last⟩ := by
  rw [Phrase.atEnd_iff]
  rcases c with ⟨_ | ⟨t, ts⟩, last⟩
  · exact ⟨fun _ => rfl, fun _ => h.last_kind⟩
  · refine ⟨fun hkind => ?_, nofun⟩
    exact absurd (List.mem_map.2 ⟨t, List.mem_cons_self, hkind⟩) h.eof_notMem

-- Parsing without errors finds statements in a row up to the end.
theorem stmtsBetween_of_parseFrom (hc : ToEnd c) (h : parseFrom c = ⟨p, []⟩) :
    StmtsBetween c p ⟨[], c.last⟩ := by
  induction hm : c.remaining using Nat.strongRecOn generalizing c p with
  | ind m ih =>
    subst hm
    rw [parseFrom] at h
    by_cases hend : c.atEnd = true
    · rw [if_pos hend] at h
      cases h
      rw [← hc.atEnd_iff.1 hend]
      exact .nil c
    · rw [if_neg hend] at h
      rcases hstep : Parser.stmt c with ⟨e | s, d⟩
      · rw [hstep] at h
        dsimp only at h
        split at h <;> exact absurd h cons_error_ne
      · have hs := stmt_sound (expr_reads _) hc.within hstep
        rcases hs.startsStmt with ⟨-, ks, hne, hks⟩
        have hlt := hks.remaining_lt hne
        rw [hstep] at h
        dsimp only [resume] at h
        rw [if_pos hlt] at h
        rcases cons_ok_eq_iff.1 h with ⟨ss, rfl, hd⟩
        have hss := ih _ hlt (hc.passes hks) hd rfl
        rw [hks.last_eq] at hss
        exact .cons hs hss

theorem StmtsBetween.parseFrom_eq {c' : Cursor} (h : StmtsBetween c p c') (hc : ToEnd c)
    (hend : c'.atEnd = true) : parseFrom c = ⟨p, []⟩ := by
  induction h with
  | nil c =>
    rw [parseFrom, if_pos hend]
    rfl
  | @cons c d c' s ss hs hss ih =>
    rcases hs.startsStmt with ⟨hstart, ks, hne, hks⟩
    have hne' : ¬ c.atEnd = true := fun h => (startsStmt_ne hstart).2.2.2 (atEnd_iff.1 h)
    have hkind := atEnd_iff.1 hend
    have hstep : Parser.stmt c = (.ok s, d) :=
      stmt_complete (expr_reads _) hc.within hs (hss.ne_else (by rw [hkind]; simp))
    rw [parseFrom, if_neg hne']
    simp only [hstep, resume, hks.remaining_lt hne, if_true]
    exact cons_ok_eq_iff.2 ⟨ss, rfl, ih (hc.passes hks) hend⟩

/-- From a place in front of the end, parsing without errors is derivation. -/
theorem parseFrom_eq_iff (hc : ToEnd c) :
    parseFrom c = ⟨p, []⟩ ↔ Statements Expression (c.rest.map (·.kind)) p := by
  have hend : (Cursor.mk [] c.last).current.kind = .eof := hc.last_kind
  apply Iff.intro
  · intro h
    rcases (stmtsBetween_of_parseFrom hc h).statements with ⟨ks, hks, hp⟩
    rw [hks.rest_eq, List.map_nil, List.append_nil]
    exact hp
  · intro h
    have hss := stmtsBetween_of_statements h (passes_rest c.rest c.last)
      (endsExpr_iff.2 fun s _ => by rw [hend]; simp) (by rw [hend]; simp)
    exact hss.parseFrom_eq hc (atEnd_iff.2 hend)

-- Tokens with an end have a first one.
theorem exists_first_eof {ts : List Token} (h : ∃ t ∈ ts, t.kind = .eof) :
    ∃ before stop after, ts = before ++ stop :: after ∧ (∀ t ∈ before, t.kind ≠ .eof) ∧
      stop.kind = .eof := by
  have hfind : (ts.find? (·.kind = .eof)).isSome := List.find?_isSome.2 (by simpa using h)
  rcases Option.isSome_iff_exists.1 hfind with ⟨stop, hstop⟩
  rcases List.find?_eq_some_iff_append.1 hstop with ⟨hkind, before, after, hts, hbefore⟩
  exact ⟨before, stop, after, hts, by simpa using hbefore, of_decide_eq_true hkind⟩

theorem toEnd_ofTokens {ts : List Token} (h : ∃ t ∈ ts, t.kind = .eof) : ToEnd (ofTokens ts) := by
  rcases exists_first_eof h with ⟨before, stop, after, rfl, hbefore, hstop⟩
  rw [ofTokens_append_eof before after stop hbefore hstop]
  refine ⟨hstop, fun hmem => ?_⟩
  rcases List.mem_map.1 hmem with ⟨t, ht, hk⟩
  exact hbefore t ht hk

/-- **The parser accepts exactly the grammar**, and builds the tree of the derivation: tokens with
an end parse to `p` without errors exactly if those before the first end derive `p`. -/
theorem parse_eq_program_iff (ts : List Token) (h : ∃ t ∈ ts, t.kind = .eof) (p : Program) :
    parse ts = ⟨p, []⟩ ↔ Statements Expression ((ts.takeWhile (·.kind ≠ .eof)).map (·.kind)) p :=
  parseFrom_eq_iff (toEnd_ofTokens h)

/-- The semicolon keeps the sign behind it from carrying the name on, and nothing behind the end
counts. -/
theorem parse_name_then_negation :
    parse ([.ident "x", .symbol .semicolon, .symbol .minus, .ident "y", .eof, .symbol .rbrace].map
      Token.ofKind) = ⟨[.expr (.ident "x"), .expr (.unary .neg (.ident "y"))], []⟩ := by
  have hx : Expression [.ident "x"] (.ident "x") :=
    .ofUnary (.postfixed (.primary (.ident "x")))
  have hy : Expression [.symbol .minus, .ident "y"] (.unary .neg (.ident "y")) :=
    .ofUnary (.unary (by decide) (.postfixed (.primary (.ident "y"))))
  apply (parse_eq_program_iff _ ⟨.ofKind .eof, by decide, rfl⟩ _).2
  exact .closed (.expr hx) (.bare (.expr hy) (by simp [CarriesOn]) .nil)

end Phrase

end Monkey
