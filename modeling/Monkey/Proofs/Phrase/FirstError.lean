import Monkey.Proofs.Phrase.Failure
import Monkey.Proofs.Phrase.Local
import Monkey.Proofs.Phrase.Program

/-!
# The first error — reported at the earliest token that shows it

Parsing runs over statements until one of them fails.  Up to the token that the error names nothing
else was looked at, and the tokens in front of it could have been continued to a program.
-/

namespace Monkey

namespace Phrase

open Monkey.Parser Cursor

/-! ## 1. Runs over statements -/

/-- Statements that are parsed one behind the other. -/
inductive Runs : Cursor → List Stmt → Cursor → Prop
  | nil (c : Cursor) : Runs c [] c
  | cons {c d c' s ss} : ¬ c.atEnd = true → Parser.stmt c = (.ok s, d) → Runs d ss c' →
      Runs c (s :: ss) c'

section

variable {c c' d : Cursor} {s : Stmt} {ss : List Stmt} {e : ParseError} {es : List ParseError}

-- A statement that is parsed is at least one token long.
theorem passes_of_stmt (hc : ToEnd c) (h : Parser.stmt c = (.ok s, d)) :
    ∃ ks, ks ≠ [] ∧ c.Passes ks d :=
  (stmt_sound (expr_reads _) hc.within h).startsStmt.2

theorem remaining_pos (hc : ToEnd c) (hend : ¬ c.atEnd = true) : 0 < c.remaining := by
  rcases c with ⟨_ | ⟨t, ts⟩, last⟩
  · exact absurd (hc.atEnd_iff.2 rfl) hend
  · exact Nat.zero_lt_succ _

theorem remaining_afterSemicolon_le (c : Cursor) : c.afterSemicolon.remaining ≤ c.remaining := by
  by_cases hc : 0 < c.remaining
  · exact Nat.le_of_lt (remaining_afterSemicolon_lt hc)
  · have hrest : c.rest = [] := List.eq_nil_of_length_eq_zero (Nat.eq_zero_of_not_pos hc)
    simp [afterSemicolon, remaining, hrest]

-- Behind a failed statement parsing goes on, since something was left in front of it.
theorem remaining_resume_lt (hc : ToEnd c) (hend : ¬ c.atEnd = true) :
    (resume (Parser.stmt c)).remaining < c.remaining := by
  rcases h : Parser.stmt c with ⟨e | s, d⟩
  · rcases statement_fails _ hc.within h with ⟨ks, hfail, -⟩
    have hle := hfail.passes.remaining_eq
    have hpos := remaining_pos hc hend
    show d.afterSemicolon.remaining < c.remaining
    by_cases hd : 0 < d.remaining
    · have := remaining_afterSemicolon_lt hd
      omega
    · have := remaining_afterSemicolon_le d
      omega
  · rcases passes_of_stmt hc h with ⟨ks, hne, hks⟩
    exact hks.remaining_lt hne

/-- Parsing is one statement, or the error in its place, in front of what is parsed from there on. -/
theorem parseFrom_eq_cons (hc : ToEnd c) (hend : ¬ c.atEnd = true) :
    parseFrom c = (parseFrom (resume (Parser.stmt c))).cons (Parser.stmt c).1 := by
  rw [parseFrom, if_neg hend]
  simp only [remaining_resume_lt hc hend, if_true]

theorem errors_of_ok (hc : ToEnd c) (hend : ¬ c.atEnd = true) (h : Parser.stmt c = (.ok s, d)) :
    (parseFrom c).errors = (parseFrom d).errors := by
  rw [parseFrom_eq_cons hc hend, h]
  rfl

theorem errors_of_error (hc : ToEnd c) (hend : ¬ c.atEnd = true)
    (h : Parser.stmt c = (.error e, d)) :
    (parseFrom c).errors = e :: (parseFrom d.afterSemicolon).errors := by
  rw [parseFrom_eq_cons hc hend, h]
  rfl

theorem Runs.stmtsBetween (h : Runs c ss c') (hc : ToEnd c) : StmtsBetween c ss c' := by
  induction h with
  | nil c => exact .nil c
  | cons _ hs _ ih =>
    rcases passes_of_stmt hc hs with ⟨ks, -, hks⟩
    exact .cons (stmt_sound (expr_reads _) hc.within hs) (ih (hc.passes hks))

theorem Runs.toEnd (h : Runs c ss c') (hc : ToEnd c) : ToEnd c' := by
  rcases (h.stmtsBetween hc).statements with ⟨ks, hks, -⟩
  exact hc.passes hks

theorem Runs.errors_eq (h : Runs c ss c') (hc : ToEnd c) :
    (parseFrom c).errors = (parseFrom c').errors := by
  induction h with
  | nil c => rfl
  | cons hend hs _ ih =>
    rcases passes_of_stmt hc hs with ⟨ks, -, hks⟩
    rw [errors_of_ok hc hend hs, ih (hc.passes hks)]

/-- The first error is that of the statement that fails first, and the other errors are those behind
the next semicolon. -/
theorem runs_of_errors (hc : ToEnd c) (h : (parseFrom c).errors = e :: es) :
    ∃ ss d d', Runs c ss d ∧ ¬ d.atEnd = true ∧ Parser.stmt d = (.error e, d') ∧
      es = (parseFrom d'.afterSemicolon).errors := by
  induction hm : c.remaining using Nat.strongRecOn generalizing c with
  | ind m ih =>
    subst hm
    by_cases hend : c.atEnd = true
    · rw [parseFrom, if_pos hend] at h
      cases h
    rcases hstep : Parser.stmt c with ⟨e' | s, d⟩
    · rw [errors_of_error hc hend hstep] at h
      cases h
      exact ⟨[], c, d, .nil c, hend, hstep, rfl⟩
    · rcases passes_of_stmt hc hstep with ⟨ks, hne, hks⟩
      rw [errors_of_ok hc hend hstep] at h
      rcases ih _ (hks.remaining_lt hne) (hc.passes hks) h rfl with
        ⟨ss, b, b', hrun, hb, hfail, hes⟩
      exact ⟨s :: ss, b, b', .cons hend hstep hrun, hb, hfail, hes⟩

/-! ## 2. What a run looks at -/

theorem Runs.of_prepend (h : Runs c ss d) (hc : c.last.kind = .eof) :
    ∃ ts, c = d.prepend ts ∧ ∀ d' : Cursor, d'.last.kind = .eof → d'.current = d.current →
      Runs (d'.prepend ts) ss d' := by
  induction h with
  | nil c => exact ⟨[], rfl, fun d' _ _ => .nil d'⟩
  | @cons c b d s ss hend hs _ ih =>
    rcases Local.of_prepend stmt_local hc hs with ⟨ts, rfl, hq⟩
    rcases ih hc with ⟨us, rfl, hrun⟩
    refine ⟨ts ++ us, (prepend_append d ts us).symm, ?_⟩
    intro d' hd' hcurrent
    have hcurrent' := current_prepend hcurrent us
    rw [prepend_append]
    refine .cons ?_ (hq _ hd' hcurrent') (hrun d' hd' hcurrent)
    rwa [atEnd, current_prepend hcurrent' ts]

/-- The tokens in front of the one that the first error names decide it together with that one, and
they are the beginning of a program. -/
theorem first_error (hc : ToEnd c) (h : (parseFrom c).errors = e :: es) :
    ∃ (ts : List Token) (d : Cursor), c = d.prepend ts ∧ e.Names d.current ∧
      Viable (Statements Expression) (ts.map (·.kind)) ∧
      ∀ d' : Cursor, ToEnd (d'.prepend ts) → d'.current = d.current →
        ∃ es', (parseFrom (d'.prepend ts)).errors = e :: es' := by
  rcases runs_of_errors hc h with ⟨ss, b, d, hrun, hend, hfail, -⟩
  have hb := hrun.toEnd hc
  rcases statement_fails _ hb.within hfail with ⟨ks, hfails, hks⟩
  rcases (hrun.stmtsBetween hc).viable hfails.passes hks with ⟨js, hjs, hviable⟩
  rcases hrun.of_prepend hc.last_kind with ⟨ts, rfl, hrun'⟩
  rcases Local.of_prepend stmt_local hb.last_kind hfail with ⟨us, rfl, hstmt⟩
  refine ⟨ts ++ us, d, (prepend_append d ts us).symm, hfails.names, ?_, ?_⟩
  · rw [← prepend_append] at hjs
    rcases hjs.eq_prepend with ⟨us', hus', hkinds⟩
    rw [prepend_inj.1 hus', hkinds]
    exact hviable
  · intro d' hd' hcurrent
    have hlast := hd'.last_kind
    have hcurrent' := current_prepend hcurrent us
    rw [prepend_append] at hd' ⊢
    have hrun'' := hrun' (d'.prepend us) hlast hcurrent'
    rw [hrun''.errors_eq hd', errors_of_error (hrun''.toEnd hd') _ (hstmt d' hlast hcurrent)]
    · exact ⟨_, rfl⟩
    · rwa [atEnd, hcurrent']

end

/-! ## 3. Lists of tokens -/

/-- The tokens end with the end of the program, and it is the only one. -/
def EndsOnce (ts : List Token) : Prop :=
  ∃ before stop, ts = before ++ [stop] ∧ stop.kind = .eof ∧ ∀ t ∈ before, t.kind ≠ .eof

section

variable {ts ts' before : List Token} {stop : Token}

theorem toEnd_mk (hstop : stop.kind = .eof) (hbefore : ∀ t ∈ before, t.kind ≠ .eof) :
    ToEnd ⟨before, stop⟩ where
  last_kind := hstop
  eof_notMem hmem := by
    rcases List.mem_map.1 hmem with ⟨t, ht, hk⟩
    exact hbefore t ht hk

theorem parse_concat (hstop : stop.kind = .eof) (hbefore : ∀ t ∈ before, t.kind ≠ .eof) :
    parse (before ++ [stop]) = parseFrom ⟨before, stop⟩ := by
  rw [parse, ofTokens_append_eof before [] stop hbefore hstop]

-- The token that the cursor stands on, found in the list.
theorem getElem?_prepend (d : Cursor) (us : List Token) :
    (us ++ d.rest ++ [d.last])[us.length]? = some d.current := by
  rcases d with ⟨_ | ⟨t, ts⟩, last⟩ <;> simp

-- Lists that agree up to a token are cut in front of it in the same way.
theorem eq_prepend_of_agree {d : Cursor} {us : List Token}
    (h : ∀ j ≤ us.length, (before ++ [stop])[j]? = (us ++ d.rest ++ [d.last])[j]?) :
    ∃ d' : Cursor, Cursor.mk before stop = d'.prepend us ∧ d'.current = d.current := by
  have hat := h us.length (Nat.le_refl _)
  rw [getElem?_prepend] at hat
  have hle : us.length ≤ before.length := by
    rcases List.getElem?_eq_some_iff.1 hat with ⟨hlt, -⟩
    simp only [List.length_append, List.length_singleton] at hlt
    omega
  have htake : before.take us.length = us := by
    apply List.ext_getElem?
    intro j
    by_cases hj : j < us.length
    · rw [List.getElem?_take, if_pos hj, ← List.getElem?_append_left (Nat.lt_of_lt_of_le hj hle),
        h j (Nat.le_of_lt hj), List.append_assoc, List.getElem?_append_left hj]
    · rw [List.getElem?_take, if_neg hj, List.getElem?_eq_none (Nat.le_of_not_lt hj)]
  have hcut : before = us ++ before.drop us.length := by
    rw [← htake, List.length_take_of_le hle, List.take_append_drop]
  refine ⟨⟨before.drop us.length, stop⟩, by rw [prepend, ← hcut], ?_⟩
  have hat' := getElem?_prepend ⟨before.drop us.length, stop⟩ us
  rw [← hcut, hat] at hat'
  exact (Option.some.inj hat').symm

theorem map_kind_ofKind (js : List TokenKind) : (js.map Token.ofKind).map (·.kind) = js := by
  rw [List.map_map]
  exact List.map_id js

theorem kind_ne_eof_of_mem_ofKind {js : List TokenKind} (hjs : .eof ∉ js) :
    ∀ u ∈ js.map Token.ofKind, u.kind ≠ .eof := by
  intro u hu
  rcases List.mem_map.1 hu with ⟨j, hj, rfl⟩
  exact fun hk => hjs (hk ▸ hj)

/-- **The first error is reported at the earliest possible token.**  It stands at the token with some
index `k` and no other.  Every list that agrees with this one up to that token gets the same first
error; and the tokens in front of it are the beginning of a list that parses without errors. -/
theorem first_error_earliest {e : ParseError} {es : List ParseError} (hts : EndsOnce ts)
    (hspans : (ts.map (·.span)).Nodup) (h : (parse ts).errors = e :: es) :
    ∃ k, (∀ j, (ts[j]?.map (·.span) = some e.span) ↔ j = k) ∧
      (∀ ts', EndsOnce ts' → (∀ j ≤ k, ts'[j]? = ts[j]?) →
        ∃ es', (parse ts').errors = e :: es') ∧
      ∃ us : List Token, (∀ u ∈ us, u.kind ≠ .eof) ∧ ∃ p, ∀ stop : Token, stop.kind = .eof →
        parse (ts.take k ++ us ++ [stop]) = ⟨p, []⟩ := by
  rcases hts with ⟨before, stop, rfl, hstop, hbefore⟩
  have hc := toEnd_mk hstop hbefore
  rw [parse_concat hstop hbefore] at h
  rcases first_error hc h with ⟨us, d, hcut, hnames, hviable, hsame⟩
  obtain ⟨rfl, rfl⟩ : before = us ++ d.rest ∧ stop = d.last := by simpa [prepend] using hcut
  have hat : (us ++ d.rest ++ [d.last])[us.length]?.map (·.span) = some e.span := by
    rw [getElem?_prepend, hnames.span_eq]
    rfl
  refine ⟨us.length, ?_, ?_, ?_⟩
  · intro j
    constructor
    · intro hj
      rw [← List.getElem?_map] at hj hat
      rcases List.getElem?_eq_some_iff.1 hat with ⟨hlt, -⟩
      exact ((List.getElem?_inj hlt hspans).1 (hat.trans hj.symm)).symm
    · rintro rfl
      exact hat
  · intro ts' hts' hagree
    rcases hts' with ⟨before', stop', rfl, hstop', hbefore'⟩
    rcases eq_prepend_of_agree hagree with ⟨d', hcut', hcurrent⟩
    have hc' := toEnd_mk hstop' hbefore'
    rw [parse_concat hstop' hbefore', hcut']
    exact hsame d' (hcut' ▸ hc') hcurrent
  · rcases hviable with ⟨js, p, hjs, hp⟩
    have hnone := kind_ne_eof_of_mem_ofKind hjs
    refine ⟨js.map Token.ofKind, hnone, p, ?_⟩
    intro stop hstop
    have hwhole : ∀ t ∈ us ++ js.map Token.ofKind, t.kind ≠ .eof := by
      intro t ht
      rcases List.mem_append.1 ht with ht | ht
      · exact hbefore t (List.mem_append_left _ ht)
      · exact hnone t ht
    rw [List.append_assoc us d.rest, List.take_left, parse_concat hstop hwhole,
      parseFrom_eq_iff (toEnd_mk hstop hwhole)]
    show Statements Expression ((us ++ js.map Token.ofKind).map (·.kind)) p
    rwa [List.map_append, map_kind_ofKind]

/-- The tokens of a binding whose sign is missing. -/
def unsignedBinding : List Token :=
  [⟨.keyword .letWord, ⟨0, 3⟩⟩, ⟨.ident "x", ⟨4, 5⟩⟩, ⟨.int "5", ⟨6, 7⟩⟩, ⟨.eof, ⟨7, 7⟩⟩]

/-- The number in the place of the sign is where the binding becomes impossible. -/
theorem first_error_at_missing_sign :
    (parse unsignedBinding).errors = [⟨.unexpectedToken "=" "INT", ⟨6, 7⟩⟩] ∧
    ∃ k, (∀ j, (unsignedBinding[j]?.map (·.span) = some ⟨6, 7⟩) ↔ j = k) ∧
      (∀ ts', EndsOnce ts' → (∀ j ≤ k, ts'[j]? = unsignedBinding[j]?) →
        ∃ es', (parse ts').errors = ⟨.unexpectedToken "=" "INT", ⟨6, 7⟩⟩ :: es') ∧
      ∃ us : List Token, (∀ u ∈ us, u.kind ≠ .eof) ∧ ∃ p, ∀ stop : Token, stop.kind = .eof →
        parse (unsignedBinding.take k ++ us ++ [stop]) = ⟨p, []⟩ := by
  have hends : EndsOnce unsignedBinding := ⟨unsignedBinding.take 3, ⟨.eof, ⟨7, 7⟩⟩, by decide⟩
  have herrors : (parse unsignedBinding).errors = [⟨.unexpectedToken "=" "INT", ⟨6, 7⟩⟩] := by
    have hc : ToEnd (ofTokens unsignedBinding) := ⟨by decide, by decide⟩
    have hfail : Parser.stmt (ofTokens unsignedBinding) =
      (.error ⟨.unexpectedToken "=" "INT", ⟨6, 7⟩⟩, ⟨[⟨.int "5", ⟨6, 7⟩⟩], ⟨.eof, ⟨7, 7⟩⟩⟩) := rfl
    rw [parse, errors_of_error hc (by decide) hfail, parseFrom]
    rfl
  exact ⟨herrors, first_error_earliest hends (by decide) herrors⟩

end

end Phrase

end Monkey
