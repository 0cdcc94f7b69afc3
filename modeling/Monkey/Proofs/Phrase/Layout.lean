import Mathlib.Data.List.TakeWhile
import Monkey.Proofs.Phrase.Local
import Monkey.Proofs.Phrase.Split
import Monkey.Proofs.Token.Layout

/-!
# Layout — blanks do not matter to parsing

Parsers look at the kinds of tokens and never at their spans; a span is only copied from a token
into the error that is found there.  So two rows of tokens of the same kinds are parsed in the same
way, and each error of the one stands where an error of the other does.  This holds whatever the
relation between the spans is, so `Blind` speaks of all of them at once.
-/

namespace Monkey

open List (Forall₂)

variable {R : Span → Span → Prop}

/-! ## 1. Tokens with other spans -/

/-- The tokens are of one kind, and their spans are related. -/
structure Token.Respanned (R : Span → Span → Prop) (t u : Token) : Prop where
  kind_eq : t.kind = u.kind
  span : R t.span u.span

/-- The errors have one cause, and their spans are related. -/
structure ParseError.Respanned (R : Span → Span → Prop) (e e' : ParseError) : Prop where
  cause_eq : e.cause = e'.cause
  span : R e.span e'.span

/-- The cursors stand before rows of tokens that differ in their spans only. -/
structure Cursor.Respanned (R : Span → Span → Prop) (c d : Cursor) : Prop where
  rest : Forall₂ (Token.Respanned R) c.rest d.rest
  last : Token.Respanned R c.last d.last

namespace Cursor.Respanned

variable {c d : Cursor}

theorem current (h : c.Respanned R d) : Token.Respanned R c.current d.current := by
  rcases c with ⟨ts, last⟩
  rcases d with ⟨us, last'⟩
  cases h.rest with
  | nil => exact h.last
  | cons ht _ => exact ht

theorem advance (h : c.Respanned R d) : c.advance.Respanned R d.advance := by
  rcases c with ⟨ts, last⟩
  rcases d with ⟨us, last'⟩
  cases h.rest with
  | nil => exact ⟨.nil, h.last⟩
  | cons _ hts => exact ⟨hts, h.last⟩

theorem remaining_eq (h : c.Respanned R d) : c.remaining = d.remaining := h.rest.length_eq

-- Rows are cut at the same place.
theorem cut {p : TokenKind → Bool} {ts us : List Token} (h : Forall₂ (Token.Respanned R) ts us) :
    Forall₂ (Token.Respanned R) (ts.takeWhile (p ·.kind)) (us.takeWhile (p ·.kind)) ∧
      Forall₂ (Token.Respanned R) (ts.dropWhile (p ·.kind)) (us.dropWhile (p ·.kind)) := by
  induction h with
  | nil => exact ⟨.nil, .nil⟩
  | @cons t u ts us htu hts ih =>
    rw [List.takeWhile_cons, List.takeWhile_cons, List.dropWhile_cons, List.dropWhile_cons,
      htu.kind_eq]
    split
    · exact ⟨.cons htu ih.1, ih.2⟩
    · exact ⟨.nil, .cons htu hts⟩

theorem afterSemicolon (h : c.Respanned R d) : c.afterSemicolon.Respanned R d.afterSemicolon := by
  have htail {ts us : List Token} (h : Forall₂ (Token.Respanned R) ts us) :
      Forall₂ (Token.Respanned R) ts.tail us.tail := by
    cases h with
    | nil => exact .nil
    | cons _ hts => exact hts
  exact ⟨htail (cut (p := (· ≠ .symbol .semicolon)) h.rest).2, h.last⟩

theorem atEnd_eq (h : c.Respanned R d) : c.atEnd = d.atEnd := by
  rw [atEnd, atEnd, h.current.kind_eq]

theorem ofTokens {ts us : List Token} (h : Forall₂ (Token.Respanned R) ts us)
    (hend : ∃ t ∈ ts, t.kind = .eof) : (ofTokens ts).Respanned R (ofTokens us) := by
  obtain ⟨htake, hdrop⟩ := cut (p := (· ≠ .eof)) h
  refine ⟨htake, ?_⟩
  have hne : ts.dropWhile (·.kind ≠ .eof) ≠ [] := by
    intro hnil
    obtain ⟨t, ht, hk⟩ := hend
    exact of_decide_eq_true (List.dropWhile_eq_nil_iff.1 hnil t ht) hk
  unfold Cursor.ofTokens
  generalize ts.dropWhile (·.kind ≠ .eof) = ts', us.dropWhile (·.kind ≠ .eof) = us' at *
  cases hdrop with
  | nil => exact absurd rfl hne
  | cons ht _ => exact ht

end Cursor.Respanned

/-! ## 2. Parsers that do not look at spans -/

namespace Parser

variable {α β : Type} {p : Parser α} {q : Parser β} {f : α → Parser β} {l : TokenKind}

/-- Two parsers have come to the same at cursors that differ in spans only. -/
inductive Agree (R : Span → Span → Prop) :
    Except ParseError α × Cursor → Except ParseError α × Cursor → Prop
  | ok {a c d} : c.Respanned R d → Agree R (.ok a, c) (.ok a, d)
  | error {e e' c d} : e.Respanned R e' → c.Respanned R d → Agree R (.error e, c) (.error e', d)

/-- Whatever the spans are, the parser does the same. -/
def Blind (p : Parser α) : Prop :=
  ∀ ⦃R : Span → Span → Prop⦄ ⦃c d : Cursor⦄, c.Respanned R d → Agree R (p c) (p d)

theorem Blind.pure (a : α) : Blind (pure a : Parser α) := fun _ _ _ h => .ok h

theorem Blind.bind (hp : Blind p) (hf : ∀ a, Blind (f a)) : Blind (p >>= f) := by
  intro R c d h
  have hagree := hp h
  rw [bind_apply, bind_apply]
  generalize p c = r, p d = r' at hagree
  cases hagree with
  | ok h' => exact hf _ h'
  | error he h' => exact .error he h'

-- An error has the span of the token at which it was found.
theorem Blind.fail (cause : ParseCause) : Blind (fail cause : Parser α) :=
  fun _ _ _ h => .error ⟨rfl, h.current.span⟩ h

theorem Blind.advance_bind (hp : Blind p) : Blind (do advance; p) :=
  fun _ _ _ h => hp h.advance

theorem Blind.kind_bind {f : TokenKind → Parser β} (hf : ∀ k, Blind (f k)) :
    Blind (kind >>= f) := by
  intro R c d h
  rw [Parser.kind_bind, Parser.kind_bind, h.current.kind_eq]
  exact hf _ h

theorem Blind.unexpected (expected : String) : Blind (unexpected expected : Parser α) :=
  .kind_bind fun _ => .fail _

theorem Blind.check_bind {f : Bool → Parser β} (hf : ∀ b, Blind (f b)) :
    Blind (check l >>= f) :=
  .kind_bind (f := fun k => f (TokenKind.SameClass k l)) fun _ => hf _

theorem Blind.eat_bind {f : Bool → Parser β} (hf : ∀ b, Blind (f b)) : Blind (eat l >>= f) := by
  rw [eat, bind_assoc]
  refine .check_bind fun b => ?_
  cases b with
  | true => exact .advance_bind (hf true)
  | false => exact hf false

-- The span of the token that has to be there is not looked at any more.
theorem expect_bind_eq (l : TokenKind) (q : Parser β) :
    (expect l >>= fun _ => q) =
      eat l >>= fun b => if b = true then q else unexpected l.description := by
  funext c
  rw [bind_apply, bind_apply, expect_eq_ite, eat_eq_ite]
  by_cases h : TokenKind.SameClass c.current.kind l
  · rw [if_pos h, if_pos h]
    rfl
  · rw [if_neg h, if_neg h]
    rfl

theorem Blind.expect_bind (hq : Blind q) : Blind (expect l >>= fun _ => q) := by
  rw [expect_bind_eq]
  refine .eat_bind fun b => ?_
  cases b with
  | true => exact hq
  | false => exact .unexpected _

theorem Blind.loop {next : TokenKind → Option (α → Parser α)}
    (hnext : ∀ k step, next k = some step → ∀ a, Blind (step a)) (a : α) :
    Blind (loop next a) := by
  intro R c d h
  -- the induction is on the tokens that are left, as the loop's own
  induction hm : c.remaining using Nat.strongRecOn generalizing a c d with
  | ind m ih =>
    subst hm
    cases hk : next c.current.kind with
    | none =>
      rw [loop_of_none hk, loop_of_none (h.current.kind_eq ▸ hk)]
      exact .ok h
    | some step =>
      have hk' : next d.current.kind = some step := h.current.kind_eq ▸ hk
      have hagree := hnext _ step hk a h
      generalize hc : step a c = r, hd : step a d = r' at hagree
      cases hagree with
      | error he h' =>
        rw [loop_of_error hk hc, loop_of_error hk' hd]
        exact .error he h'
      | @ok b c' d' h' =>
        by_cases hlt : c'.remaining < c.remaining
        · rw [loop_of_ok hk hc hlt, loop_of_ok hk' hd (h'.remaining_eq ▸ h.remaining_eq ▸ hlt)]
          exact ih _ hlt b h' rfl
        · rw [loop_of_stuck hk hc hlt,
            loop_of_stuck hk' hd (h'.remaining_eq ▸ h.remaining_eq ▸ hlt)]
          exact .ok h'

-- A recursive parser does not look at spans if its body does not, given such a parser for its parts.
theorem Blind.fix {f : Parser α → Parser α} (hf : ∀ p, Blind p → Blind (f p)) :
    Blind (Parser.fix f) := by
  have hinner (n : Nat) : Blind fun c : Cursor =>
      if c.remaining < n then Parser.fix f c else Parser.unexpected "EXPR" c := by
    induction n using Nat.strongRecOn with
    | ind n ih =>
      intro R c d h
      dsimp only
      rw [← h.remaining_eq]
      split
      · next hlt =>
        rw [Parser.fix, Parser.fix, ← h.remaining_eq]
        exact hf _ (ih _ hlt) h
      · exact Blind.unexpected "EXPR" h
  intro R c d h
  rw [Parser.fix, Parser.fix, ← h.remaining_eq]
  exact hf _ (hinner _) h

end Parser

/-! ## 3. The grammar -/

namespace Grammar

open Monkey.Parser Phrase

theorem name_blind : Blind name := by
  refine .kind_bind fun k => ?_
  cases k with
  | ident x => exact .advance_bind (.pure x)
  | _ => exact .unexpected _

theorem itemsUntil_blind {α : Type} {p : Parser α} (hp : Blind p) (close : Symbol) :
    Blind (itemsUntil p close) := by
  have hstep : ∀ k step, commaStep p k = some step → ∀ xs, Blind (step xs) := by
    intro k step hk xs
    obtain ⟨-, rfl⟩ := commaStep_eq_some_iff.1 hk
    exact .advance_bind (hp.bind fun a => .pure (xs ++ [a]))
  refine .eat_bind fun b => ?_
  cases b with
  | true => exact .pure []
  | false =>
    refine .bind (hp.bind fun a => .loop hstep [a]) fun xs => ?_
    exact .expect_bind (.pure xs)

theorem params_blind : Blind params := by
  rw [params_eq]
  exact .expect_bind (itemsUntil_blind name_blind _)

section

variable {p : Parser Expr} (hp : Blind p)

include hp

theorem exprList_blind (close : Symbol) : Blind (exprList p close) := by
  rw [exprList_eq]
  exact itemsUntil_blind hp close

-- An expression with the semicolon behind it, if there is one.
theorem ended_blind (g : Expr → Stmt) :
    Blind (do let v ← p; let _ ← eat (.symbol .semicolon); return g v) :=
  hp.bind fun v => .eat_bind fun _ => .pure (g v)

theorem stmt_blind : Blind (stmt p) := by
  refine .kind_bind fun k => ?_
  split
  · exact .advance_bind (name_blind.bind fun x => .expect_bind (ended_blind hp (.bind x)))
  · exact .advance_bind (ended_blind hp .ret)
  · exact ended_blind hp .expr

theorem block_blind : Blind (block p) := by
  have hstep : ∀ k step, blockStep p k = some step → ∀ ss, Blind (step ss) := by
    intro k step hk ss
    obtain rfl := blockStep_eq_some hk
    exact (stmt_blind hp).bind fun s => .pure (ss ++ [s])
  exact .expect_bind ((Blind.loop hstep []).bind fun ss => .expect_bind (.pure ss))

theorem hash_blind : Blind (hash p) := by
  have hstep : ∀ k step, hashStep p k = some step → ∀ ps, Blind (step ps) := by
    intro k step hk ps
    rw [hashStep_of_eq_some hk]
    refine hp.bind fun key => .expect_bind (hp.bind fun value => .check_bind fun b => ?_)
    cases b with
    | true => exact .pure _
    | false => exact .expect_bind (.pure _)
  exact .expect_bind ((Blind.loop hstep []).bind fun ps => .expect_bind (.pure _))

theorem cond_blind : Blind (cond p) := by
  refine .expect_bind (.expect_bind (hp.bind fun test => .expect_bind ?_))
  refine (block_blind hp).bind fun yes => .eat_bind fun b => ?_
  cases b with
  | true => exact (block_blind hp).bind fun no => .pure _
  | false => exact .pure _

theorem primary_blind : Blind (primary p) := by
  have hfunction (g : List String → Block → Expr) :
      Blind (do let ps ← params; return g ps (← block p)) :=
    params_blind.bind fun ps => (block_blind hp).bind fun b => .pure (g ps b)
  refine .kind_bind fun k => ?_
  split
  · exact .advance_bind (.pure _)
  · split
    · exact .advance_bind (.pure _)
    · exact .fail _
  · exact .advance_bind (.pure _)
  · exact .advance_bind (.pure _)
  · exact .advance_bind (.pure _)
  · exact .advance_bind (hp.bind fun e => .expect_bind (.pure e))
  · exact .advance_bind ((exprList_blind hp _).bind fun es => .pure _)
  · exact hash_blind hp
  · exact cond_blind hp
  · exact .advance_bind (hfunction .fn)
  · exact .advance_bind (hfunction .macroFn)
  · exact .fail _
  · exact .fail _

theorem postfixed_blind : Blind (postfixed p) := by
  have hstep : ∀ k step, postfixStep p k = some step → ∀ e, Blind (step e) := by
    intro k step hk e
    unfold postfixStep at hk
    split at hk
    · cases hk
      exact .advance_bind ((exprList_blind hp _).bind fun args => .pure _)
    · cases hk
      exact .advance_bind (hp.bind fun i => .expect_bind (.pure _))
    · cases hk
  exact (primary_blind hp).bind fun e => .loop hstep e

theorem unary_blind : Blind (unary p) := by
  have hstep : ∀ k step, signStep k = some step → ∀ ops, Blind (step ops) := by
    intro k step hk ops
    obtain ⟨op, -, rfl⟩ := Option.map_eq_some_iff.1 hk
    exact .advance_bind (.pure (ops ++ [op]))
  exact (Blind.loop hstep []).bind fun ops => (postfixed_blind hp).bind fun e => .pure _

theorem leftAssoc_blind (op? : TokenKind → Option BinaryOp) : Blind (leftAssoc op? p) := by
  have hstep : ∀ k step, leftStep op? p k = some step → ∀ left, Blind (step left) := by
    intro k step hk left
    obtain ⟨op, -, rfl⟩ := Option.map_eq_some_iff.1 hk
    exact .advance_bind (hp.bind fun right => .pure _)
  exact hp.bind fun e => .loop hstep e

theorem equality_blind : Blind (equality p) :=
  leftAssoc_blind (leftAssoc_blind (leftAssoc_blind (leftAssoc_blind (unary_blind hp) _) _) _) _

end

end Grammar

namespace Parser

/-- A statement is parsed without a look at any span. -/
theorem stmt_blind : Blind stmt :=
  Grammar.stmt_blind (.fix fun _ => Grammar.equality_blind)

end Parser

/-! ## 4. Programs and their errors -/

/-- The results have the same statements, and errors that differ in their spans only. -/
structure ParseResult.Respanned (R : Span → Span → Prop) (r r' : ParseResult) : Prop where
  program_eq : r.program = r'.program
  errors : Forall₂ (ParseError.Respanned R) r.errors r'.errors

namespace Phrase

open Monkey.Parser Cursor Lexer

section

variable {x y : Except ParseError Stmt × Cursor} {r r' : ParseResult} {c d : Cursor}
  {ts us : List Token}

theorem empty_respanned : ParseResult.empty.Respanned R .empty := ⟨rfl, .nil⟩

theorem cons_respanned (hxy : Agree R x y) (h : r.Respanned R r') :
    (r.cons x.1).Respanned R (r'.cons y.1) := by
  cases hxy with
  | @ok s _ _ _ => exact ⟨congrArg (s :: ·) h.program_eq, h.errors⟩
  | error he _ => exact ⟨h.program_eq, .cons he h.errors⟩

theorem resume_respanned (hxy : Agree R x y) : (resume x).Respanned R (resume y) := by
  cases hxy with
  | ok h => exact h
  | error _ h => exact h.afterSemicolon

theorem parseFrom_respanned (h : c.Respanned R d) :
    (parseFrom c).Respanned R (parseFrom d) := by
  induction hm : c.remaining using Nat.strongRecOn generalizing c d with
  | ind m ih =>
    subst hm
    rw [parseFrom, parseFrom, ← h.atEnd_eq]
    split
    · exact empty_respanned
    · have hstep := stmt_blind h
      have hnext := resume_respanned hstep
      dsimp only
      rw [← hnext.remaining_eq, ← h.remaining_eq]
      split
      · next hlt => exact cons_respanned hstep (ih _ hlt hnext rfl)
      · exact cons_respanned hstep empty_respanned

/-- Tokens of the same kinds, whose spans are related in any way, are parsed in the same way, and
the spans of the errors are related in that way too. -/
theorem parse_respanned (h : Forall₂ (Token.Respanned R) ts us)
    (hend : ∃ t ∈ ts, t.kind = .eof) : (parse ts).Respanned R (parse us) :=
  parseFrom_respanned (.ofTokens h hend)

/-- The spans are those of the tokens with some index in the first and in the second list. -/
def SameIndex (ts us : List Token) (s s' : Span) : Prop :=
  ∃ (i : Nat) (t u : Token), ts[i]? = some t ∧ us[i]? = some u ∧ t.span = s ∧ u.span = s'

theorem respanned_sameIndex (h : us.map (·.kind) = ts.map (·.kind)) :
    Forall₂ (Token.Respanned (SameIndex ts us)) ts us := by
  have hlength : us.length = ts.length := by simpa using congrArg List.length h
  refine List.forall₂_iff_get.2 ⟨hlength.symm, fun i hi hi' => ?_⟩
  have hkind : (us[i]?).map (·.kind) = (ts[i]?).map (·.kind) := by
    rw [← List.getElem?_map, h, List.getElem?_map]
  have ht : ts[i]? = some (ts.get ⟨i, hi⟩) := List.getElem?_eq_getElem hi
  have hu : us[i]? = some (us.get ⟨i, hi'⟩) := List.getElem?_eq_getElem hi'
  rw [ht, hu] at hkind
  exact ⟨(Option.some.inj hkind).symm, i, _, _, ht, hu, rfl, rfl⟩

end

/-- **Layout never matters.**  Let a text have no string that is left open, and let another one
consist of the slices that are its tokens, with any blanks around them and at least one between a
slice and the next.  Then the other has the same tokens, and it is parsed to the same program with
the same errors, each at the token with the same index.  The slices are what stands at the spans of
the tokens, as far as spans can measure the text. -/
theorem layout_never_matters {source source' : String}
    (hclosed : ∀ t ∈ lex source, ¬ t.kind.IsUnclosed)
    (h : Spaced (slicesOf source.toList) source'.toList) :
    (source.utf8ByteSize ≤ Span.maxOffset →
      Forall₂ (fun t slice => ∃ xs ys, StandsAt source.toList t.span xs slice ys)
        (lex source).dropLast (slicesOf source.toList)) ∧
      (lex source').map (·.kind) = (lex source).map (·.kind) ∧
      (parseSource source').program = (parseSource source).program ∧
      Forall₂ (ParseError.Respanned (SameIndex (lex source) (lex source')))
        (parseSource source).errors (parseSource source').errors := by
  have hkinds := map_kind_lex_of_spaced hclosed h
  have hparse := parse_respanned (respanned_sameIndex hkinds) (exists_eof_mem_lex source)
  refine ⟨fun hfit => ?_, hkinds, hparse.program_eq.symm, hparse.errors⟩
  rcases lex_laid hfit with ⟨ts, stop, hts, -, -, hlaid⟩
  rw [hts, List.dropLast_concat]
  exact hlaid.slices_standAt

/-- Two tokens that touch are moved apart, and the number in the place of a name is reported where it
stands now. -/
theorem layout_of_touching_tokens :
    (∀ t ∈ lex "let 5;1b", ¬ t.kind.IsUnclosed) ∧
      Spaced (slicesOf "let 5;1b".toList) "\tlet 5 ;\n1 b ".toList ∧
      (parseSource "\tlet 5 ;\n1 b ").program = [.expr (.int 1), .expr (.ident "b")] ∧
      Forall₂ (ParseError.Respanned (SameIndex (lex "let 5;1b") (lex "\tlet 5 ;\n1 b ")))
        [⟨.unexpectedToken "IDENT" "INT", ⟨4, 5⟩⟩] [⟨.unexpectedToken "IDENT" "INT", ⟨5, 6⟩⟩] := by
  have hspaced : Spaced (slicesOf "let 5;1b".toList) "\tlet 5 ;\n1 b ".toList := by
    have hslices : slicesOf "let 5;1b".toList = [['l', 'e', 't'], ['5'], [';'], ['1'], ['b']] := by
      decide +kernel
    have hend : Spaced [['1'], ['b']] ['1', ' ', 'b', ' '] :=
      .slice_blank rfl (.slice_blank rfl .nil)
    have hfive : Spaced [['5'], [';'], ['1'], ['b']] ['5', ' ', ';', '\n', '1', ' ', 'b', ' '] :=
      .slice_blank rfl (.slice_blank rfl hend)
    rw [hslices]
    exact .blank rfl (.slice_blank rfl hfive)
  have hclosed : ∀ t ∈ lex "let 5;1b", ¬ t.kind.IsUnclosed := by
    decide +kernel
  have hlayout := layout_never_matters hclosed hspaced
  have hparse : parseSource "let 5;1b" = ⟨[.expr (.int 1), .expr (.ident "b")],
      [⟨.unexpectedToken "IDENT" "INT", ⟨4, 5⟩⟩]⟩ := by
    decide +kernel
  have herrors : (parseSource "\tlet 5 ;\n1 b ").errors =
      [⟨.unexpectedToken "IDENT" "INT", ⟨5, 6⟩⟩] := by
    decide +kernel
  rw [hparse, herrors] at hlayout
  exact ⟨hclosed, hspaced, hlayout.2.2⟩

end Phrase

end Monkey
