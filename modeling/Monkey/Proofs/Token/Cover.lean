import Monkey.Proofs.Token.Spelling

/-!
# Covering — every token stands where its span says

The tokens of a text are slices of it, one behind the other, and what lies between them is blank.
`Laid` says so along the text, which is how the lexer goes; `Covers` says it of the spans alone.
-/

namespace Monkey

namespace Lexer

/-! ## 1. Tokens along a text -/

/-- The tokens stand one behind the other in the second text, which follows the first. -/
inductive Laid : List Char → List Char → List Token → Prop
  | nil {before} : Laid before [] []
  | blank {before c after ts} : isBlank c = true → Laid (before ++ [c]) after ts →
      Laid before (c :: after) ts
  | token {before slice after t ts} : Spells before after slice t.kind →
      t.span.start.toNat = byteLength before →
      t.span.stop.toNat = byteLength (before ++ slice) →
      Laid (before ++ slice) after ts → Laid before (slice ++ after) (t :: ts)

section

variable {before after slice cs : List Char} {c : Char} {k : TokenKind}

theorem byteLength_pos (h : cs ≠ []) : 0 < byteLength cs := by
  rcases List.exists_cons_of_ne_nil h with ⟨c, cs, rfl⟩
  have := c.utf8Size_pos
  simp only [byteLength]
  omega

theorem utf8ByteSize_ofList (cs : List Char) : (String.ofList cs).utf8ByteSize = byteLength cs := by
  induction cs with
  | nil => rfl
  | cons c cs ih =>
    rw [String.ofList_cons, String.utf8ByteSize_append, String.utf8ByteSize_singleton, ih, byteLength]

theorem byteLength_toList (source : String) : byteLength source.toList = source.utf8ByteSize := by
  rw [← utf8ByteSize_ofList, String.ofList_toList]

theorem scan_blank (h : isBlank c = true) (offset : Nat) :
    scan offset (c :: cs) = scan (offset + c.utf8Size) cs := by
  rw [scan, if_pos h]

theorem scan_lexeme (h : ¬ isBlank c = true) (offset : Nat) :
    scan offset (c :: cs) =
      ⟨(lexeme c cs).kind, .clamp offset (offset + byteLength (c :: (lexeme c cs).tail))⟩ ::
        scan (offset + byteLength (c :: (lexeme c cs).tail)) (lexeme c cs).rest := by
  rw [scan, if_neg h]

/-- The lexer finds tokens along the text, and then its end. -/
theorem scan_laid (hfit : byteLength (before ++ cs) ≤ Span.maxOffset) (h : Border before cs) :
    ∃ ts, scan (byteLength before) cs =
        ts ++ [⟨.eof, .clamp (byteLength (before ++ cs)) (byteLength (before ++ cs))⟩] ∧
      Laid before cs ts := by
  induction hm : cs.length using Nat.strongRecOn generalizing before cs with
  | ind n ih =>
    subst hm
    cases cs with
    | nil => exact ⟨[], by simp [scan], .nil⟩
    | cons c cs =>
      by_cases hc : isBlank c = true
      · have hsplit : before ++ c :: cs = (before ++ [c]) ++ cs := by simp
        have hborder := border_concat before cs (not_isWordPart_of_isBlank hc)
        rw [hsplit] at hfit ⊢
        rcases ih cs.length (Nat.lt_succ_self _) hfit hborder rfl with ⟨ts, hts, hlaid⟩
        have hoffset : byteLength before + c.utf8Size = byteLength (before ++ [c]) := by
          simp [byteLength_append, byteLength]
        exact ⟨ts, by rw [scan_blank hc, hoffset, hts], .blank hc hlaid⟩
      · have hspells := lexeme_spells hc h
        have hlt : (lexeme c cs).rest.length < (c :: cs).length :=
          Nat.lt_succ_of_le (lexeme_rest_length_le c cs)
        have hcut := lexeme_tail_append_rest c cs
        rw [scan_lexeme hc]
        -- the text is the token, and then what the lexer goes on with
        generalize lexeme c cs = l at hspells hlt hcut ⊢
        subst hcut
        rw [← List.cons_append, ← List.append_assoc] at hfit ⊢
        have hborder : Border (before ++ (c :: l.tail)) l.rest := h.append hspells.border
        rcases ih _ hlt hfit hborder rfl with ⟨ts, hts, hlaid⟩
        have hle : byteLength (before ++ (c :: l.tail)) ≤ Span.maxOffset := by
          rw [byteLength_append] at hfit
          omega
        rw [byteLength_append] at hts hle
        refine ⟨_, by rw [hts]; rfl, .token hspells ?_ ?_ hlaid⟩
        · rw [Span.clamp_start_toNat]
          omega
        · rw [Span.clamp_stop_toNat, byteLength_append]
          omega

end

/-! ## 2. The spans of tokens -/

/-- The slice is what stands at the span `s` of the text. -/
structure StandsAt (text : List Char) (s : Span) (before slice after : List Char) : Prop where
  text_eq : text = before ++ slice ++ after
  start_eq : s.start.toNat = byteLength before
  stop_eq : s.stop.toNat = byteLength (before ++ slice)

/-- The tokens cover the text up to blanks. -/
structure Covers (text : List Char) (ts : List Token) : Prop where
  -- At the span of each token stands a slice of the text that determines its kind.
  spelled : ∀ t ∈ ts, ∃ before slice after, StandsAt text t.span before slice after ∧
    ∀ k, Spells before after slice k ↔ k = t.kind
  nonempty : ∀ t ∈ ts, t.span.start < t.span.stop
  ordered : ts.Pairwise fun s t => s.span.stop ≤ t.span.start
  -- A character is blank or lies inside a token.
  blank : ∀ before c after, text = before ++ c :: after → isBlank c = true ∨
    ∃ t ∈ ts, t.span.start.toNat ≤ byteLength before ∧ byteLength before < t.span.stop.toNat

section

variable {before after slice cs : List Char} {k : TokenKind} {ts : List Token} {t : Token}

theorem Laid.le_start (h : Laid before cs ts) (ht : t ∈ ts) :
    byteLength before ≤ t.span.start.toNat := by
  induction h with
  | nil => cases ht
  | @blank before c after ts _ _ ih =>
    have := ih ht
    rw [byteLength_append] at this
    omega
  | @token before slice after u ts _ hstart _ _ ih =>
    rcases List.mem_cons.1 ht with rfl | ht
    · exact Nat.le_of_eq hstart.symm
    · have := ih ht
      rw [byteLength_append] at this
      omega

theorem Laid.spelled (h : Laid before cs ts) (ht : t ∈ ts) :
    ∃ xs slice after, StandsAt (before ++ cs) t.span xs slice after ∧
      Spells xs after slice t.kind := by
  induction h with
  | nil => cases ht
  | @blank before c after ts _ _ ih =>
    rcases ih ht with ⟨xs, slice, ys, hstands, hspells⟩
    rw [List.append_assoc, List.singleton_append] at hstands
    exact ⟨xs, slice, ys, hstands, hspells⟩
  | @token before slice after u ts hspells hstart hstop _ ih =>
    rw [← List.append_assoc]
    rcases List.mem_cons.1 ht with rfl | ht
    · exact ⟨before, slice, after, ⟨rfl, hstart, hstop⟩, hspells⟩
    · exact ih ht

theorem StandsAt.start_lt_stop {text : List Char} {s : Span} (h : StandsAt text s before slice after)
    (hne : slice ≠ []) : s.start < s.stop := by
  have := byteLength_pos hne
  rw [UInt32.lt_iff_toNat_lt, h.start_eq, h.stop_eq, byteLength_append]
  omega

theorem Laid.start_lt_stop (h : Laid before cs ts) (ht : t ∈ ts) : t.span.start < t.span.stop := by
  rcases h.spelled ht with ⟨xs, slice, ys, hstands, hspells⟩
  exact hstands.start_lt_stop hspells.ne_nil

theorem Laid.ordered (h : Laid before cs ts) :
    ts.Pairwise fun s t => s.span.stop ≤ t.span.start := by
  induction h with
  | nil => exact .nil
  | blank _ _ ih => exact ih
  | token _ _ hstop hlaid ih =>
    refine .cons ?_ ih
    intro t ht
    rw [UInt32.le_iff_toNat_le, hstop]
    exact hlaid.le_start ht

theorem Laid.blank_or_inside (h : Laid before cs ts) {xs ys : List Char} {c : Char}
    (hcs : cs = xs ++ c :: ys) : isBlank c = true ∨
      ∃ t ∈ ts, t.span.start.toNat ≤ byteLength (before ++ xs) ∧
        byteLength (before ++ xs) < t.span.stop.toNat := by
  induction h generalizing xs with
  | nil => simp at hcs
  | @blank before d after ts hd _ ih =>
    cases xs with
    | nil =>
      obtain ⟨rfl, rfl⟩ := List.cons.inj hcs
      exact .inl hd
    | cons x xs =>
      obtain ⟨rfl, rfl⟩ := List.cons.inj hcs
      simpa using ih rfl
  | @token before slice after t ts _ hstart hstop _ ih =>
    have hrest (zs : List Char) (hxs : xs = slice ++ zs) (hafter : after = zs ++ c :: ys) :
        isBlank c = true ∨ ∃ u ∈ t :: ts, u.span.start.toNat ≤ byteLength (before ++ xs) ∧
          byteLength (before ++ xs) < u.span.stop.toNat := by
      rw [hxs, ← List.append_assoc]
      rcases ih hafter with hblank | ⟨u, hu, hinside⟩
      · exact .inl hblank
      · exact .inr ⟨u, List.mem_cons_of_mem t hu, hinside⟩
    rcases List.append_eq_append_iff.1 hcs with ⟨zs, hxs, hafter⟩ | ⟨zs, hslice, hzs⟩
    · exact hrest zs hxs hafter
    · cases zs with
      | nil => exact hrest [] (by simpa using hslice.symm) hzs.symm
      | cons z zs =>
        refine .inr ⟨t, List.mem_cons_self, ?_, ?_⟩
        · rw [hstart, byteLength_append]
          omega
        · have := byteLength_pos (List.cons_ne_nil z zs)
          rw [hstop, hslice, byteLength_append, byteLength_append, byteLength_append]
          omega

theorem Laid.covers (h : Laid [] cs ts) : Covers cs ts where
  spelled t ht := by
    rcases h.spelled ht with ⟨xs, slice, ys, hstands, hspells⟩
    refine ⟨xs, slice, ys, hstands, ?_⟩
    intro k
    constructor
    · exact hspells.kind_unique
    · rintro rfl
      exact hspells
  nonempty _ ht := h.start_lt_stop ht
  ordered := h.ordered
  blank xs c ys hcs := h.blank_or_inside hcs

end

/-- The tokens of a text that spans can measure: one behind the other along the text, and the end
behind all of it. -/
theorem lex_laid {source : String} (h : source.utf8ByteSize ≤ Span.maxOffset) :
    ∃ ts stop, lex source = ts ++ [⟨.eof, stop⟩] ∧ stop.start.toNat = source.utf8ByteSize ∧
      stop.stop.toNat = source.utf8ByteSize ∧ Laid [] source.toList ts := by
  rw [← byteLength_toList] at h ⊢
  have hfit : byteLength ([] ++ source.toList) ≤ Span.maxOffset := h
  rcases scan_laid hfit (border_nil_left _) with ⟨ts, hts, hlaid⟩
  refine ⟨ts, _, hts, ?_, ?_, hlaid⟩
  · rw [Span.clamp_start_toNat]
    exact Nat.min_eq_left h
  · rw [Span.clamp_stop_toNat]
    exact Nat.min_eq_left h

/-- **Lexing loses nothing and adds nothing.**  The last token of a text is its only end and stands
behind it; the others cover the text up to blanks, and each is of the kind that its slice
determines. -/
theorem lex_covers (source : String) (h : source.utf8ByteSize ≤ Span.maxOffset) :
    ∃ ts stop, lex source = ts ++ [⟨.eof, stop⟩] ∧ (∀ t ∈ ts, t.kind ≠ .eof) ∧
      stop.start.toNat = source.utf8ByteSize ∧ stop.stop.toNat = source.utf8ByteSize ∧
      Covers source.toList ts := by
  rcases lex_laid h with ⟨ts, stop, hts, hstart, hstop, hlaid⟩
  refine ⟨ts, stop, hts, ?_, hstart, hstop, hlaid.covers⟩
  intro t ht
  rcases hlaid.spelled ht with ⟨_, _, _, _, hspells⟩
  exact hspells.ne_eof

/-- A character of two bytes that starts no token, a sign of two characters, and a string that is
never closed. -/
theorem lex_covers_unclosed : "é !=\"a".utf8ByteSize ≤ Span.maxOffset ∧
    ∃ ts stop, lex "é !=\"a" = ts ++ [⟨.eof, stop⟩] ∧ (∀ t ∈ ts, t.kind ≠ .eof) ∧
      stop.start.toNat = 7 ∧ stop.stop.toNat = 7 ∧ Covers ['é', ' ', '!', '=', '"', 'a'] ts :=
  ⟨by decide, lex_covers "é !=\"a" (by decide)⟩

end Lexer

end Monkey
