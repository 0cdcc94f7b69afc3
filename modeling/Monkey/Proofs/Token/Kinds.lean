import Monkey.Token.Lexer

/-!
# Kinds — the tokens of a text without their places

Where a token ends depends on the text up to its end and one character more, so a text that is cut
behind a semicolon has the tokens of its two parts.
-/

namespace Monkey

namespace Lexer

/-! ## 1. The kinds of a text -/

/-- The kinds of the tokens of a text, the end of the program left out. -/
def kindsOf : List Char → List TokenKind
  | [] => []
  | c :: cs => if isBlank c then kindsOf cs else (lexeme c cs).kind :: kindsOf (lexeme c cs).rest
termination_by cs => cs.length
decreasing_by
  · simp
  · exact Nat.lt_succ_of_le (lexeme_rest_length_le c cs)

theorem kindsOf_blank {c : Char} (h : isBlank c = true) (cs : List Char) :
    kindsOf (c :: cs) = kindsOf cs := by
  rw [kindsOf, if_pos h]

theorem kindsOf_lexeme {c : Char} (h : ¬ isBlank c = true) (cs : List Char) :
    kindsOf (c :: cs) = (lexeme c cs).kind :: kindsOf (lexeme c cs).rest := by
  rw [kindsOf, if_neg h]

-- The kinds do not depend on where the text begins.
theorem map_kind_scan (offset : Nat) (cs : List Char) :
    (scan offset cs).map (·.kind) = kindsOf cs ++ [.eof] := by
  induction hm : cs.length using Nat.strongRecOn generalizing offset cs with
  | ind n ih =>
    subst hm
    cases cs with
    | nil => simp [scan, kindsOf]
    | cons c cs =>
      rw [scan]
      by_cases hc : isBlank c = true
      · rw [if_pos hc, kindsOf_blank hc]
        exact ih cs.length (Nat.lt_succ_self _) _ cs rfl
      · rw [if_neg hc, kindsOf_lexeme hc]
        have hlt : (lexeme c cs).rest.length < (c :: cs).length :=
          Nat.lt_succ_of_le (lexeme_rest_length_le c cs)
        rw [List.map_cons, ih _ hlt _ _ rfl, List.cons_append]

theorem map_kind_lex (source : String) :
    (lex source).map (·.kind) = kindsOf source.toList ++ [.eof] :=
  map_kind_scan 0 source.toList

theorem exists_eof_mem_lex (source : String) : ∃ t ∈ lex source, t.kind = .eof := by
  have hmem : TokenKind.eof ∈ (lex source).map (·.kind) := by
    rw [map_kind_lex]
    exact List.mem_append_right _ List.mem_cons_self
  simpa using hmem

theorem wordKind_ne_eof (word : String) : wordKind word ≠ .eof := by
  unfold wordKind
  split <;> exact nofun

theorem lexeme_kind_ne_eof (c : Char) (cs : List Char) : (lexeme c cs).kind ≠ .eof := by
  unfold lexeme
  split
  · exact wordKind_ne_eof _
  split
  · exact nofun
  split
  · split <;> exact nofun
  split
  · exact nofun
  · exact nofun
  · split <;> exact nofun

theorem eof_notMem_kindsOf (cs : List Char) : .eof ∉ kindsOf cs := by
  induction hm : cs.length using Nat.strongRecOn generalizing cs with
  | ind n ih =>
    subst hm
    cases cs with
    | nil => simp [kindsOf]
    | cons c cs =>
      by_cases hc : isBlank c = true
      · rw [kindsOf_blank hc]
        exact ih cs.length (Nat.lt_succ_self _) cs rfl
      · rw [kindsOf_lexeme hc, List.mem_cons, not_or]
        have hlt : (lexeme c cs).rest.length < (c :: cs).length :=
          Nat.lt_succ_of_le (lexeme_rest_length_le c cs)
        exact ⟨(lexeme_kind_ne_eof c cs).symm, ih _ hlt _ rfl⟩

/-! ## 2. Text behind a text -/

-- A row that stops inside a text stops there as well if more text follows.
theorem takeWhile_append_of_stop {p : Char → Bool} {cs : List Char} (h : cs.dropWhile p ≠ [])
    (ds : List Char) : (cs ++ ds).takeWhile p = cs.takeWhile p ∧
      (cs ++ ds).dropWhile p = cs.dropWhile p ++ ds := by
  induction cs with
  | nil => exact absurd rfl h
  | cons c cs ih =>
    by_cases hc : p c = true
    · rw [List.dropWhile_cons_of_pos hc] at h
      rcases ih h with ⟨htake, hdrop⟩
      simp [hc, htake, hdrop]
    · simp [hc]

/-- The token that is the one character `c`. -/
def single (c : Char) (cs : List Char) : Lexeme :=
  match symbolOfChar? c with
  | some s => ⟨.symbol s, [], cs⟩
  | none => ⟨.illegal (String.singleton c), [], cs⟩

theorem single_rest (c : Char) (cs : List Char) : (single c cs).rest = cs := by
  unfold single
  split <;> rfl

theorem single_append (c : Char) (cs ds : List Char) :
    single c (cs ++ ds) = { single c cs with rest := cs ++ ds } := by
  unfold single
  split <;> rfl

/-- The characters that a character `=` behind them makes one sign with. -/
def pairsUp (c : Char) (cs : List Char) : Prop := (c = '=' ∨ c = '!') ∧ cs.head? = some '='

theorem lexeme_eq_single {c : Char} {cs : List Char} (hword : ¬ isWordStart c = true)
    (hdigit : ¬ c.isDigit = true) (hquote : c ≠ '"') (hpair : ¬ pairsUp c cs) :
    lexeme c cs = single c cs := by
  unfold lexeme
  rw [if_neg hword, if_neg hdigit, if_neg hquote]
  split
  · exact (hpair ⟨.inl rfl, rfl⟩).elim
  · exact (hpair ⟨.inr rfl, rfl⟩).elim
  · rfl

-- A token behind which the text goes on is not changed by what follows.
theorem lexeme_append {c : Char} {cs : List Char} (h : (lexeme c cs).rest ≠ []) (ds : List Char) :
    lexeme c (cs ++ ds) = { lexeme c cs with rest := (lexeme c cs).rest ++ ds } := by
  by_cases hword : isWordStart c = true
  · simp only [lexeme, if_pos hword] at h ⊢
    rcases takeWhile_append_of_stop h ds with ⟨htake, hdrop⟩
    rw [htake, hdrop]
  by_cases hdigit : c.isDigit = true
  · simp only [lexeme, if_neg hword, if_pos hdigit] at h ⊢
    rcases takeWhile_append_of_stop h ds with ⟨htake, hdrop⟩
    rw [htake, hdrop]
  by_cases hquote : c = '"'
  · simp only [lexeme, if_neg hword, if_neg hdigit, if_pos hquote] at h ⊢
    cases hend : cs.dropWhile (· ≠ '"') with
    | nil =>
      simp only [hend] at h
      exact absurd rfl h
    | cons quote rest =>
      rcases takeWhile_append_of_stop (by rw [hend]; simp) ds with ⟨htake, hdrop⟩
      simp only [htake, hdrop, hend, List.cons_append]
  -- only the signs of two characters look at the text behind them
  by_cases hpair : pairsUp c cs
  · rcases hpair with ⟨hc, hhead⟩
    rcases List.head?_eq_some_iff.1 hhead with ⟨rest, rfl⟩
    rcases hc with rfl | rfl <;> rfl
  · have hsingle := lexeme_eq_single hword hdigit hquote hpair
    rw [hsingle, single_rest] at h
    have hpair' : ¬ pairsUp c (cs ++ ds) := by
      rcases List.exists_cons_of_ne_nil h with ⟨d, cs, rfl⟩
      exact hpair
    rw [hsingle, lexeme_eq_single hword hdigit hquote hpair', single_append, single_rest]

theorem wordKind_ne_semicolon (word : String) : wordKind word ≠ .symbol .semicolon := by
  unfold wordKind
  split <;> exact nofun

-- A semicolon is one character long.
theorem lexeme_semicolon {c : Char} {cs : List Char}
    (h : (lexeme c cs).kind = .symbol .semicolon) : c = ';' := by
  by_cases hword : isWordStart c = true
  · simp only [lexeme, if_pos hword] at h
    exact absurd h (wordKind_ne_semicolon _)
  by_cases hdigit : c.isDigit = true
  · simp only [lexeme, if_neg hword, if_pos hdigit] at h
    cases h
  by_cases hquote : c = '"'
  · simp only [lexeme, if_neg hword, if_neg hdigit, if_pos hquote] at h
    split at h <;> cases h
  by_cases hpair : pairsUp c cs
  · rcases hpair with ⟨hc, hhead⟩
    rcases List.head?_eq_some_iff.1 hhead with ⟨rest, rfl⟩
    rcases hc with rfl | rfl
    · exact nomatch (show TokenKind.symbol .eqEq = .symbol .semicolon from h)
    · exact nomatch (show TokenKind.symbol .notEq = .symbol .semicolon from h)
  · rw [lexeme_eq_single hword hdigit hquote hpair, single] at h
    cases hs : symbolOfChar? c with
    | none =>
      rw [hs] at h
      cases h
    | some s =>
      rw [hs] at h
      obtain rfl : s = .semicolon := by simpa using h
      have hfound := List.find?_some hs
      have hspelling : ";" = String.singleton c := of_decide_eq_true hfound
      have hchars : [';'] = [c] := by simpa using congrArg String.toList hspelling
      exact (List.singleton_inj.1 hchars).symm

/-- Tokens behind which a program can be cut: there are none, or the last one is a semicolon. -/
def Terminated (ks : List TokenKind) : Prop := ∀ k ∈ ks.getLast?, k = .symbol .semicolon

theorem Terminated.of_cons {k : TokenKind} {ks : List TokenKind} (h : Terminated (k :: ks)) :
    Terminated ks := by
  cases ks with
  | nil => exact nofun
  | cons l ks => simpa [Terminated, List.getLast?_cons_cons] using h

theorem Terminated.of_append {ks js : List TokenKind} (h : Terminated (ks ++ js)) :
    Terminated js := by
  intro k hk
  apply h k
  rw [List.getLast?_append, Option.mem_def.1 hk]
  rfl

/-- Behind a semicolon the tokens start anew. -/
theorem kindsOf_append {cs : List Char} (h : Terminated (kindsOf cs)) (ds : List Char) :
    kindsOf (cs ++ ds) = kindsOf cs ++ kindsOf ds := by
  induction hm : cs.length using Nat.strongRecOn generalizing cs with
  | ind n ih =>
    subst hm
    cases cs with
    | nil => rw [kindsOf, List.nil_append, List.nil_append]
    | cons c cs =>
      by_cases hc : isBlank c = true
      · rw [kindsOf_blank hc] at h ⊢
        rw [List.cons_append, kindsOf_blank hc]
        exact ih cs.length (Nat.lt_succ_self _) h rfl
      · rw [kindsOf_lexeme hc] at h ⊢
        rw [List.cons_append, kindsOf_lexeme hc]
        by_cases hrest : (lexeme c cs).rest = []
        · -- the token goes up to the end of the text, so it is a semicolon
          rw [hrest, kindsOf] at h
          rcases lexeme_semicolon (h _ rfl) with rfl
          have hsemicolon (cs : List Char) : lexeme ';' cs = ⟨.symbol .semicolon, [], cs⟩ := rfl
          rw [hsemicolon] at hrest ⊢
          rw [hsemicolon]
          obtain rfl : cs = [] := hrest
          rw [kindsOf]
          rfl
        · have hlt : (lexeme c cs).rest.length < (c :: cs).length :=
            Nat.lt_succ_of_le (lexeme_rest_length_le c cs)
          rw [lexeme_append hrest, List.cons_append, ih _ hlt h.of_cons rfl]

end Lexer

end Monkey
