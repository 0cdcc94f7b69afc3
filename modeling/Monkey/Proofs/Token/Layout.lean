import Mathlib.Data.List.Forall2
import Monkey.Proofs.Token.Cover

/-!
# Layout — blanks between tokens

A text is cut into the slices that are its tokens.  If these are written down once more, with blanks
wherever one is followed by another, then each of them is found again and stands for what it did.
Only a string that is never closed is not: it would take in whatever blanks are put behind it.
-/

namespace Monkey

/-- A string that is never closed. -/
def TokenKind.IsUnclosed : TokenKind → Prop
  | illegal text => text.toList.head? = some '"'
  | _ => False

instance : DecidablePred TokenKind.IsUnclosed
  | .illegal text => inferInstanceAs (Decidable (text.toList.head? = some '"'))
  | .eof | .ident _ | .int _ | .str _ | .symbol _ | .keyword _ => inferInstanceAs (Decidable False)

namespace Lexer

open List (Forall₂)

/-! ## 1. The slices of a text -/

/-- The slices of a text that are its tokens, in order. -/
def slicesOf : List Char → List (List Char)
  | [] => []
  | c :: cs =>
    if isBlank c then slicesOf cs else (c :: (lexeme c cs).tail) :: slicesOf (lexeme c cs).rest
termination_by cs => cs.length
decreasing_by
  · simp
  · exact Nat.lt_succ_of_le (lexeme_rest_length_le c cs)

section

variable {before after slice cs : List Char} {c : Char} {k : TokenKind} {ts : List Token}

theorem slicesOf_blank (h : isBlank c = true) (cs : List Char) :
    slicesOf (c :: cs) = slicesOf cs := by
  rw [slicesOf, if_pos h]

theorem slicesOf_lexeme (h : ¬ isBlank c = true) (cs : List Char) :
    slicesOf (c :: cs) = (c :: (lexeme c cs).tail) :: slicesOf (lexeme c cs).rest := by
  rw [slicesOf, if_neg h]

theorem Spells.slicesOf_append (h : Spells before after slice k) :
    slicesOf (slice ++ after) = slice :: slicesOf after := by
  rcases List.exists_cons_of_ne_nil h.ne_nil with ⟨c, cs, rfl⟩
  rw [List.cons_append, slicesOf_lexeme h.not_isBlank, h.lexeme_eq]

-- Each slice spells its token, whatever stands in front of it.
theorem slicesOf_spells (cs : List Char) :
    Forall₂ (fun slice k => ∃ after, Spells [] after slice k) (slicesOf cs) (kindsOf cs) := by
  induction hm : cs.length using Nat.strongRecOn generalizing cs with
  | ind n ih =>
    subst hm
    cases cs with
    | nil =>
      rw [slicesOf, kindsOf]
      exact .nil
    | cons c cs =>
      by_cases hc : isBlank c = true
      · rw [slicesOf_blank hc, kindsOf_blank hc]
        exact ih cs.length (Nat.lt_succ_self _) cs rfl
      · have hlt : (lexeme c cs).rest.length < (c :: cs).length :=
          Nat.lt_succ_of_le (lexeme_rest_length_le c cs)
        rw [slicesOf_lexeme hc, kindsOf_lexeme hc]
        exact .cons ⟨_, lexeme_spells hc (border_nil_left _)⟩ (ih _ hlt _ rfl)

/-- The slices stand in the text where the spans of the tokens say. -/
theorem Laid.slices_standAt (h : Laid before cs ts) :
    Forall₂ (fun t slice => ∃ xs ys, StandsAt (before ++ cs) t.span xs slice ys) ts
      (slicesOf cs) := by
  induction h with
  | nil =>
    rw [slicesOf]
    exact .nil
  | @blank before c after ts hc _ ih =>
    rw [slicesOf_blank hc]
    simpa using ih
  | @token before slice after t ts hspells hstart hstop _ ih =>
    rw [hspells.slicesOf_append, ← List.append_assoc]
    exact .cons ⟨before, after, rfl, hstart, hstop⟩ ih

end

/-! ## 2. Slices with blanks between them -/

/-- The text consists of the slices in order and of blanks, with at least one blank between a slice
and the next. -/
inductive Spaced : List (List Char) → List Char → Prop
  | nil : Spaced [] []
  | blank {slices c text} : isBlank c = true → Spaced slices text → Spaced slices (c :: text)
  -- Behind a slice stands a blank, unless the text is at its end.
  | slice {slice slices text} : (∀ c ∈ text.head?, isBlank c = true) → Spaced slices text →
      Spaced (slice :: slices) (slice ++ text)

section

variable {before after after' slice text : List Char} {slices : List (List Char)} {k : TokenKind}
  {ks : List TokenKind}

theorem Spaced.slice_blank {c : Char} (hc : isBlank c = true) (h : Spaced slices text) :
    Spaced (slice :: slices) (slice ++ c :: text) :=
  .slice (fun _ hd => Option.some.inj hd ▸ hc) (.blank hc h)

-- A token that is spelled somewhere is spelled by itself, with blanks behind it.
theorem Spells.apart (h : Spells before after slice k) (hclosed : ¬ k.IsUnclosed)
    (hafter : ∀ c ∈ after'.head?, isBlank c = true) : Spells [] after' slice k := by
  have hpart : ∀ c ∈ after'.head?, ¬ isWordPart c = true :=
    fun c hc => not_isWordPart_of_isBlank (hafter c hc)
  cases h with
  | symbol _ =>
    refine .symbol fun _ hhead => ?_
    exact absurd (hafter '=' hhead) (by decide)
  | keyword h => exact .keyword (maximal_nil_left h.1 hpart)
  | ident h hname => exact .ident (maximal_nil_left h.1 hpart) hname
  | int h =>
    refine .int (maximal_nil_left h.1 fun c hc hdigit => ?_)
    exact hpart c hc (isWordPart_of_isDigit hdigit)
  | str h => exact .str h
  | stray hc hstart => exact .stray hc hstart
  | @unclosed cs _ _ =>
    refine absurd ?_ hclosed
    show (String.ofList ('"' :: cs)).toList.head? = some '"'
    rw [String.toList_ofList]
    rfl

/-- Spaced slices stand for the tokens that each of them spells. -/
theorem Spaced.kindsOf_eq (h : Spaced slices text)
    (hspells : Forall₂ (fun slice k => ∃ after, Spells [] after slice k) slices ks)
    (hclosed : ∀ k ∈ ks, ¬ k.IsUnclosed) : kindsOf text = ks := by
  induction h generalizing ks with
  | nil =>
    cases hspells
    rw [kindsOf]
  | blank hc _ ih =>
    rw [kindsOf_blank hc]
    exact ih hspells hclosed
  | slice hafter _ ih =>
    cases hspells with
    | cons hslice hrest =>
      obtain ⟨after, hslice⟩ := hslice
      obtain ⟨hk, hks⟩ := List.forall_mem_cons.1 hclosed
      rw [(hslice.apart hk hafter).kindsOf_append, ih hrest hks]

end

/-- A text with other blanks has the same tokens. -/
theorem map_kind_lex_of_spaced {source source' : String}
    (hclosed : ∀ t ∈ lex source, ¬ t.kind.IsUnclosed)
    (h : Spaced (slicesOf source.toList) source'.toList) :
    (lex source').map (·.kind) = (lex source).map (·.kind) := by
  have hkinds : ∀ k ∈ kindsOf source.toList, ¬ k.IsUnclosed := by
    intro k hk
    have hmem : k ∈ (lex source).map (·.kind) := by
      rw [map_kind_lex]
      exact List.mem_append_left _ hk
    obtain ⟨t, ht, rfl⟩ := List.mem_map.1 hmem
    exact hclosed t ht
  rw [map_kind_lex, map_kind_lex, h.kindsOf_eq (slicesOf_spells _) hkinds]

end Lexer

end Monkey
