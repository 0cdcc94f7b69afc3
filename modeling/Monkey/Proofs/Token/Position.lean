import Monkey.Proofs.Token.Cover

/-!
# Positions — lines and columns keep the order of a text

A position is reached by passing the characters in front of it, one after the other, and each of
them moves it on.  So what stands further on in a text has a later line, or a later column in the
same line.
-/

namespace Monkey

namespace Position

/-- On an earlier line, or earlier on the same line. -/
def Before (p q : Position) : Prop := p.line < q.line ∨ p.line = q.line ∧ p.column < q.column

instance (p q : Position) : Decidable (p.Before q) := inferInstanceAs (Decidable (_ ∨ _))

theorem Before.trans {p q r : Position} (h : p.Before q) (h' : q.Before r) : p.Before r := by
  unfold Before at *
  omega

theorem before_next (p : Position) (c : Char) : p.Before (p.next c) := by
  unfold Before next
  by_cases hc : c = '\n'
  · rw [if_pos hc]
    left
    show p.line < p.line + 1
    omega
  · rw [if_neg hc]
    right
    show p.line = p.line ∧ p.column < p.column + 1
    omega

theorem before_foldl_next (p : Position) {cs : List Char} (hcs : cs ≠ []) :
    p.Before (cs.foldl next p) := by
  induction cs generalizing p with
  | nil => exact absurd rfl hcs
  | cons c cs ih =>
    cases cs with
    | nil => exact before_next p c
    | cons d cs => exact (before_next p c).trans (ih (p.next c) (List.cons_ne_nil d cs))

-- An offset between two characters is reached by passing those in front of it.
theorem after_append (p : Position) (before after : List Char) :
    p.after (before ++ after) (Lexer.byteLength before) = before.foldl next p := by
  induction before generalizing p with
  | nil => cases after <;> rfl
  | cons c cs ih =>
    have hsize := c.utf8Size_pos
    obtain ⟨m, hm⟩ : ∃ m, Lexer.byteLength (c :: cs) = m + 1 :=
      Nat.exists_eq_succ_of_ne_zero (Nat.ne_of_gt (Lexer.byteLength_pos (List.cons_ne_nil c cs)))
    have hrest : m + 1 - c.utf8Size = Lexer.byteLength cs := by
      rw [← hm, Lexer.byteLength]
      omega
    rw [hm, List.cons_append, Position.after, hrest, ih (p.next c), List.foldl_cons]

end Position

namespace Span

/-- The span starts between two characters of the text, or at one of its ends. -/
def AtBoundary (source : String) (s : Span) : Prop :=
  ∃ before after, source.toList = before ++ after ∧ s.start.toNat = Lexer.byteLength before

theorem position_eq_foldl {source : String} {s : Span} {before after : List Char}
    (htext : source.toList = before ++ after) (hstart : s.start.toNat = Lexer.byteLength before) :
    s.position source = before.foldl Position.next .start := by
  rw [position, htext, hstart, Position.after_append]

/-- What starts later in a text has a later position. -/
theorem position_before {source : String} {s t : Span} (hs : s.AtBoundary source)
    (ht : t.AtBoundary source) (h : s.start < t.start) :
    (s.position source).Before (t.position source) := by
  rcases hs with ⟨before, after, htext, hstart⟩
  rcases ht with ⟨before', after', htext', hstart'⟩
  rw [position_eq_foldl htext hstart, position_eq_foldl htext' hstart']
  rw [UInt32.lt_iff_toNat_lt, hstart, hstart'] at h
  rcases List.append_eq_append_iff.1 (htext.symm.trans htext') with ⟨cs, rfl, -⟩ | ⟨cs, rfl, -⟩
  · have hne : cs ≠ [] := by
      rintro rfl
      simp at h
    rw [List.foldl_append]
    exact Position.before_foldl_next _ hne
  · rw [Lexer.byteLength_append] at h
    omega

end Span

namespace Lexer

/-- The tokens start one behind the other. -/
def Ascending (ts : List Token) : Prop := ts.Pairwise fun s t => s.span.start < t.span.start

variable {source : String} {ts : List Token} {s t : Token}

theorem Ascending.eq_of_span (h : Ascending ts) (hs : s ∈ ts) (ht : t ∈ ts)
    (hspan : s.span = t.span) : s = t := by
  induction ts with
  | nil => cases hs
  | cons u ts ih =>
    rcases List.pairwise_cons.1 h with ⟨hu, h⟩
    have hlt {v : Token} (hv : v ∈ ts) (huv : u.span = v.span) : False :=
      UInt32.lt_irrefl _ (huv ▸ hu v hv)
    rcases List.mem_cons.1 hs with rfl | hs'
    · rcases List.mem_cons.1 ht with rfl | ht'
      · rfl
      · exact (hlt ht' hspan).elim
    · rcases List.mem_cons.1 ht with rfl | ht'
      · exact (hlt hs' hspan.symm).elim
      · exact ih h hs' ht'

/-- The tokens of a text start between its characters, one behind the other. -/
theorem lex_ascending (h : source.utf8ByteSize ≤ Span.maxOffset) :
    Ascending (lex source) ∧ ∀ t ∈ lex source, t.span.AtBoundary source := by
  rcases lex_laid h with ⟨ts, stop, hts, hstart, -, hlaid⟩
  rw [← byteLength_toList] at hstart
  rw [hts]
  constructor
  · refine List.pairwise_append.2 ⟨?_, List.pairwise_singleton _ _, ?_⟩
    · apply hlaid.ordered.imp_of_mem
      intro s t hs _ hle
      exact UInt32.lt_of_lt_of_le (hlaid.start_lt_stop hs) hle
    · intro t ht u hu
      obtain rfl := List.mem_singleton.1 hu
      rcases hlaid.spelled ht with ⟨before, slice, after, hstands, -⟩
      apply UInt32.lt_of_lt_of_le (hlaid.start_lt_stop ht)
      rw [UInt32.le_iff_toNat_le, hstands.stop_eq]
      show byteLength (before ++ slice) ≤ stop.start.toNat
      have htext : source.toList = before ++ slice ++ after := hstands.text_eq
      rw [hstart, htext, byteLength_append (before ++ slice)]
      omega
  · intro t ht
    rcases List.mem_append.1 ht with ht | ht
    · rcases hlaid.spelled ht with ⟨before, slice, after, hstands, -⟩
      refine ⟨before, slice ++ after, ?_, hstands.start_eq⟩
      rw [← List.append_assoc]
      exact hstands.text_eq
    · obtain rfl := List.mem_singleton.1 ht
      exact ⟨source.toList, [], (List.append_nil _).symm, hstart⟩

end Lexer

end Monkey
