import Monkey.Proofs.Phrase.Program
import Monkey.Proofs.Token.Kinds

/-!
# Splitting — programs one behind the other

No expression ends with a semicolon, so a semicolon at the end of a program closes its last
statement.  What follows can then neither carry that statement on nor change it.
-/

namespace Monkey

namespace Phrase

open Lexer

variable {ks js : List TokenKind} {ss ts : List Stmt}

theorem EndsOpen.not_terminated (h : EndsOpen ks) : ¬ Terminated ks := by
  rcases h with ⟨js, k, rfl, hk⟩
  exact fun h => hk (h k (by simp))

-- Behind statements whose last token is a semicolon any others may stand.
theorem Statements.append (h : Statements Expression ks ss) (hks : Terminated ks)
    (h' : Statements Expression js ts) : Statements Expression (ks ++ js) (ss ++ ts) := by
  induction h with
  | nil => exact h'
  | closed hs _ ih =>
    rw [List.append_assoc, List.cons_append, List.cons_append]
    exact .closed hs (ih hks.of_append.of_cons)
  | @bare ks ls s ss hs hcarry _ ih =>
    cases ls with
    | nil =>
      -- the statement is the last one, and has no semicolon
      rw [List.append_nil] at hks
      exact absurd hks hs.endsOpen.not_terminated
    | cons k ls =>
      rw [List.append_assoc, List.cons_append]
      exact .bare hs hcarry (ih hks.of_append)

-- The tokens of a text in front of its end.
theorem rest_ofTokens_lex (source : String) :
    (Cursor.ofTokens (lex source)).rest.map (·.kind) = kindsOf source.toList := by
  have hne : ∀ k ∈ kindsOf source.toList, decide (k ≠ .eof) = true := fun k hk =>
    decide_eq_true fun he => eof_notMem_kindsOf _ (he ▸ hk)
  have hmap : ((lex source).takeWhile (·.kind ≠ .eof)).map (·.kind) =
      ((lex source).map (·.kind)).takeWhile (· ≠ .eof) := by
    rw [List.takeWhile_map]
    rfl
  show ((lex source).takeWhile (·.kind ≠ .eof)).map (·.kind) = _
  rw [hmap, map_kind_lex, List.takeWhile_append_of_pos hne]
  simp

theorem parseSource_eq_iff {source : String} {p : Program} :
    parseSource source = ⟨p, []⟩ ↔ Statements Expression (kindsOf source.toList) p := by
  rw [← rest_ofTokens_lex]
  exact parseFrom_eq_iff (toEnd_ofTokens (exists_eof_mem_lex source))

/-- A text has no tokens, or its last one is a semicolon. -/
def EndsStatement (source : String) : Prop :=
  ∀ t ∈ (lex source).dropLast.getLast?, t.kind = .symbol .semicolon

theorem EndsStatement.terminated {source : String} (h : EndsStatement source) :
    Terminated (kindsOf source.toList) := by
  have hkinds : (lex source).dropLast.map (·.kind) = kindsOf source.toList := by
    rw [List.map_dropLast, map_kind_lex, List.dropLast_concat]
  intro k hk
  rw [← hkinds, List.getLast?_map] at hk
  rcases Option.map_eq_some_iff.1 (Option.mem_def.1 hk) with ⟨t, ht, rfl⟩
  exact h t ht

/-- Two texts that parse without errors do so one behind the other, if the first ends where a
statement may. -/
theorem parseSource_append {s₁ s₂ : String} {p₁ p₂ : Program} (hs₁ : EndsStatement s₁)
    (h₁ : parseSource s₁ = ⟨p₁, []⟩) (h₂ : parseSource s₂ = ⟨p₂, []⟩) :
    parseSource (s₁ ++ s₂) = ⟨p₁ ++ p₂, []⟩ := by
  rw [parseSource_eq_iff] at h₁ h₂ ⊢
  rw [String.toList_append, kindsOf_append hs₁.terminated]
  exact h₁.append hs₁.terminated h₂

end Phrase

end Monkey
