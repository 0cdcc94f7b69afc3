import Monkey.Parser.Basic
import Monkey.Proofs.Phrase.Basic

/-!
# Reading — parsers that accept exactly a language

`Parser.Reads` says that a parser yields a tree exactly if the tokens it moves over stand for that
tree and the token it stops at is one that ends it.  The statement is restricted to cursors with
fewer than `n` tokens left, so that it can be proved of a recursive parser by induction on `n`.
Below it stand the inversion rules of the parsers that the productions are made of.
-/

namespace Monkey

namespace Cursor

/-- From `c` one gets to `c'` by reading tokens of the kinds `ks`. -/
inductive Passes : Cursor → List TokenKind → Cursor → Prop
  | refl (c : Cursor) : Passes c [] c
  | step {t ts last ks c'} : Passes ⟨ts, last⟩ ks c' → Passes ⟨t :: ts, last⟩ (t.kind :: ks) c'

variable {c c' d : Cursor} {k : TokenKind} {ks js : List TokenKind}

theorem Passes.last_eq (h : c.Passes ks c') : c'.last = c.last := by
  induction h with
  | refl c => rfl
  | step _ ih => exact ih

theorem Passes.remaining_eq (h : c.Passes ks c') : c.remaining = ks.length + c'.remaining := by
  induction h with
  | refl c => simp
  | step _ ih =>
    simp only [remaining, List.length_cons] at ih ⊢
    omega

theorem Passes.trans (h : c.Passes ks c') (h' : c'.Passes js d) : c.Passes (ks ++ js) d := by
  induction h with
  | refl c => exact h'
  | step _ ih => exact .step (ih h')

@[simp] theorem passes_nil_iff : c.Passes [] c' ↔ c' = c := by
  apply Iff.intro
  · intro h
    cases h
    rfl
  · intro h
    subst h
    exact .refl c'

theorem passes_cons_iff :
    c.Passes (k :: ks) c' ↔ c.rest ≠ [] ∧ c.current.kind = k ∧ c.advance.Passes ks c' := by
  apply Iff.intro
  · intro h
    cases h with
    | step h => exact ⟨List.cons_ne_nil _ _, rfl, h⟩
  · rcases c with ⟨rest, last⟩
    intro h
    rcases h with ⟨hne, rfl, h⟩
    cases rest with
    | nil => exact absurd rfl hne
    | cons t ts => exact .step h

theorem passes_append_iff :
    c.Passes (ks ++ js) c' ↔ ∃ d, c.Passes ks d ∧ d.Passes js c' := by
  apply Iff.intro
  · intro h
    induction ks generalizing c with
    | nil => exact ⟨c, .refl c, h⟩
    | cons k ks ih =>
      rcases passes_cons_iff.1 h with ⟨hne, hk, h⟩
      rcases ih h with ⟨d, h₁, h₂⟩
      exact ⟨d, passes_cons_iff.2 ⟨hne, hk, h₁⟩, h₂⟩
  · intro h
    rcases h with ⟨d, h₁, h₂⟩
    exact h₁.trans h₂

-- The first token of a row is read by itself.
theorem passes_cons_iff_exists :
    c.Passes (k :: ks) c' ↔ ∃ d, c.Passes [k] d ∧ d.Passes ks c' := by
  rw [← passes_append_iff, List.singleton_append]

-- A row may be cut behind one of its tokens.
theorem passes_append_cons_iff :
    c.Passes (ks ++ k :: js) c' ↔ ∃ d, c.Passes (ks ++ [k]) d ∧ d.Passes js c' := by
  rw [← passes_append_iff, List.append_assoc, List.singleton_append]

-- All tokens in front of the end can be read.
theorem passes_rest (ts : List Token) (last : Token) :
    Passes ⟨ts, last⟩ (ts.map (·.kind)) ⟨[], last⟩ := by
  induction ts with
  | nil => exact .refl _
  | cons t ts ih => exact .step ih

theorem Passes.rest_eq (h : c.Passes ks c') : c.rest.map (·.kind) = ks ++ c'.rest.map (·.kind) := by
  induction h with
  | refl c => rfl
  | step _ ih => simpa using ih

/-- The cursor ends at an end of the program and has fewer than `n` tokens in front of it. -/
structure Within (c : Cursor) (n : Nat) : Prop where
  last_kind : c.last.kind = .eof
  remaining_lt : c.remaining < n

variable {n : Nat}

theorem Passes.within (h : c.Passes ks c') (hc : c.Within n) : c'.Within n where
  last_kind := h.last_eq ▸ hc.last_kind
  remaining_lt := by
    have := h.remaining_eq
    have := hc.remaining_lt
    omega

-- Once a token is read, the bound goes down.
theorem Passes.within_of_ne_nil (h : c.Passes ks c') (hks : ks ≠ []) (hc : c.Within (n + 1)) :
    c'.Within n where
  last_kind := h.last_eq ▸ hc.last_kind
  remaining_lt := by
    have := h.remaining_eq
    have := hc.remaining_lt
    have := List.length_pos_iff.2 hks
    omega

theorem Passes.remaining_lt (h : c.Passes ks c') (hks : ks ≠ []) : c'.remaining < c.remaining := by
  have := h.remaining_eq
  have := List.length_pos_iff.2 hks
  omega

-- A token that is no end of the program can be read.
theorem Within.passes_advance (hc : c.Within n) (hk : c.current.kind ≠ .eof) :
    c.Passes [c.current.kind] c.advance := by
  rcases c with ⟨rest, last⟩
  cases rest with
  | nil => exact absurd hc.last_kind hk
  | cons t ts => exact .step (.refl _)

theorem Within.passes_single_iff (hc : c.Within n) (hk : k ≠ .eof) :
    c.Passes [k] c' ↔ c.current.kind = k ∧ c' = c.advance := by
  apply Iff.intro
  · intro h
    rcases passes_cons_iff.1 h with ⟨-, hkind, h⟩
    exact ⟨hkind, passes_nil_iff.1 h⟩
  · intro h
    rcases h with ⟨rfl, rfl⟩
    exact hc.passes_advance hk

-- The cursor stands on the first of the tokens it passes.
theorem Passes.current_kind (h : c.Passes (k :: ks) c') : c.current.kind = k :=
  (passes_cons_iff.1 h).2.1

end Cursor

namespace Parser

open Cursor

variable {α β : Type} {c c' : Cursor} {k : TokenKind} {s : Symbol} {n : Nat}

/-! ## 1. Inversion of the basic parsers -/

@[simp] theorem pure_eq_ok_iff {a b : α} :
    (pure a : Parser α) c = (.ok b, c') ↔ b = a ∧ c' = c := by
  simp [pure_apply, eq_comm]

theorem bind_eq_ok_iff {p : Parser α} {f : α → Parser β} {b : β} :
    (p >>= f) c = (.ok b, c') ↔ ∃ a d, p c = (.ok a, d) ∧ f a d = (.ok b, c') := by
  rw [bind_apply]
  rcases p c with ⟨e | a, d⟩
  · simp
  · apply Iff.intro
    · intro h
      exact ⟨a, d, rfl, h⟩
    · intro h
      rcases h with ⟨_, _, h, hf⟩
      cases h
      exact hf

theorem bind_of_ok {p : Parser α} {f : α → Parser β} {a : α} {d : Cursor} (h : p c = (.ok a, d)) :
    (p >>= f) c = f a d := by
  rw [bind_apply, h]

@[simp] theorem map_eq_ok_iff {p : Parser α} {f : α → β} {b : β} :
    (f <$> p) c = (.ok b, c') ↔ ∃ a, p c = (.ok a, c') ∧ b = f a := by
  rw [← bind_pure_comp, bind_eq_ok_iff]
  apply Iff.intro
  · intro h
    rcases h with ⟨a, d, ha, h⟩
    rcases pure_eq_ok_iff.1 h with ⟨rfl, rfl⟩
    exact ⟨a, ha, rfl⟩
  · intro h
    rcases h with ⟨a, ha, rfl⟩
    exact ⟨a, c', ha, pure_eq_ok_iff.2 ⟨rfl, rfl⟩⟩

@[simp] theorem current_bind (f : Token → Parser β) : (current >>= f) c = f c.current c := rfl

@[simp] theorem kind_bind (f : TokenKind → Parser β) :
    (kind >>= f) c = f c.current.kind c := rfl

@[simp] theorem advance_bind (f : Unit → Parser β) : (advance >>= f) c = f () c.advance := rfl

@[simp] theorem check_bind (f : Bool → Parser β) :
    (check k >>= f) c = f (decide (TokenKind.SameClass c.current.kind k)) c := rfl

@[simp] theorem fail_ne_ok {cause : ParseCause} {a : α} :
    (fail cause : Parser α) c ≠ (.ok a, c') := by
  simp [fail]

@[simp] theorem unexpected_ne_ok {expected : String} {a : α} :
    (unexpected expected : Parser α) c ≠ (.ok a, c') := by
  simp [unexpected]

/-- A kind that is the only one of its class and can be read. -/
structure Plain (k : TokenKind) : Prop where
  sameClass_iff : ∀ l, TokenKind.SameClass l k ↔ l = k
  ne_eof : k ≠ .eof

theorem plain_symbol (s : Symbol) : Plain (.symbol s) := ⟨fun _ => by simp, by simp⟩

theorem plain_keyword (w : Keyword) : Plain (.keyword w) := ⟨fun _ => by simp, by simp⟩

theorem eat_eq_ite (k : TokenKind) (c : Cursor) :
    eat k c =
      if TokenKind.SameClass c.current.kind k then (.ok true, c.advance) else (.ok false, c) := by
  unfold eat
  rw [check_bind]
  by_cases h : TokenKind.SameClass c.current.kind k
  · rw [if_pos h, if_pos (decide_eq_true h)]
    rfl
  · rw [if_neg h, if_neg (by simpa using h)]
    rfl

theorem expect_eq_ite (k : TokenKind) (c : Cursor) :
    expect k c =
      if TokenKind.SameClass c.current.kind k then (.ok c.current.span, c.advance)
      else (.error ⟨.unexpectedToken k.description c.current.kind.description, c.current.span⟩,
        c) := by
  rw [expect, current_bind, bind_apply, eat_eq_ite]
  by_cases h : TokenKind.SameClass c.current.kind k
  · rw [if_pos h, if_pos h]
    rfl
  · rw [if_neg h, if_neg h]
    rfl

theorem eat_apply (c : Cursor) (hk : Plain k) :
    eat k c = if c.current.kind = k then (.ok true, c.advance) else (.ok false, c) := by
  rw [eat_eq_ite]
  simp only [hk.sameClass_iff]

theorem expect_apply (c : Cursor) (hk : Plain k) :
    expect k c =
      if c.current.kind = k then (.ok c.current.span, c.advance)
      else (.error ⟨.unexpectedToken k.description c.current.kind.description, c.current.span⟩,
        c) := by
  rw [expect_eq_ite]
  simp only [hk.sameClass_iff]

-- What follows a token that may be there.
theorem eat_bind_eq_ok_iff (hc : c.Within n) (hk : Plain k) {f : Bool → Parser β} {b : β} :
    (eat k >>= f) c = (.ok b, c') ↔
      (∃ d, c.Passes [k] d ∧ f true d = (.ok b, c')) ∨
        (c.current.kind ≠ k ∧ f false c = (.ok b, c')) := by
  simp only [bind_apply, eat_apply c hk, hc.passes_single_iff hk.ne_eof]
  by_cases h : c.current.kind = k
  · simp [h]
  · simp [h]

-- What follows a token that has to be there.
theorem expect_bind_eq_ok_iff (hc : c.Within n) (hk : Plain k) {f : Span → Parser β} {b : β} :
    (expect k >>= f) c = (.ok b, c') ↔
      ∃ d, c.Passes [k] d ∧ f c.current.span d = (.ok b, c') := by
  simp only [bind_apply, expect_apply c hk, hc.passes_single_iff hk.ne_eof]
  by_cases h : c.current.kind = k
  · simp [h]
  · simp [h]

theorem eat_bind_of_passes (hc : c.Within n) (hk : Plain k) {f : Bool → Parser β} {d : Cursor}
    (h : c.Passes [k] d) : (eat k >>= f) c = f true d := by
  rcases (hc.passes_single_iff hk.ne_eof).1 h with ⟨hkind, rfl⟩
  rw [bind_apply, eat_apply c hk, if_pos hkind]

theorem eat_bind_of_ne (hk : Plain k) {f : Bool → Parser β} (h : c.current.kind ≠ k) :
    (eat k >>= f) c = f false c := by
  rw [bind_apply, eat_apply c hk, if_neg h]

theorem expect_bind_of_passes (hc : c.Within n) (hk : Plain k) {f : Span → Parser β} {d : Cursor}
    (h : c.Passes [k] d) : (expect k >>= f) c = f c.current.span d := by
  rcases (hc.passes_single_iff hk.ne_eof).1 h with ⟨hkind, rfl⟩
  rw [bind_apply, expect_apply c hk, if_pos hkind]

/-! ## 2. Repetition -/

/-- The runs of `Parser.loop`, step by step. -/
inductive Loops (next : TokenKind → Option (α → Parser α)) : α → Cursor → α → Cursor → Prop
  | done {a c} : next c.current.kind = none → Loops next a c a c
  | step {a b r c d c' f} : next c.current.kind = some f → f a c = (.ok b, d) →
      Loops next b d r c' → Loops next a c r c'

section

variable {next : TokenKind → Option (α → Parser α)} {a b : α} {d : Cursor} {f : α → Parser α}

theorem loop_of_none (h : next c.current.kind = none) : loop next a c = (.ok a, c) := by
  rw [loop]
  simp only [h]

theorem loop_of_error (h : next c.current.kind = some f) {e : ParseError}
    (hf : f a c = (.error e, d)) : loop next a c = (.error e, d) := by
  rw [loop]
  simp only [h, hf]

theorem loop_of_ok (h : next c.current.kind = some f) (hf : f a c = (.ok b, d))
    (hlt : d.remaining < c.remaining) : loop next a c = loop next b d := by
  rw [loop]
  simp only [h, hf, hlt, if_true]

/-- Every step reads at least one token. -/
def StepsRead (n : Nat) (next : TokenKind → Option (α → Parser α)) : Prop :=
  ∀ ⦃a b : α⦄ ⦃c d : Cursor⦄ ⦃f : α → Parser α⦄, c.Within n → next c.current.kind = some f →
    f a c = (.ok b, d) → ∃ ks, ks ≠ [] ∧ c.Passes ks d

-- A loop whose steps all read makes all the steps it can.
theorem loop_eq_ok_iff (hnext : StepsRead n next) (hc : c.Within n) :
    loop next a c = (.ok b, c') ↔ Loops next a c b c' := by
  apply Iff.intro
  · intro h
    induction hm : c.remaining using Nat.strongRecOn generalizing a c with
    | ind m ih =>
      subst hm
      cases hk : next c.current.kind with
      | none =>
        obtain ⟨rfl, rfl⟩ : a = b ∧ c = c' := by simpa [loop_of_none hk] using h
        exact .done hk
      | some f =>
        rcases hf : f a c with ⟨e | a', d⟩
        · simp [loop_of_error hk hf] at h
        · rcases hnext hc hk hf with ⟨ks, hne, hks⟩
          have hlt := hks.remaining_lt hne
          rw [loop_of_ok hk hf hlt] at h
          exact .step hk hf (ih _ hlt (hks.within hc) h rfl)
  · intro h
    induction h with
    | done hk => exact loop_of_none hk
    | step hk hf _ ih =>
      rcases hnext hc hk hf with ⟨ks, hne, hks⟩
      rw [loop_of_ok hk hf (hks.remaining_lt hne)]
      exact ih (hks.within hc)

/-- Every step reads at least one token and puts what it read behind a phrase of `L`. -/
def StepsExtend (n : Nat) (next : TokenKind → Option (α → Parser α)) (L : Language α)
    (stop : TokenKind → Prop) : Prop :=
  ∀ ⦃a b : α⦄ ⦃c d : Cursor⦄ ⦃f : α → Parser α⦄, c.Within n → next c.current.kind = some f →
    f a c = (.ok b, d) → ∃ ks, ks ≠ [] ∧ c.Passes ks d ∧ stop d.current.kind ∧
      ∀ ls, L ls a → L (ls ++ ks) b

variable {L : Language α} {stop : TokenKind → Prop}

theorem StepsExtend.stepsRead (h : StepsExtend n next L stop) : StepsRead n next := by
  intro a b c d f hc hk hf
  rcases h hc hk hf with ⟨ks, hne, hks, -⟩
  exact ⟨ks, hne, hks⟩

theorem loop_sound (hnext : StepsExtend n next L stop) (hc : c.Within n)
    (h : loop next a c = (.ok b, c')) {ls : List TokenKind} (ha : L ls a)
    (hstop : stop c.current.kind) :
    ∃ ks, c.Passes ks c' ∧ L (ls ++ ks) b ∧ stop c'.current.kind ∧
      next c'.current.kind = none := by
  replace h := (loop_eq_ok_iff hnext.stepsRead hc).1 h
  induction h generalizing ls with
  | done hk => exact ⟨[], .refl _, by simpa using ha, hstop, hk⟩
  | step hk hf _ ih =>
    rcases hnext hc hk hf with ⟨ks, -, hks, hstop', hL⟩
    rcases ih (hks.within hc) (hL ls ha) hstop' with ⟨js, hjs, hb, hend⟩
    exact ⟨ks ++ js, hks.trans hjs, by simpa using hb, hend⟩

end

/-! ## 3. Exact readers -/

/-- On cursors with fewer than `n` tokens left, `p` yields exactly the trees of the phrases of `P`
that stand there and are followed by a token of the class `stop`.  An `else` behind a phrase is left
out of account, since a branch would take it in. -/
structure Reads (n : Nat) (p : Parser α) (P : Language α) (stop : TokenKind → Prop) : Prop where
  sound : ∀ {c : Cursor} {a : α} {c' : Cursor}, c.Within n → p c = (.ok a, c') →
    ∃ ks, c.Passes ks c' ∧ P ks a ∧ stop c'.current.kind
  complete : ∀ {c : Cursor} {ks : List TokenKind} {a : α} {c' : Cursor}, c.Within n →
    c.Passes ks c' → P ks a → stop c'.current.kind → c'.current.kind ≠ .keyword .elseWord →
    p c = (.ok a, c')

-- A recursive parser is exact if its body is, given an exact parser for its parts.
theorem fix_reads {f : Parser α → Parser α} {P : Language α} {stop : TokenKind → Prop}
    (h : ∀ n p, Reads n p P stop → Reads (n + 1) (f p) P stop) (n : Nat) :
    Reads n (fix f) P stop := by
  induction n using Nat.strongRecOn with
  | ind n ih =>
    have hbody (c : Cursor) (hc : c.Within n) : Reads (c.remaining + 1)
        (f fun d => if d.remaining < c.remaining then fix f d else unexpected "EXPR" d) P stop := by
      refine h _ _ ⟨fun hd => ?_, fun hd => ?_⟩
      · simpa only [hd.remaining_lt, if_true] using (ih _ hc.remaining_lt).sound hd
      · simpa only [hd.remaining_lt, if_true] using (ih _ hc.remaining_lt).complete hd
    constructor
    · intro c a c' hc hp
      rw [fix] at hp
      exact (hbody c hc).sound ⟨hc.last_kind, Nat.lt_succ_self _⟩ hp
    · intro c ks a c' hc hks ha hstop helse
      rw [fix]
      exact (hbody c hc).complete ⟨hc.last_kind, Nat.lt_succ_self _⟩ hks ha hstop helse

end Parser

end Monkey
