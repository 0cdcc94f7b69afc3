import Monkey.Proofs.Token.Kinds

/-!
# Spelling — which slices of a text are tokens

`Spells` says which slices of a text are tokens, and of which kind, without saying how a text is
cut: words and numbers are as long as the text around them allows, and a character is illegal only
if no token starts with it.  What stands at the head of a text is spelled exactly if the lexer finds
it there, so a slice determines the kind of its token.
-/

namespace Monkey

namespace Lexer

/-! ## 1. What a slice of text stands for -/

/-- One character of the class `start`, and then characters of the class `part`. -/
def IsRun (start part : Char → Bool) (cs : List Char) : Prop :=
  (∃ c ∈ cs.head?, start c = true) ∧ ∀ c ∈ cs, part c = true

/-- A letter or an underscore, and then letters, digits and underscores. -/
def IsWord : List Char → Prop := IsRun isWordStart isWordPart

/-- One or more digits. -/
def IsNumber : List Char → Prop := IsRun Char.isDigit Char.isDigit

/-- A `P` that makes a larger one with none of the text around it. -/
def Maximal (P : List Char → Prop) (before cs after : List Char) : Prop :=
  P cs ∧ ∀ xs ys, xs <:+ before → ys <+: after → P (xs ++ cs ++ ys) → xs = [] ∧ ys = []

/-- A character with which some token starts. -/
def StartsToken (c : Char) : Prop :=
  isWordStart c = true ∨ c.isDigit = true ∨ c = '"' ∨
    ∃ s : Symbol, s.spelling.toList.head? = some c

/-- The slices between `before` and `after` that are tokens, with their kinds. -/
inductive Spells (before after : List Char) : List Char → TokenKind → Prop
  -- The signs `=` and `!` do not stand in front of another `=`.
  | symbol {s : Symbol} : (s = .assign ∨ s = .bang → after.head? ≠ some '=') →
      Spells before after s.spelling.toList (.symbol s)
  | keyword {k : Keyword} : Maximal IsWord before k.spelling.toList after →
      Spells before after k.spelling.toList (.keyword k)
  | ident {cs} : Maximal IsWord before cs after → (∀ k : Keyword, String.ofList cs ≠ k.spelling) →
      Spells before after cs (.ident (String.ofList cs))
  | int {cs} : Maximal IsNumber before cs after → Spells before after cs (.int (String.ofList cs))
  | str {cs} : '"' ∉ cs → Spells before after ('"' :: (cs ++ ['"'])) (.str (String.ofList cs))
  | stray {c} : ¬ isBlank c = true → ¬ StartsToken c →
      Spells before after [c] (.illegal (String.singleton c))
  | unclosed {cs} : '"' ∉ cs → after = [] →
      Spells before after ('"' :: cs) (.illegal (String.ofList ('"' :: cs)))

section

variable {before after slice cs xs ys : List Char} {c : Char} {k : TokenKind}

theorem isWordPart_of_isDigit (h : c.isDigit = true) : isWordPart c = true := by
  simp [isWordPart, h]

theorem isWordPart_of_isWordStart (h : isWordStart c = true) : isWordPart c = true := by
  simp [isWordPart, h]

-- The ASCII digits and the ASCII letters are different characters.
theorem not_isWordStart_of_isDigit (h : c.isDigit = true) : ¬ isWordStart c = true := by
  intro hstart
  change (decide (c.val ≥ 48) && decide (c.val ≤ 57)) = true at h
  change (decide (c.val ≥ 65 ∧ c.val ≤ 90) ||
    (decide (c.val ≥ 97) && decide (c.val ≤ 122)) || decide (c = '_')) = true at hstart
  simp only [Bool.or_eq_true, Bool.and_eq_true, decide_eq_true_eq] at h hstart
  rcases h with ⟨-, hle⟩
  rcases hstart with (⟨hge, -⟩ | ⟨hge, -⟩) | rfl
  · exact absurd (UInt32.le_trans hge hle) (by decide)
  · exact absurd (UInt32.le_trans hge hle) (by decide)
  · exact absurd hle (by decide)

-- A blank stands in no word.
theorem not_isWordPart_of_isBlank (h : isBlank c = true) : ¬ isWordPart c = true := by
  simp only [isBlank, Bool.or_eq_true, decide_eq_true_eq] at h
  rcases h with (((rfl | rfl) | rfl) | rfl) | rfl <;> decide

theorem isRun_cons_iff {start part : Char → Bool} :
    IsRun start part (c :: cs) ↔ start c = true ∧ part c = true ∧ ∀ d ∈ cs, part d = true := by
  simp [IsRun]

-- A run that is written out can be checked by evaluation.
theorem isRun_of_all {start part : Char → Bool} (h : (start c && (c :: cs).all part) = true) :
    IsRun start part (c :: cs) := by
  simp only [Bool.and_eq_true, List.all_eq_true] at h
  exact isRun_cons_iff.2 ⟨h.1, List.forall_mem_cons.1 h.2⟩

theorem IsRun.append {start part : Char → Bool} (h : IsRun start part cs)
    (hys : ∀ d ∈ ys, part d = true) : IsRun start part (cs ++ ys) := by
  rcases h with ⟨⟨d, hd, hstart⟩, hall⟩
  refine ⟨⟨d, ?_, hstart⟩, ?_⟩
  · rw [List.head?_append, Option.mem_def.1 hd]
    rfl
  · intro e he
    rcases List.mem_append.1 he with he | he
    · exact hall e he
    · exact hys e he

-- A run that stops does so at a character that cannot carry it on.
theorem eq_nil_of_prefix_dropWhile {part : Char → Bool} (hys : ys <+: cs.dropWhile part)
    (hpart : ∀ c ∈ ys, part c = true) : ys = [] := by
  cases ys with
  | nil => rfl
  | cons y ys =>
    rcases hys with ⟨zs, hzs⟩
    have hstop := List.head?_dropWhile_not part cs
    rw [← hzs] at hstop
    have hy := hpart y List.mem_cons_self
    simp [hy] at hstop

/-! ## 2. Borders between tokens -/

/-- No word and no number goes over the border between the two texts. -/
def Border (before after : List Char) : Prop :=
  ∀ xs ys, xs <:+ before → ys <+: after → xs ≠ [] → ys ≠ [] →
    ¬ IsWord (xs ++ ys) ∧ ¬ IsNumber (xs ++ ys)

theorem border_nil_left (after : List Char) : Border [] after := by
  intro xs ys hxs _ hne
  exact absurd (List.suffix_nil.1 hxs) hne

theorem border_nil_right (before : List Char) : Border before [] := by
  intro xs ys _ hys _ hne
  exact absurd (List.prefix_nil.1 hys) hne

-- Behind a character that stands in no word there is a border.
theorem border_concat (before after : List Char) (hc : ¬ isWordPart c = true) :
    Border (before ++ [c]) after := by
  intro xs ys hxs _ hne _
  have hmem : c ∈ xs ++ ys := by
    rcases List.suffix_concat_iff.1 hxs with rfl | ⟨zs, rfl, -⟩
    · exact absurd rfl hne
    · simp
  constructor
  · intro h
    exact hc (h.2 c hmem)
  · intro h
    exact hc (isWordPart_of_isDigit (h.2 c hmem))

theorem Border.append (h : Border before (slice ++ after)) (hslice : Border slice after) :
    Border (before ++ slice) after := by
  intro xs ys hxs hys hxne hyne
  rcases List.suffix_or_suffix_of_suffix hxs (List.suffix_append before slice) with hle | ⟨zs, rfl⟩
  · exact hslice xs ys hle hys hxne hyne
  · -- what starts in front of the slice would go over the border in front of it
    cases zs with
    | nil => exact hslice slice ys (List.suffix_refl slice) hys hxne hyne
    | cons z zs =>
      rw [List.append_assoc]
      apply h
      · rcases hxs with ⟨ws, hws⟩
        exact ⟨ws, List.append_cancel_right (by simpa using hws)⟩
      · exact (List.prefix_append_right_inj slice).2 hys
      · exact List.cons_ne_nil z zs
      · exact List.append_ne_nil_of_right_ne_nil slice hyne

theorem Maximal.eq_nil {P : List Char → Prop} (h : Maximal P before cs after)
    (hys : ys <+: after) (happend : P (cs ++ ys)) : ys = [] :=
  (h.2 [] ys List.nil_suffix hys happend).2

-- A run that can be carried on neither to the left nor to the right.
theorem maximal_takeWhile {start part : Char → Bool} (hstart : start c = true)
    (hpart : part c = true)
    (hborder : ∀ xs ys, xs <:+ before → ys <+: c :: cs → xs ≠ [] → ys ≠ [] →
      ¬ IsRun start part (xs ++ ys)) :
    Maximal (IsRun start part) before (c :: cs.takeWhile part) (cs.dropWhile part) := by
  refine ⟨isRun_cons_iff.2 ⟨hstart, hpart, List.all_eq_true.1 List.all_takeWhile⟩, ?_⟩
  intro xs ys hxs hys h
  have hrun : ys = [] := eq_nil_of_prefix_dropWhile hys fun d hd => h.2 d (List.mem_append_right _ hd)
  subst hrun
  refine ⟨?_, rfl⟩
  by_cases hne : xs = []
  · exact hne
  · rw [List.append_nil] at h
    refine absurd h (hborder xs _ hxs ?_ hne (List.cons_ne_nil _ _))
    exact List.cons_prefix_cons.2 ⟨rfl, List.takeWhile_prefix part⟩

theorem maximal_nil_left {start part : Char → Bool} (h : IsRun start part cs)
    (hafter : ∀ d ∈ after.head?, ¬ part d = true) : Maximal (IsRun start part) [] cs after := by
  refine ⟨h, ?_⟩
  intro xs ys hxs hys hrun
  refine ⟨List.suffix_nil.1 hxs, ?_⟩
  cases ys with
  | nil => rfl
  | cons y ys =>
    rcases hys with ⟨zs, rfl⟩
    exact absurd (hrun.2 y (by simp)) (hafter y rfl)

/-! ## 3. Tokens are spelled -/

-- A sign ends with a character that stands in no word.
theorem spelling_eq_concat (s : Symbol) :
    ∃ ds d, s.spelling.toList = ds ++ [d] ∧ ¬ isWordPart d = true := by
  cases s
  case eqEq => exact ⟨['='], '=', rfl, by decide⟩
  case notEq => exact ⟨['!'], '=', rfl, by decide⟩
  all_goals exact ⟨[], _, rfl, by decide⟩

theorem Maximal.border_of_isWord (h : Maximal IsWord before cs after) : Border cs after := by
  intro xs ys _ hys _ hne
  have hfalse (hpart : ∀ d ∈ ys, isWordPart d = true) : False :=
    hne (h.eq_nil hys (h.1.append hpart))
  constructor
  · intro hword
    exact hfalse fun d hd => hword.2 d (List.mem_append_right xs hd)
  · intro hnumber
    exact hfalse fun d hd => isWordPart_of_isDigit (hnumber.2 d (List.mem_append_right xs hd))

theorem Maximal.border_of_isNumber (h : Maximal IsNumber before cs after) : Border cs after := by
  intro xs ys hxs hys hxne hne
  constructor
  · -- a word does not start with a digit
    intro hword
    rcases List.exists_cons_of_ne_nil hxne with ⟨x, xs, rfl⟩
    rcases hword.1 with ⟨d, hd, hstart⟩
    obtain rfl : x = d := by simpa using hd
    exact not_isWordStart_of_isDigit (h.1.2 x (hxs.subset List.mem_cons_self)) hstart
  · intro hnumber
    exact hne (h.eq_nil hys (h.1.append fun d hd => hnumber.2 d (List.mem_append_right xs hd)))

/-- A token is not carried on by what stands behind it. -/
theorem Spells.border (h : Spells before after slice k) : Border slice after := by
  cases h with
  | @symbol s _ =>
    rcases spelling_eq_concat s with ⟨ds, d, hs, hd⟩
    rw [hs]
    exact border_concat ds after hd
  | keyword h => exact h.border_of_isWord
  | ident h _ => exact h.border_of_isWord
  | int h => exact h.border_of_isNumber
  | @str cs _ => exact border_concat ('"' :: cs) after (by decide)
  | @stray c _ hc =>
    have hpart : ¬ isWordPart c = true := by
      simp only [isWordPart, Bool.or_eq_true]
      rintro (hstart | hdigit)
      · exact hc (.inl hstart)
      · exact hc (.inr (.inl hdigit))
    exact border_concat [] after hpart
  | unclosed _ h =>
    subst h
    exact border_nil_right _

-- A whole word is reserved or a name.
theorem Maximal.spells (h : Maximal IsWord before cs after) :
    Spells before after cs (wordKind (String.ofList cs)) := by
  unfold wordKind
  cases hk : Keyword.ofWord? (String.ofList cs) with
  | some k =>
    have hcs : cs = k.spelling.toList := by
      rw [← Keyword.ofWord?_eq_some_iff.1 hk, String.toList_ofList]
    rw [hcs] at h ⊢
    exact .keyword h
  | none =>
    refine .ident h ?_
    intro k hcs
    rw [Keyword.ofWord?_eq_some_iff.2 hcs] at hk
    cases hk

-- Every sign starts with a character that is a sign by itself.
theorem symbolOfChar?_isSome {s : Symbol} (h : s.spelling.toList.head? = some c) :
    (symbolOfChar? c).isSome = true := by
  cases s <;> (obtain rfl := Option.some.inj h; decide)

theorem symbolOfChar?_eq_some {s : Symbol} (h : symbolOfChar? c = some s) :
    s.spelling.toList = [c] := by
  have hfound := List.find?_some h
  rw [of_decide_eq_true hfound, String.toList_singleton]

theorem single_spells (hblank : ¬ isBlank c = true) (hword : ¬ isWordStart c = true)
    (hdigit : ¬ c.isDigit = true) (hquote : c ≠ '"') (hpair : ¬ pairsUp c cs) :
    Spells before cs [c] (single c cs).kind := by
  unfold single
  cases hs : symbolOfChar? c with
  | some s =>
    have hspelling := symbolOfChar?_eq_some hs
    rw [← hspelling]
    refine .symbol ?_
    intro hsign hhead
    refine hpair ⟨?_, hhead⟩
    rcases hsign with rfl | rfl
    · exact .inl (List.singleton_inj.1 hspelling).symm
    · exact .inr (List.singleton_inj.1 hspelling).symm
  | none =>
    refine .stray hblank ?_
    rintro (h | h | h | ⟨s, h⟩)
    · exact hword h
    · exact hdigit h
    · exact hquote h
    · have := symbolOfChar?_isSome h
      rw [hs] at this
      cases this

/-- The token at the head of a text is spelled by its characters, if no word and no number goes
over the border in front of it. -/
theorem lexeme_spells (hblank : ¬ isBlank c = true) (h : Border before (c :: cs)) :
    Spells before (lexeme c cs).rest (c :: (lexeme c cs).tail) (lexeme c cs).kind := by
  by_cases hword : isWordStart c = true
  · simp only [lexeme, if_pos hword]
    apply Maximal.spells
    apply maximal_takeWhile hword (isWordPart_of_isWordStart hword)
    intro xs ys hxs hys hxne hyne
    exact (h xs ys hxs hys hxne hyne).1
  by_cases hdigit : c.isDigit = true
  · simp only [lexeme, if_neg hword, if_pos hdigit]
    apply Spells.int
    apply maximal_takeWhile hdigit hdigit
    intro xs ys hxs hys hxne hyne
    exact (h xs ys hxs hys hxne hyne).2
  by_cases hquote : c = '"'
  · subst hquote
    simp only [lexeme, if_neg hword, if_neg hdigit, if_true]
    have hinside : '"' ∉ cs.takeWhile (· ≠ '"') := by
      intro hmem
      have hne := List.all_eq_true.1 List.all_takeWhile _ hmem
      simp at hne
    cases hend : cs.dropWhile (· ≠ '"') with
    | cons d rest =>
      obtain rfl : d = '"' := by
        have hstop := List.head?_dropWhile_not (· ≠ '"') cs
        rw [hend] at hstop
        simpa using hstop
      exact .str hinside
    | nil =>
      have hcs := List.takeWhile_append_dropWhile (p := (· ≠ '"')) (l := cs)
      rw [hend, List.append_nil] at hcs
      rw [hcs] at hinside
      exact .unclosed hinside rfl
  -- what is left are the signs and the characters that start no token
  by_cases hpair : pairsUp c cs
  · rcases hpair with ⟨hc, hhead⟩
    rcases List.head?_eq_some_iff.1 hhead with ⟨rest, rfl⟩
    rcases hc with rfl | rfl
    · exact Spells.symbol (s := .eqEq) (by simp)
    · exact Spells.symbol (s := .notEq) (by simp)
  · rw [lexeme_eq_single hword hdigit hquote hpair, single_rest]
    have htail : (single c cs).tail = [] := by
      unfold single
      split <;> rfl
    rw [htail]
    exact single_spells hblank hword hdigit hquote hpair

/-! ## 4. What is spelled is a token -/

theorem takeWhile_append_eq {p : Char → Bool} (hcs : ∀ d ∈ cs, p d = true)
    (hafter : ∀ d ∈ after.head?, ¬ p d = true) :
    (cs ++ after).takeWhile p = cs ∧ (cs ++ after).dropWhile p = after := by
  rw [List.takeWhile_append_of_pos hcs, List.dropWhile_append_of_pos hcs]
  cases after with
  | nil => simp
  | cons d after => simp [hafter d rfl]

theorem lexeme_of_word {cs : List Char} (hc : isWordStart c = true)
    (hcs : ∀ d ∈ cs, isWordPart d = true) (hafter : ∀ d ∈ after.head?, ¬ isWordPart d = true) :
    lexeme c (cs ++ after) = ⟨wordKind (String.ofList (c :: cs)), cs, after⟩ := by
  rcases takeWhile_append_eq hcs hafter with ⟨htake, hdrop⟩
  simp only [lexeme, if_pos hc, htake, hdrop]

theorem lexeme_of_number {cs : List Char} (hc : c.isDigit = true)
    (hcs : ∀ d ∈ cs, d.isDigit = true) (hafter : ∀ d ∈ after.head?, ¬ d.isDigit = true) :
    lexeme c (cs ++ after) = ⟨.int (String.ofList (c :: cs)), cs, after⟩ := by
  rcases takeWhile_append_eq hcs hafter with ⟨htake, hdrop⟩
  simp only [lexeme, if_neg (not_isWordStart_of_isDigit hc), if_pos hc, htake, hdrop]

theorem lexeme_of_symbol {s : Symbol} (hs : s.spelling.toList = c :: cs)
    (hafter : s = .assign ∨ s = .bang → after.head? ≠ some '=') :
    lexeme c (cs ++ after) = ⟨.symbol s, cs, after⟩ := by
  cases s <;> (obtain ⟨rfl, rfl⟩ := List.cons.inj hs)
  case assign | bang =>
    cases after with
    | nil => rfl
    | cons d after =>
      have hd : d ≠ '=' := fun h => hafter (by simp) (by simp [h])
      rw [List.nil_append, lexeme_eq_single (by decide) (by decide) (by decide)
        (by simp [pairsUp, hd])]
      rfl
  all_goals rfl

theorem lexeme_of_str (hcs : '"' ∉ cs) :
    lexeme '"' (cs ++ '"' :: after) = ⟨.str (String.ofList cs), cs ++ ['"'], after⟩ := by
  have hinside : ∀ d ∈ cs, decide (d ≠ '"') = true := fun d hd =>
    decide_eq_true fun h => hcs (h ▸ hd)
  have hquote : ∀ d ∈ ('"' :: after).head?, ¬ decide (d ≠ '"') = true := by simp
  rcases takeWhile_append_eq hinside hquote with ⟨htake, hdrop⟩
  simp only [lexeme, htake, hdrop]
  rfl

theorem lexeme_of_unclosed (hcs : '"' ∉ cs) :
    lexeme '"' cs = ⟨.illegal (String.ofList ('"' :: cs)), cs, []⟩ := by
  have hinside : ∀ d ∈ cs, decide (d ≠ '"') = true := fun d hd =>
    decide_eq_true fun h => hcs (h ▸ hd)
  have hdrop : cs.dropWhile (· ≠ '"') = [] := by
    rw [← List.append_nil cs, List.dropWhile_append_of_pos hinside]
    rfl
  simp only [lexeme, hdrop]
  rfl

theorem lexeme_of_stray (hc : ¬ StartsToken c) :
    lexeme c after = ⟨.illegal (String.singleton c), [], after⟩ := by
  have hsymbol (s : Symbol) : s.spelling.toList.head? ≠ some c :=
    fun h => hc (.inr (.inr (.inr ⟨s, h⟩)))
  have hnone : symbolOfChar? c = none := by
    cases hs : symbolOfChar? c with
    | none => rfl
    | some s => exact absurd (by rw [symbolOfChar?_eq_some hs]; rfl) (hsymbol s)
  rw [lexeme_eq_single (fun h => hc (.inl h)) (fun h => hc (.inr (.inl h)))
    (fun h => hc (.inr (.inr (.inl h)))), single, hnone]
  rintro ⟨rfl | rfl, -⟩
  · exact hsymbol .assign rfl
  · exact hsymbol .bang rfl

theorem Maximal.not_mem_head? {start part : Char → Bool}
    (h : Maximal (IsRun start part) before cs after) : ∀ d ∈ after.head?, ¬ part d = true := by
  intro d hd hpart
  have hrun : IsRun start part (cs ++ [d]) := h.1.append (by simpa using hpart)
  rcases List.head?_eq_some_iff.1 hd with ⟨rest, rfl⟩
  exact absurd (h.eq_nil ⟨rest, rfl⟩ hrun) (List.cons_ne_nil d [])

/-- What is spelled in front of a text is the token that is found there. -/
theorem Spells.lexeme_eq (h : Spells before after (c :: cs) k) :
    lexeme c (cs ++ after) = ⟨k, cs, after⟩ := by
  have hword (hw : Maximal IsWord before (c :: cs) after) :
      lexeme c (cs ++ after) = ⟨wordKind (String.ofList (c :: cs)), cs, after⟩ := by
    rcases isRun_cons_iff.1 hw.1 with ⟨hstart, -, hpart⟩
    exact lexeme_of_word hstart hpart hw.not_mem_head?
  generalize hslice : c :: cs = slice at h
  cases h with
  | symbol hs => exact lexeme_of_symbol hslice.symm hs
  | @keyword w hw =>
    have hspelling : String.ofList (c :: cs) = w.spelling := by rw [hslice, String.ofList_toList]
    rw [hword (hslice ▸ hw), wordKind, Keyword.ofWord?_eq_some_iff.2 hspelling]
  | ident hw hne =>
    have hnone : Keyword.ofWord? (String.ofList (c :: cs)) = none := by
      cases hk : Keyword.ofWord? (String.ofList (c :: cs)) with
      | none => rfl
      | some w => exact absurd (hslice ▸ Keyword.ofWord?_eq_some_iff.1 hk) (hne w)
    rw [hword (hslice ▸ hw), wordKind, hnone, hslice]
  | int hn =>
    rw [← hslice] at hn ⊢
    rcases isRun_cons_iff.1 hn.1 with ⟨hstart, -, hpart⟩
    exact lexeme_of_number hstart hpart hn.not_mem_head?
  | str hcs =>
    obtain ⟨rfl, rfl⟩ := List.cons.inj hslice
    rw [List.append_assoc, List.singleton_append]
    exact lexeme_of_str hcs
  | stray _ hc =>
    obtain ⟨rfl, rfl⟩ := List.cons.inj hslice
    exact lexeme_of_stray hc
  | unclosed hcs hafter =>
    obtain ⟨rfl, rfl⟩ := List.cons.inj hslice
    rw [hafter, List.append_nil]
    exact lexeme_of_unclosed hcs

theorem Spells.ne_nil (h : Spells before after slice k) : slice ≠ [] := by
  cases h with
  | @symbol s _ => cases s <;> exact List.cons_ne_nil _ _
  | @keyword w _ => cases w <;> exact List.cons_ne_nil _ _
  | ident h _ | int h =>
    rintro rfl
    rcases h.1.1 with ⟨c, hc, -⟩
    cases hc
  | str _ | stray _ _ | unclosed _ _ => exact List.cons_ne_nil _ _

theorem Spells.ne_eof (h : Spells before after slice k) : k ≠ .eof := by
  cases h <;> exact nofun

theorem Spells.not_isBlank (h : Spells before after (c :: cs) k) : ¬ isBlank c = true := by
  have hpart (hc : isWordPart c = true) : ¬ isBlank c = true :=
    fun hblank => not_isWordPart_of_isBlank hblank hc
  generalize hslice : c :: cs = slice at h
  cases h with
  | @symbol s _ =>
    cases s <;> (obtain ⟨rfl, -⟩ := List.cons.inj hslice; decide)
  | keyword h | ident h _ => exact hpart (isRun_cons_iff.1 (hslice ▸ h.1)).2.1
  | int h => exact hpart (isWordPart_of_isDigit (isRun_cons_iff.1 (hslice ▸ h.1)).2.1)
  | str _ | unclosed _ _ =>
    obtain ⟨rfl, -⟩ := List.cons.inj hslice
    decide
  | stray hc _ =>
    obtain ⟨rfl, -⟩ := List.cons.inj hslice
    exact hc

/-- Tokens can be read off a text one after the other. -/
theorem Spells.kindsOf_append (h : Spells before after slice k) :
    kindsOf (slice ++ after) = k :: kindsOf after := by
  rcases List.exists_cons_of_ne_nil h.ne_nil with ⟨c, cs, rfl⟩
  rw [List.cons_append, kindsOf_lexeme h.not_isBlank, h.lexeme_eq]

/-- A slice of a text determines the kind of its token. -/
theorem Spells.kind_unique {l : TokenKind} (h : Spells before after slice k)
    (h' : Spells before after slice l) : l = k := by
  rcases List.exists_cons_of_ne_nil h.ne_nil with ⟨c, cs, rfl⟩
  exact congrArg Lexeme.kind (h'.lexeme_eq.symm.trans h.lexeme_eq)

end

end Lexer

end Monkey
