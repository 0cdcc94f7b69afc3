import Monkey.Proofs.Phrase.Delimited

/-!
# Where expressions end — what may stand behind one, and what begins one

An expression ends in front of a mark, of the bracket of an index, of an `else` that does not belong
to it, or with the text.  Its first character says of what form it is, or of what form the expression
is that is called in it, and if that is a word, then no other expression begins with the same one, nor
does a statement or an alternative.
-/

namespace Monkey

open Phrase Lexer

namespace Expr

/-! ## 1. What may stand behind an expression -/

/-- The signs that end an expression of every form. -/
def marks : List Char := [',', ']', '\x7d', ':', ')', ' ', ';']

/-- What may stand behind an expression or a block: the end of the text, a mark, the bracket of an
index if it is `indexed`, and an `else` unless it is `hungry`. -/
inductive After (indexed hungry : Prop) : List Char → Prop
  | nil : After indexed hungry []
  | mark {c u} : c ∈ marks → After indexed hungry (c :: u)
  | bracket {u} : indexed → After indexed hungry ('[' :: u)
  | otherwise {u} : ¬ hungry → After indexed hungry ("else ".toList ++ u)

def Follows (e : Expr) : List Char → Prop := After (¬ e.IsOpen) e.WantsElse

def FollowsBlock (b : Block) : List Char → Prop := After False (BlockWantsElse b)

section

variable {i j w w' : Prop} {u : List Char} {c : Char} {e : Expr} {b : Block}

theorem After.imp (h : After i w u) (hi : i → j) (hw : w' → w) : After j w' u := by
  cases h with
  | nil => exact .nil
  | mark hc => exact .mark hc
  | bracket h => exact .bracket (hi h)
  | otherwise h => exact .otherwise fun hw' => h (hw hw')

theorem after_mark (hc : c ∈ marks)
    (hu : u.head? = some ',' ∨ u.head? = some c) : After i w u := by
  rcases hu with hu | hu <;> obtain ⟨v, rfl⟩ := List.head?_eq_some_iff.1 hu
  · exact .mark (by decide)
  · exact .mark hc

theorem After.endsName (h : After i w u) : EndsName u := by
  cases h with
  | nil => exact .inl endsWord_nil
  | @mark c u hc =>
    left
    rintro d ⟨⟩
    simp only [marks, List.mem_cons, List.not_mem_nil, or_false] at hc
    rcases hc with rfl | rfl | rfl | rfl | rfl | rfl | rfl <;> decide
  | bracket => exact .inl (endsWord_cons (by decide) _)
  | otherwise => exact .inr (List.prefix_append _ _)

theorem After.head?_ne (h : After i w u) : u.head? ≠ some '(' := by
  cases h with
  | nil => exact nofun
  | mark hc =>
    rintro hparen
    obtain rfl := Option.some.inj hparen
    exact absurd hc (by decide)
  | bracket => simp
  | otherwise => simp

-- What stands behind a branch stands behind its last block.
theorem follows_cond {test : Expr} (h : Follows (cond test b none) u) : FollowsBlock b u :=
  h.imp (fun hclosed => hclosed trivial) fun _ => .cond

theorem follows_alternative {test : Expr} {yes : Block} (h : Follows (cond test yes (some b)) u) :
    FollowsBlock b u := by
  refine h.imp (fun hclosed => hclosed trivial) ?_
  rintro ⟨e, he, hwants⟩
  exact .alternative he hwants

-- The first branch of two is followed by the `else` of the second.
theorem not_follows_otherwise {test : Expr} {yes : Block} :
    ¬ Follows (cond test yes none) ("else ".toList ++ u) := by
  intro h
  rw [Follows] at h
  generalize hv : "else ".toList ++ u = v at h
  cases h with
  | nil => simp at hv
  | mark hc =>
    simp only [String.reduceToList, List.cons_append, List.cons.injEq] at hv
    exact absurd (hv.1 ▸ hc) (by decide)
  | bracket => simp at hv
  | otherwise h => exact h .cond

theorem FollowsBlock.last (h : FollowsBlock [.expr e] u) : Follows e u :=
  h.imp False.elim fun hwants => ⟨e, rfl, hwants⟩

theorem FollowsBlock.tail {s : Stmt} (h : FollowsBlock (s :: b) u) : FollowsBlock b u := by
  refine h.imp id ?_
  rintro ⟨e, he, hwants⟩
  refine ⟨e, ?_, hwants⟩
  rw [List.getLast?_cons, he]
  rfl

end

/-! ## 2. The form of what is called -/

/-- An expression that is no call. -/
def IsAtom (a : Expr) : Prop := a.Delimited ∧ ∀ f args, a ≠ call f args

/-- The expression is the atom `a`, called with one list of arguments after the other. -/
structure Called (e a : Expr) (argss : List (List Expr)) : Prop where
  eq_applied : e = applied a argss
  atom : IsAtom a
  args : ∀ args ∈ argss, ∀ d ∈ args, d.Delimited
  closed : argss ≠ [] → ¬ a.IsOpen

theorem Delimited.exists_called {e : Expr} (h : e.Delimited) : ∃ a argss, Called e a argss := by
  by_cases hcall : ∃ f args, e = call f args
  · obtain ⟨f, args, he⟩ := hcall
    have hchild : Child f e := he ▸ .callee
    obtain ⟨a, argss, hcalled⟩ := (h.child hchild).exists_called
    have happlied : applied a (argss ++ [args]) = call (applied a argss) args := by
      rw [applied, List.foldl_append]
      rfl
    subst he
    refine ⟨a, argss ++ [args], ?_, hcalled.atom, ?_, ?_⟩
    · rw [happlied, ← hcalled.eq_applied]
    · intro args' hargs'
      rcases List.mem_append.1 hargs' with hmem | hmem
      · exact hcalled.args args' hmem
      · obtain rfl := List.mem_singleton.1 hmem
        exact fun d hd => h.child (.arg hd)
    · intro _
      cases argss with
      | nil =>
        obtain rfl : f = a := hcalled.eq_applied
        exact h.self.2
      | cons => exact hcalled.closed (List.cons_ne_nil _ _)
  · exact ⟨e, [], rfl, ⟨h, fun f args he => hcall ⟨f, args, he⟩⟩, nofun, fun hne => absurd rfl hne⟩
termination_by e
decreasing_by exact hchild.sizeOf_lt

/-- What the first character of a text begins. -/
inductive Opening where
  | word | numeral | bracket | brace | paren

def Opening.of? (c : Char) : Option Opening :=
  if isWordStart c then some .word
  else if c.isDigit || c = '-' then some .numeral
  else if c = '[' then some .bracket
  else if c = '\x7b' then some .brace
  else if c = '(' then some .paren
  else none

theorem Opening.of?_of_isDigit {c : Char} (h : c.isDigit = true) :
    Opening.of? c = some .numeral := by
  rw [Opening.of?, if_neg (not_isWordStart_of_isDigit h), h]
  rfl

/-- With what the text of an atom begins. -/
def opening : Expr → Opening
  | int _ => .numeral
  | array _ => .bracket
  | hash _ => .brace
  | unary _ _ | binary _ _ _ | index _ _ => .paren
  | _ => .word

section

variable {a e : Expr} {argss : List (List Expr)} {u v : List Char} {c : Char}

theorem IsAtom.opens (h : IsAtom a) : ∃ c cs, a.text = c :: cs ∧ Opening.of? c = some a.opening := by
  cases a with
  | ident x =>
    have hname : IsName x := h.1.self.1
    obtain ⟨⟨c, hc, hstart⟩, -⟩ := hname.1
    obtain ⟨cs, hcs⟩ := List.head?_eq_some_iff.1 hc
    exact ⟨c, cs, hcs, if_pos hstart⟩
  | int n =>
    by_cases hn : n.toInt < 0
    · exact ⟨'-', _, text_int_of_neg hn, rfl⟩
    · obtain ⟨c, cs, hcs, hdigit⟩ := exists_digit n.toInt.natAbs
      exact ⟨c, cs, (text_int_of_nonneg (by omega)).trans hcs, Opening.of?_of_isDigit hdigit⟩
  | bool b => cases b <;> exact ⟨_, _, rfl, rfl⟩
  | str text => exact absurd h.1.self.1 id
  | array es => exact ⟨_, _, text_array es, rfl⟩
  | hash ps => exact ⟨_, _, text_hash ps, rfl⟩
  | unary op e => exact ⟨_, _, text_unary op e, rfl⟩
  | binary op l r => exact ⟨_, _, text_binary op l r, rfl⟩
  | cond test yes no =>
    cases no with
    | none => exact ⟨_, _, text_cond test yes, rfl⟩
    | some no => exact ⟨_, _, text_alternative test yes no, rfl⟩
  | fn ps b => exact ⟨_, _, text_fn ps b, rfl⟩
  | macroFn ps b => exact ⟨_, _, text_macroFn ps b, rfl⟩
  | call f args => exact absurd rfl (h.2 f args)
  | index l i => exact ⟨_, _, text_index l i, rfl⟩

theorem exists_int_of_opening (h : a.opening = .numeral) : ∃ n, a = int n := by
  cases a with
  | int n => exact ⟨n, rfl⟩
  | _ => cases h

theorem exists_array_of_opening (h : a.opening = .bracket) : ∃ es, a = array es := by
  cases a with
  | array es => exact ⟨es, rfl⟩
  | _ => cases h

theorem exists_hash_of_opening (h : a.opening = .brace) : ∃ ps, a = hash ps := by
  cases a with
  | hash ps => exact ⟨ps, rfl⟩
  | _ => cases h

theorem IsAtom.opening_eq (h : IsAtom a) {o : Opening} (hc : Opening.of? c = some o)
    (heq : a.text ++ u = c :: v) : a.opening = o := by
  obtain ⟨d, ds, htext, hopens⟩ := h.opens
  rw [htext] at heq
  obtain ⟨rfl, -⟩ := List.cons.inj heq
  exact Option.some.inj (hopens.symm.trans hc)

theorem Called.text_eq (h : Called e a argss) : e.text = a.text ++ chainText argss := by
  rw [h.eq_applied, text_applied]

-- Every expression has a text, and neither a mark nor a sign begins it.
theorem Delimited.opens (h : e.Delimited) :
    ∃ c cs, e.text = c :: cs ∧ Opening.of? c ≠ none := by
  obtain ⟨a, argss, hcalled⟩ := h.exists_called
  obtain ⟨c, cs, htext, hopens⟩ := hcalled.atom.opens
  refine ⟨c, cs ++ chainText argss, ?_, ?_⟩
  · rw [hcalled.text_eq, htext, List.cons_append]
  · rw [hopens]
    exact Option.some_ne_none _

theorem of?_eq_none_of_mem_marks (hc : c ∈ marks) : Opening.of? c = none := by
  simp only [marks, List.mem_cons, List.not_mem_nil, or_false] at hc
  rcases hc with rfl | rfl | rfl | rfl | rfl | rfl | rfl <;> rfl

theorem Delimited.head?_ne (h : e.Delimited) (hc : Opening.of? c = none) (u : List Char) :
    (e.text ++ u).head? ≠ some c := by
  obtain ⟨d, ds, htext, hopens⟩ := h.opens
  rw [htext]
  intro hd
  obtain rfl := Option.some.inj hd
  exact hopens hc

end

/-! ## 3. Words at the head of an expression -/

/-- A word that is taken neither for the start of a branch nor for the end of one. -/
structure PlainWord (w : List Char) : Prop where
  ne_nil : w ≠ []
  part : ∀ c ∈ w, isWordPart c = true
  not_if : ¬ "if".toList <+: w
  not_else : ¬ "else".toList <:+ w

/-- The word with which the expression begins, if it is one of its own. -/
def leadingWord : Expr → Option (List Char)
  | ident x => some x.toList
  | bool b => some (toString b).toList
  | fn _ _ => some "fn".toList
  | macroFn _ _ => some "macro".toList
  | _ => none

/-- The keyword with which the expression begins, unless it is that of a branch. -/
def keyword? : Expr → Option Keyword
  | bool true => some .trueWord
  | bool false => some .falseWord
  | fn _ _ => some .fnWord
  | macroFn _ _ => some .macroWord
  | _ => none

section

variable {a a' e : Expr} {argss : List (List Expr)} {w u v : List Char} {c : Char} {k : Keyword}

theorem Called.endsName (h : Called e a argss) (hu : Follows e u) :
    EndsName (chainText argss ++ u) := by
  cases argss with
  | nil => exact hu.endsName
  | cons => exact .inl (endsWord_cons (by decide) _)

theorem Called.follows (h : Called e a argss) (hu : Follows e u) (hopen : a.IsOpen) :
    Follows a (chainText argss ++ u) := by
  cases argss with
  | nil =>
    obtain rfl : e = a := h.eq_applied
    exact hu
  | cons => exact absurd hopen (h.closed (List.cons_ne_nil _ _))

theorem Delimited.plainWord (h : a.Delimited) (hw : leadingWord a = some w) : PlainWord w := by
  cases a with
  | ident x =>
    obtain rfl := Option.some.inj hw
    have hname : IsName x := h.self.1
    have hapart := h.self.2
    refine ⟨?_, hname.1.2, hapart.1, hapart.2⟩
    obtain ⟨⟨c, hc, -⟩, -⟩ := hname.1
    exact List.ne_nil_of_mem (List.mem_of_mem_head? hc)
  | bool b =>
    obtain rfl := Option.some.inj hw
    cases b
    · exact ⟨by decide, (isWord_spelling .falseWord).2, by decide, by decide⟩
    · exact ⟨by decide, (isWord_spelling .trueWord).2, by decide, by decide⟩
  | fn =>
    obtain rfl := Option.some.inj hw
    exact ⟨by decide, (isWord_spelling .fnWord).2, by decide, by decide⟩
  | macroFn =>
    obtain rfl := Option.some.inj hw
    exact ⟨by decide, (isWord_spelling .macroWord).2, by decide, by decide⟩
  | _ => cases hw

theorem keyword?_ne (hk : k = .letWord ∨ k = .returnWord) : keyword? a ≠ some k := by
  rcases hk with rfl | rfl <;> cases a with
  | bool b => cases b <;> nofun
  | _ => nofun

theorem leadingWord_of_keyword (hk : keyword? a = some k) :
    leadingWord a = some k.spelling.toList := by
  cases a with
  | bool b => cases b <;> obtain rfl := Option.some.inj hk <;> rfl
  | fn | macroFn =>
    obtain rfl := Option.some.inj hk
    rfl
  | _ => cases hk

-- A name is no keyword.
theorem Delimited.keyword_of_leadingWord (h : a.Delimited)
    (hw : leadingWord a = some k.spelling.toList) : keyword? a = some k := by
  have hspelling {text : String} (htext : some text.toList = some k.spelling.toList) :
      text = k.spelling := String.toList_injective (Option.some.inj htext)
  cases a with
  | ident x =>
    have hname : IsName x := h.self.1
    exact absurd (hspelling hw) (hname.2 k)
  | bool b =>
    have htext := hspelling hw
    cases b <;> cases k <;> first | rfl | exact absurd htext (by decide)
  | fn | macroFn =>
    have htext := hspelling hw
    cases k <;> first | rfl | exact absurd htext (by decide)
  | _ => cases hw

theorem keyword_eq_of_leadingWord (h : a.Delimited) (h' : a'.Delimited) (hw : leadingWord a = some w)
    (hw' : leadingWord a' = some w) : keyword? a = keyword? a' := by
  have hwords : leadingWord a = leadingWord a' := hw.trans hw'.symm
  ext k
  constructor
  · exact fun hk => h'.keyword_of_leadingWord (hwords ▸ leadingWord_of_keyword hk)
  · exact fun hk => h.keyword_of_leadingWord (hwords ▸ leadingWord_of_keyword hk)

theorem exists_rest (hw : leadingWord a = some w) (hu : EndsName u) :
    ∃ rest, a.text ++ u = w ++ rest ∧ EndsName rest := by
  have hparen (v : List Char) : EndsName ('(' :: v) := .inl (endsWord_cons (by decide) v)
  cases a with
  | ident | bool =>
    obtain rfl := Option.some.inj hw
    exact ⟨u, rfl, hu⟩
  | fn ps b =>
    obtain rfl := Option.some.inj hw
    rw [text_fn, List.append_assoc]
    exact ⟨_, rfl, hparen _⟩
  | macroFn ps b =>
    obtain rfl := Option.some.inj hw
    rw [text_macroFn, List.append_assoc]
    exact ⟨_, rfl, hparen _⟩
  | _ => cases hw

theorem IsAtom.word_cases (h : IsAtom a) (hword : a.opening = .word) :
    (∃ w, leadingWord a = some w) ∨ ∃ test yes no, a = cond test yes no := by
  cases a with
  | ident | bool | fn | macroFn => exact .inl ⟨_, rfl⟩
  | cond => exact .inr ⟨_, _, _, rfl⟩
  | str => exact absurd h.1.self.1 id
  | call => exact absurd rfl (h.2 _ _)
  | _ => cases hword

theorem text_cond_append (test : Expr) (yes : Block) (no : Option Block) (u : List Char) :
    ∃ v, (cond test yes no).text ++ u = 'i' :: 'f' :: v := by
  cases no with
  | none => exact ⟨_, by rw [text_cond]; rfl⟩
  | some no => exact ⟨_, by rw [text_alternative]; rfl⟩

theorem PlainWord.append_ne_if (h : PlainWord w) (hu : EndsName u) : w ++ u ≠ 'i' :: 'f' :: v := by
  intro heq
  rcases w with _ | ⟨c, _ | ⟨d, w⟩⟩
  · exact h.ne_nil rfl
  · obtain ⟨-, rfl⟩ := List.cons.inj heq
    rcases hu with hends | ⟨v', hv'⟩
    · exact absurd rfl (hends 'f' rfl)
    · simp at hv'
  · simp only [List.cons_append, List.cons.injEq] at heq
    obtain ⟨rfl, rfl, -⟩ := heq
    exact h.not_if (List.prefix_append _ _)

-- No expression begins with a word that begins a statement or an alternative.
theorem Delimited.append_ne_keyword (h : e.Delimited) (hu : Follows e u) {k : Keyword}
    (hk : (k = .letWord ∨ k = .returnWord) ∨ k = .elseWord) :
    e.text ++ u ≠ k.spelling.toList ++ ' ' :: v := by
  intro heq
  obtain ⟨a, argss, hcalled⟩ := h.exists_called
  rw [hcalled.text_eq, List.append_assoc] at heq
  have hends := hcalled.endsName hu
  have hword : a.opening = .word := by
    rcases hk with (rfl | rfl) | rfl <;> exact hcalled.atom.opening_eq rfl heq
  rcases hcalled.atom.word_cases hword with ⟨w, hw⟩ | ⟨test, yes, no, rfl⟩
  · obtain ⟨rest, hrest, hendsRest⟩ := exists_rest hw hends
    have hplain := hcalled.atom.1.plainWord hw
    have hends' : EndsName (' ' :: v) := .inl (endsWord_cons (by decide) v)
    rcases Phrase.word_cases hplain.part (isWord_spelling k).2 hendsRest hends'
      (hrest.symm.trans heq) with ⟨hwk, -⟩ | hwk | hwk
    · rcases hk with hk | rfl
      · exact keyword?_ne hk (hcalled.atom.1.keyword_of_leadingWord (hwk ▸ hw))
      · exact hplain.not_else (hwk ▸ List.suffix_rfl)
    · have hsuffix : "else".toList <:+ k.spelling.toList := hwk ▸ List.suffix_append _ _
      rcases hk with (rfl | rfl) | rfl
      · exact absurd hsuffix (by decide)
      · exact absurd hsuffix (by decide)
      · exact hplain.ne_nil (List.self_eq_append_left.1 hwk)
    · exact hplain.not_else (hwk ▸ List.suffix_append _ _)
  · obtain ⟨v', hv'⟩ := text_cond_append test yes no (chainText argss ++ u)
    rw [hv'] at heq
    rcases hk with (rfl | rfl) | rfl <;> simp [Keyword.spelling] at heq

end

/-! ## 4. Numerals, operations and blocks -/

theorem int_inj {n n' : Int64} {u u' : List Char} (hu : EndsName u) (hu' : EndsName u')
    (heq : (int n).text ++ u = (int n').text ++ u') : n = n' ∧ u = u' := by
  have habs (h : Nat.toDigits 10 n.toInt.natAbs ++ u = Nat.toDigits 10 n'.toInt.natAbs ++ u') :=
    digits_inj hu.not_isDigit hu'.not_isDigit h
  by_cases hn : n.toInt < 0 <;> by_cases hn' : n'.toInt < 0
  · rw [text_int_of_neg hn, text_int_of_neg hn'] at heq
    obtain ⟨hnn', rfl⟩ := habs (List.cons.inj heq).2
    exact ⟨Int64.toInt_inj.1 (by omega), rfl⟩
  · rw [text_int_of_neg hn, text_int_of_nonneg (by omega)] at heq
    exact absurd heq.symm (digits_append_ne _ _ _)
  · rw [text_int_of_nonneg (by omega), text_int_of_neg hn'] at heq
    exact absurd heq (digits_append_ne _ _ _)
  · rw [text_int_of_nonneg (by omega), text_int_of_nonneg (by omega)] at heq
    obtain ⟨hnn', rfl⟩ := habs heq
    exact ⟨Int64.toInt_inj.1 (by omega), rfl⟩

theorem unary_spelling_inj {op op' : UnaryOp} {u u' : List Char}
    (heq : op.spelling.toList ++ u = op'.spelling.toList ++ u') : op = op' ∧ u = u' := by
  cases op <;> cases op' <;> simp_all [UnaryOp.spelling]

theorem binary_spelling_inj {op op' : BinaryOp} {u u' : List Char}
    (heq : op.spelling.toList ++ ' ' :: u = op'.spelling.toList ++ ' ' :: u') :
    op = op' ∧ u = u' := by
  cases op <;> cases op' <;> simp_all [BinaryOp.spelling]

/-- The expression `e` is an operation whose text is `l` and then `rest` behind a parenthesis. -/
inductive Operates : Expr → Expr → List Char → Prop
  | binary {op l r} :
      Operates (binary op l r) l (' ' :: (op.spelling.toList ++ ' ' :: (r.text ++ [')'])))
  | index {l i} : Operates (index l i) l ('[' :: (i.text ++ [']', ')']))

theorem Operates.text_eq {e l : Expr} {rest : List Char} (he : Operates e l rest) :
    e.text = '(' :: (l.text ++ rest) := by
  cases he with
  | binary => exact text_binary _ _ _
  | index => exact text_index _ _

theorem Operates.follows {e l : Expr} {rest : List Char} (ho : Operates e l rest) (he : e.Delimited)
    (u : List Char) : l.Delimited ∧ Follows l (rest ++ u) ∧ (rest ++ u).head? ≠ some ')' := by
  cases ho with
  | binary => exact ⟨he.child .left, .mark (by decide), by simp⟩
  | index => exact ⟨he.child .indexed, .bracket he.self.2, by simp⟩

theorem paren_cases {a : Expr} (ha : a.opening = .paren) :
    (∃ op e, a = unary op e) ∨ ∃ l rest, Operates a l rest := by
  cases a with
  | unary op e => exact .inl ⟨op, e, rfl⟩
  | binary => exact .inr ⟨_, _, .binary⟩
  | index => exact .inr ⟨_, _, .index⟩
  | _ => cases ha

/-- A block whose parts do not run together. -/
inductive BlockDelimited : Block → Prop
  | nil : BlockDelimited []
  | last {e} : e.Delimited → BlockDelimited [.expr e]
  | bind {x e b} : IsName x → e.Delimited → BlockDelimited b → BlockDelimited (.bind x e :: b)
  | ret {e b} : e.Delimited → BlockDelimited b → BlockDelimited (.ret e :: b)

theorem blockDelimited_of {b : Block} (h : ValueLast b) (hnames : BindsNames b)
    (hvalues : ∀ s ∈ b, s.value.Delimited) : BlockDelimited b := by
  induction h with
  | nil => exact .nil
  | last e => exact .last (hvalues _ List.mem_cons_self)
  | bind _ ih =>
    exact .bind (hnames _ _ List.mem_cons_self) (hvalues _ List.mem_cons_self)
      (ih (fun x e hs => hnames x e (List.mem_cons_of_mem _ hs))
        fun s hs => hvalues s (List.mem_cons_of_mem _ hs))
  | ret _ ih =>
    exact .ret (hvalues _ List.mem_cons_self)
      (ih (fun x e hs => hnames x e (List.mem_cons_of_mem _ hs))
        fun s hs => hvalues s (List.mem_cons_of_mem _ hs))

-- What stands behind a block is not taken for a statement of it.
theorem BlockDelimited.append_ne {b : Block} {u v : List Char} {w : Prop} (h : BlockDelimited b)
    (hne : b ≠ []) (hu : FollowsBlock b u) (hv : After False w v) : blockText b ++ u ≠ v := by
  intro heq
  cases h with
  | nil => exact hne rfl
  | @last e he =>
    rw [blockText_last] at heq
    cases hv with
    | nil =>
      obtain ⟨c, cs, htext, -⟩ := he.opens
      rw [htext] at heq
      cases heq
    | mark hc => exact he.head?_ne (of?_eq_none_of_mem_marks hc) u (by rw [heq]; rfl)
    | bracket hfalse => exact hfalse
    | otherwise => exact he.append_ne_keyword (k := .elseWord) hu.last (.inr rfl) heq
  | bind | ret =>
    simp only [blockText_bind, blockText_ret] at heq
    cases hv with
    | nil => simp at heq
    | mark hc =>
      obtain ⟨rfl, -⟩ := List.cons.inj heq
      exact absurd hc (by decide)
    | bracket hfalse => exact hfalse
    | otherwise => simp at heq

/-- The expression is a function or a macro, which the word `w` begins. -/
inductive Takes : Expr → List Char → List String → Block → Prop
  | fn {ps b} : Takes (fn ps b) "fn".toList ps b
  | macroFn {ps b} : Takes (macroFn ps b) "macro".toList ps b

section

variable {a : Expr} {w u : List Char} {ps : List String} {b : Block}

theorem Takes.text_eq (h : Takes a w ps b) :
    a.text = w ++ '(' :: (listed String.toList ps ++ ')' :: ' ' :: blockText b) := by
  cases h with
  | fn => exact text_fn ps b
  | macroFn => exact text_macroFn ps b

theorem Takes.isOpen (h : Takes a w ps b) : a.IsOpen := by
  cases h <;> trivial

theorem Takes.delimited (h : Takes a w ps b) (ha : a.Delimited) :
    (∀ p ∈ ps, IsName p) ∧ BlockDelimited b := by
  cases h with
  | fn =>
    obtain ⟨⟨hps, hbinds⟩, hlast⟩ := ha.self
    exact ⟨hps, blockDelimited_of hlast hbinds fun s hs => ha.child (.fnBody hs)⟩
  | macroFn =>
    obtain ⟨⟨hps, hbinds⟩, hlast⟩ := ha.self
    exact ⟨hps, blockDelimited_of hlast hbinds fun s hs => ha.child (.macroBody hs)⟩

-- What stands behind a function stands behind its body.
theorem Takes.follows (h : Takes a w ps b) (hu : Follows a u) : FollowsBlock b u := by
  refine hu.imp (fun hclosed => hclosed h.isOpen) ?_
  rintro ⟨e, he, hwants⟩
  cases h with
  | fn => exact .fn he hwants
  | macroFn => exact .macroFn he hwants

end

-- The blocks of a branch, and what may stand behind them.
theorem Delimited.yes_only {test : Expr} {yes : Block} {u : List Char}
    (ha : (cond test yes none).Delimited) (hu : Follows (cond test yes none) u) :
    BlockDelimited yes ∧ FollowsBlock yes u := by
  obtain ⟨⟨hbinds, -⟩, hlast⟩ := ha.self
  exact ⟨blockDelimited_of hlast hbinds fun s hs => ha.child (.yes hs), follows_cond hu⟩

theorem Delimited.yes_and_no {test : Expr} {yes no : Block} (u : List Char)
    (ha : (cond test yes (some no)).Delimited) :
    (BlockDelimited yes ∧ FollowsBlock yes ("else ".toList ++ u)) ∧ BlockDelimited no := by
  obtain ⟨⟨hbinds, hbindsNo⟩, hlast, hlastNo, hwants⟩ := ha.self
  exact ⟨⟨blockDelimited_of hlast hbinds fun s hs => ha.child (.yes hs), .otherwise hwants⟩,
    blockDelimited_of hlastNo (hbindsNo _ rfl) fun s hs => ha.child (.no hs)⟩

end Expr

end Monkey
