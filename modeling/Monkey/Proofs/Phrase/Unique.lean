import Monkey.Proofs.Phrase.Boundary

/-!
# Unique reading — no two delimited expressions have one text

A text begins with at most one delimited expression, if only what may stand behind it does.  The
induction is on the length of the text: the parts of an expression are read one after the other, each
of them from a text that is shorter than the whole.
-/

namespace Monkey

open Phrase Lexer

namespace Expr

/-! ## 1. Lists, calls and blocks -/

section

variable {N : Nat} (h : ToldApart N Delimited Follows text)

include h

theorem toldApart_args {c : Char} (hc : c ∈ marks) (hcomma : c ≠ ',') :
    ToldApart N (∀ e ∈ ·, e.Delimited) (fun _ u => u.head? = some c) (listed text) :=
  h.listed (fun _ _ _ => after_mark hc) hcomma fun _ u he =>
    he.head?_ne (of?_eq_none_of_mem_marks hc) u

theorem toldApart_pairs : ToldApart N (fun p => p.1.Delimited ∧ p.2.Delimited)
    (fun _ u => u.head? = some ',' ∨ u.head? = some '\x7d') pairText := by
  rintro ⟨k, v⟩ ⟨k', v'⟩ u u' ⟨hk, hv⟩ ⟨hk', hv'⟩ hu hu' hN heq
  simp only [pairText, List.append_assoc, List.cons_append] at heq hN
  obtain ⟨rfl, hrest⟩ := h hk hk' (.mark (by decide)) (.mark (by decide)) hN heq
  simp only [List.length_append, List.length_cons] at hN
  obtain ⟨rfl, huu'⟩ := h hv hv' (after_mark (by decide) hu) (after_mark (by decide) hu')
    (by simp only [List.length_append]; omega) (List.cons.inj hrest).2
  exact ⟨rfl, huu'⟩

theorem toldApart_entries : ToldApart N (∀ p ∈ ·, p.1.Delimited ∧ p.2.Delimited)
    (fun _ u => u.head? = some '\x7d') (listed pairText) := by
  refine (toldApart_pairs h).listed (fun _ _ _ hu => hu) (by decide) ?_
  intro p u hp
  rw [pairText, List.append_assoc]
  exact hp.1.head?_ne rfl _

theorem toldApart_chains : ToldApart N (∀ args ∈ ·, ∀ d ∈ args, d.Delimited)
    (fun _ u => u.head? ≠ some '(') chainText := by
  intro argss argss' u u' hargss hargss' hu hu' hN heq
  induction argss generalizing argss' with
  | nil =>
    cases argss' with
    | nil => exact ⟨rfl, heq⟩
    | cons args' argss' =>
      obtain rfl : u = _ := heq
      exact absurd rfl hu
  | cons args argss ih =>
    cases argss' with
    | nil =>
      obtain rfl : _ = u' := heq
      exact absurd rfl hu'
    | cons args' argss' =>
      rw [List.forall_mem_cons] at hargss hargss'
      simp only [chainText, List.flatMap_cons, List.cons_append, List.append_assoc,
        List.nil_append, List.cons.injEq, true_and, List.length_cons] at heq hN
      obtain ⟨rfl, hrest⟩ := toldApart_args h (c := ')') (by decide) (by decide) hargss.1
        hargss'.1 rfl rfl (by omega) heq
      simp only [List.length_append, List.length_cons] at hN
      obtain ⟨rfl, huu'⟩ := ih hargss.2 hargss'.2
        (by rw [List.length_append, chainText]; omega) (List.cons.inj hrest).2
      exact ⟨rfl, huu'⟩

theorem toldApart_blocks : ToldApart N BlockDelimited FollowsBlock blockText := by
  intro b b' u u' hb hb' hu hu' hN heq
  have hspace (v : List Char) : EndsWord (' ' :: v) := endsWord_cons (by decide) v
  induction hb generalizing b' with
  | nil =>
    by_cases hne : b' = []
    · subst hne
      exact ⟨rfl, heq⟩
    · exact absurd heq.symm (hb'.append_ne hne hu' hu)
  | @last e he =>
    cases hb' with
    | nil => exact absurd heq ((BlockDelimited.last he).append_ne (List.cons_ne_nil _ _) hu hu')
    | last he' =>
      rw [blockText_last, blockText_last] at heq
      rw [blockText_last] at hN
      obtain ⟨rfl, huu'⟩ := h he he' hu.last hu'.last hN heq
      exact ⟨rfl, huu'⟩
    | bind =>
      rw [blockText_last, blockText_bind, List.append_assoc] at heq
      exact absurd heq (he.append_ne_keyword (k := .letWord) hu.last (.inl (.inl rfl)))
    | ret =>
      rw [blockText_last, blockText_ret, List.append_assoc] at heq
      exact absurd heq (he.append_ne_keyword (k := .returnWord) hu.last (.inl (.inr rfl)))
  | @bind x e b hx he hb ih =>
    cases hb' with
    | nil =>
      exact absurd heq ((BlockDelimited.bind hx he hb).append_ne (List.cons_ne_nil _ _) hu hu')
    | last he' =>
      rw [blockText_last, blockText_bind, List.append_assoc] at heq
      exact absurd heq.symm (he'.append_ne_keyword (k := .letWord) hu'.last (.inl (.inl rfl)))
    | ret => simp [blockText_bind, blockText_ret] at heq
    | bind hx' he' hb' =>
      simp only [blockText_bind, List.append_assoc, List.cons_append, List.append_cancel_left_eq,
        List.cons.injEq, true_and, List.length_append, List.length_cons] at heq hN
      obtain ⟨rfl, hvalue⟩ := toldApart_names N hx hx' (hspace _) (hspace _)
        (by simp only [List.length_append, List.length_cons]; omega) heq
      simp only [List.cons.injEq, true_and] at hvalue
      obtain ⟨rfl, hrest⟩ := h he he' (.mark (by decide)) (.mark (by decide))
        (by simp only [List.length_append, List.length_cons]; omega) hvalue
      obtain ⟨rfl, huu'⟩ := ih hb' hu.tail hu'.tail (by rw [List.length_append]; omega)
        (List.cons.inj hrest).2
      exact ⟨rfl, huu'⟩
  | @ret e b he hb ih =>
    cases hb' with
    | nil => exact absurd heq ((BlockDelimited.ret he hb).append_ne (List.cons_ne_nil _ _) hu hu')
    | last he' =>
      rw [blockText_last, blockText_ret, List.append_assoc] at heq
      exact absurd heq.symm (he'.append_ne_keyword (k := .returnWord) hu'.last (.inl (.inr rfl)))
    | bind => simp [blockText_bind, blockText_ret] at heq
    | ret he' hb' =>
      simp only [blockText_ret, List.append_assoc, List.cons_append, List.append_cancel_left_eq,
        List.cons.injEq, true_and, List.length_append, List.length_cons] at heq hN
      obtain ⟨rfl, hrest⟩ := h he he' (.mark (by decide)) (.mark (by decide))
        (by simp only [List.length_append, List.length_cons]; omega) heq
      obtain ⟨rfl, huu'⟩ := ih hb' hu.tail hu'.tail (by rw [List.length_append]; omega)
        (List.cons.inj hrest).2
      exact ⟨rfl, huu'⟩

/-! ## 2. Operations -/

/-- A number is not negated: the sign in front of a row of digits belongs to a negative literal, and
an operand behind a sign ends in front of a bracket. -/
theorem unary_ne_operand {op : UnaryOp} {e l : Expr} {u v : List Char} (he : e.Delimited)
    (hl : l.Delimited) (hv : Follows l v) (hhead : v.head? ≠ some ')')
    (hN : (l.text ++ v).length < N) : op.spelling.toList ++ (e.text ++ ')' :: u) ≠ l.text ++ v := by
  intro heq
  cases op with
  | not => exact hl.head?_ne (c := '!') rfl v (by rw [← heq]; rfl)
  | neg =>
    obtain ⟨a, argss, hcalled⟩ := hl.exists_called
    obtain ⟨a', argss', hcalled'⟩ := he.exists_called
    have hends := hcalled.endsName hv
    have hends' := hcalled'.endsName (u := ')' :: u) (.mark (by decide))
    have hsign : '-' :: (e.text ++ ')' :: u) = l.text ++ v := heq
    rw [hcalled.text_eq, List.append_assoc] at hsign hN
    rw [hcalled'.text_eq, List.append_assoc] at hsign
    -- The operand on the right begins with a negative literal, and that on the left with a number.
    obtain ⟨n, rfl⟩ := exists_int_of_opening (hcalled.atom.opening_eq rfl hsign.symm)
    by_cases hn : n.toInt < 0
    · rw [text_int_of_neg hn] at hsign hN
      have hdigits := (List.cons.inj hsign).2
      obtain ⟨c, cs, hcs, hdigit⟩ := exists_digit n.toInt.natAbs
      have hopening : a'.opening = .numeral :=
        hcalled'.atom.opening_eq (Opening.of?_of_isDigit hdigit) (hdigits.trans (by rw [hcs]; rfl))
      obtain ⟨m, rfl⟩ := exists_int_of_opening hopening
      by_cases hm : m.toInt < 0
      · rw [text_int_of_neg hm] at hdigits
        exact digits_append_ne _ _ _ hdigits.symm
      · rw [text_int_of_nonneg (by omega)] at hdigits
        have hchains := (digits_inj hends'.not_isDigit hends.not_isDigit hdigits).2.symm
        simp only [List.length_append, List.cons_append, List.length_cons] at hN
        have hbehind := (toldApart_chains h hcalled.args hcalled'.args hv.head?_ne (by simp)
          (by rw [List.length_append]; omega) hchains).2
        exact hhead (by rw [hbehind]; rfl)
    · rw [text_int_of_nonneg (by omega)] at hsign
      exact digits_append_ne _ _ _ hsign.symm

theorem operation_inj {a a' l l' : Expr} {rest rest' u u' : List Char} (ho : Operates a l rest)
    (ho' : Operates a' l' rest') (ha : a.Delimited) (ha' : a'.Delimited)
    (hN : (l.text ++ (rest ++ u)).length < N)
    (heq : l.text ++ (rest ++ u) = l'.text ++ (rest' ++ u')) : a = a' ∧ u = u' := by
  obtain ⟨hl, hrest, -⟩ := ho.follows ha u
  obtain ⟨hl', hrest', -⟩ := ho'.follows ha' u'
  obtain ⟨rfl, hbehind⟩ := h hl hl' hrest hrest' hN heq
  cases ho with
  | @binary op _ r =>
    cases ho' with
    | @binary op' _ r' =>
      simp only [List.cons_append, List.append_assoc, List.nil_append, List.cons.injEq, true_and,
        List.length_append, List.length_cons] at hbehind hN
      obtain ⟨rfl, hright⟩ := binary_spelling_inj hbehind
      obtain ⟨rfl, huu'⟩ := h (ha.child .right) (ha'.child .right) (.mark (by decide))
        (.mark (by decide)) (by simp only [List.length_append, List.length_cons]; omega) hright
      exact ⟨rfl, (List.cons.inj huu').2⟩
    | index => simp at hbehind
  | @index _ i =>
    cases ho' with
    | binary => simp at hbehind
    | @index _ i' =>
      simp only [List.cons_append, List.append_assoc, List.nil_append, List.cons.injEq, true_and,
        List.length_append, List.length_cons] at hbehind hN
      obtain ⟨rfl, huu'⟩ := h (ha.child .idx) (ha'.child .idx) (.mark (by decide))
        (.mark (by decide)) (by simp only [List.length_append, List.length_cons]; omega) hbehind
      simp only [List.cons.injEq, true_and] at huu'
      exact ⟨rfl, huu'⟩

theorem paren_inj {a a' : Expr} {u u' : List Char} (ha : a.Delimited) (ha' : a'.Delimited)
    (hopens : a.opening = .paren) (hopens' : a'.opening = .paren)
    (hN : (a.text ++ u).length < N + 1) (heq : a.text ++ u = a'.text ++ u') : a = a' ∧ u = u' := by
  rcases paren_cases hopens with ⟨op, e, rfl⟩ | ⟨l, rest, ho⟩ <;>
    rcases paren_cases hopens' with ⟨op', e', rfl⟩ | ⟨l', rest', ho'⟩
  · simp only [text_unary, List.cons_append, List.append_assoc, List.nil_append, List.cons.injEq,
      true_and, List.length_cons, List.length_append] at heq hN
    obtain ⟨rfl, hoperand⟩ := unary_spelling_inj heq
    obtain ⟨rfl, huu'⟩ := h (ha.child .operand) (ha'.child .operand) (.mark (by decide))
      (.mark (by decide)) (by simp only [List.length_append, List.length_cons]; omega) hoperand
    exact ⟨rfl, (List.cons.inj huu').2⟩
  · rw [heq] at hN
    simp only [text_unary, ho'.text_eq, List.cons_append, List.append_assoc, List.nil_append,
      List.cons.injEq, true_and, List.length_cons] at heq hN
    obtain ⟨hl, hrest, hhead⟩ := ho'.follows ha' u'
    exact absurd heq (unary_ne_operand h (ha.child .operand) hl hrest hhead (by omega))
  · simp only [text_unary, ho.text_eq, List.cons_append, List.append_assoc, List.nil_append,
      List.cons.injEq, true_and, List.length_cons] at heq hN
    obtain ⟨hl, hrest, hhead⟩ := ho.follows ha u
    exact absurd heq.symm (unary_ne_operand h (ha'.child .operand) hl hrest hhead (by omega))
  · simp only [ho.text_eq, ho'.text_eq, List.cons_append, List.append_assoc, List.cons.injEq,
      true_and, List.length_cons] at heq hN
    exact operation_inj h ho ho' ha ha' (by omega) heq

/-! ## 3. Functions and branches -/

theorem takes_inj {a a' : Expr} {w u u' : List Char} {ps ps' : List String} {b b' : Block}
    (ht : Takes a w ps b) (ht' : Takes a' w ps' b') (ha : a.Delimited) (ha' : a'.Delimited)
    (hu : Follows a u) (hu' : Follows a' u') (hN : (a.text ++ u).length < N + 1)
    (heq : a.text ++ u = a'.text ++ u') : a = a' ∧ u = u' := by
  have hnames : ToldApart N (∀ p ∈ ·, IsName p) (fun _ u => u.head? = some ')')
      (listed String.toList) := by
    refine (toldApart_names N).listed ?_ (by decide) ?_
    · rintro x u - (hhead | hhead) d hd <;> obtain rfl := Option.some.inj (hhead.symm.trans hd) <;>
        decide
    · intro x u hx hhead
      obtain ⟨⟨c, hc, hstart⟩, -⟩ := hx.1
      rw [List.head?_append, hc] at hhead
      obtain rfl := Option.some.inj hhead
      exact absurd hstart (by decide)
  obtain ⟨hps, hb⟩ := ht.delimited ha
  obtain ⟨hps', hb'⟩ := ht'.delimited ha'
  simp only [ht.text_eq, ht'.text_eq, List.append_assoc, List.cons_append,
    List.append_cancel_left_eq, List.cons.injEq, true_and, List.length_append,
    List.length_cons] at heq hN
  obtain ⟨rfl, hbody⟩ := hnames hps hps' rfl rfl
    (by simp only [List.length_append, List.length_cons]; omega) heq
  simp only [List.cons.injEq, true_and] at hbody
  obtain ⟨rfl, huu'⟩ := toldApart_blocks h hb hb' (ht.follows hu) (ht'.follows hu')
    (by rw [List.length_append]; omega) hbody
  refine ⟨?_, huu'⟩
  cases ht <;> cases ht' <;> rfl

theorem word_atom_inj {a a' : Expr} {w w' u u' : List Char} (ha : a.Delimited) (ha' : a'.Delimited)
    (hw : leadingWord a = some w) (hw' : leadingWord a' = some w')
    (hu : EndsName u) (hu' : EndsName u') (hopen : a.IsOpen → Follows a u)
    (hopen' : a'.IsOpen → Follows a' u') (hN : (a.text ++ u).length < N + 1)
    (heq : a.text ++ u = a'.text ++ u') : a = a' ∧ u = u' := by
  have hplain := ha.plainWord hw
  have hplain' := ha'.plainWord hw'
  obtain ⟨rest, hrest, hends⟩ := exists_rest hw hu
  obtain ⟨rest', hrest', hends'⟩ := exists_rest hw' hu'
  obtain ⟨rfl, -⟩ := word_inj hplain.part hplain'.part hplain.not_else hplain'.not_else hends hends'
    (hrest.symm.trans (heq.trans hrest'))
  have hkeyword := keyword_eq_of_leadingWord ha ha' hw hw'
  cases a with
  | ident x =>
    cases a' with
    | ident x' =>
      obtain rfl : x = x' := String.toList_injective (Option.some.inj (hw.trans hw'.symm))
      exact ⟨rfl, List.append_cancel_left heq⟩
    | bool b => cases b <;> cases hkeyword
    | fn | macroFn => cases hkeyword
    | _ => cases hw'
  | bool b =>
    cases a' with
    | bool b' =>
      have hbb' : b = b' := by cases b <;> cases b' <;> first | rfl | cases hkeyword
      subst hbb'
      exact ⟨rfl, List.append_cancel_left heq⟩
    | ident | fn | macroFn => cases b <;> cases hkeyword
    | _ => cases hw'
  | fn ps b =>
    cases a' with
    | fn => exact takes_inj h .fn .fn ha ha' (hopen trivial) (hopen' trivial) hN heq
    | bool b' => cases b' <;> cases hkeyword
    | ident | macroFn => cases hkeyword
    | _ => cases hw'
  | macroFn ps b =>
    cases a' with
    | macroFn => exact takes_inj h .macroFn .macroFn ha ha' (hopen trivial) (hopen' trivial) hN heq
    | bool b' => cases b' <;> cases hkeyword
    | ident | fn => cases hkeyword
    | _ => cases hw'
  | _ => cases hw

/-- The test and the first branch, and what follows them: the end, or an `else`. -/
theorem branch_inj {test test' : Expr} {yes yes' : Block} {v v' : List Char} (ht : test.Delimited)
    (ht' : test'.Delimited) (hyes : BlockDelimited yes ∧ FollowsBlock yes v)
    (hyes' : BlockDelimited yes' ∧ FollowsBlock yes' v')
    (hN : (test.text ++ ' ' :: (blockText yes ++ v)).length < N)
    (heq : test.text ++ ' ' :: (blockText yes ++ v) =
      test'.text ++ ' ' :: (blockText yes' ++ v')) : test = test' ∧ yes = yes' ∧ v = v' := by
  obtain ⟨rfl, hblocks⟩ := h ht ht' (.mark (by decide)) (.mark (by decide)) hN heq
  simp only [List.length_append, List.length_cons] at hN
  obtain ⟨rfl, hvv'⟩ := toldApart_blocks h hyes.1 hyes'.1 hyes.2 hyes'.2
    (by rw [List.length_append]; omega) (List.cons.inj hblocks).2
  exact ⟨rfl, rfl, hvv'⟩

theorem cond_inj {test test' : Expr} {yes yes' : Block} {no no' : Option Block} {u u' : List Char}
    (ha : (cond test yes no).Delimited) (ha' : (cond test' yes' no').Delimited)
    (hu : Follows (cond test yes no) u) (hu' : Follows (cond test' yes' no') u')
    (hN : ((cond test yes no).text ++ u).length < N + 1)
    (heq : (cond test yes no).text ++ u = (cond test' yes' no').text ++ u') :
    cond test yes no = cond test' yes' no' ∧ u = u' := by
  have ht := ha.child .test
  have ht' := ha'.child .test
  cases no with
  | none =>
    cases no' with
    | none =>
      simp only [text_cond, List.cons_append, List.append_assoc, List.cons.injEq, true_and,
        List.length_cons] at heq hN
      obtain ⟨rfl, rfl, huu'⟩ := branch_inj h ht ht' (ha.yes_only hu) (ha'.yes_only hu')
        (by omega) heq
      exact ⟨rfl, huu'⟩
    | some no' =>
      simp only [text_cond, text_alternative, List.cons_append, List.append_assoc, List.cons.injEq,
        true_and, List.length_cons] at heq hN
      obtain ⟨-, -, rfl⟩ := branch_inj h ht ht' (ha.yes_only hu) (ha'.yes_and_no _).1 (by omega) heq
      exact absurd hu not_follows_otherwise
  | some no =>
    cases no' with
    | none =>
      simp only [text_cond, text_alternative, List.cons_append, List.append_assoc, List.cons.injEq,
        true_and, List.length_cons] at heq hN
      obtain ⟨-, -, rfl⟩ := branch_inj h ht ht' (ha.yes_and_no _).1 (ha'.yes_only hu') (by omega) heq
      exact absurd hu' not_follows_otherwise
    | some no' =>
      simp only [text_alternative, List.cons_append, List.append_assoc, List.cons.injEq, true_and,
        List.length_cons] at heq hN
      obtain ⟨rfl, rfl, hrest⟩ := branch_inj h ht ht' (ha.yes_and_no _).1 (ha'.yes_and_no _).1
        (by omega) heq
      simp only [List.length_append, List.length_cons] at hN
      obtain ⟨rfl, huu'⟩ := toldApart_blocks h (ha.yes_and_no u).2 (ha'.yes_and_no u').2
        (follows_alternative hu) (follows_alternative hu') (by rw [List.length_append]; omega)
        (List.append_cancel_left hrest)
      exact ⟨rfl, huu'⟩

theorem toldApart_atoms :
    ToldApart (N + 1) IsAtom (fun a u => EndsName u ∧ (a.IsOpen → Follows a u)) text := by
  rintro a a' u u' ha ha' ⟨hends, hopen⟩ ⟨hends', hopen'⟩ hN heq
  have hopening : a.opening = a'.opening := by
    obtain ⟨c, cs, htext, hopens⟩ := ha'.opens
    rw [htext] at heq
    exact ha.opening_eq hopens heq
  cases ho : a.opening with
  | numeral =>
    obtain ⟨n, rfl⟩ := exists_int_of_opening ho
    obtain ⟨n', rfl⟩ := exists_int_of_opening (hopening.symm.trans ho)
    obtain ⟨rfl, huu'⟩ := int_inj hends hends' heq
    exact ⟨rfl, huu'⟩
  | bracket =>
    obtain ⟨es, rfl⟩ := exists_array_of_opening ho
    obtain ⟨es', rfl⟩ := exists_array_of_opening (hopening.symm.trans ho)
    simp only [text_array, List.cons_append, List.append_assoc, List.nil_append, List.cons.injEq,
      true_and, List.length_cons] at heq hN
    obtain ⟨rfl, huu'⟩ := toldApart_args h (c := ']') (by decide) (by decide)
      (fun e he => ha.1.child (.elem he)) (fun e he => ha'.1.child (.elem he)) rfl rfl
      (by omega) heq
    exact ⟨rfl, (List.cons.inj huu').2⟩
  | brace =>
    obtain ⟨ps, rfl⟩ := exists_hash_of_opening ho
    obtain ⟨ps', rfl⟩ := exists_hash_of_opening (hopening.symm.trans ho)
    simp only [text_hash, List.cons_append, List.append_assoc, List.nil_append, List.cons.injEq,
      true_and, List.length_cons] at heq hN
    obtain ⟨rfl, huu'⟩ := toldApart_entries h
      (fun p hp => ⟨ha.1.child (.key hp), ha.1.child (.entry hp)⟩)
      (fun p hp => ⟨ha'.1.child (.key hp), ha'.1.child (.entry hp)⟩) rfl rfl (by omega) heq
    exact ⟨rfl, (List.cons.inj huu').2⟩
  | paren => exact paren_inj h ha.1 ha'.1 ho (hopening.symm.trans ho) hN heq
  | word =>
    rcases ha.word_cases ho with ⟨w, hw⟩ | ⟨test, yes, no, rfl⟩ <;>
      rcases ha'.word_cases (hopening.symm.trans ho) with ⟨w', hw'⟩ | ⟨test', yes', no', rfl⟩
    · exact word_atom_inj h ha.1 ha'.1 hw hw' hends hends' hopen hopen' hN heq
    · obtain ⟨v, hv⟩ := text_cond_append test' yes' no' u'
      obtain ⟨rest, hrest, hendsRest⟩ := exists_rest hw hends
      exact absurd (hrest.symm.trans (heq.trans hv)) ((ha.1.plainWord hw).append_ne_if hendsRest)
    · obtain ⟨v, hv⟩ := text_cond_append test yes no u
      obtain ⟨rest, hrest, hendsRest⟩ := exists_rest hw' hends'
      exact absurd (hrest.symm.trans (heq.symm.trans hv))
        ((ha'.1.plainWord hw').append_ne_if hendsRest)
    · exact cond_inj h ha.1 ha'.1 (hopen trivial) (hopen' trivial) hN heq

/-! ## 4. Expressions -/

-- An atom is read first, then the calls of it.
theorem toldApart_succ : ToldApart (N + 1) Delimited Follows text := by
  intro e e' u u' he he' hu hu' hN heq
  obtain ⟨a, argss, hcalled⟩ := he.exists_called
  obtain ⟨a', argss', hcalled'⟩ := he'.exists_called
  rw [hcalled.text_eq, hcalled'.text_eq, List.append_assoc, List.append_assoc] at heq
  rw [hcalled.text_eq, List.append_assoc] at hN
  have hatoms := toldApart_atoms h hcalled.atom hcalled'.atom
    ⟨hcalled.endsName hu, hcalled.follows hu⟩ ⟨hcalled'.endsName hu', hcalled'.follows hu'⟩ hN heq
  obtain ⟨rfl, hchains⟩ := hatoms
  obtain ⟨c, cs, htext, -⟩ := hcalled.atom.opens
  rw [htext, List.cons_append, List.length_cons, List.length_append] at hN
  obtain ⟨rfl, huu'⟩ := toldApart_chains h hcalled.args hcalled'.args hu.head?_ne hu'.head?_ne
    (by omega) hchains
  exact ⟨hcalled.eq_applied.trans hcalled'.eq_applied.symm, huu'⟩

end

/-- A text begins with at most one delimited expression, if only what follows may stand behind it. -/
theorem toldApart_exprs (N : Nat) : ToldApart N Delimited Follows text := by
  induction N with
  | zero => exact fun _ _ _ _ _ _ _ _ hN => absurd hN (Nat.not_lt_zero _)
  | succ N ih => exact toldApart_succ ih

/-- **A rendering names one tree**: delimited expressions have the same canonical text exactly if they
are the same expression. -/
theorem delimited_render_eq_iff {e e' : Expr} (he : e.Delimited) (he' : e'.Delimited) :
    e.render = e'.render ↔ e = e' := by
  constructor
  · intro hrender
    have htext : e.text ++ [] = e'.text ++ [] := by rw [text, text, hrender]
    exact (toldApart_exprs _ he he' .nil .nil (Nat.lt_succ_self _) htext).1
  · exact congrArg render

/-- A branch that binds the expression to a name, and otherwise calls a function. -/
def branchOn (e : Expr) : Expr :=
  .cond (.ident "a") [.bind "b" e] (some [.expr (.call (.ident "f") [.ident "b"])])

theorem branchOn_delimited {e : Expr} (he : e.Delimited) : (branchOn e).Delimited := by
  have hname (x : String) (hx : (ident x).Named) (hapart : (ident x).Apart) :
      (ident x).Delimited := every_ident_iff.2 ⟨hx, hapart⟩
  have ha := hname "a" (isName_iff.2 ⟨isRun_of_all (by decide), by decide⟩) ⟨by decide, by decide⟩
  have hb := hname "b" (isName_iff.2 ⟨isRun_of_all (by decide), by decide⟩) ⟨by decide, by decide⟩
  have hf := hname "f" (isName_iff.2 ⟨isRun_of_all (by decide), by decide⟩) ⟨by decide, by decide⟩
  have hcall : (call (.ident "f") [.ident "b"]).Delimited := by
    refine every_call_iff.2 ⟨⟨trivial, id⟩, hf, ?_⟩
    rw [List.forall_mem_singleton]
    exact hb
  refine every_iff.2 ⟨⟨⟨?_, ?_⟩, .bind .nil, .last _, ?_⟩, ?_⟩
  · intro x e hx
    obtain ⟨rfl, -⟩ := Stmt.bind.inj (List.mem_singleton.1 hx)
    exact hb.self.1
  · rintro b ⟨⟩ x e hx
    cases List.mem_singleton.1 hx
  · rintro ⟨e, hlast, -⟩
    cases hlast
  · intro d hd
    cases hd with
    | test => exact ha
    | yes hs =>
      obtain rfl := List.mem_singleton.1 hs
      exact he
    | no hs =>
      obtain rfl := List.mem_singleton.1 hs
      exact hcall

/-- A negative literal and a negated one, in the same place. -/
theorem render_negative_ne_negated :
    (branchOn (.int (-1))).Delimited ∧ (branchOn (.unary .neg (.int 1))).Delimited ∧
    (branchOn (.int (-1))).render ≠ (branchOn (.unary .neg (.int 1))).render := by
  have hint : (branchOn (.int (-1))).Delimited := branchOn_delimited (every_int_iff.2 ⟨trivial, trivial⟩)
  have hneg : (branchOn (.unary .neg (.int 1))).Delimited := by
    refine branchOn_delimited (every_iff.2 ⟨⟨trivial, trivial⟩, ?_⟩)
    rintro d ⟨⟩
    exact every_int_iff.2 ⟨trivial, trivial⟩
  refine ⟨hint, hneg, ?_⟩
  rw [Ne, delimited_render_eq_iff hint hneg]
  simp [branchOn]

/-- Names and no text literal are not enough: the statements of a body run together. -/
theorem worded_render_not_injective :
    ¬ ∀ e e' : Expr, e.Worded → e'.Worded → e.render = e'.render → e = e' := by
  intro hinj
  have hname (x : String) (hword : IsWord x.toList) (hx : Keyword.ofWord? x = none) :
      (ident x).Worded := every_ident_iff.2 (isName_iff.2 ⟨hword, hx⟩)
  have hbody {d d' : Expr} (hd : d.Worded) (hd' : d'.Worded) :
      (fn [] [.expr d, .expr d']).Worded := by
    refine every_fn_iff.2 ⟨⟨nofun, ?_⟩, ?_⟩
    · intro x e hx
      simp at hx
    · simp only [List.forall_mem_cons]
      exact ⟨hd, hd', nofun⟩
  have hbodies := hinj (fn [] [.expr (.ident "a"), .expr (.ident "bc")])
    (fn [] [.expr (.ident "ab"), .expr (.ident "c")])
    (hbody (hname "a" (isRun_of_all (by decide)) (by decide))
      (hname "bc" (isRun_of_all (by decide)) (by decide)))
    (hbody (hname "ab" (isRun_of_all (by decide)) (by decide))
      (hname "c" (isRun_of_all (by decide)) (by decide))) rfl
  simp at hbodies

-- A call of a function is one in its body, and an `else` belongs to either of two branches.
example : (call (fn [] [.expr (.ident "f")]) []).render =
    (fn [] [.expr (.call (.ident "f") [])]).render := rfl

example : (cond (.ident "a") [.expr (.cond (.ident "b") [] none)] (some [])).render =
    (cond (.ident "a") [.expr (.cond (.ident "b") [] (some []))] none).render := rfl

end Expr

end Monkey
