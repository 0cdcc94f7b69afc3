import Monkey.Proofs.Phrase.Rendering
import Monkey.Proofs.Run.Rebuild

/-!
# Parts of a rendering — where one ends and the next begins

A rendering shows no braces around a block and nothing between its statements, so calls, branches
and the statements of one block may run together.  `Delimited` asks of every part that its end can be
seen.  A family of texts is told apart if a text begins with at most one of them; words, numerals,
lists and chains of calls are shown to be, as far as what they are made of is.
-/

namespace Monkey

open Phrase

/-! ## 1. Delimited expressions -/

/-- Whatever the block binds is bound to a name. -/
def BindsNames (b : Block) : Prop := ∀ x e, .bind x e ∈ b → IsName x

/-- An expression stands in the block only as its last statement. -/
inductive ValueLast : Block → Prop
  | nil : ValueLast []
  | last (e) : ValueLast [.expr e]
  | bind {x e b} : ValueLast b → ValueLast (.bind x e :: b)
  | ret {e b} : ValueLast b → ValueLast (.ret e :: b)

namespace Expr

/-- The text of the expression ends with that of a block, and so without a bracket. -/
def IsOpen : Expr → Prop
  | cond _ _ _ | fn _ _ | macroFn _ _ => True
  | _ => False

/-- The text of the expression ends with that of a branch without an alternative, to which an `else`
behind it would belong. -/
inductive WantsElse : Expr → Prop
  | cond {test yes} : WantsElse (.cond test yes none)
  | alternative {test yes no e} : no.getLast? = some (.expr e) → WantsElse e →
      WantsElse (.cond test yes (some no))
  | fn {ps b e} : b.getLast? = some (.expr e) → WantsElse e → WantsElse (.fn ps b)
  | macroFn {ps b e} : b.getLast? = some (.expr e) → WantsElse e → WantsElse (.macroFn ps b)

/-- The last statement of the block is an expression to which an `else` behind it would belong. -/
def BlockWantsElse (b : Block) : Prop := ∃ e, b.getLast? = some (.expr e) ∧ WantsElse e

/-- The expression is no text literal, and is called, takes and binds nothing but names. -/
def Named : Expr → Prop
  | ident x => IsName x
  | str _ => False
  | cond _ yes no => BindsNames yes ∧ ∀ b ∈ no, BindsNames b
  | fn ps b | macroFn ps b => (∀ p ∈ ps, IsName p) ∧ BindsNames b
  | _ => True

/-- The parts of the expression do not run together: its name is taken neither for the start of a
branch nor for the end of one, its blocks are closed but for their last statement, its first branch
leaves the `else` to it, and nothing that ends with a block is called or indexed. -/
def Apart : Expr → Prop
  | ident x => ¬ "if".toList <+: x.toList ∧ ¬ "else".toList <:+ x.toList
  | cond _ yes none => ValueLast yes
  | cond _ yes (some no) => ValueLast yes ∧ ValueLast no ∧ ¬ BlockWantsElse yes
  | fn _ b | macroFn _ b => ValueLast b
  | call f _ => ¬ f.IsOpen
  | index l _ => ¬ l.IsOpen
  | _ => True

/-- In the expression stand nothing but names and no text literal. -/
def Worded (e : Expr) : Prop := e.Every Named

/-- In the expression stand nothing but names and no text literal, and no parts that run together. -/
def Delimited (e : Expr) : Prop := e.Every fun d => d.Named ∧ d.Apart

theorem Delimited.worded {e : Expr} (h : e.Delimited) : e.Worded := h.imp fun _ hd => hd.1

theorem Delimited.child {d e : Expr} (h : e.Delimited) (hd : Child d e) : d.Delimited :=
  Every.child h hd

end Expr

namespace Phrase

open Lexer

/-! ## 2. Texts that are told apart -/

section

variable {α : Type}

/-- A text of less than `N` characters begins with at most one `r a`, where `a` is of the class
`Good` and what follows may stand behind `a`. -/
def ToldApart (N : Nat) (Good : α → Prop) (Behind : α → List Char → Prop) (r : α → List Char) :
    Prop :=
  ∀ ⦃a a' u u'⦄, Good a → Good a' → Behind a u → Behind a' u' → (r a ++ u).length < N →
    r a ++ u = r a' ++ u' → a = a' ∧ u = u'

/-- The elements behind the first, with a comma in front of each. -/
def more (r : α → List Char) (as : List α) : List Char := as.flatMap fun a => ',' :: ' ' :: r a

/-- The elements with commas between them. -/
def listed (r : α → List Char) : List α → List Char
  | [] => []
  | a :: as => r a ++ more r as

variable {N : Nat} {Good : α → Prop} {Behind : α → List Char → Prop} {r : α → List Char} {c : Char}

theorem more_cons (a : α) (as : List α) : more r (a :: as) = ',' :: ' ' :: (r a ++ more r as) := rfl

theorem intercalate_map (r : α → List Char) (as : List α) :
    [',', ' '].intercalate (as.map r) = listed r as := by
  cases as with
  | nil => rfl
  | cons a as =>
    induction as generalizing a with
    | nil => simp [listed, more]
    | cons b bs ih =>
      have hstep : [',', ' '].intercalate (r a :: (b :: bs).map r) =
          r a ++ ([',', ' '] ++ [',', ' '].intercalate ((b :: bs).map r)) := by
        simp
      rw [List.map_cons, hstep, List.map_cons, ← List.map_cons, ih]
      rfl

theorem head?_more_append (as : List α) (c : Char) (u : List Char) :
    (more r as ++ c :: u).head? = some ',' ∨ (more r as ++ c :: u).head? = some c := by
  cases as with
  | nil => exact .inr rfl
  | cons a as => exact .inl rfl

variable (h : ToldApart N Good Behind r)
  (hbehind : ∀ a u, Good a → u.head? = some ',' ∨ u.head? = some c → Behind a u)

include h hbehind

-- Behind the first element stands either the sign that ends the list, or a comma and one more.
theorem ToldApart.more (hc : c ≠ ',') :
    ToldApart N (∀ a ∈ ·, Good a) (fun _ u => u.head? = some c) (more r) := by
  intro as as' u u' has has' hu hu' hN heq
  obtain ⟨u, rfl⟩ := List.head?_eq_some_iff.1 hu
  obtain ⟨u', rfl⟩ := List.head?_eq_some_iff.1 hu'
  induction as generalizing as' with
  | nil =>
    cases as' with
    | nil => exact ⟨rfl, heq⟩
    | cons a' as' => exact absurd (List.cons.inj heq).1 hc
  | cons a as ih =>
    cases as' with
    | nil => exact absurd (List.cons.inj heq).1.symm hc
    | cons a' as' =>
      rw [List.forall_mem_cons] at has has'
      simp only [more_cons, List.cons_append, List.append_assoc, List.cons.injEq, true_and,
        List.length_cons] at heq hN
      have hfirst := h has.1 has'.1 (hbehind a _ has.1 (head?_more_append as c u))
        (hbehind a' _ has'.1 (head?_more_append as' c u')) (by omega) heq
      obtain ⟨rfl, hrest⟩ := hfirst
      rw [List.length_append] at hN
      obtain ⟨rfl, hu⟩ := ih has.2 has'.2 (by omega) hrest
      exact ⟨rfl, hu⟩

/-- Lists are told apart if their elements are, and none begins with the sign that ends the list. -/
theorem ToldApart.listed (hc : c ≠ ',') (hfirst : ∀ a u, Good a → (r a ++ u).head? ≠ some c) :
    ToldApart N (∀ a ∈ ·, Good a) (fun _ u => u.head? = some c) (listed r) := by
  intro as as' u u' has has' hu hu' hN heq
  cases as with
  | nil =>
    cases as' with
    | nil => exact ⟨rfl, heq⟩
    | cons a' as' =>
      simp only [Phrase.listed, List.append_assoc, List.nil_append] at heq
      exact absurd (heq ▸ hu) (hfirst a' _ (has' a' List.mem_cons_self))
  | cons a as =>
    cases as' with
    | nil =>
      simp only [Phrase.listed, List.append_assoc, List.nil_append] at heq
      exact absurd (heq ▸ hu') (hfirst a _ (has a List.mem_cons_self))
    | cons a' as' =>
      rw [List.forall_mem_cons] at has has'
      simp only [Phrase.listed, List.append_assoc] at heq hN
      obtain ⟨v, rfl⟩ := List.head?_eq_some_iff.1 hu
      obtain ⟨v', rfl⟩ := List.head?_eq_some_iff.1 hu'
      have hfirst := h has.1 has'.1 (hbehind a _ has.1 (head?_more_append as c v))
        (hbehind a' _ has'.1 (head?_more_append as' c v')) hN heq
      obtain ⟨rfl, hrest⟩ := hfirst
      rw [List.length_append] at hN
      obtain ⟨rfl, hv⟩ := h.more hbehind hc has.2 has'.2 rfl rfl (by omega) hrest
      exact ⟨rfl, hv⟩

end

/-! ## 3. Words and numerals -/

section

variable {w w' u u' : List Char}

theorem endsWord_cons {c : Char} (hc : ¬ isWordPart c = true) (u : List Char) :
    EndsWord (c :: u) := by
  rintro d ⟨⟩
  exact hc

/-- What follows carries no word on, but that it may begin with the word `else`. -/
def EndsName (u : List Char) : Prop := EndsWord u ∨ "else ".toList <+: u

theorem EndsName.not_isDigit (h : EndsName u) : ∀ c ∈ u.head?, ¬ c.isDigit = true := by
  intro c hc hdigit
  rcases h with h | ⟨v, rfl⟩
  · exact h c hc (isWordPart_of_isDigit hdigit)
  · obtain rfl : 'e' = c := by simpa using hc
    exact absurd hdigit (by decide)

theorem EndsName.eq_of_cons {c d : Char} (h : EndsName (c :: d :: u))
    (hc : isWordPart c = true) : c = 'e' ∧ d = 'l' := by
  rcases h with hends | ⟨v, hv⟩
  · exact absurd hc (hends c rfl)
  · simp only [String.reduceToList, List.cons_append, List.cons.injEq] at hv
    exact ⟨hv.1.symm, hv.2.1.symm⟩

-- What carries a word on is an `else`, and the whole of it.
theorem eq_else_of_endsName (hw : ∀ c ∈ w, isWordPart c = true) (hu : EndsName (w ++ u))
    (hu' : EndsName u) : w = [] ∨ w = "else".toList := by
  cases w with
  | nil => exact .inl rfl
  | cons c w =>
    right
    rcases hu with hends | ⟨v, hv⟩
    · exact absurd (hw c List.mem_cons_self) (hends c rfl)
    · rcases w with _ | ⟨d, _ | ⟨e, _ | ⟨f, _ | ⟨g, w⟩⟩⟩⟩ <;>
        simp only [String.reduceToList, List.cons_append, List.nil_append, List.cons.injEq] at hv
      · obtain ⟨-, rfl⟩ := hv
        exact absurd (hu'.eq_of_cons (by decide)) (by decide)
      · obtain ⟨-, -, rfl⟩ := hv
        exact absurd (hu'.eq_of_cons (by decide)) (by decide)
      · obtain ⟨-, -, -, rfl⟩ := hv
        exact absurd (hu'.eq_of_cons (by decide)) (by decide)
      · obtain ⟨rfl, rfl, rfl, rfl, -⟩ := hv
        rfl
      · obtain ⟨-, -, -, -, rfl, -⟩ := hv
        exact absurd (hw ' ' (by simp)) (by decide)

/-- Two words at the head of one text are the same, or one of them is the other with an `else` behind
it. -/
theorem word_cases (hw : ∀ c ∈ w, isWordPart c = true) (hw' : ∀ c ∈ w', isWordPart c = true)
    (hu : EndsName u) (hu' : EndsName u') (heq : w ++ u = w' ++ u') :
    (w = w' ∧ u = u') ∨ w' = w ++ "else".toList ∨ w = w' ++ "else".toList := by
  rcases List.append_eq_append_iff.1 heq with ⟨v, rfl, rfl⟩ | ⟨v, rfl, rfl⟩
  · have hv : ∀ c ∈ v, isWordPart c = true := fun c hc => hw' c (List.mem_append_right _ hc)
    rcases eq_else_of_endsName hv hu hu' with rfl | rfl
    · exact .inl (by simp)
    · exact .inr (.inl rfl)
  · have hv : ∀ c ∈ v, isWordPart c = true := fun c hc => hw c (List.mem_append_right _ hc)
    rcases eq_else_of_endsName hv hu' hu with rfl | rfl
    · exact .inl (by simp)
    · exact .inr (.inr rfl)

theorem word_inj (hw : ∀ c ∈ w, isWordPart c = true) (hw' : ∀ c ∈ w', isWordPart c = true)
    (helse : ¬ "else".toList <:+ w) (helse' : ¬ "else".toList <:+ w')
    (hu : EndsName u) (hu' : EndsName u') (heq : w ++ u = w' ++ u') : w = w' ∧ u = u' := by
  rcases word_cases hw hw' hu hu' heq with h | rfl | rfl
  · exact h
  · exact absurd (List.suffix_append _ _) helse'
  · exact absurd (List.suffix_append _ _) helse

-- A row of characters of one class is as long as it can be.
theorem row_inj {part : Char → Bool} (hw : ∀ c ∈ w, part c = true) (hw' : ∀ c ∈ w', part c = true)
    (hu : ∀ c ∈ u.head?, ¬ part c = true) (hu' : ∀ c ∈ u'.head?, ¬ part c = true)
    (heq : w ++ u = w' ++ u') : w = w' ∧ u = u' := by
  obtain ⟨htake, hdrop⟩ := takeWhile_append_eq hw hu
  obtain ⟨htake', hdrop'⟩ := takeWhile_append_eq hw' hu'
  rw [heq] at htake hdrop
  exact ⟨htake.symm.trans htake', hdrop.symm.trans hdrop'⟩

theorem toldApart_names (N : Nat) : ToldApart N IsName (fun _ => EndsWord) String.toList := by
  intro x x' u u' hx hx' hu hu' _ heq
  obtain ⟨hxx', rfl⟩ := row_inj hx.1.2 hx'.1.2 hu hu' heq
  exact ⟨String.toList_injective hxx', rfl⟩

theorem exists_digit (m : Nat) : ∃ c cs, Nat.toDigits 10 m = c :: cs ∧ c.isDigit = true := by
  obtain ⟨⟨c, hc, hdigit⟩, -⟩ := isNumber_toDigits m
  obtain ⟨cs, hcs⟩ := List.head?_eq_some_iff.1 hc
  exact ⟨c, cs, hcs, hdigit⟩

theorem digits_append_ne (m : Nat) (u v : List Char) : Nat.toDigits 10 m ++ u ≠ '-' :: v := by
  intro heq
  obtain ⟨c, cs, hcs, hdigit⟩ := exists_digit m
  rw [hcs] at heq
  obtain ⟨rfl, -⟩ := List.cons.inj heq
  exact absurd hdigit (by decide)

theorem digits_inj {m m' : Nat} (hu : ∀ c ∈ u.head?, ¬ c.isDigit = true)
    (hu' : ∀ c ∈ u'.head?, ¬ c.isDigit = true)
    (heq : Nat.toDigits 10 m ++ u = Nat.toDigits 10 m' ++ u') : m = m' ∧ u = u' := by
  obtain ⟨hdigits, hrest⟩ := row_inj (isNumber_toDigits m).2 (isNumber_toDigits m').2 hu hu' heq
  refine ⟨?_, hrest⟩
  rw [← Nat.ofDigitChars_ten_toDigits (n := m), hdigits, Nat.ofDigitChars_ten_toDigits]

end

end Phrase

namespace Expr

/-! ## 4. Texts of expressions -/

def text (e : Expr) : List Char := e.render.toList

/-- The text of the statements of a block, one behind the other. -/
def blockText (b : Block) : List Char := (Stmt.renderAll b).toList

def pairText (p : Expr × Expr) : List Char := p.1.text ++ ':' :: p.2.text

/-- The arguments of calls, one behind the other. -/
def chainText (argss : List (List Expr)) : List Char :=
  argss.flatMap fun args => '(' :: (listed text args ++ [')'])

/-- The expression, called with one list of arguments after the other. -/
def applied (a : Expr) (argss : List (List Expr)) : Expr := argss.foldl call a

theorem intercalate_renderList (es : List Expr) :
    [',', ' '].intercalate ((renderList es).map String.toList) = listed text es := by
  rw [renderList_eq_map, List.map_map, intercalate_map]
  rfl

theorem text_array (es : List Expr) : (array es).text = '[' :: (listed text es ++ [']']) := by
  simp [text, render, intercalate_renderList]

theorem text_hash (ps : List (Expr × Expr)) :
    (hash ps).text = '\x7b' :: (listed pairText ps ++ ['\x7d']) := by
  have hpairs : (renderPairs ps).map String.toList = ps.map pairText := by
    rw [renderPairs_eq_map, List.map_map]
    congr
    funext p
    simp [pairText, text]
  simp [text, render, hpairs, intercalate_map]

theorem text_unary (op : UnaryOp) (e : Expr) :
    (unary op e).text = '(' :: (op.spelling.toList ++ (e.text ++ [')'])) := by
  simp [text, render]

theorem text_binary (op : BinaryOp) (l r : Expr) :
    (binary op l r).text =
      '(' :: (l.text ++ ' ' :: (op.spelling.toList ++ ' ' :: (r.text ++ [')']))) := by
  simp [text, render]

theorem text_index (l i : Expr) :
    (index l i).text = '(' :: (l.text ++ '[' :: (i.text ++ [']', ')'])) := by
  simp [text, render]

theorem text_cond (test : Expr) (yes : Block) :
    (cond test yes none).text = 'i' :: 'f' :: (test.text ++ ' ' :: blockText yes) := by
  simp [text, blockText, render]

theorem text_alternative (test : Expr) (yes no : Block) :
    (cond test yes (some no)).text =
      'i' :: 'f' :: (test.text ++ ' ' :: (blockText yes ++ ("else ".toList ++ blockText no))) := by
  simp [text, blockText, render]

theorem text_fn (ps : List String) (b : Block) : (fn ps b).text =
    "fn".toList ++ '(' :: (listed String.toList ps ++ ')' :: ' ' :: blockText b) := by
  simp [text, blockText, render, intercalate_map]

theorem text_macroFn (ps : List String) (b : Block) : (macroFn ps b).text =
    "macro".toList ++ '(' :: (listed String.toList ps ++ ')' :: ' ' :: blockText b) := by
  simp [text, blockText, render, intercalate_map]

theorem text_call (f : Expr) (args : List Expr) :
    (call f args).text = f.text ++ '(' :: (listed text args ++ [')']) := by
  simp [text, render, intercalate_renderList]

theorem text_applied (a : Expr) (argss : List (List Expr)) :
    (applied a argss).text = a.text ++ chainText argss := by
  induction argss generalizing a with
  | nil => exact (List.append_nil _).symm
  | cons args argss ih =>
    have hstep : applied a (args :: argss) = applied (call a args) argss := rfl
    rw [hstep, ih, text_call, List.append_assoc]
    rfl

-- A numeral is a row of digits, with a sign in front of it if the number is negative.
theorem text_int_of_nonneg {n : Int64} (h : 0 ≤ n.toInt) :
    (int n).text = Nat.toDigits 10 n.toInt.natAbs := by
  have htext : (int n).text = (toString n.toInt).toList := rfl
  obtain ⟨m, hm⟩ := Int.eq_ofNat_of_zero_le h
  rw [htext, hm]
  exact Nat.toList_repr

theorem text_int_of_neg {n : Int64} (h : n.toInt < 0) :
    (int n).text = '-' :: Nat.toDigits 10 n.toInt.natAbs := by
  have htext : (int n).text = (toString n.toInt).toList := rfl
  obtain ⟨m, hm⟩ := Int.eq_negSucc_of_lt_zero h
  have hrepr : toString (Int.negSucc m) = "-" ++ Nat.repr (m + 1) := rfl
  rw [htext, hm, hrepr, String.toList_append, Nat.toList_repr]
  rfl

theorem blockText_bind (x : String) (e : Expr) (b : Block) : blockText (.bind x e :: b) =
    "let".toList ++ ' ' :: (x.toList ++ ' ' :: '=' :: ' ' :: (e.text ++ ';' :: blockText b)) := by
  simp [blockText, text, Stmt.renderAll, Stmt.render]

theorem blockText_ret (e : Expr) (b : Block) :
    blockText (.ret e :: b) = "return".toList ++ ' ' :: (e.text ++ ';' :: blockText b) := by
  simp [blockText, text, Stmt.renderAll, Stmt.render]

theorem blockText_last (e : Expr) : blockText [.expr e] = e.text := by
  simp [blockText, text, Stmt.renderAll, Stmt.render]

end Expr

end Monkey
