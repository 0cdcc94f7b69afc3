import Monkey.Expr.Render
import Monkey.Proofs.Phrase.Split
import Monkey.Proofs.Token.Spelling

/-!
# Reading back — programs whose rendering parses to themselves

Texts lose their quotes and blocks their braces when they are rendered, and a negative literal is
read as an operation.  `Legible` leaves these out.  The rendering of a legible expression is cut into
tokens that stand for it whatever follows, as long as no word is carried on, so it may be put inside
every other one.
-/

namespace Monkey

namespace Phrase

open Lexer

/-! ## 1. Legible programs -/

/-- A word that is not reserved. -/
def IsName (x : String) : Prop := IsWord x.toList ∧ ∀ k : Keyword, x ≠ k.spelling

theorem isName_iff {x : String} : IsName x ↔ IsWord x.toList ∧ Keyword.ofWord? x = none := by
  simp only [IsName, ne_eq, ← Keyword.ofWord?_eq_some_iff, Option.eq_none_iff_forall_ne_some]

/-- The expressions that can be read back: no texts, branches or functions, and no negative
literals. -/
inductive Legible : Expr → Prop
  | ident {x} : IsName x → Legible (.ident x)
  | int {n} : 0 ≤ n → Legible (.int n)
  | bool (b : Bool) : Legible (.bool b)
  | array {es} : (∀ e ∈ es, Legible e) → Legible (.array es)
  | hash {ps} : (∀ p ∈ ps, Legible p.1) → (∀ p ∈ ps, Legible p.2) → Legible (.hash ps)
  | unary {op e} : Legible e → Legible (.unary op e)
  | binary {op l r} : Legible l → Legible r → Legible (.binary op l r)
  | call {f args} : Legible f → (∀ a ∈ args, Legible a) → Legible (.call f args)
  | index {l i} : Legible l → Legible i → Legible (.index l i)

/-- Bindings and returns of legible expressions, and one such expression or none behind them. -/
inductive LegibleProgram : Program → Prop
  | nil : LegibleProgram []
  | last {e} : Legible e → LegibleProgram [.expr e]
  | bind {x e p} : IsName x → Legible e → LegibleProgram p → LegibleProgram (.bind x e :: p)
  | ret {e p} : Legible e → LegibleProgram p → LegibleProgram (.ret e :: p)

/-! ## 2. Tokens in front of a text -/

/-- What follows carries no word and no number on. -/
def EndsWord (after : List Char) : Prop := ∀ d ∈ after.head?, ¬ isWordPart d = true

section

variable {after : List Char}

theorem endsWord_append {cs : List Char} (h : cs.head?.map isWordPart = some false)
    (after : List Char) : EndsWord (cs ++ after) := by
  rcases Option.map_eq_some_iff.1 h with ⟨c, hc, hpart⟩
  intro d hd
  rw [List.head?_append, hc] at hd
  obtain rfl : c = d := Option.some.inj hd
  simp [hpart]

theorem endsWord_nil : EndsWord [] := by
  intro d hd
  cases hd

theorem kindsOf_space (after : List Char) : kindsOf (" ".toList ++ after) = kindsOf after :=
  kindsOf_blank (by decide) after

theorem kindsOf_symbol {s : Symbol} (h : s = .assign ∨ s = .bang → after.head? ≠ some '=') :
    kindsOf (s.spelling.toList ++ after) = .symbol s :: kindsOf after := by
  have hspells : Spells [] after s.spelling.toList (.symbol s) := .symbol h
  exact hspells.kindsOf_append

-- The signs that no `=` behind them changes.
theorem kindsOf_sign (text : String) (s : Symbol) (htext : text = s.spelling)
    (hs : s ≠ .assign ∧ s ≠ .bang) (after : List Char) :
    kindsOf (text.toList ++ after) = .symbol s :: kindsOf after := by
  subst htext
  exact kindsOf_symbol fun h => absurd h (by simp [hs])

-- Any sign in front of a blank.
theorem kindsOf_sign_space (s : Symbol) (after : List Char) :
    kindsOf (s.spelling.toList ++ (" ".toList ++ after)) = .symbol s :: kindsOf after := by
  rw [kindsOf_symbol fun _ => by simp, kindsOf_space]

theorem kindsOf_comma (after : List Char) :
    kindsOf (", ".toList ++ after) = .symbol .comma :: kindsOf after :=
  kindsOf_sign_space .comma after

theorem kindsOf_assign (after : List Char) :
    kindsOf (" = ".toList ++ after) = .symbol .assign :: kindsOf after :=
  (kindsOf_space _).trans (kindsOf_sign_space .assign after)

theorem kindsOf_name {x : String} (hx : IsName x) (hafter : EndsWord after) :
    kindsOf (x.toList ++ after) = .ident x :: kindsOf after := by
  have hspells := (Spells.ident (maximal_nil_left hx.1 hafter)
    (by simpa using hx.2)).kindsOf_append
  rw [String.ofList_toList] at hspells
  exact hspells

theorem isWord_spelling (w : Keyword) : IsWord w.spelling.toList := by
  cases w <;> exact isRun_of_all (by decide)

theorem kindsOf_keyword (text : String) (w : Keyword) (htext : text = w.spelling)
    (hafter : EndsWord after) : kindsOf (text.toList ++ after) = .keyword w :: kindsOf after := by
  subst htext
  exact (Spells.keyword (maximal_nil_left (isWord_spelling w) hafter)).kindsOf_append

theorem isNumber_toDigits (n : Nat) : IsNumber (Nat.toDigits 10 n) := by
  have hdigits : ∀ d ∈ Nat.toDigits 10 n, d.isDigit = true :=
    fun d => Nat.isDigit_of_mem_toDigits (by decide) (by decide)
  rcases List.exists_cons_of_ne_nil (Nat.toDigits_ne_nil (n := n) (b := 10)) with ⟨d, ds, hds⟩
  rw [hds] at hdigits ⊢
  have hd := hdigits d List.mem_cons_self
  exact isRun_cons_iff.2 ⟨hd, hd, fun e he => hdigits e (List.mem_cons_of_mem d he)⟩

theorem kindsOf_numeral (n : Nat) (hafter : EndsWord after) :
    kindsOf ((toString n).toList ++ after) = .int (toString n) :: kindsOf after := by
  rw [Nat.toString_eq_ofList_toDigits, String.toList_ofList]
  have hstop : ∀ d ∈ after.head?, ¬ d.isDigit = true :=
    fun d hd hdigit => hafter d hd (isWordPart_of_isDigit hdigit)
  exact (Spells.int (maximal_nil_left (isNumber_toDigits n) hstop)).kindsOf_append

-- A row of digits has no sign, and stands for what it was made of.
theorem integer?_toString (n : Nat) : Numeral.integer? (toString n).toList = some (n : Int) := by
  rw [Nat.toString_eq_ofList_toDigits, String.toList_ofList]
  have hnumber := isNumber_toDigits n
  have hvalue := Nat.ofDigitChars_ten_toDigits (n := n)
  generalize Nat.toDigits 10 n = cs at hnumber hvalue
  have hnatural : Numeral.natural? cs = some n := by
    have hne : cs ≠ [] := by
      rintro rfl
      rcases hnumber.1 with ⟨d, hd, -⟩
      cases hd
    have hall : cs.all Char.isDigit = true := List.all_eq_true.2 hnumber.2
    simp [Numeral.natural?, hne, hall, hvalue]
  unfold Numeral.integer?
  split
  · exact absurd (isRun_cons_iff.1 hnumber).1 (by decide)
  · exact absurd (isRun_cons_iff.1 hnumber).1 (by decide)
  · rw [hnatural]
    rfl

end

/-! ## 3. Text that stands for a phrase -/

/-- The text is cut into tokens that stand for `a`, whatever follows that ends a word. -/
def StandsFor {α : Type} (P : Language α) (text : String) (a : α) : Prop :=
  ∃ ks, P ks a ∧
    ∀ after, EndsWord after → kindsOf (text.toList ++ after) = ks ++ kindsOf after

section

variable {α : Type} {P : Language α} {text : String} {a : α} {r : α → String}

theorem standsFor_commas {as : List α} (hne : as ≠ []) (h : ∀ a ∈ as, StandsFor P (r a) a) :
    StandsFor (Commas P) (", ".intercalate (as.map r)) as := by
  induction as with
  | nil => exact absurd rfl hne
  | cons a as ih =>
    rcases h a List.mem_cons_self with ⟨ks, ha, hks⟩
    cases as with
    | nil =>
      rw [List.map_singleton, String.intercalate_singleton]
      exact ⟨ks, .one ha, hks⟩
    | cons b bs =>
      obtain ⟨js, hbs, hjs⟩ :=
        ih (List.cons_ne_nil b bs) fun a ha => h a (List.mem_cons_of_mem _ ha)
      refine ⟨ks ++ .symbol .comma :: js, .more ha hbs, ?_⟩
      intro after hafter
      rw [List.map_cons, List.map_cons, String.intercalate_cons_cons, ← List.map_cons,
        String.toList_append, String.toList_append, List.append_assoc, List.append_assoc,
        hks _ (endsWord_append rfl _), kindsOf_comma, hjs _ hafter, List.append_assoc,
        List.cons_append]

theorem standsFor_items {as : List α} (h : ∀ a ∈ as, StandsFor P (r a) a) :
    StandsFor (Items P) (", ".intercalate (as.map r)) as := by
  cases as with
  | nil => exact ⟨[], .none, fun after _ => rfl⟩
  | cons a as =>
    rcases standsFor_commas (List.cons_ne_nil a as) h with ⟨ks, has, hks⟩
    exact ⟨ks, .some has, hks⟩

end

/-! ## 4. Expressions -/

def unarySymbol : UnaryOp → Symbol
  | .not => .bang
  | .neg => .minus

def binarySymbol : BinaryOp → Symbol
  | .add => .plus
  | .sub => .minus
  | .mul => .star
  | .div => .slash
  | .lt => .lt
  | .gt => .gt
  | .eq => .eqEq
  | .ne => .notEq

@[simp] theorem spelling_unarySymbol (op : UnaryOp) :
    (unarySymbol op).spelling = op.spelling := by
  cases op <;> rfl

@[simp] theorem spelling_binarySymbol (op : BinaryOp) :
    (binarySymbol op).spelling = op.spelling := by
  cases op <;> rfl

section

variable {ks js : List TokenKind} {l r e : Expr} {text : String}

-- Operands that are no operations may stand on both sides of every operator.
theorem expression_binary (op : BinaryOp) (hl : Postfix Expression ks l)
    (hr : Postfix Expression js r) :
    Expression (ks ++ .symbol (binarySymbol op) :: js) (.binary op l r) := by
  have hl := Unary.postfixed hl
  have hr := Unary.postfixed hr
  cases op with
  | add | sub =>
    exact .intro (.operand (.operand (.binary (.operand (.operand hl)) (by decide) (.operand hr))))
  | mul | div => exact .intro (.operand (.operand (.operand (.binary (.operand hl) (by decide) hr))))
  | lt | gt =>
    exact .intro (.operand (.binary (.operand (.operand (.operand hl))) (by decide)
      (.operand (.operand hr))))
  | eq | ne =>
    exact .intro (.binary (.operand (.operand (.operand (.operand hl)))) (by decide)
      (.operand (.operand (.operand hr))))

-- No phrase starts with `=`, so a sign in front of one stays what it is.
theorem StandsFor.head?_ne (h : StandsFor (Postfix Expression) text e) (after : List Char) :
    (text.toList ++ after).head? ≠ some '=' := by
  rcases h with ⟨ks, he, hks⟩
  rcases he.startsWith with ⟨k, js, rfl, hk⟩
  have hcut := hks [] endsWord_nil
  rw [List.append_nil] at hcut
  cases htext : text.toList with
  | nil =>
    rw [htext, kindsOf] at hcut
    simp at hcut
  | cons c cs =>
    intro hc
    obtain rfl : c = '=' := by simpa using hc
    rw [htext, kindsOf_lexeme (by decide)] at hcut
    have hkind := (List.cons.inj hcut).1
    have hsign : (lexeme '=' cs).kind = .symbol .assign ∨ (lexeme '=' cs).kind = .symbol .eqEq := by
      by_cases hpair : cs.head? = some '='
      · rcases List.head?_eq_some_iff.1 hpair with ⟨rest, rfl⟩
        exact .inr rfl
      · left
        have hone : lexeme '=' ([] ++ cs) = ⟨.symbol .assign, [], cs⟩ :=
          lexeme_of_symbol rfl fun _ => hpair
        exact congrArg Lexeme.kind hone
    rw [hkind] at hsign
    rcases hsign with rfl | rfl <;> simp [startsPrimary] at hk

theorem standsFor_name {x : String} (hx : IsName x) :
    StandsFor (Postfix Expression) x (.ident x) :=
  ⟨[.ident x], .primary (.ident x), fun _ hafter => kindsOf_name hx hafter⟩

theorem standsFor_int {n : Int64} (hn : 0 ≤ n) :
    StandsFor (Postfix Expression) (toString n) (.int n) := by
  have hnonneg : 0 ≤ n.toInt := Int64.le_iff_toInt_le.1 hn
  have hcast : (n.toInt.toNat : Int) = n.toInt := Int.toNat_of_nonneg hnonneg
  have htext : toString n = toString n.toInt.toNat := by
    show toString n.toInt = _
    rw [← hcast]
    rfl
  rw [htext]
  refine ⟨[.int (toString n.toInt.toNat)], .primary (.int ?_), ?_⟩
  · rw [integer?_toString, hcast]
  · intro after hafter
    exact kindsOf_numeral n.toInt.toNat hafter

theorem standsFor_bool (b : Bool) : StandsFor (Postfix Expression) (toString b) (.bool b) := by
  cases b with
  | true => exact ⟨_, .primary .yes, fun _ hafter => kindsOf_keyword "true" .trueWord rfl hafter⟩
  | false => exact ⟨_, .primary .no, fun _ hafter => kindsOf_keyword "false" .falseWord rfl hafter⟩

theorem StandsFor.expression (h : StandsFor (Postfix Expression) text e) :
    StandsFor Expression text e := by
  rcases h with ⟨ks, he, hks⟩
  exact ⟨ks, .ofUnary (.postfixed he), hks⟩

/-- The signs around which nothing changes, and that end every word. -/
def brackets : List Symbol := [.lparen, .rparen, .lbrace, .rbrace, .lbracket, .rbracket]

-- Text between two brackets.
theorem StandsFor.kindsOf_enclosed {α : Type} {P : Language α} {a : α} (h : StandsFor P text a)
    (opening closing : Symbol) (ho : opening ∈ brackets) (hc : closing ∈ brackets) :
    ∃ ks, P ks a ∧ ∀ after,
      kindsOf ((opening.spelling ++ text ++ closing.spelling).toList ++ after) =
        .symbol opening :: (ks ++ [.symbol closing]) ++ kindsOf after := by
  have hfirm {s : Symbol} (hs : s ∈ brackets) : (s ≠ .assign ∧ s ≠ .bang) ∧
      s.spelling.toList.head?.map isWordPart = some false := by
    revert hs
    cases s <;> decide
  rcases h with ⟨ks, ha, hks⟩
  refine ⟨ks, ha, ?_⟩
  intro after
  rw [String.toList_append, String.toList_append, List.append_assoc, List.append_assoc,
    kindsOf_sign _ opening rfl (hfirm ho).1, hks _ (endsWord_append (hfirm hc).2 after),
    kindsOf_sign _ closing rfl (hfirm hc).1]
  simp

theorem StandsFor.group (h : StandsFor Expression text e) :
    StandsFor (Postfix Expression) ("(" ++ text ++ ")") e := by
  rcases h.kindsOf_enclosed .lparen .rparen (by decide) (by decide)
    with ⟨ks, he, hks⟩
  exact ⟨_, .primary (.group he), fun after _ => hks after⟩

theorem StandsFor.pair {k v : Expr} {kText vText : String} (hk : StandsFor Expression kText k)
    (hv : StandsFor Expression vText v) :
    StandsFor (Pair Expression) (kText ++ ":" ++ vText) (k, v) := by
  rcases hk with ⟨ks, hPk, hks⟩
  rcases hv with ⟨js, hPv, hjs⟩
  refine ⟨ks ++ .symbol .colon :: js, .intro hPk hPv, ?_⟩
  intro after hafter
  rw [String.toList_append, String.toList_append, List.append_assoc, List.append_assoc,
    hks _ (endsWord_append rfl _), kindsOf_sign ":" .colon rfl (by decide), hjs _ hafter,
    List.append_assoc, List.cons_append]

theorem StandsFor.unary (op : UnaryOp) (h : StandsFor (Postfix Expression) text e) :
    StandsFor Expression (op.spelling ++ text) (.unary op e) := by
  have hne := h.head?_ne
  rcases h with ⟨ks, he, hks⟩
  refine ⟨.symbol (unarySymbol op) :: ks, .ofUnary (.unary ?_ (.postfixed he)), ?_⟩
  · cases op <;> decide
  · intro after hafter
    have hsign : kindsOf (op.spelling.toList ++ (text.toList ++ after)) =
        .symbol (unarySymbol op) :: kindsOf (text.toList ++ after) := by
      rw [← spelling_unarySymbol]
      exact kindsOf_symbol fun _ => hne after
    rw [String.toList_append, List.append_assoc, hsign, hks _ hafter, List.cons_append]

theorem StandsFor.binary (op : BinaryOp) {lText rText : String}
    (hl : StandsFor (Postfix Expression) lText l) (hr : StandsFor (Postfix Expression) rText r) :
    StandsFor Expression (lText ++ " " ++ op.spelling ++ " " ++ rText) (.binary op l r) := by
  rcases hl with ⟨ks, hPl, hks⟩
  rcases hr with ⟨js, hPr, hjs⟩
  refine ⟨_, expression_binary op hPl hPr, ?_⟩
  intro after hafter
  have hsign (after : List Char) : kindsOf (op.spelling.toList ++ (" ".toList ++ after)) =
      .symbol (binarySymbol op) :: kindsOf after := by
    rw [← spelling_binarySymbol]
    exact kindsOf_sign_space (binarySymbol op) after
  simp only [String.toList_append, List.append_assoc]
  rw [hks _ (endsWord_append rfl _), kindsOf_space, hsign, hjs _ hafter, List.cons_append]

-- An expression with brackets behind it.
theorem StandsFor.kindsOf_applied {α : Type} {P : Language α} {a : α} {inner : String}
    (h : StandsFor (Postfix Expression) text e) (ha : StandsFor P inner a)
    (opening closing : Symbol) (ho : opening ∈ brackets) (hc : closing ∈ brackets) :
    ∃ ks js, Postfix Expression ks e ∧ P js a ∧ ∀ after,
      kindsOf ((text ++ opening.spelling ++ inner ++ closing.spelling).toList ++ after) =
        ks ++ .symbol opening :: (js ++ [.symbol closing]) ++ kindsOf after := by
  rcases h with ⟨ks, he, hks⟩
  rcases ha.kindsOf_enclosed opening closing ho hc with ⟨js, hP, hjs⟩
  refine ⟨ks, js, he, hP, ?_⟩
  intro after
  have hends : EndsWord ((opening.spelling ++ inner ++ closing.spelling).toList ++ after) := by
    simp only [String.toList_append, List.append_assoc]
    apply endsWord_append
    revert ho
    cases opening <;> decide
  have htext : text ++ opening.spelling ++ inner ++ closing.spelling =
      text ++ (opening.spelling ++ inner ++ closing.spelling) := by
    simp [String.append_assoc]
  rw [htext, String.toList_append, List.append_assoc, hks _ hends, hjs, List.append_assoc]

theorem standsFor_renderList {es : List Expr}
    (h : ∀ e ∈ es, StandsFor (Postfix Expression) e.render e) :
    StandsFor (Items Expression) (", ".intercalate (Expr.renderList es)) es := by
  rw [Expr.renderList_eq_map]
  exact standsFor_items fun e he => (h e he).expression

/-- The rendering of a legible expression stands for it. -/
theorem Legible.standsFor (h : Legible e) : StandsFor (Postfix Expression) e.render e := by
  induction h with
  | ident hx => exact standsFor_name hx
  | int hn => exact standsFor_int hn
  | bool b => exact standsFor_bool b
  | array _ ih =>
    rcases (standsFor_renderList ih).kindsOf_enclosed .lbracket .rbracket (by decide)
      (by decide) with ⟨ks, hes, hks⟩
    exact ⟨_, .primary (.array hes), fun after _ => hks after⟩
  | @hash ps _ _ ihk ihv =>
    have hitems : StandsFor (Items (Pair Expression)) (", ".intercalate (Expr.renderPairs ps)) ps := by
      rw [Expr.renderPairs_eq_map]
      exact standsFor_items fun p hp => (ihk p hp).expression.pair (ihv p hp).expression
    rcases hitems.kindsOf_enclosed .lbrace .rbrace (by decide) (by decide) with ⟨ks, hps, hks⟩
    exact ⟨_, .primary (.hash hps), fun after _ => hks after⟩
  | @unary op e _ ih =>
    have hrender : (Expr.unary op e).render = "(" ++ (op.spelling ++ e.render) ++ ")" := by
      simp [Expr.render, String.append_assoc]
    rw [hrender]
    exact (ih.unary op).group
  | @binary op l r _ _ ihl ihr =>
    have hrender : (Expr.binary op l r).render =
        "(" ++ (l.render ++ " " ++ op.spelling ++ " " ++ r.render) ++ ")" := by
      simp [Expr.render, String.append_assoc]
    rw [hrender]
    exact (ihl.binary op ihr).group
  | call _ _ ihf iha =>
    rcases ihf.kindsOf_applied (standsFor_renderList iha) .lparen .rparen (by decide)
      (by decide) with ⟨ks, js, hf, hargs, hks⟩
    exact ⟨_, .call hf hargs, fun after _ => hks after⟩
  | @index l i _ _ ihl ihi =>
    have hrender : (Expr.index l i).render = "(" ++ (l.render ++ "[" ++ i.render ++ "]") ++ ")" := by
      simp [Expr.render, String.append_assoc]
    rcases ihl.kindsOf_applied ihi.expression .lbracket .rbracket (by decide)
      (by decide) with ⟨ks, js, hl, hi, hks⟩
    rw [hrender]
    apply StandsFor.group
    exact ⟨_, .ofUnary (.postfixed (.index hl hi)), fun after _ => hks after⟩

/-! ## 5. Programs -/

theorem kindsOf_let (after : List Char) :
    kindsOf ("let ".toList ++ after) = .keyword .letWord :: kindsOf after := by
  have hends : EndsWord (" ".toList ++ after) := endsWord_append rfl after
  exact (kindsOf_keyword "let" .letWord rfl hends).trans (congrArg _ (kindsOf_space after))

theorem kindsOf_return (after : List Char) :
    kindsOf ("return ".toList ++ after) = .keyword .returnWord :: kindsOf after := by
  have hends : EndsWord (" ".toList ++ after) := endsWord_append rfl after
  exact (kindsOf_keyword "return" .returnWord rfl hends).trans (congrArg _ (kindsOf_space after))

/-- The rendering of a legible program is cut into its statements. -/
theorem LegibleProgram.statements {p : Program} (h : LegibleProgram p) :
    Statements Expression (kindsOf p.render.toList) p := by
  have hsemicolon (after : List Char) :
      kindsOf (";".toList ++ after) = .symbol .semicolon :: kindsOf after :=
    kindsOf_sign ";" .semicolon rfl (by decide) after
  induction h with
  | nil =>
    have hnil : kindsOf (Program.render []).toList = [] := by
      rw [show (Program.render []).toList = [] from rfl, kindsOf]
    rw [hnil]
    exact .nil
  | @last e he =>
    rcases he.standsFor.expression with ⟨ks, hP, hks⟩
    have hrender : (Program.render [.expr e]).toList = e.render.toList ++ [] := by
      simp [Program.render, Stmt.renderAll, Stmt.render]
    rw [hrender, hks [] endsWord_nil, kindsOf]
    exact .bare (.expr hP) (by simp [CarriesOn]) .nil
  | @bind x e p hx he _ ih =>
    rcases he.standsFor.expression with ⟨ks, hP, hks⟩
    have hrender : (Program.render (.bind x e :: p)).toList =
        "let ".toList ++ (x.toList ++ (" = ".toList ++ (e.render.toList ++
          (";".toList ++ p.render.toList)))) := by
      simp [Program.render, Stmt.renderAll, Stmt.render]
    rw [hrender, kindsOf_let, kindsOf_name hx (endsWord_append rfl _), kindsOf_assign,
      hks _ (endsWord_append rfl _), hsemicolon]
    exact .closed (.bind hP) ih
  | @ret e p he _ ih =>
    rcases he.standsFor.expression with ⟨ks, hP, hks⟩
    have hrender : (Program.render (.ret e :: p)).toList =
        "return ".toList ++ (e.render.toList ++ (";".toList ++ p.render.toList)) := by
      simp [Program.render, Stmt.renderAll, Stmt.render]
    rw [hrender, kindsOf_return, hks _ (endsWord_append rfl _), hsemicolon]
    exact .closed (.ret hP) ih

/-- **A rendering can be read back**: a legible program is what its own rendering parses to, without
an error. -/
theorem parseSource_render {p : Program} (h : LegibleProgram p) :
    parseSource p.render = ⟨p, []⟩ :=
  parseSource_eq_iff.2 h.statements

/-- A called operation, and brackets of every kind inside one another. -/
theorem parseSource_render_nested :
    parseSource "let f_1 = (a - 12)();\x7btrue:(-(g([])[0]))\x7d" =
      ⟨[.bind "f_1" (.call (.binary .sub (.ident "a") (.int 12)) []),
        .expr (.hash [(.bool true,
          .unary .neg (.index (.call (.ident "g") [.array []]) (.int 0)))])], []⟩ := by
  have ha : IsName "a" := isName_iff.2 ⟨isRun_of_all (by decide), by decide⟩
  have hf : IsName "f_1" := isName_iff.2 ⟨isRun_of_all (by decide), by decide⟩
  have hg : IsName "g" := isName_iff.2 ⟨isRun_of_all (by decide), by decide⟩
  have hlegible : LegibleProgram
      [.bind "f_1" (.call (.binary .sub (.ident "a") (.int 12)) []),
        .expr (.hash [(.bool true,
          .unary .neg (.index (.call (.ident "g") [.array []]) (.int 0)))])] := by
    refine .bind hf (.call (.binary (.ident ha) (.int (by decide))) (by simp)) (.last ?_)
    refine .hash (by simpa using .bool true) ?_
    simpa using .unary (.index (.call (.ident hg) (by simpa using .array (by simp)))
      (.int (by decide)))
  exact parseSource_render hlegible

end

end Phrase

end Monkey
