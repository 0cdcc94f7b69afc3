import Monkey.Parser.Grammar
import Monkey.Proofs.Phrase.Reading

/-!
# Sequences — the parsers that repeat one phrase

Lists with commas, operations of one level and signs in front of an operand are each read by a loop
over the parser of one phrase.  If that parser is exact on cursors with fewer than `n` tokens left,
then so is the parser of the sequence.
-/

namespace Monkey

namespace Phrase

open Monkey.Parser Cursor

variable {α : Type} {n : Nat}

/-! ## 1. Lists with commas -/

-- The loop behind the first of several phrases with commas between them.
def commaStep (p : Parser α) : TokenKind → Option (List α → Parser (List α))
  | .symbol .comma => some fun xs => do advance; return xs ++ [← p]
  | _ => none

section

variable {p : Parser α} {P : Language α} {stop : TokenKind → Prop} {c c' : Cursor}

theorem commaStep_eq_none_iff {k : TokenKind} : commaStep p k = none ↔ k ≠ .symbol .comma := by
  unfold commaStep
  split <;> simp_all

theorem commaStep_eq_some_iff {k : TokenKind} {f : List α → Parser (List α)} :
    commaStep p k = some f ↔
      k = .symbol .comma ∧ (fun xs => do advance; return xs ++ [← p]) = f := by
  unfold commaStep
  split <;> simp_all

theorem commaStep_eq_ok_iff {xs ys : List α} {d : Cursor} :
    (do advance; return xs ++ [← p] : Parser (List α)) c = (.ok ys, d) ↔
      ∃ a, p c.advance = (.ok a, d) ∧ ys = xs ++ [a] := by
  simp

theorem Commas.concat {ks js : List TokenKind} {as : List α} {a : α} (h : Commas P ks as)
    (ha : P js a) : Commas P (ks ++ .symbol .comma :: js) (as ++ [a]) := by
  induction h with
  | one hb => exact .more hb (.one ha)
  | more hb _ ih => simpa using Commas.more hb ih

theorem commaStep_extends (hp : Reads n p P stop) :
    StepsExtend n (commaStep p) (Commas P) stop := by
  intro xs ys c d f hc hk hf
  rcases commaStep_eq_some_iff.1 hk with ⟨hcomma, rfl⟩
  rcases commaStep_eq_ok_iff.1 hf with ⟨a, ha, rfl⟩
  have hread := hc.passes_advance (by rw [hcomma]; simp)
  rcases hp.sound (hread.within hc) ha with ⟨ks, hks, hPa, hstop⟩
  rw [hcomma] at hread
  exact ⟨_, List.cons_ne_nil _ _, hread.trans hks, hstop, fun ls hxs => hxs.concat hPa⟩

theorem loops_of_commas (hp : Reads n p P stop) (hcomma : stop (.symbol .comma))
    (hc : c.Within n) {ks : List TokenKind} {as : List α} (h : Commas P ks as)
    (hks : c.Passes ks c') (hstop : stop c'.current.kind)
    (helse : c'.current.kind ≠ .keyword .elseWord) (hne : c'.current.kind ≠ .symbol .comma)
    (xs : List α) :
    ∃ a d, p c = (.ok a, d) ∧ Loops (commaStep p) (xs ++ [a]) d (xs ++ as) c' := by
  induction h generalizing c xs with
  | one ha =>
    exact ⟨_, c', hp.complete hc hks ha hstop helse, .done (commaStep_eq_none_iff.2 hne)⟩
  | @more ks js a as ha _ ih =>
    -- the first phrase is read by `p`, and the loop takes over at the comma behind it
    rcases passes_append_iff.1 hks with ⟨d, hd, hrest⟩
    rcases passes_cons_iff.1 hrest with ⟨-, hkind, hjs⟩
    have hdw := hd.within hc
    have hread := (hdw.passes_advance (by rw [hkind]; simp)).within hdw
    rcases ih hread hjs (xs ++ [a]) with ⟨b, e, hb, hloop⟩
    refine ⟨a, d, hp.complete hc hd ha (hkind ▸ hcomma) (by rw [hkind]; simp), ?_⟩
    have hstep := commaStep_eq_ok_iff.2 ⟨b, hb, (rfl : (xs ++ [a]) ++ [b] = _)⟩
    apply Loops.step (commaStep_eq_some_iff.2 ⟨hkind, rfl⟩) hstep
    simpa using hloop

-- One or more phrases with commas between them.
theorem commas_reads (hp : Reads n p P stop) (hcomma : stop (.symbol .comma)) :
    Reads n (do loop (commaStep p) [← p]) (Commas P)
      (fun k => stop k ∧ k ≠ .symbol .comma) := by
  have hnext := commaStep_extends hp
  constructor
  · intro c as c' hc h
    rcases bind_eq_ok_iff.1 h with ⟨a, d, ha, h⟩
    rcases hp.sound hc ha with ⟨ks, hks, hPa, hstop⟩
    rcases loop_sound hnext (hks.within hc) h (.one hPa) hstop with ⟨js, hjs, has, hend, hk⟩
    exact ⟨ks ++ js, hks.trans hjs, has, hend, commaStep_eq_none_iff.1 hk⟩
  · intro c ks as c' hc hks has h helse
    rcases h with ⟨hstop, hne⟩
    rcases loops_of_commas hp hcomma hc has hks hstop helse hne [] with ⟨a, d, ha, h⟩
    rcases hp.sound hc ha with ⟨js, hjs, -⟩
    exact bind_eq_ok_iff.2 ⟨a, d, ha, (loop_eq_ok_iff hnext.stepsRead (hjs.within hc)).2 h⟩

/-- Phrases with commas between them, up to and including the sign that closes them. -/
def itemsUntil (p : Parser α) (close : Symbol) : Parser (List α) := do
  if ← eat (.symbol close) then
    return []
  else
    let xs ← (do loop (commaStep p) [← p])
    let _ ← expect (.symbol close)
    return xs

theorem itemsUntil_eq_ok_iff (hp : Reads n p P stop) (hcomma : stop (.symbol .comma))
    {close : Symbol} (hclose : stop (.symbol close)) (hne : close ≠ .comma)
    (hstart : ∀ {ks a}, P ks a → ∃ k js, ks = k :: js ∧ k ≠ .symbol close) (hc : c.Within n)
    {as : List α} :
    itemsUntil p close c = (.ok as, c') ↔
      ∃ ks, c.Passes (ks ++ [.symbol close]) c' ∧ Items P ks as := by
  have hcommas := commas_reads hp hcomma
  unfold itemsUntil
  rw [eat_bind_eq_ok_iff hc (plain_symbol close)]
  apply Iff.intro
  · intro h
    rcases h with ⟨d, hd, h⟩ | ⟨-, h⟩
    · rcases pure_eq_ok_iff.1 h with ⟨rfl, rfl⟩
      exact ⟨[], hd, .none⟩
    · rcases bind_eq_ok_iff.1 h with ⟨bs, d, hbs, h⟩
      rcases hcommas.sound hc hbs with ⟨ks, hks, hPs, -⟩
      rcases (expect_bind_eq_ok_iff (hks.within hc) (plain_symbol close)).1 h with ⟨e, he, h⟩
      rcases pure_eq_ok_iff.1 h with ⟨rfl, rfl⟩
      exact ⟨ks, hks.trans he, .some hPs⟩
  · intro h
    rcases h with ⟨ks, hks, h⟩
    rcases passes_append_iff.1 hks with ⟨d, hd, hlast⟩
    cases h with
    | none =>
      rcases passes_nil_iff.1 hd with rfl
      exact .inl ⟨c', hlast, pure_eq_ok_iff.2 ⟨rfl, rfl⟩⟩
    | some h =>
      right
      have hkind := hlast.current_kind
      refine ⟨?_, bind_eq_ok_iff.2 ⟨as, d, hcommas.complete hc hd h ?_ (by rw [hkind]; simp), ?_⟩⟩
      · -- the first phrase does not start with the sign that closes the list
        obtain ⟨k, js, rfl, hk⟩ : ∃ k js, ks = k :: js ∧ k ≠ .symbol close := by
          cases h with
          | one ha => exact hstart ha
          | more ha _ =>
            rcases hstart ha with ⟨k, js, rfl, hk⟩
            exact ⟨k, _, rfl, hk⟩
        rw [hd.current_kind]
        exact hk
      · rw [hkind]
        exact ⟨hclose, fun h => hne (TokenKind.symbol.inj h)⟩
      · exact (expect_bind_eq_ok_iff (hd.within hc) (plain_symbol close)).2
          ⟨c', hlast, pure_eq_ok_iff.2 ⟨rfl, rfl⟩⟩

end

theorem exprList_eq (expr : Parser Expr) (close : Symbol) :
    Grammar.exprList expr close = itemsUntil expr close := by
  refine congrArg (eat (.symbol close) >>= ·) (funext fun b => ?_)
  cases b with
  | true => rfl
  | false => exact (bind_assoc expr (fun a => loop (commaStep expr) [a]) _).symm

theorem params_eq :
    Grammar.params = (do let _ ← expect (.symbol .lparen); itemsUntil Grammar.name .rparen) := by
  refine congrArg (expect (.symbol .lparen) >>= ·) (funext fun _ => ?_)
  refine congrArg (eat (.symbol .rparen) >>= ·) (funext fun b => ?_)
  cases b with
  | true => rfl
  | false => exact (bind_assoc Grammar.name (fun a => loop (commaStep Grammar.name) [a]) _).symm

-- The parser for names.
theorem name_reads (n : Nat) : Reads n Grammar.name Name (fun _ => True) := by
  unfold Grammar.name
  constructor
  · intro c x c' hc h
    rw [kind_bind] at h
    cases hk : c.current.kind with
    | ident y =>
      rw [hk] at h
      rcases pure_eq_ok_iff.1 h with ⟨rfl, rfl⟩
      exact ⟨_, hk ▸ hc.passes_advance (by simp [hk]), .ident x, trivial⟩
    | illegal _ | eof | int _ | str _ | symbol _ | keyword _ =>
      rw [hk] at h
      exact absurd h unexpected_ne_ok
  · intro c _ x c' hc hks h _ _
    rcases h with ⟨_⟩
    rcases (hc.passes_single_iff (by simp)).1 hks with ⟨hk, rfl⟩
    rw [kind_bind, hk]
    rfl

theorem params_eq_ok_iff {c c' : Cursor} (hc : c.Within n) {xs : List String} :
    Grammar.params c = (.ok xs, c') ↔
      ∃ ks, c.Passes (.symbol .lparen :: ks ++ [.symbol .rparen]) c' ∧ Items Name ks xs := by
  rw [params_eq, expect_bind_eq_ok_iff hc (plain_symbol .lparen)]
  have hitems {d : Cursor} (hd : d.Within n) :
      itemsUntil Grammar.name .rparen d = (.ok xs, c') ↔
        ∃ ks, d.Passes (ks ++ [.symbol .rparen]) c' ∧ Items Name ks xs :=
    itemsUntil_eq_ok_iff (name_reads n) trivial trivial (by decide)
      (fun h => by cases h; exact ⟨_, _, rfl, by simp⟩) hd
  apply Iff.intro
  · intro h
    rcases h with ⟨d, hd, h⟩
    rcases (hitems (hd.within hc)).1 h with ⟨ks, hks, hxs⟩
    exact ⟨ks, hd.trans hks, hxs⟩
  · intro h
    rcases h with ⟨ks, hks, hxs⟩
    rcases passes_cons_iff_exists.1 hks with ⟨d, hd, hrest⟩
    exact ⟨d, hd, (hitems (hd.within hc)).2 ⟨ks, hrest, hxs⟩⟩

/-! ## 2. Operations -/

/-- The tokens that end an operand. -/
def endsPostfix (k : TokenKind) : Prop := k ≠ .symbol .lparen ∧ k ≠ .symbol .lbracket

/-- The tokens that end the operations of one level, if those of the class `stop` end an operand. -/
def endsLevel (ops : List (Symbol × BinaryOp)) (stop : TokenKind → Prop) (k : TokenKind) : Prop :=
  stop k ∧ ∀ p ∈ ops, k ≠ .symbol p.1

instance : DecidablePred endsPostfix := fun _ => inferInstanceAs (Decidable (_ ∧ _))

instance (ops : List (Symbol × BinaryOp)) (stop : TokenKind → Prop) [DecidablePred stop] :
    DecidablePred (endsLevel ops stop) := fun _ => inferInstanceAs (Decidable (_ ∧ _))

/-- The parser's table of one level. -/
def Lists (op? : TokenKind → Option BinaryOp) (ops : List (Symbol × BinaryOp)) : Prop :=
  ∀ k op, op? k = some op ↔ ∃ s, k = .symbol s ∧ (s, op) ∈ ops

section

variable {op? : TokenKind → Option BinaryOp} {ops : List (Symbol × BinaryOp)}
  {operand : Parser Expr} {P : Language Expr} {stop : TokenKind → Prop} {c c' : Cursor}

theorem Lists.eq_none_iff (hop : Lists op? ops) {k : TokenKind} :
    op? k = none ↔ ∀ p ∈ ops, k ≠ .symbol p.1 := by
  apply Iff.intro
  · intro h h' hs h''
    rcases h' with ⟨s, op⟩
    subst h''
    have := (hop (.symbol s) op).2 ⟨s, rfl, hs⟩
    simp [h] at this
  · intro h
    cases hk : op? k with
    | none => rfl
    | some op =>
      rcases (hop k op).1 hk with ⟨s, rfl, hs⟩
      exact absurd rfl (h (s, op) hs)

-- The loop behind the first operand of a level.
def leftStep (op? : TokenKind → Option BinaryOp) (operand : Parser Expr) :
    TokenKind → Option (Expr → Parser Expr) :=
  fun k => (op? k).map fun op left => do advance; return .binary op left (← operand)

theorem leftStep_eq_none_iff (hop : Lists op? ops) {k : TokenKind} :
    leftStep op? operand k = none ↔ ∀ p ∈ ops, k ≠ .symbol p.1 := by
  rw [← hop.eq_none_iff]
  simp [leftStep]

theorem leftStep_eq_ok_iff {op : BinaryOp} {a b : Expr} {d : Cursor} :
    (do advance; return .binary op a (← operand) : Parser Expr) c = (.ok b, d) ↔
      ∃ e, operand c.advance = (.ok e, d) ∧ b = .binary op a e := by
  simp

theorem leftStep_extends (hop : Lists op? ops) (hp : Reads n operand P stop) :
    StepsExtend n (leftStep op? operand) (LeftAssoc ops P) stop := by
  intro a b c d f hc hk hf
  rcases Option.map_eq_some_iff.1 hk with ⟨op, hop?, rfl⟩
  rcases (hop _ op).1 hop? with ⟨s, hs, hmem⟩
  rcases leftStep_eq_ok_iff.1 hf with ⟨e, he, rfl⟩
  have hread := hc.passes_advance (by rw [hs]; simp)
  rcases hp.sound (hread.within hc) he with ⟨ks, hks, hPe, hstop⟩
  rw [hs] at hread
  exact ⟨_, List.cons_ne_nil _ _, hread.trans hks, hstop, fun ls ha => .binary ha hmem hPe⟩

-- The operand in front is read first, and the loop takes it from there to the whole.
theorem loops_of_leftAssoc (hop : Lists op? ops) (hp : Reads n operand P stop)
    (hstop : ∀ p ∈ ops, stop (.symbol p.1)) (hc : c.Within n) {ks : List TokenKind}
    {e : Expr} (h : LeftAssoc ops P ks e) (hks : c.Passes ks c') (hend : stop c'.current.kind)
    (helse : c'.current.kind ≠ .keyword .elseWord) :
    ∃ a d, operand c = (.ok a, d) ∧
      ∀ {r x}, Loops (leftStep op? operand) e c' r x → Loops (leftStep op? operand) a d r x := by
  induction h generalizing c' with
  | operand h => exact ⟨_, c', hp.complete hc hks h hend helse, id⟩
  | @binary ks js a b s op _ hs hb ih =>
    rcases passes_append_iff.1 hks with ⟨d, hd, hrest⟩
    rcases passes_cons_iff.1 hrest with ⟨-, hkind, hjs⟩
    have hdw := hd.within hc
    have hread := (hdw.passes_advance (by rw [hkind]; simp)).within hdw
    rcases ih hd (hkind ▸ hstop (s, op) hs) (by rw [hkind]; simp) with ⟨a', d', ha', hloop⟩
    have hk : leftStep op? operand d.current.kind = some _ :=
      Option.map_eq_some_iff.2 ⟨op, (hop _ op).2 ⟨s, hkind, hs⟩, rfl⟩
    have hf := leftStep_eq_ok_iff.2
      ⟨b, hp.complete hread hjs hb hend helse, (rfl : Expr.binary op a b = _)⟩
    exact ⟨a', d', ha', fun h => hloop (.step hk hf h)⟩

-- One level of operations that group to the left.
theorem leftAssoc_reads (hop : Lists op? ops) (hp : Reads n operand P stop)
    (hstop : ∀ p ∈ ops, stop (.symbol p.1)) :
    Reads n (Grammar.leftAssoc op? operand) (LeftAssoc ops P) (endsLevel ops stop) := by
  have hnext := leftStep_extends hop hp
  constructor
  · intro c e c' hc h
    rcases bind_eq_ok_iff.1 h with ⟨a, d, ha, h⟩
    rcases hp.sound hc ha with ⟨ks, hks, hPa, hd⟩
    rcases loop_sound hnext (hks.within hc) h (.operand hPa) hd with ⟨js, hjs, he, hend, hk⟩
    exact ⟨ks ++ js, hks.trans hjs, he, hend, (leftStep_eq_none_iff hop).1 hk⟩
  · intro c ks e c' hc hks he h helse
    rcases h with ⟨hend, hk⟩
    rcases loops_of_leftAssoc hop hp hstop hc he hks hend helse with ⟨a, d, ha, hloop⟩
    rcases hp.sound hc ha with ⟨js, hjs, -⟩
    have h := hloop (.done ((leftStep_eq_none_iff hop).2 hk))
    exact bind_eq_ok_iff.2 ⟨a, d, ha, (loop_eq_ok_iff hnext.stepsRead (hjs.within hc)).2 h⟩

end

/-- The signs in front of an operand, the outermost first. -/
inductive Signs : Language (List UnaryOp)
  | nil : Signs [] []
  | cons {s op ks ops} : (s, op) ∈ unaryOps → Signs ks ops → Signs (.symbol s :: ks) (op :: ops)

theorem Signs.concat {ks : List TokenKind} {ops : List UnaryOp} (h : Signs ks ops) {s : Symbol}
    {op : UnaryOp} (hs : (s, op) ∈ unaryOps) : Signs (ks ++ [.symbol s]) (ops ++ [op]) := by
  induction h with
  | nil => exact .cons hs .nil
  | cons hs' _ ih => exact .cons hs' ih

theorem Signs.unary {E : Language Expr} {ks js : List TokenKind} {ops : List UnaryOp} {e : Expr}
    (h : Signs ks ops) (he : Unary E js e) : Unary E (ks ++ js) (ops.foldr .unary e) := by
  induction h with
  | nil => exact he
  | cons hs _ ih => exact .unary hs ih

theorem unaryOp?_eq_some_iff {k : TokenKind} {op : UnaryOp} :
    Grammar.unaryOp? k = some op ↔ ∃ s, k = .symbol s ∧ (s, op) ∈ unaryOps := by
  unfold Grammar.unaryOp?
  split <;> cases op <;> simp_all [unaryOps]

-- The loop in front of an operand.
def signStep : TokenKind → Option (List UnaryOp → Parser (List UnaryOp)) :=
  fun k => (Grammar.unaryOp? k).map fun op ops => do advance; return ops ++ [op]

theorem signStep_extends (n : Nat) : StepsExtend n signStep Signs (fun _ => True) := by
  intro ops ops' c d f hc hk hf
  rcases Option.map_eq_some_iff.1 hk with ⟨op, hop, rfl⟩
  rcases unaryOp?_eq_some_iff.1 hop with ⟨s, hs, hmem⟩
  rcases pure_eq_ok_iff.1 hf with ⟨rfl, rfl⟩
  have hread := hc.passes_advance (by rw [hs]; simp)
  rw [hs] at hread
  exact ⟨_, List.cons_ne_nil _ _, hread, trivial, fun ls h => h.concat hmem⟩

theorem signStep_eq_none_of_startsPrimary {k : TokenKind} (h : startsPrimary k = true) :
    signStep k = none := by
  unfold signStep Grammar.unaryOp?
  split
  · simp [startsPrimary] at h
  · simp [startsPrimary] at h
  · rfl

section

variable {expr : Parser Expr} {c c' : Cursor}

-- The signs are read first, and what is left is read as an operand.
theorem loops_of_unary (hp : Reads n (Grammar.postfixed expr) (Postfix Expression) endsPostfix)
    (hc : c.Within n) {ks : List TokenKind} {e : Expr} (h : Unary Expression ks e)
    (hks : c.Passes ks c') (hend : endsPostfix c'.current.kind)
    (helse : c'.current.kind ≠ .keyword .elseWord) (acc : List UnaryOp) :
    ∃ ops d x, Loops signStep acc c (acc ++ ops) d ∧
      Grammar.postfixed expr d = (.ok x, c') ∧ e = ops.foldr .unary x := by
  induction h generalizing c acc with
  | @postfixed ks e h =>
    rcases h.startsWith with ⟨k, js, rfl, hk⟩
    refine ⟨[], c, e, ?_, hp.complete hc hks h hend helse, rfl⟩
    rw [List.append_nil]
    exact .done (signStep_eq_none_of_startsPrimary (hks.current_kind ▸ hk))
  | @unary s op ks e hs _ ih =>
    rcases passes_cons_iff.1 hks with ⟨-, hkind, hrest⟩
    have hread := (hc.passes_advance (by rw [hkind]; simp)).within hc
    rcases ih hread hrest (acc ++ [op]) with ⟨ops, d, x, hloop, hx, rfl⟩
    refine ⟨op :: ops, d, x, ?_, hx, rfl⟩
    have hk : signStep c.current.kind = some _ :=
      Option.map_eq_some_iff.2 ⟨op, unaryOp?_eq_some_iff.2 ⟨s, hkind, hs⟩, rfl⟩
    have hf : (do advance; return acc ++ [op] : Parser (List UnaryOp)) c =
      (.ok (acc ++ [op]), c.advance) := rfl
    apply Loops.step hk hf
    simpa using hloop

-- An operand with the signs in front of it.
theorem unary_reads (hp : Reads n (Grammar.postfixed expr) (Postfix Expression) endsPostfix) :
    Reads n (Grammar.unary expr) (Unary Expression) endsPostfix := by
  have hnext := signStep_extends n
  constructor
  · intro c e c' hc h
    rcases bind_eq_ok_iff.1 h with ⟨ops, d, hops, h⟩
    rcases bind_eq_ok_iff.1 h with ⟨x, d', hx, h⟩
    rcases pure_eq_ok_iff.1 h with ⟨rfl, rfl⟩
    rcases loop_sound hnext hc hops .nil trivial with ⟨ks, hks, hsigns, -⟩
    rcases hp.sound (hks.within hc) hx with ⟨js, hjs, hPx, hend⟩
    exact ⟨ks ++ js, hks.trans hjs, hsigns.unary (.postfixed hPx), hend⟩
  · intro c ks e c' hc hks he hend helse
    rcases loops_of_unary hp hc he hks hend helse [] with ⟨ops, d, x, hloop, hx, rfl⟩
    have hops := (loop_eq_ok_iff hnext.stepsRead hc).2 hloop
    exact bind_eq_ok_iff.2 ⟨ops, d, hops, bind_eq_ok_iff.2 ⟨x, c', hx, rfl⟩⟩

end

end Phrase

end Monkey
