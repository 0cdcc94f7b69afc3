import Mathlib.Data.List.Basic
import Monkey.Proofs.Token.Position

/-!
# Lines — where a position lies in a text

A text is cut behind each line feed.  A line and a column say how many of these pieces, and how many
characters of the next one, stand in front of a position, so they can be turned back into the offset
that they were made from.
-/

namespace Monkey

/-! ## 1. Pieces -/

/-- The pieces of a list that is cut behind each separator.  What stands behind the last separator
is a piece as well, unless there is nothing. -/
inductive Cut {α : Type} (sep : α) : List (List α) → List α → Prop
  | nil : Cut sep [] []
  | rest {body} : body ≠ [] → sep ∉ body → Cut sep [body] body
  | piece {body pieces xs} : sep ∉ body → Cut sep pieces xs →
      Cut sep ((body ++ [sep]) :: pieces) (body ++ sep :: xs)

section

variable {α : Type} {sep x : α} {pieces pieces' : List (List α)} {xs : List α}

/-- The pieces of a list that has one more element in front, which is no separator. -/
def consPiece (x : α) : List (List α) → List (List α)
  | [] => [[x]]
  | piece :: pieces => (x :: piece) :: pieces

theorem Cut.cons_sep (h : Cut sep pieces xs) : Cut sep ([sep] :: pieces) (sep :: xs) :=
  .piece List.not_mem_nil h

theorem Cut.cons (hx : x ≠ sep) (h : Cut sep pieces xs) :
    Cut sep (consPiece x pieces) (x :: xs) := by
  have hbody {body : List α} (hsep : sep ∉ body) : sep ∉ x :: body := by
    rw [List.mem_cons, not_or]
    exact ⟨hx.symm, hsep⟩
  cases h with
  | nil => exact .rest (List.cons_ne_nil x []) (hbody List.not_mem_nil)
  | rest _ hsep => exact .rest (List.cons_ne_nil x _) (hbody hsep)
  | piece hsep h => exact .piece (hbody hsep) h

theorem exists_cut (sep : α) (xs : List α) : ∃ pieces, Cut sep pieces xs := by
  induction xs with
  | nil => exact ⟨[], .nil⟩
  | cons x xs ih =>
    obtain ⟨pieces, h⟩ := ih
    by_cases hx : x = sep
    · subst hx
      exact ⟨_, h.cons_sep⟩
    · exact ⟨_, h.cons hx⟩

-- The first separator of a list is found in one place only.
theorem append_sep_inj {body body' xs' : List α} (hsep : sep ∉ body) (hsep' : sep ∉ body')
    (h : body ++ sep :: xs = body' ++ sep :: xs') : body = body' ∧ xs = xs' := by
  have hempty {body tail : List α} {xs xs' : List α} (hsep : sep ∉ body ++ tail)
      (h : sep :: xs = tail ++ sep :: xs') : tail = [] := by
    cases tail with
    | nil => rfl
    | cons y tail =>
      obtain ⟨rfl, -⟩ := List.cons.inj h
      exact absurd (by simp) hsep
  rcases List.append_eq_append_iff.1 h with ⟨tail, rfl, htail⟩ | ⟨tail, rfl, htail⟩
  · obtain rfl := hempty hsep' htail
    exact ⟨(List.append_nil body).symm, (List.cons.inj htail).2⟩
  · obtain rfl := hempty hsep htail
    exact ⟨List.append_nil body', (List.cons.inj htail).2.symm⟩

theorem Cut.unique (h : Cut sep pieces xs) (h' : Cut sep pieces' xs) : pieces = pieces' := by
  induction h generalizing pieces' with
  | nil =>
    generalize hxs : ([] : List α) = ys at h'
    cases h' with
    | nil => rfl
    | rest hne _ => exact absurd hxs.symm hne
    | piece _ _ => simp at hxs
  | @rest body hne hsep =>
    cases h' with
    | nil => exact absurd rfl hne
    | rest _ _ => rfl
    | piece _ _ => exact absurd (by simp) hsep
  | @piece body pieces xs hsep _ ih =>
    generalize hys : body ++ sep :: xs = ys at h'
    cases h' with
    | nil => simp at hys
    | rest _ hsep' => exact absurd (hys ▸ by simp) hsep'
    | piece hsep' h' =>
      obtain ⟨rfl, rfl⟩ := append_sep_inj hsep hsep' hys
      rw [ih h']

/-- A piece that its separator ends. -/
def IsEnded (sep : α) (piece : List α) : Prop := ∃ body, sep ∉ body ∧ piece = body ++ [sep]

-- A first part of a list consists of ended pieces and the beginning of the next one.
theorem Cut.exists_take {before after : List α} (h : Cut sep pieces (before ++ after)) :
    ∃ k ≤ pieces.length, ∃ body, before = (pieces.take k).flatten ++ body ∧
      (∀ piece ∈ pieces.take k, IsEnded sep piece) ∧ sep ∉ body ∧ body <+: pieces.getD k [] := by
  generalize hxs : before ++ after = xs at h
  induction h generalizing before with
  | nil =>
    obtain ⟨rfl, -⟩ := List.append_eq_nil_iff.1 hxs
    exact ⟨0, Nat.le_refl 0, [], rfl, nofun, List.not_mem_nil, List.nil_prefix⟩
  | @rest body _ hsep =>
    subst hxs
    exact ⟨0, Nat.zero_le _, before, rfl, nofun, fun h => hsep (List.mem_append_left after h),
      List.prefix_append before after⟩
  | @piece body pieces xs hsep _ ih =>
    have hinside (hbefore : before <+: body) : ∃ k ≤ ((body ++ [sep]) :: pieces).length, ∃ start,
        before = (((body ++ [sep]) :: pieces).take k).flatten ++ start ∧
        (∀ piece ∈ ((body ++ [sep]) :: pieces).take k, IsEnded sep piece) ∧ sep ∉ start ∧
        start <+: ((body ++ [sep]) :: pieces).getD k [] :=
      ⟨0, Nat.zero_le _, before, rfl, nofun, fun h => hsep (hbefore.subset h),
        hbefore.trans (List.prefix_append body [sep])⟩
    rcases List.append_eq_append_iff.1 hxs with ⟨tail, hbody, -⟩ | ⟨tail, hbefore, htail⟩
    · exact hinside ⟨tail, hbody.symm⟩
    · cases tail with
      | nil => exact hinside (by simp [hbefore])
      | cons y tail =>
        obtain ⟨rfl, hxs⟩ := List.cons.inj htail
        obtain ⟨k, hk, start, htake, hended, hstart⟩ := ih hxs.symm
        refine ⟨k + 1, Nat.succ_le_succ hk, start, ?_, ?_, hstart⟩
        · rw [hbefore, htake, List.take_succ_cons, List.flatten_cons]
          simp
        · rw [List.take_succ_cons]
          exact List.forall_mem_cons.2 ⟨⟨body, hsep, rfl⟩, hended⟩

end

/-! ## 2. Positions among the pieces -/

namespace Position

/-- In front of the position stand the pieces of the lines before it, and as many characters of its
own line as its column counts. -/
structure Locates (pieces : List (List Char)) (offset : Nat) (p : Position) : Prop where
  line_pos : 1 ≤ p.line
  column_pos : 1 ≤ p.column
  line_le : p.line - 1 ≤ pieces.length
  column_le : p.column - 1 ≤ (pieces.getD (p.line - 1) []).length
  -- The characters that the column counts are in one line.
  newline_notMem : '\n' ∉ (pieces.getD (p.line - 1) []).take (p.column - 1)
  offset_eq : offset = Lexer.byteLength (pieces.take (p.line - 1)).flatten +
    Lexer.byteLength ((pieces.getD (p.line - 1) []).take (p.column - 1))

variable {p : Position} {cs before after : List Char} {pieces : List (List Char)} {offset : Nat}

theorem foldl_next_of_notMem (h : '\n' ∉ cs) :
    cs.foldl next p = ⟨p.line, p.column + cs.length⟩ := by
  induction cs generalizing p with
  | nil => rfl
  | cons c cs ih =>
    rw [List.mem_cons, not_or] at h
    have hc : p.next c = ⟨p.line, p.column + 1⟩ := if_neg (Ne.symm h.1)
    rw [List.foldl_cons, ih h.2, hc, List.length_cons]
    show (⟨p.line, p.column + 1 + cs.length⟩ : Position) = ⟨p.line, p.column + (cs.length + 1)⟩
    rw [Nat.add_right_comm, Nat.add_assoc]

theorem foldl_next_flatten (h : ∀ piece ∈ pieces, IsEnded '\n' piece) (line : Nat) :
    pieces.flatten.foldl next ⟨line, 1⟩ = ⟨line + pieces.length, 1⟩ := by
  induction pieces generalizing line with
  | nil => rfl
  | cons piece pieces ih =>
    obtain ⟨⟨body, hbody, rfl⟩, hpieces⟩ := List.forall_mem_cons.1 h
    have hnext (column : Nat) : next ⟨line, column⟩ '\n' = ⟨line + 1, 1⟩ := if_pos rfl
    rw [List.flatten_cons, List.foldl_append, List.foldl_concat, foldl_next_of_notMem hbody, hnext,
      ih hpieces, List.length_cons, Nat.add_assoc, Nat.add_comm 1]

theorem locates_of_cut (h : Cut '\n' pieces (before ++ after)) :
    Locates pieces (Lexer.byteLength before) (before.foldl next start) := by
  obtain ⟨k, hk, body, rfl, hended, hbody, hprefix⟩ := h.exists_take
  have hposition : ((pieces.take k).flatten ++ body).foldl next start =
      ⟨k + 1, body.length + 1⟩ := by
    rw [List.foldl_append, start, foldl_next_flatten hended, foldl_next_of_notMem hbody,
      List.length_take_of_le hk]
    show (⟨1 + k, 1 + body.length⟩ : Position) = ⟨k + 1, body.length + 1⟩
    rw [Nat.add_comm, Nat.add_comm 1]
  have htake : (pieces.getD k []).take body.length = body :=
    (List.prefix_iff_eq_take.1 hprefix).symm
  rw [hposition]
  constructor
  · exact Nat.succ_le_succ (Nat.zero_le k)
  · exact Nat.succ_le_succ (Nat.zero_le _)
  · exact hk
  · exact hprefix.length_le
  · show '\n' ∉ (pieces.getD k []).take body.length
    rwa [htake]
  · show _ = Lexer.byteLength (pieces.take k).flatten +
      Lexer.byteLength ((pieces.getD k []).take body.length)
    rw [htake, Lexer.byteLength_append]

-- Behind the end of a text every offset counts as the end.
theorem after_of_le (h : Lexer.byteLength cs ≤ offset) (p : Position) :
    p.after cs offset = cs.foldl next p := by
  induction cs generalizing p offset with
  | nil => rfl
  | cons c cs ih =>
    have hsize := c.utf8Size_pos
    rw [Lexer.byteLength] at h
    obtain ⟨m, rfl⟩ : ∃ m, offset = m + 1 := Nat.exists_eq_succ_of_ne_zero (by omega)
    rw [Position.after, List.foldl_cons]
    exact ih (by omega) (p.next c)

theorem Before.irrefl (p : Position) : ¬ p.Before p := by
  unfold Before
  omega

theorem Before.asymm {p q : Position} (h : p.Before q) : ¬ q.Before p :=
  fun h' => irrefl p (h.trans h')

end Position

/-! ## 3. The positions of a text -/

namespace Span

variable {source : String} {pieces : List (List Char)} {s t : Span}

theorem locates_position (h : Cut '\n' pieces source.toList) (hs : s.AtBoundary source) :
    (s.position source).Locates pieces s.start.toNat := by
  obtain ⟨before, after, htext, hstart⟩ := hs
  rw [position_eq_foldl htext hstart, hstart]
  exact Position.locates_of_cut (htext ▸ h)

theorem position_of_le (h : source.utf8ByteSize ≤ s.start.toNat) :
    s.position source = source.toList.foldl Position.next .start :=
  Position.after_of_le (by rwa [Lexer.byteLength_toList]) _

theorem start_lt_iff_before (hs : s.AtBoundary source) (ht : t.AtBoundary source) :
    s.start < t.start ↔ (s.position source).Before (t.position source) := by
  refine ⟨position_before hs ht, ?_⟩
  intro h
  by_contra hle
  rcases UInt32.lt_or_eq_of_le (UInt32.not_lt.1 hle) with hlt | heq
  · exact h.asymm (position_before ht hs hlt)
  · rw [position, position, heq] at h
    exact Position.Before.irrefl _ h

/-- **A line and a column locate a position and keep the order.**  A text is cut behind each line
feed in one way only, and the position of a span that starts between two characters tells by these
pieces where it starts.  Behind the end of the text the position is that of the end.  Of two starts
between characters the smaller one has the earlier position, and different ones have different
positions. -/
theorem positions_locate (source : String) : ∃ pieces, Cut '\n' pieces source.toList ∧
    (∀ pieces', Cut '\n' pieces' source.toList → pieces' = pieces) ∧
    (∀ s : Span, s.AtBoundary source → (s.position source).Locates pieces s.start.toNat) ∧
    (∀ s : Span, source.utf8ByteSize ≤ s.start.toNat →
      (s.position source).Locates pieces source.utf8ByteSize ∧
      ∀ t : Span, t.start.toNat = source.utf8ByteSize → s.position source = t.position source) ∧
    ∀ s t : Span, s.AtBoundary source → t.AtBoundary source →
      (s.start < t.start ↔ (s.position source).Before (t.position source)) ∧
      (s.start ≠ t.start → s.position source ≠ t.position source) := by
  obtain ⟨pieces, hcut⟩ := exists_cut '\n' source.toList
  refine ⟨pieces, hcut, fun pieces' h => h.unique hcut, fun s => locates_position hcut, ?_, ?_⟩
  · intro s hs
    rw [position_of_le hs]
    constructor
    · rw [← Lexer.byteLength_toList]
      exact Position.locates_of_cut ((List.append_nil source.toList).symm ▸ hcut)
    · intro t ht
      rw [position_of_le (Nat.le_of_eq ht.symm)]
  · intro s t hs ht
    refine ⟨start_lt_iff_before hs ht, ?_⟩
    intro hne heq
    rcases UInt32.lt_or_lt_of_ne hne with hlt | hlt
    · exact Position.Before.irrefl _ (heq ▸ position_before hs ht hlt)
    · exact Position.Before.irrefl _ (heq ▸ position_before ht hs hlt)

/-- Behind a line feed and a letter of two bytes: one character of the second line takes five bytes
to get to, and an offset behind the end counts as six of them. -/
theorem position_behind_wide_letters :
    AtBoundary "é\näb" ⟨5, 6⟩ ∧ position ⟨5, 6⟩ "é\näb" = ⟨2, 2⟩ ∧
    Position.Locates [['é', '\n'], ['ä', 'b']] 5 ⟨2, 2⟩ ∧ "é\näb".utf8ByteSize ≤ 50 ∧
    Position.Locates [['é', '\n'], ['ä', 'b']] 6 (position ⟨50, 50⟩ "é\näb") := by
  have hcut : Cut '\n' [['é', '\n'], ['ä', 'b']] "é\näb".toList :=
    @Cut.piece _ _ ['é'] _ _ (by decide) (.rest (by decide) (by decide))
  have hstart : AtBoundary "é\näb" ⟨5, 6⟩ := ⟨['é', '\n', 'ä'], ['b'], by decide, by decide⟩
  obtain ⟨pieces, -, hunique, hlocates, hbehind, -⟩ := positions_locate "é\näb"
  obtain rfl := hunique _ hcut
  exact ⟨hstart, by decide, hlocates ⟨5, 6⟩ hstart, by decide, (hbehind ⟨50, 50⟩ (by decide)).1⟩

end Span

end Monkey
