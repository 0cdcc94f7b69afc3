import Monkey.Proofs.Run.Evaluator
import Monkey.Proofs.Run.Lookup

/-!
# Frames — only the current scope can be written

A store only grows.  What is evaluated in a scope may bind names there and make new scopes, and all
other scopes stay as they were.  A call does not even bind a name where it is made.
-/

namespace Monkey

namespace Store

/-! ## 1. How a store may change -/

variable {i : ScopeId} {σ τ ρ : Store}

/-- Every scope is still there and as it was. -/
structure Extends (σ τ : Store) : Prop where
  next_le : σ.next ≤ τ.next
  scopes_eq : ∀ j < σ.next, τ.scopes[j]? = σ.scopes[j]?

/-- Every scope but `i` is as it was, and `i` has the same parent and binds the names it did. -/
structure Frame (i : ScopeId) (σ τ : Store) : Prop where
  next_le : σ.next ≤ τ.next
  scopes_eq : ∀ j < σ.next, j ≠ i → τ.scopes[j]? = σ.scopes[j]?
  own : ∀ s, σ.scopes[i]? = some s → ∃ s', τ.scopes[i]? = some s' ∧ s'.parent = s.parent ∧
    ∀ x, (s.bindings.get? x).isSome → (s'.bindings.get? x).isSome

theorem Extends.frame (h : Extends σ τ) (i : ScopeId) : Frame i σ τ where
  next_le := h.next_le
  scopes_eq j hj _ := h.scopes_eq j hj
  own s hs := ⟨s, by rw [h.scopes_eq i (lt_next_of_getElem? hs), hs], rfl, fun _ hx => hx⟩

-- What leaves a scope alone that is not there leaves all scopes alone.
theorem Frame.extends (h : Frame i σ τ) (hi : σ.next ≤ i) : Extends σ τ where
  next_le := h.next_le
  scopes_eq j hj := h.scopes_eq j hj (Nat.ne_of_lt (Nat.lt_of_lt_of_le hj hi))

theorem Extends.refl (σ : Store) : Extends σ σ := ⟨Nat.le_refl _, fun _ _ => rfl⟩

theorem Extends.trans (h : Extends σ τ) (h' : Extends τ ρ) : Extends σ ρ where
  next_le := Nat.le_trans h.next_le h'.next_le
  scopes_eq j hj := by
    rw [h'.scopes_eq j (Nat.lt_of_lt_of_le hj h.next_le), h.scopes_eq j hj]

theorem Frame.trans (h : Frame i σ τ) (h' : Frame i τ ρ) : Frame i σ ρ where
  next_le := Nat.le_trans h.next_le h'.next_le
  scopes_eq j hj hne := by
    rw [h'.scopes_eq j (Nat.lt_of_lt_of_le hj h.next_le) hne, h.scopes_eq j hj hne]
  own s hs := by
    rcases h.own s hs with ⟨s₁, hs₁, hparent₁, hbound₁⟩
    rcases h'.own s₁ hs₁ with ⟨s₂, hs₂, hparent₂, hbound₂⟩
    exact ⟨s₂, hs₂, hparent₂.trans hparent₁, fun x hx => hbound₂ x (hbound₁ x hx)⟩

-- What was found is still found: the scopes on the way to it are as they were.
theorem Extends.lookup_eq_some (h : Extends σ τ) {x : String} {v : Value}
    (hv : σ.lookup i x = some v) : τ.lookup i x = some v := by
  have hwithin (n : Nat) (j : ScopeId) (hv : σ.lookupWithin x n j = some v) :
      τ.lookupWithin x n j = some v := by
    induction n generalizing j with
    | zero => cases hv
    | succ n ih =>
      rw [lookupWithin] at hv ⊢
      cases hs : σ.scopes[j]? with
      | none =>
        rw [hs] at hv
        cases hv
      | some s =>
        rw [h.scopes_eq j (lt_next_of_getElem? hs), hs]
        simp only [hs] at hv ⊢
        cases hx : s.bindings.get? x with
        | some w => simpa only [hx] using hv
        | none =>
          simp only [hx] at hv ⊢
          cases hp : s.parent with
          | none =>
            rw [hp] at hv
            cases hv
          | some p =>
            rw [hp] at hv
            exact ih p hv
  exact hwithin (i + 1) i hv

theorem push_extends (σ : Store) (parent : Option ScopeId) : Extends σ (σ.push parent) where
  next_le := by
    rw [next_push]
    exact Nat.le_succ _
  scopes_eq j hj := σ.getElem?_push_of_lt hj parent

-- Insertion drops no key.
theorem isSome_get?_insert {t : Table String Value} {x y : String} {v : Value}
    (h : (t.get? y).isSome) : ((t.insert x v).get? y).isSome := by
  by_cases hy : y = x
  · rw [hy, Table.get?_insert_self]
    rfl
  · rw [Table.get?_insert_of_ne hy]
    exact h

theorem define_frame (σ : Store) (i : ScopeId) (x : String) (v : Value) :
    Frame i σ (σ.define i x v) where
  next_le := Nat.le_of_eq (σ.next_define i x v).symm
  scopes_eq j _ hne := σ.getElem?_define_of_ne hne x v
  own s hs := by
    have hs' := σ.getElem?_define_self i x v
    rw [hs] at hs'
    exact ⟨_, hs', rfl, fun _ hy => isSome_get?_insert hy⟩

-- What is done in a new scope leaves all that were there before alone.
theorem Frame.of_push {parent : Option ScopeId} (h : Frame σ.next (σ.push parent) τ) :
    Extends σ τ where
  next_le := Nat.le_trans (push_extends σ parent).next_le h.next_le
  scopes_eq j hj := by
    have hlt := Nat.lt_of_lt_of_le hj (push_extends σ parent).next_le
    rw [h.scopes_eq j hlt (Nat.ne_of_lt hj), σ.getElem?_push_of_lt hj]

end Store

/-! ## 2. The contract -/

namespace Contract

/-- On every machine, and whatever the values are, other scopes stay as they are. -/
def frame : Contract where
  inv _ := True
  scope _ _ := True
  errors := True
  leads i m m' := Store.Frame i m.store m'.store

theorem frame_lawful : frame.Lawful where
  refl i m := (Store.Extends.refl m.store).frame i
  trans h h' := h.trans h'
  scope_mono _ _ := trivial
  takeObject i m _ := ⟨trivial, (Store.Extends.refl m.store).frame i⟩
  write i _ m _ := ⟨trivial, (Store.Extends.refl m.store).frame i⟩
  define x _ _ _ _ := ⟨trivial, Store.define_frame _ _ x _⟩
  lookup _ _ _ := fun _ _ => ⟨fun _ _ => trivial, fun _ => trivial⟩
  enter _ _ := ⟨trivial, trivial⟩
  leave i _ _ _ h := h.of_push.frame i

theorem frame_allows (m : Machine) (v : Value) : frame.Allows m v :=
  fun _ _ => ⟨fun _ _ => trivial, fun _ => trivial⟩

end Contract

/-! ## 3. Evaluation and calls -/

namespace Eval

open Contract

variable {n : Nat} {i : ScopeId} {m m' : Machine}

theorem eval_frame {e : Expr} {r : Except Stop Value} (h : eval n i e m = some (r, m')) :
    m.store.Frame i m'.store :=
  (frame_lawful.evaluates n i e m trivial trivial r m' h).1.leads

theorem stmt_frame {s : Stmt} {r : Except Stop Value} (h : stmt (eval n) i s m = some (r, m')) :
    m.store.Frame i m'.store :=
  (frame_lawful.stmt (frame_lawful.evaluates n) s trivial trivial r m' h).1.leads

theorem stmts_frame {ss : List Stmt} {r : Except Stop Value}
    (h : stmts (eval n) i ss m = some (r, m')) : m.store.Frame i m'.store :=
  (frame_lawful.stmts (frame_lawful.evaluates n) ss trivial trivial r m' h).1.leads

theorem program_frame {p : Program} {v : Value} (h : program n i p m = some (v, m')) :
    m.store.Frame i m'.store :=
  (frame_lawful.program trivial trivial h).leads

-- A call keeps to the frame of a scope that is not there.
theorem apply_extends {f : Value} {args : List Value} {r : Except Stop Value}
    (h : apply (eval n) f args m = some (r, m')) : m.store.Extends m'.store := by
  have hkeeps := frame_lawful.apply (i := m.store.next) (frame_lawful.evaluates n) trivial
    (frame_allows m f) (fun v (_ : v ∈ args) => frame_allows m v)
  exact (hkeeps r m' h).1.leads.extends (Nat.le_refl _)

theorem expandMacros_extends {p : Program} {r : Except EvalError Program}
    (h : expandMacros n i p m = some (r, m')) : m.store.Extends m'.store := by
  have hfollows := frame_lawful.expandMacros (i := m.store.next) trivial trivial h
  exact hfollows.leads.extends (Nat.le_refl _)

theorem expandCall_extends {e : Expr} {r : Except Stop Expr}
    (h : expandCall (eval n) i e m = some (r, m')) : m.store.Extends m'.store := by
  have hkeeps := frame_lawful.expandCall (i := m.store.next) (j := i) (m := m) n e
    trivial trivial
  exact (hkeeps r m' h).1.leads.extends (Nat.le_refl _)

/-- **Only the current scope can be written.**  Whatever is evaluated in a scope, and however it
ends, every other scope that was there is as it was, and the scope itself has the parent and binds
the names it did.  A call of a value, and the expansion of macros, leave every scope alone. -/
theorem only_current_scope_written (n : Nat) (i : ScopeId) (m : Machine) :
    (∀ e r m', eval n i e m = some (r, m') → m.store.Frame i m'.store) ∧
      (∀ s r m', stmt (eval n) i s m = some (r, m') → m.store.Frame i m'.store) ∧
      (∀ b r m', stmts (eval n) i b m = some (r, m') → m.store.Frame i m'.store) ∧
      (∀ p v m', program n i p m = some (v, m') → m.store.Frame i m'.store) ∧
      (∀ f args r m', apply (eval n) f args m = some (r, m') → m.store.Extends m'.store) ∧
      (∀ p r m', expandMacros n i p m = some (r, m') → m.store.Extends m'.store) := by
  refine ⟨?_, ?_, ?_, ?_, ?_, ?_⟩
  · exact fun _ _ _ => eval_frame
  · exact fun _ _ _ => stmt_frame
  · exact fun _ _ _ => stmts_frame
  · exact fun _ _ _ => program_frame
  · exact fun _ _ _ _ => apply_extends
  · exact fun _ _ _ => expandMacros_extends

/-- A binding inside a call shadows the one outside, which stays as it was. -/
theorem let_in_call_shadows :
    Store.Extends ⟨#[⟨[("a", .int 1)], none⟩]⟩
      ⟨#[⟨[("a", .int 1)], none⟩, ⟨[("a", .int 2), ("b", .int 2)], some 0⟩]⟩ := by
  have hcall : apply (eval 1) (.fn 0 ⟨["b"], [.bind "a" (.ident "b"), .expr (.ident "a")], 0⟩)
      [.int 2] ⟨⟨#[⟨[("a", .int 1)], none⟩]⟩, 1, .silent⟩ = some (.ok (.int 2),
        ⟨⟨#[⟨[("a", .int 1)], none⟩, ⟨[("a", .int 2), ("b", .int 2)], some 0⟩]⟩, 1, .silent⟩) :=
    rfl
  exact (only_current_scope_written 1 0 _).2.2.2.2.1 _ _ _ _ hcall

end Eval

end Monkey
