import Monkey.Store

/-!
# Lookups — what the way outward shows

A lookup sees of a scope just what it binds the name to and which scope lies around it.  So two
lookups find the same where they see the same, and what is found is bound in some scope on the way
outward.
-/

namespace Monkey

namespace Store

variable {σ τ : Store} {i j : ScopeId} {x : String} {v : Value} {s : Scope}

/-! ## 1. Scopes of a store -/

theorem lt_next_of_getElem? (h : σ.scopes[i]? = some s) : i < σ.next :=
  (Array.getElem?_eq_some_iff.1 h).1

-- A scope in which a name was bound has the parent it had, and one more binding at most.
theorem exists_of_getElem?_define (hs : (σ.define i x v).scopes[j]? = some s) :
    ∃ s', σ.scopes[j]? = some s' ∧ s.parent = s'.parent ∧
      ∀ b ∈ s.bindings, b = (x, v) ∨ b ∈ s'.bindings := by
  by_cases hj : j = i
  · subst hj
    rw [getElem?_define_self] at hs
    rcases Option.map_eq_some_iff.1 hs with ⟨s', hs', rfl⟩
    exact ⟨s', hs', rfl, fun b hb => Table.mem_insert hb⟩
  · rw [σ.getElem?_define_of_ne hj] at hs
    exact ⟨s, hs, rfl, fun b hb => .inr hb⟩

-- A scope of a store with a new scope is the new one or was there before.
theorem getElem?_push_eq_some {parent : Option ScopeId}
    (hs : (σ.push parent).scopes[j]? = some s) :
    j = σ.next ∧ s = ⟨[], parent⟩ ∨ σ.scopes[j]? = some s := by
  have hlt := lt_next_of_getElem? hs
  rw [next_push] at hlt
  rcases Nat.lt_succ_iff_lt_or_eq.1 hlt with hlt | rfl
  · exact .inr (by rw [← hs, σ.getElem?_push_of_lt hlt])
  · rw [getElem?_push_next] at hs
    cases hs
    exact .inl ⟨rfl, rfl⟩

/-! ## 2. Lookups -/

variable {A : ScopeId → Prop} {n : Nat}

-- A name that the scope itself binds is not looked up any further.
theorem lookup_of_binds (hs : σ.scopes[i]? = some s) (hx : s.bindings.get? x = some v) :
    σ.lookup i x = some v := by
  rw [lookup, lookupWithin, hs]
  simp only [hx]

-- What is found is bound in a scope that lies on the way outward.
theorem exists_of_lookupWithin
    (hparent : ∀ {j s p}, A j → σ.scopes[j]? = some s → s.parent = some p → A p) (hi : A i)
    (hv : σ.lookupWithin x n i = some v) :
    ∃ j s, A j ∧ σ.scopes[j]? = some s ∧ s.bindings.get? x = some v := by
  induction n generalizing i with
  | zero => cases hv
  | succ n ih =>
    rw [lookupWithin] at hv
    cases hs : σ.scopes[i]? with
    | none =>
      rw [hs] at hv
      cases hv
    | some s =>
      simp only [hs] at hv
      cases hx : s.bindings.get? x with
      | some w =>
        simp only [hx] at hv
        exact ⟨i, s, hi, hs, hx.trans hv⟩
      | none =>
        simp only [hx] at hv
        cases hp : s.parent with
        | none =>
          rw [hp] at hv
          cases hv
        | some p =>
          rw [hp] at hv
          exact ih (hparent hi hs hp) hv

-- If all that a lookup can see in one store, it sees in another under the names of `r` and with the
-- values changed by `g`, then it finds what it finds in the first, changed by `g`.
theorem lookupWithin_eq_map {r : ScopeId → ScopeId} {g : Value → Value}
    (hsees : ∀ j, A j → (τ.scopes[r j]?).map (fun t => (t.bindings.get? x, t.parent)) =
      (σ.scopes[j]?).map fun s => ((s.bindings.get? x).map g, s.parent.map r))
    (hparent : ∀ {j s p}, A j → σ.scopes[j]? = some s → s.parent = some p → A p) (n : Nat)
    (hi : A i) : τ.lookupWithin x n (r i) = (σ.lookupWithin x n i).map g := by
  induction n generalizing i with
  | zero => rfl
  | succ n ih =>
    have hi' := hsees i hi
    rw [lookupWithin, lookupWithin]
    cases hs : σ.scopes[i]? with
    | none =>
      rw [hs, Option.map_none, Option.map_eq_none_iff] at hi'
      rw [hi']
      rfl
    | some s =>
      rw [hs, Option.map_some, Option.map_eq_some_iff] at hi'
      obtain ⟨t, ht, heq⟩ := hi'
      obtain ⟨hget, hparents⟩ := Prod.mk.inj heq
      simp only [ht, hget, hparents]
      cases s.bindings.get? x with
      | some v => rfl
      | none =>
        cases hp : s.parent with
        | none => rfl
        | some p => exact ih (hparent hi hs hp)

/-! ## 3. What is bound -/

/-- Whatever is bound in any scope is of the class `P`. -/
def BindsOnly (P : Value → Prop) (σ : Store) : Prop :=
  ∀ (i : ScopeId) (s : Scope) (b : String × Value),
    σ.scopes[i]? = some s → b ∈ s.bindings → P b.2

variable {P Q : Value → Prop}

theorem bindsOnly_empty : empty.BindsOnly P := by
  intro i s b hs
  cases hs

theorem BindsOnly.imp (h : σ.BindsOnly P) (hPQ : ∀ v, P v → Q v) : σ.BindsOnly Q :=
  fun i s b hs hb => hPQ b.2 (h i s b hs hb)

theorem BindsOnly.define (h : σ.BindsOnly P) (i : ScopeId) (x : String) (hv : P v) :
    (σ.define i x v).BindsOnly P := by
  intro j s b hs hb
  obtain ⟨s', hs', -, hbindings⟩ := exists_of_getElem?_define hs
  rcases hbindings b hb with rfl | hb
  · exact hv
  · exact h j s' b hs' hb

theorem BindsOnly.push (h : σ.BindsOnly P) (parent : Option ScopeId) :
    (σ.push parent).BindsOnly P := by
  intro j s b hs hb
  rcases getElem?_push_eq_some hs with ⟨-, rfl⟩ | hs
  · cases hb
  · exact h j s b hs hb

theorem BindsOnly.of_lookup (h : σ.BindsOnly P) (hv : σ.lookup i x = some v) : P v := by
  obtain ⟨j, s, -, hs, hget⟩ :=
    exists_of_lookupWithin (A := fun _ => True) (fun _ _ _ => trivial) trivial hv
  exact h j s (x, v) hs (Table.mem_of_get? hget)

end Store

end Monkey
