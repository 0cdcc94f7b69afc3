import Monkey.Proofs.Run.Congruence
import Monkey.Proofs.Run.Parallel
import Monkey.Proofs.Run.Region

/-!
# Unmentioned names — what no code can look up

Code can become data and be evaluated again, so it is not enough that a program does not mention a
name.  But if no code that can be reached mentions it either, then no code ever will: whatever is
quoted, unquoted or captured is made of code that was there.  So the name is never looked up, and it
makes no difference what it is bound to.
-/

namespace Monkey

open Value

namespace Store

/-! ## 1. Stores that differ in one binding -/

/-- The stores are the same, except that scope `i` may bind the name `x` in another way. -/
structure AgreeBut (i : ScopeId) (x : String) (σ τ : Store) : Prop where
  next_eq : τ.next = σ.next
  scopes_eq : ∀ j ≠ i, τ.scopes[j]? = σ.scopes[j]?
  own : ∀ s, σ.scopes[i]? = some s → ∃ s', τ.scopes[i]? = some s' ∧ s'.parent = s.parent ∧
    ∀ y ≠ x, s'.bindings.get? y = s.bindings.get? y

variable {i j : ScopeId} {x y : String} {v : Value} {σ τ : Store}

theorem define_agreeBut (σ : Store) (i : ScopeId) (x : String) (v : Value) :
    AgreeBut i x σ (σ.define i x v) where
  next_eq := σ.next_define i x v
  scopes_eq j hj := σ.getElem?_define_of_ne hj x v
  own s hs := by
    have hs' := σ.getElem?_define_self i x v
    rw [hs] at hs'
    exact ⟨_, hs', rfl, fun y hy => Table.get?_insert_of_ne hy v s.bindings⟩

-- The same binding may be made in both.
theorem AgreeBut.define (h : AgreeBut i x σ τ) (j : ScopeId) (y : String) (v : Value) :
    AgreeBut i x (σ.define j y v) (τ.define j y v) where
  next_eq := by rw [next_define, next_define, h.next_eq]
  scopes_eq k hk := by
    by_cases hkj : k = j
    · subst hkj
      rw [getElem?_define_self, getElem?_define_self, h.scopes_eq k hk]
    · rw [getElem?_define_of_ne _ hkj, getElem?_define_of_ne _ hkj, h.scopes_eq k hk]
  own s hs := by
    by_cases hij : i = j
    · subst hij
      rw [getElem?_define_self] at hs
      obtain ⟨s₀, hs₀, rfl⟩ := Option.map_eq_some_iff.1 hs
      obtain ⟨s', hs', hparent, hget⟩ := h.own s₀ hs₀
      refine ⟨{ s' with bindings := s'.bindings.insert y v }, ?_, hparent, fun z hz => ?_⟩
      · rw [getElem?_define_self, hs', Option.map_some]
      by_cases hzy : z = y
      · rw [hzy, Table.get?_insert_self, Table.get?_insert_self]
      · rw [Table.get?_insert_of_ne hzy, Table.get?_insert_of_ne hzy, hget z hz]
    · rw [getElem?_define_of_ne _ hij] at hs ⊢
      exact h.own s hs

theorem AgreeBut.push (h : AgreeBut i x σ τ) (parent : Option ScopeId) :
    AgreeBut i x (σ.push parent) (τ.push parent) where
  next_eq := by rw [next_push, next_push, h.next_eq]
  scopes_eq j hj := by
    show (τ.scopes.push _)[j]? = (σ.scopes.push _)[j]?
    rw [Array.getElem?_push, Array.getElem?_push, h.scopes_eq j hj]
    rw [show τ.scopes.size = σ.scopes.size from h.next_eq]
  own s hs := by
    rcases getElem?_push_eq_some hs with ⟨rfl, rfl⟩ | hs
    · refine ⟨_, ?_, rfl, fun _ _ => rfl⟩
      rw [← h.next_eq, getElem?_push_next]
    · obtain ⟨s', hs', hrest⟩ := h.own s hs
      refine ⟨s', ?_, hrest⟩
      rw [getElem?_push_of_lt _ (lt_next_of_getElem? hs'), hs']

-- In any place there is no scope in both, or there are two that differ in `x` at most.
theorem AgreeBut.cases_scope (h : AgreeBut i x σ τ) (j : ScopeId) :
    (σ.scopes[j]? = none ∧ τ.scopes[j]? = none) ∨
      ∃ s s', σ.scopes[j]? = some s ∧ τ.scopes[j]? = some s' ∧ s'.parent = s.parent ∧
        ∀ y ≠ x, s'.bindings.get? y = s.bindings.get? y := by
  cases hs : σ.scopes[j]? with
  | none =>
    refine .inl ⟨rfl, ?_⟩
    rw [Array.getElem?_eq_none_iff] at hs ⊢
    exact Nat.le_trans (Nat.le_of_eq h.next_eq) hs
  | some s =>
    right
    by_cases hj : j = i
    · subst hj
      obtain ⟨s', hs', hrest⟩ := h.own s hs
      exact ⟨s, s', rfl, hs', hrest⟩
    · exact ⟨s, s, rfl, by rw [h.scopes_eq j hj, hs], rfl, fun _ _ => rfl⟩

-- Where another name is looked up, the difference is not seen.
theorem AgreeBut.lookupWithin_eq (h : AgreeBut i x σ τ) (hy : y ≠ x) (n : Nat) (j : ScopeId) :
    τ.lookupWithin y n j = σ.lookupWithin y n j := by
  have hsees (k : ScopeId) : (τ.scopes[k]?).map (fun s => (s.bindings.get? y, s.parent)) =
      (σ.scopes[k]?).map fun s => (s.bindings.get? y, s.parent) := by
    rcases h.cases_scope k with ⟨hs, hs'⟩ | ⟨s, s', hs, hs', hparent, hget⟩
    · rw [hs, hs']
    · rw [hs, hs', Option.map_some, Option.map_some, hparent, hget y hy]
  have hmap := lookupWithin_eq_map (A := fun _ => True) (τ := τ) (σ := σ) (x := y) (r := id)
    (g := id) (i := j) (fun k _ => by simpa using hsees k) (fun _ _ _ => trivial) n trivial
  rwa [Option.map_id] at hmap

end Store

open Store

namespace Simulation

variable {E base : ScopeId} {x : String} {A : ScopeId → Prop}

/-! ## 2. Two runs that differ in one binding -/

/-- Values hold the scopes of `A` and those that were made since there were `base` scopes, and no
code mentions `x`. -/
def unmentionedBounds (x : String) (A : ScopeId → Prop) (base : ScopeId) : Bounds where
  scope i := base ≤ i ∨ A i
  object _ := True
  name y := y ≠ x

/-- The machines differ at most in what scope `E` binds `x` to. -/
structure DifferAt (E : ScopeId) (x : String) (m m' : Machine) : Prop where
  store : AgreeBut E x m.store m'.store
  nextObject_eq : m'.nextObject = m.nextObject
  output_eq : m'.output = m.output

/-- Programs run in the scopes of `A` and in those made since there were `base` scopes, and mention
`x` nowhere. -/
def unmentioned (E : ScopeId) (x : String) (A : ScopeId → Prop) (base : ScopeId) : Simulation where
  ρ := .id
  name y := y ≠ x
  scope _ i := base ≤ i ∨ A i
  object _ _ := True
  related m m' := base ≤ m.store.next ∧ m.store.Sealed (unmentionedBounds x A base) ∧
    DifferAt E x m m'

theorem unmentioned_lawful : (unmentioned E x A base).Lawful where
  object_injective _ _ h := h
  scope_mono _ h := h
  object_mono _ h := h
  takeObject := by
    rintro m m' ⟨hbase, hsealed, hdiffer⟩
    refine ⟨⟨hbase, hsealed, hdiffer.store, ?_, hdiffer.output_eq⟩, trivial, hdiffer.nextObject_eq⟩
    exact congrArg (· + 1) hdiffer.nextObject_eq
  write := by
    rintro m m' text ⟨hbase, hsealed, hdiffer⟩
    refine ⟨hbase, hsealed, hdiffer.store, hdiffer.nextObject_eq, ?_⟩
    exact congrArg (·.write text) hdiffer.output_eq
  define := by
    rintro m m' i y v ⟨hbase, hsealed, hdiffer⟩ _ hv
    refine ⟨Nat.le_trans hbase (m.grows_define i y v).scopes, hsealed.define i y hv, ?_,
      hdiffer.nextObject_eq, hdiffer.output_eq⟩
    show AgreeBut E x (m.store.define i y v) (m'.store.define i y (v.rename .id))
    rw [rename_id]
    exact hdiffer.store.define i y v
  lookup := by
    rintro m m' i y ⟨-, hsealed, hdiffer⟩ hi hy
    refine ⟨?_, fun v hv => hsealed.within_of_lookupWithin hi hv⟩
    show m'.store.lookup i y = (m.store.lookup i y).map (Value.rename .id)
    rw [rename_id_eq, Option.map_id]
    exact hdiffer.store.lookupWithin_eq hy (i + 1) i
  enter := by
    rintro m m' i ⟨hbase, hsealed, hdiffer⟩ hi
    refine ⟨⟨?_, ?_, ?_, hdiffer.nextObject_eq, hdiffer.output_eq⟩, .inl hbase,
      hdiffer.store.next_eq⟩
    · exact Nat.le_trans hbase (m.grows_pushScope (some i)).scopes
    · exact hsealed.push fun p hp => Option.some.inj hp ▸ hi
    · exact hdiffer.store.push (some i)

end Simulation

namespace Eval

open Monkey.Expr Simulation

variable {E : ScopeId} {x : String} {m : Machine}

theorem names_ne_iff {e : Expr} : e.Names (· ≠ x) ↔ ¬ Inside (.ident x) e := by
  apply Iff.intro
  · exact fun h hx => h _ hx x rfl rfl
  · rintro h d hd y rfl rfl
    exact h hd

/-- **A name that is not mentioned has no influence.**  Suppose that neither the program nor the
code of any value that can be reached from the scope it runs in evaluates the name `x`, be it in a
function, in a macro or in what is quoted.  If `x` is bound in this scope to anything, the program
still ends or does not, comes to the same value or error and prints the same, and the bindings that
it leaves are the same as well, but for that of `x` in this scope. -/
theorem unmentioned_name_has_no_influence {p : Program} (hp : ∀ s ∈ p, ¬ Inside (.ident x) s.value)
    (hcode : ∀ j s b w e, m.store.Reaches E j → m.store.scopes[j]? = some s → b ∈ s.bindings →
      Part w b.2 → e ∈ w.code → ¬ Inside (.ident x) e) (n : Nat) (v : Value) :
    (program n E p m = none ∧ program n E p (m.define E x v) = none) ∨
      ∃ u m₁ m₂, program n E p m = some (u, m₁) ∧ program n E p (m.define E x v) = some (u, m₂) ∧
        DifferAt E x m₁ m₂ := by
  have hlawful := @unmentioned_lawful E m.store.next x (m.store.Reaches E)
  have hsealed : m.store.Sealed (unmentionedBounds x (m.store.Reaches E) m.store.next) := by
    have hreaches {j : ScopeId} {s : Scope} (hj : m.store.next ≤ j ∨ m.store.Reaches E j)
        (hs : m.store.scopes[j]? = some s) : m.store.Reaches E j :=
      hj.resolve_left (Nat.not_le.2 (lt_next_of_getElem? hs))
    constructor
    · intro j s p hj hs hp
      exact .inr (.parent (hreaches hj hs) hs hp)
    · intro j s b hj hs hb w hw
      refine ⟨fun k hk => .inr ?_, fun _ _ => trivial, fun e he => names_ne_iff.2 ?_⟩
      · exact .captured (hreaches hj hs) hs hb hw hk
      · exact hcode j s b w e (hreaches hj hs) hs hb hw he
  have hrelated : (unmentioned E x (m.store.Reaches E) m.store.next).related m (m.define E x v) :=
    ⟨Nat.le_refl _, hsealed, define_agreeBut m.store E x v, rfl, rfl⟩
  have hstmts := hlawful.stmts (hlawful.simulates n) (fun s hs => names_ne_iff.2 (hp s hs))
    hrelated (.inr (.refl E))
  rw [program_eq, program_eq]
  cases hstmts with
  | unfinished h h' =>
    left
    rw [h]
    exact ⟨rfl, congrArg _ h'⟩
  | @ended r r' m₁ m₁' h h' _ hdiffer hends =>
    refine .inr ⟨valueOf r, m₁, m₁', ?_, ?_, hdiffer.2.2⟩
    · rw [h, Option.map_some]
    · have hvalue : valueOf r' = valueOf r := by
        cases hends with
        | ok hvw | returned hvw =>
          obtain ⟨-, rfl⟩ := hvw
          exact rename_id _
        | failed e => rfl
      rw [← hvalue]
      exact congrArg _ h'

/-- Scope 0 binds `double` to the function that adds its argument to itself. -/
def doubling : Machine :=
  ⟨⟨#[⟨[("double", .fn 0 ⟨["a"], [.expr (.binary .add (.ident "a") (.ident "a"))], 0⟩)], none⟩]⟩,
    1, .silent⟩

theorem doubling_code {j : ScopeId} {s : Scope} {b : String × Value} {w : Value} {e : Expr}
    (hs : doubling.store.scopes[j]? = some s) (hb : b ∈ s.bindings) (hw : Part w b.2)
    (he : e ∈ w.code) : e = .binary .add (.ident "a") (.ident "a") := by
  cases j with
  | zero =>
    cases hs
    obtain rfl := List.mem_singleton.1 hb
    cases hw
    exact List.mem_singleton.1 he
  | succ j => cases hs

/-- What `b` is bound to makes no difference to a call of this function. -/
theorem double_ignores_b : ∃ m₁ m₂,
    program 3 0 [.expr (.call (.ident "double") [.int 2])] doubling = some (.int 4, m₁) ∧
      program 3 0 [.expr (.call (.ident "double") [.int 2])] (doubling.define 0 "b" .null) =
        some (.int 4, m₂) ∧ DifferAt 0 "b" m₁ m₂ := by
  have hcall : Names (· ≠ "b") (.call (.ident "double") [.int 2]) := by simp [Names]
  have hadd : Names (· ≠ "b") (.binary .add (.ident "a") (.ident "a")) := by simp [Names]
  rcases unmentioned_name_has_no_influence (E := 0) (x := "b") (m := doubling)
    (p := [.expr (.call (.ident "double") [.int 2])])
    (fun s hs => List.mem_singleton.1 hs ▸ names_ne_iff.1 hcall)
    (fun j s b w e _ hs hb hw he => doubling_code hs hb hw he ▸ names_ne_iff.1 hadd) 3 .null with
    ⟨hnone, -⟩ | ⟨u, m₁, m₂, h₁, h₂, hdiffer⟩
  · cases hnone
  · obtain rfl : .int 4 = u := congrArg Prod.fst (Option.some.inj h₁)
    exact ⟨m₁, m₂, h₁, h₂, hdiffer⟩

end Eval

end Monkey
