import Mathlib.Logic.Relation
import Monkey.Proofs.Session.Stages

/-!
# Chains — every way outward ends

Whoever holds scopes may make new ones, alone or inside others, bind names in them and run programs
in them, in whatever order.  A function that is bound in the scope it captured leads back to that
scope, so scopes can be reached from themselves.  Parents, however, are always older than their
children, and what is captured is always there.  So the way outward from a scope ends, and a name
has the value that the nearest scope on this way binds it to.
-/

namespace Monkey

open Relation Value

namespace Store

variable {σ τ : Store} {i : ScopeId} {ss : List Scope}

/-! ## 1. The way outward -/

/-- `Chain σ i ss`: on the way outward from scope `i` there are the scopes `ss`, the nearest
first. -/
inductive Chain (σ : Store) : ScopeId → List Scope → Prop
  | outermost {i s} : σ.scopes[i]? = some s → s.parent = none → Chain σ i [s]
  | inside {i s p ss} : σ.scopes[i]? = some s → s.parent = some p → Chain σ p ss →
      Chain σ i (s :: ss)

theorem Chain.unique (h : Chain σ i ss) {ts : List Scope} (h' : Chain σ i ts) : ts = ss := by
  induction h generalizing ts with
  | outermost hs hnone =>
    cases h' with
    | outermost hs' _ =>
      rw [hs] at hs'
      cases hs'
      rfl
    | inside hs' hp _ =>
      rw [hs] at hs'
      cases hs'
      rw [hnone] at hp
      cases hp
  | inside hs hp _ ih =>
    cases h' with
    | outermost hs' hnone =>
      rw [hs] at hs'
      cases hs'
      rw [hnone] at hp
      cases hp
    | inside hs' hp' htail =>
      rw [hs] at hs'
      cases hs'
      rw [hp] at hp'
      cases hp'
      rw [ih htail]

-- A lookup that may go as far as the chain does finds what the nearest scope binds.
theorem Chain.lookupWithin_eq (h : Chain σ i ss) (x : String) {n : Nat} (hn : ss.length ≤ n) :
    σ.lookupWithin x n i = ss.findSome? (·.bindings.get? x) := by
  induction h generalizing n with
  | @outermost i s hs hnone =>
    obtain ⟨n, rfl⟩ : ∃ k, n = k + 1 := ⟨n - 1, by simp at hn; omega⟩
    rw [lookupWithin, hs]
    cases hx : s.bindings.get? x with
    | some v => simp [hx]
    | none => simp [hx, hnone]
  | @inside i s p ss hs hp _ ih =>
    obtain ⟨n, rfl⟩ : ∃ k, n = k + 1 := ⟨n - 1, by simp at hn; omega⟩
    rw [lookupWithin, hs]
    cases hx : s.bindings.get? x with
    | some v => simp [hx]
    | none =>
      have hlength : ss.length ≤ n := Nat.le_of_succ_le_succ hn
      simp [hx, hp, ih hlength]

-- In a region the chain goes down with the numbers of the scopes.
theorem Region.exists_chain {A : ScopeId → Prop} {errors : Prop} (h : Region A errors σ)
    (hi : A i) : ∃ ss, Chain σ i ss ∧ ss.length ≤ i + 1 := by
  induction i using Nat.strongRecOn with
  | ind i ih =>
    obtain ⟨s, hs⟩ : ∃ s, σ.scopes[i]? = some s :=
      ⟨_, Array.getElem?_eq_getElem (h.lt_next hi)⟩
    cases hp : s.parent with
    | none => exact ⟨[s], .outermost hs hp, Nat.le_add_left _ _⟩
    | some p =>
      obtain ⟨hA, hlt⟩ := h.parent hi hs hp
      obtain ⟨ss, hss, hlength⟩ := ih p hlt hA
      exact ⟨s :: ss, .inside hs hp hss, Nat.succ_le_succ (Nat.le_trans hlength hlt)⟩

/-! ## 2. What may be done to a store -/

/-- One thing that is done to a store from outside. -/
inductive Step : Store → Store → Prop
  | create (σ : Store) : Step σ (σ.push none)
  | enclose {σ : Store} {i : ScopeId} : i < σ.next → Step σ (σ.push (some i))
  -- A scope is held by its number, so who shares it changes nothing.
  | share (σ : Store) : Step σ σ
  -- A function or a macro can only be made over a scope that is there.
  | bind {σ : Store} {i : ScopeId} (x : String) {v : Value} : i < σ.next →
      v.Fits (· < σ.next) True → Step σ (σ.define i x v)
  | run {m m' : Machine} {n : Nat} {i : ScopeId} {p : Program} {v : Value} : i < m.store.next →
      Eval.program n i p m = some (v, m') → Step m.store m'.store
  | defineMacros {m : Machine} {i : ScopeId} (p : Program) : i < m.store.next →
      Step m.store (m.defineMacros i p).store
  | expandMacros {m m' : Machine} {n : Nat} {i : ScopeId} {p : Program}
      {r : Except EvalError Program} : i < m.store.next →
      Eval.expandMacros n i p m = some (r, m') → Step m.store m'.store

-- No more than one scope that was there is written.
theorem Step.frame (h : Step σ τ) : ∃ i, Frame i σ τ := by
  cases h with
  | create | enclose _ => exact ⟨0, (push_extends σ _).frame 0⟩
  | share => exact ⟨0, (Extends.refl σ).frame 0⟩
  | bind x _ _ => exact ⟨_, define_frame σ _ x _⟩
  | run _ hp => exact ⟨_, Eval.program_frame hp⟩
  | defineMacros p _ => exact ⟨_, Machine.defineMacros_frame _ _ p⟩
  | expandMacros _ hr => exact ⟨0, (Eval.expandMacros_extends hr).frame 0⟩

theorem Frame.parent_eq (h : Frame i σ τ) {j : ScopeId} {s : Scope}
    (hs : σ.scopes[j]? = some s) : ∃ s', τ.scopes[j]? = some s' ∧ s'.parent = s.parent := by
  by_cases hj : j = i
  · subst hj
    obtain ⟨s', hs', hparent, -⟩ := h.own s hs
    exact ⟨s', hs', hparent⟩
  · exact ⟨s, by rw [h.scopes_eq j (lt_next_of_getElem? hs) hj, hs], rfl⟩

-- A scope keeps its parent, whatever is done.
theorem parent_eq_of_steps (h : ReflTransGen Step σ τ) {s : Scope}
    (hs : σ.scopes[i]? = some s) : ∃ s', τ.scopes[i]? = some s' ∧ s'.parent = s.parent := by
  induction h with
  | refl => exact ⟨s, hs, rfl⟩
  | tail _ hstep ih =>
    obtain ⟨s₁, hs₁, hparent₁⟩ := ih
    obtain ⟨j, hframe⟩ := hstep.frame
    obtain ⟨s₂, hs₂, hparent₂⟩ := hframe.parent_eq hs₁
    exact ⟨s₂, hs₂, hparent₂.trans hparent₁⟩

/-! ## 3. Nothing leads out of a store -/

/-- All scopes of the store are a region. -/
def Closed (σ : Store) : Prop := Region (· < σ.next) True σ

theorem closed_empty : Closed empty := by
  have hnext (i : ScopeId) : ¬ i < empty.next := Nat.not_lt_zero i
  constructor
  · exact fun hi => absurd hi (hnext _)
  · exact fun hi => absurd hi (hnext _)
  · exact fun hi => absurd hi (hnext _)

-- The scopes of a machine, with those that were made since, are all that there are.
theorem grown_all_iff {j : ScopeId} : grown (· < i) i σ j ↔ j < σ.next := by
  show j < σ.next ∧ (i ≤ j ∨ j < i) ↔ j < σ.next
  exact and_iff_left (Nat.lt_or_ge j i).symm

theorem Closed.push (h : Closed σ) {parent : Option ScopeId}
    (hparent : ∀ p, parent = some p → p < σ.next) : Closed (σ.push parent) := by
  refine (Region.push h hparent).congr fun j => ?_
  show j = σ.next ∨ j < σ.next ↔ j < (σ.push parent).next
  rw [next_push, or_comm]
  exact Nat.lt_succ_iff_lt_or_eq.symm

theorem Closed.step (h : Closed σ) (hstep : Step σ τ) : Closed τ := by
  cases hstep with
  | create => exact h.push nofun
  | enclose hi => exact h.push fun p hp => Option.some.inj hp ▸ hi
  | share => exact h
  | @bind _ i x v hi hv =>
    refine (Region.define h x hv).congr fun j => ?_
    rw [next_define]
  | run hi hp => exact (Contract.program_region h hi hp).congr fun j => grown_all_iff
  | @defineMacros m i p hi =>
    refine (Machine.defineMacros_region h hi p).congr fun j => ?_
    rw [Machine.next_defineMacros]
  | expandMacros hi hr => exact (Contract.expandMacros_region h hi hr).congr fun j => grown_all_iff

theorem closed_of_steps (h : ReflTransGen Step empty σ) : Closed σ := by
  induction h with
  | refl => exact closed_empty
  | tail _ hstep ih => exact ih.step hstep

-- What a run comes to captures scopes that are there, so it may be bound in turn.
theorem Closed.program_fits {m m' : Machine} (h : Closed m.store) {n : Nat} {p : Program}
    {v : Value} (hi : i < m.store.next) (hp : Eval.program n i p m = some (v, m')) :
    v.Fits (· < m'.store.next) True := by
  rw [Eval.program_eq] at hp
  obtain ⟨⟨r, m₁⟩, hr, heq⟩ := Option.map_eq_some_iff.1 hp
  obtain ⟨rfl, rfl⟩ := Prod.mk.inj heq
  have hfits {w : Value} (hw : r = .ok w ∨ r = .error (.returned w)) :
      w.Fits (· < m₁.store.next) True :=
    (Contract.stmts_region h hi hr hw).mono fun j => grown_all_iff.1
  cases r with
  | ok w => exact hfits (.inl rfl)
  | error s =>
    cases s with
    | returned w => exact hfits (.inr rfl)
    | failed e => exact fits_error_iff.2 trivial

/-- **Every scope chain ends.**  In a store that anything has been done to, each parent is older
than its child and stays its parent whatever is done from then on; each function and macro that is
bound, or is held by what is bound, and each that a run comes to, has captured a scope that is
there.  From every scope there is just one chain outward, and a lookup, which ends with the chain at
the latest, comes to what the nearest scope on it binds, or to nothing if none does. -/
theorem scope_chains_end (h : ReflTransGen Step empty σ) :
    (∀ (i p : ScopeId) (s : Scope), σ.scopes[i]? = some s → s.parent = some p → p < i) ∧
    (∀ τ, ReflTransGen Step σ τ → ∀ (i : ScopeId) (s : Scope), σ.scopes[i]? = some s →
      ∃ s', τ.scopes[i]? = some s' ∧ s'.parent = s.parent) ∧
    (∀ (i j : ScopeId) (s : Scope) b w, σ.scopes[i]? = some s → b ∈ s.bindings → Part w b.2 →
      w.captured? = some j → j < σ.next) ∧
    (∀ m n i p v m' w j, m.store = σ → i < σ.next → Eval.program n i p m = some (v, m') →
      Part w v → w.captured? = some j → j < m'.store.next) ∧
    (∀ i < σ.next, ∃ ss, (∀ ts, Chain σ i ts ↔ ts = ss) ∧
      (∀ x, σ.lookup i x = ss.findSome? (·.bindings.get? x)) ∧
      ∀ x n, ss.length ≤ n → σ.lookupWithin x n i = σ.lookup i x) := by
  have hclosed := closed_of_steps h
  refine ⟨?_, ?_, ?_, ?_, ?_⟩
  · intro i p s hs hp
    exact (hclosed.parent (lt_next_of_getElem? hs) hs hp).2
  · intro τ hsteps i s hs
    exact parent_eq_of_steps hsteps hs
  · intro i j s b w hs hb hw hj
    exact (hclosed.fits (lt_next_of_getElem? hs) hs hb w hw).1 j hj
  · intro m n i p v m' w j hm hi hp hw hj
    subst hm
    exact (hclosed.program_fits hi hp w hw).1 j hj
  · intro i hi
    obtain ⟨ss, hchain, hlength⟩ := hclosed.exists_chain hi
    have hlookup (x : String) : σ.lookup i x = ss.findSome? (·.bindings.get? x) :=
      hchain.lookupWithin_eq x hlength
    refine ⟨ss, fun ts => ⟨hchain.unique, fun hts => hts ▸ hchain⟩, hlookup, fun x n hn => ?_⟩
    rw [hchain.lookupWithin_eq x hn, hlookup]

/-- Scope 1 lies inside scope 0, where `g` is bound to a function that has captured scope 1. -/
def knot : Store :=
  ⟨#[⟨[("f", .fn 0 ⟨[], [.expr (.fn [] [])], 0⟩), ("g", .fn 1 ⟨[], [], 1⟩)], none⟩, ⟨[], some 0⟩]⟩

/-- Though the two scopes reach each other, the chain from scope 1 ends. -/
theorem knot_chain_ends : ReflTransGen Step empty knot ∧
    ∃ ss, (∀ ts, Chain knot 1 ts ↔ ts = ss) ∧
      (∀ x, knot.lookup 1 x = ss.findSome? (·.bindings.get? x)) ∧
      ∀ x n, ss.length ≤ n → knot.lookupWithin x n 1 = knot.lookup 1 x := by
  let p : Program := [.bind "f" (.fn [] [.expr (.fn [] [])]), .bind "g" (.call (.ident "f") [])]
  have hrun : Eval.program 3 0 p ⟨empty.push none, 0, .silent⟩ =
      some (.null, ⟨knot, 2, .silent⟩) := rfl
  have hsteps : ReflTransGen Step empty knot :=
    (ReflTransGen.single (.create empty)).tail (Step.run (Nat.lt_succ_self 0) hrun)
  exact ⟨hsteps, (scope_chains_end hsteps).2.2.2.2 1 (by decide)⟩

end Store

end Monkey
